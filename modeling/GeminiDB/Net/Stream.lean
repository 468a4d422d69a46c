import GeminiDB.Net.Recv

/-!
# Streams of packets

What is sent is received, however the packets follow each other, and what is
received does not depend on how the bytes arrive.
-/

namespace GeminiDB

open Scanner

namespace Link

/-- `send` for every packet; whether the buffer growth succeeded. -/
def sendAll : (allocs : ℕ → ℕ → Int → Bool) → List (List Bytes) → Link → Bool × Link
  | _, [], link => (true, link)
  | allocs, packet :: packets, link =>
      let r := sendAll (fun i ↦ allocs (i + 1)) packets (link.send (allocs 0) packet).2
      (link.sendGrows (allocs 0) packet && r.1, r.2)

/-- The results of `n` calls of `recv`, `none` for `NULL`. -/
def recvTimes (alloc : Int → Bool) : ℕ → Link → List (Option (List Bytes)) × Link
  | 0, link => ([], link)
  | n + 1, link =>
      let r := link.recv alloc
      let packet := match r.1 with
        | .vector req => some (req.map (BytesRef.deref r.2.input.mem))
        | _ => none
      let rest := recvTimes alloc n r.2
      (packet :: rest.1, rest.2)

theorem sendAll_content (allocs : ℕ → ℕ → Int → Bool) {packets : List (List Bytes)} {link : Link}
    (h : link.output.Wf) (hne : ∀ packet ∈ packets, packet ≠ [])
    (hgrow : (link.sendAll allocs packets).1 = true) :
    (link.sendAll allocs packets).2.output.content =
      link.output.content ++ packets.flatMap encodePacket := by
  induction packets generalizing link allocs with
  | nil => simp [sendAll]
  | cons packet packets ih =>
      simp only [sendAll, Bool.and_eq_true] at hgrow
      obtain ⟨hwf, hcontent⟩ := send_content (allocs 0) h (hne packet List.mem_cons_self) hgrow.1
      have hrest := ih (fun i ↦ allocs (i + 1)) hwf
        (fun p hp ↦ hne p (List.mem_cons_of_mem packet hp)) hgrow.2
      rw [sendAll, hrest, hcontent]
      simp

theorem recvTimes_encode (alloc : Int → Bool) {packets : List (List Bytes)} {link : Link}
    {trailing : Bytes} (h : link.input.Wf)
    (hpackets : ∀ packet ∈ packets,
      packet ≠ [] ∧ (packet.flatMap encodeRecord).length ≤ maxPacketSize)
    (hcontent : link.input.content = packets.flatMap encodePacket ++ trailing) :
    (link.recvTimes alloc packets.length).1 = packets.map some ∧
      (link.recvTimes alloc packets.length).2.input.content = trailing := by
  induction packets generalizing link with
  | nil => simpa [recvTimes] using hcontent
  | cons packet packets ih =>
      obtain ⟨hne, hsize⟩ := hpackets packet List.mem_cons_self
      rw [List.flatMap_cons, List.append_assoc] at hcontent
      have hscan := scanPacket_encode hne hsize (packets.flatMap encodePacket ++ trailing)
      rw [← hcontent] at hscan
      obtain ⟨refs, hrecv, hrefs, -, hle⟩ := recv_item h alloc hscan
      obtain ⟨hwf, hrest⟩ := h.decr hle
      rw [hcontent, List.drop_left] at hrest
      obtain ⟨hpackets', htrailing⟩ := @ih { link with
          recvData := refs, input := link.input.decr (encodePacket packet).length } hwf
        (fun p hp ↦ hpackets p (List.mem_cons_of_mem packet hp)) hrest
      simp only [List.length_cons, recvTimes, hrecv]
      exact ⟨by rw [hpackets']; simp [← hrefs, Buffer.decr], htrailing⟩

/-- Packets that were sent one after another are received again. -/
theorem recv_undoes_send (allocs : ℕ → ℕ → Int → Bool) (alloc : Int → Bool) {sender receiver : Link}
    {packets : List (List Bytes)} {bytes trailing : Bytes}
    (hpackets : ∀ packet ∈ packets,
      packet ≠ [] ∧ (packet.flatMap encodeRecord).length ≤ maxPacketSize)
    (hout : sender.output.Wf) (hgrow : (sender.sendAll allocs packets).1 = true)
    (hbytes : (sender.sendAll allocs packets).2.output.content = sender.output.content ++ bytes)
    (hin : receiver.input.Wf) (hcontent : receiver.input.content = bytes ++ trailing) :
    (receiver.recvTimes alloc packets.length).1 = packets.map some ∧
      (receiver.recvTimes alloc packets.length).2.input.content = trailing := by
  have hsent := sendAll_content allocs hout (fun p hp ↦ (hpackets p hp).1) hgrow
  rw [hbytes, List.append_cancel_left_eq] at hsent
  exact recvTimes_encode alloc hin hpackets (hsent ▸ hcontent)

/-- An empty record and a record of line ends and digits, with a blank line and
a bad header behind them. -/
theorem recv_undoes_send_lines :
    let packets : List (List Bytes) := [[[]], [[10, 13, 10], [49, 10]]]
    let bytes := ((Link.new 3).sendAll (fun _ _ _ ↦ true) packets).2.output.content
    let input := ((Buffer.new 8).append (fun _ ↦ true) (bytes ++ [13, 10, 120])).2
    (recvTimes (fun _ ↦ true) 2 { Link.new 4 with input := input }).1 = packets.map some ∧
      (recvTimes (fun _ ↦ true) 2 { Link.new 4 with input := input }).2.input.content =
        [13, 10, 120] := by
  intro packets bytes input
  have hout : (Link.new 3).output.Wf := Buffer.wf_new (by decide) (by decide)
  have hin : input.Wf :=
    ((Buffer.wf_new (by decide) (by decide)).append _ (by decide +kernel)).1
  exact @recv_undoes_send (fun _ _ _ ↦ true) (fun _ ↦ true) (Link.new 3)
    { Link.new 4 with input := input } packets bytes [13, 10, 120] (by decide +kernel) hout
    (by decide +kernel) (List.nil_append bytes).symm hin (by decide +kernel)

/-! ## Chunks -/

/-- `recv` until it is not ready or returns `NULL`; `none` when it was out of
memory. -/
def recvAll (alloc : Int → Bool) : ℕ → Link → Option (List (List Bytes) × Option Link)
  | 0, link => some ([], some link)
  | k + 1, link =>
      let r := link.recv alloc
      match r.1 with
      | .vector [] => some ([], some r.2)
      | .vector req =>
          let packet := req.map (BytesRef.deref r.2.input.mem)
          (recvAll alloc k r.2).map (Prod.map (packet :: ·) id)
      | .badFormat => some ([], none)
      | .noMemory => none

/-- More calls of `recv` than there are packets. -/
def rounds (input : Buffer) : ℕ := input.content.length + 1

/-- Append the chunks to the input buffer one at a time and receive what is
there. The packets, and the rest of the input unless `recv` has returned
`NULL`; `none` when a buffer could not grow. -/
def deliver (alloc : Int → Bool) : List Bytes → Link → Option (List (List Bytes) × Option Bytes)
  | [], link => some ([], some link.input.content)
  | chunk :: chunks, link =>
      let r := link.input.append alloc chunk
      if r.1 = -1 then none
      else (recvAll alloc (rounds r.2) { link with input := r.2 }).bind fun q ↦
        match q.2 with
        | none => some (q.1, none)
        | some link => (deliver alloc chunks link).map (Prod.map (q.1 ++ ·) id)

theorem recvAll_eq_drainUpTo (alloc : Int → Bool) {k : ℕ} {link : Link} (h : link.input.Wf)
    {packets : List (List Bytes)} {last : Option Link}
    (hrecv : link.recvAll alloc k = some (packets, last)) :
    drainUpTo scanPacket k link.input.content = (packets, last.map (·.input.content)) ∧
      ∀ l ∈ last, l.input.Wf := by
  induction k generalizing link packets last with
  | zero =>
      simp only [recvAll, Option.some.injEq, Prod.mk.injEq] at hrecv
      obtain ⟨rfl, rfl⟩ := hrecv
      exact ⟨rfl, by simpa using h⟩
  | succ k ih =>
      simp only [recvAll] at hrecv
      rw [drainUpTo]
      cases hscan : scanPacket link.input.content with
      | item packet n =>
          obtain ⟨refs, heq, hrefs, hne, hle⟩ := recv_item h alloc hscan
          obtain ⟨ref, refs, rfl⟩ := List.exists_cons_of_ne_nil hne
          obtain ⟨hwf, hrest⟩ := h.decr hle
          simp only [heq] at hrecv
          obtain ⟨⟨packets', last'⟩, hrecv', hpair⟩ := Option.map_eq_some_iff.mp hrecv
          obtain ⟨hdrain, hlast⟩ := @ih { link with
            recvData := ref :: refs, input := link.input.decr n } hwf packets' last' hrecv'
          cases hpair
          simp only at hdrain
          simp only [← hrest, hdrain]
          exact ⟨by rw [← hrefs]; rfl, hlast⟩
      | fail =>
          obtain ⟨refs, heq⟩ := recv_fail h alloc hscan
          simp only [heq, Option.some.injEq, Prod.mk.injEq] at hrecv
          obtain ⟨rfl, rfl⟩ := hrecv
          exact ⟨rfl, by simp⟩
      | more =>
          obtain ⟨result, refs, input, heq, rfl | rfl, hwf, hcontent⟩ := recv_more h alloc hscan
          · simp only [heq, Option.some.injEq, Prod.mk.injEq] at hrecv
            obtain ⟨rfl, rfl⟩ := hrecv
            exact ⟨by simp [hcontent], by simpa using hwf⟩
          · simp [heq] at hrecv

theorem recvAll_eq_drain (alloc : Int → Bool) {link : Link} (h : link.input.Wf)
    {packets : List (List Bytes)} {last : Option Link}
    (hrecv : link.recvAll alloc (rounds link.input) = some (packets, last)) :
    drain scanPacket link.input.content = (packets, last.map (·.input.content)) ∧
      ∀ l ∈ last, l.input.Wf :=
  recvAll_eq_drainUpTo alloc h hrecv

theorem feed_none (packets : List (List Bytes)) (chunks : List Bytes) :
    chunks.foldl (feed scanPacket) (packets, none) = (packets, none) := by
  induction chunks with
  | nil => rfl
  | cons chunk chunks ih => exact ih

/-- Delivering the chunks is feeding them to the scanner. -/
theorem deliver_eq_feed (alloc : Int → Bool) {chunks : List Bytes} {link : Link}
    (h : link.input.Wf) (hint : ∀ chunk ∈ chunks, chunk.length < 2 ^ 31)
    {d : List (List Bytes) × Option Bytes} (hdeliver : deliver alloc chunks link = some d)
    (before : List (List Bytes)) :
    chunks.foldl (feed scanPacket) (before, some link.input.content) = (before ++ d.1, d.2) := by
  induction chunks generalizing link before d with
  | nil =>
      simp only [deliver, Option.some.injEq] at hdeliver
      subst hdeliver
      simp
  | cons chunk chunks ih =>
      obtain ⟨hwf, hcontent⟩ := h.append alloc (hint chunk List.mem_cons_self)
      simp only [deliver] at hdeliver
      generalize link.input.append alloc chunk = r at hwf hcontent hdeliver
      obtain ⟨code, input⟩ := r
      simp only at hwf hcontent hdeliver
      by_cases hgrow : code = -1
      · rw [if_pos hgrow] at hdeliver
        cases hdeliver
      · rw [if_neg hgrow] at hdeliver hcontent
        obtain ⟨⟨packets, last⟩, hrecv, hrest⟩ := Option.bind_eq_some_iff.mp hdeliver
        obtain ⟨hdrain, hlast⟩ :=
          @recvAll_eq_drain alloc { link with input := input } hwf packets last hrecv
        simp only at hdrain
        rw [List.foldl_cons, feed, ← hcontent, hdrain]
        cases last with
        | none =>
            cases hrest
            exact feed_none _ _
        | some last =>
            obtain ⟨⟨packets', rest⟩, hlater, hpair⟩ := Option.map_eq_some_iff.mp hrest
            cases hpair
            simp only [Option.map_some]
            rw [ih (hlast last rfl) (fun c hc ↦ hint c (List.mem_cons_of_mem chunk hc)) hlater]
            simp

/-- What `recv` has found, further bytes do not change. -/
theorem recv_stable (alloc alloc' : Int → Bool) {link link' : Link} (h : link.input.Wf)
    (h' : link'.input.Wf) {t : Bytes} (hcontent : link'.input.content = link.input.content ++ t) :
    ((link.recv alloc).1 = .badFormat → (link'.recv alloc').1 = .badFormat) ∧
      ∀ req, (link.recv alloc).1 = .vector req → req ≠ [] →
        ∃ req', (link'.recv alloc').1 = .vector req' ∧
          req'.map (BytesRef.deref link'.input.mem) = req.map (BytesRef.deref link.input.mem) ∧
          (link'.recv alloc').2.input.content = (link.recv alloc).2.input.content ++ t := by
  cases hscan : scanPacket link.input.content with
  | item packet n =>
      have hscan' := scanPacket_stable.item t hscan
      rw [← hcontent] at hscan'
      obtain ⟨refs, hrecv, hrefs, hne, hle⟩ := recv_item h alloc hscan
      obtain ⟨refs', hrecv', hrefs', hne', hle'⟩ := recv_item h' alloc' hscan'
      rw [hrecv, hrecv']
      refine ⟨fun heq ↦ (by cases heq), fun req heq _ ↦ ⟨refs', rfl, ?_, ?_⟩⟩
      · cases heq
        rw [hrefs, hrefs']
      · rw [(h.decr hle).2, (h'.decr hle').2, hcontent, List.drop_append_of_le_length hle]
  | fail =>
      have hscan' := scanPacket_stable.fail t hscan
      rw [← hcontent] at hscan'
      obtain ⟨refs, hrecv⟩ := recv_fail h alloc hscan
      obtain ⟨refs', hrecv'⟩ := recv_fail h' alloc' hscan'
      rw [hrecv, hrecv']
      exact ⟨fun _ ↦ rfl, fun req heq ↦ (by cases heq)⟩
  | more =>
      obtain ⟨result, refs, input, hrecv, rfl | rfl, -⟩ := recv_more h alloc hscan <;>
      · rw [hrecv]
        refine ⟨fun heq ↦ (by cases heq), fun req heq hne ↦ ?_⟩
        first | cases heq; exact absurd rfl hne | cases heq

/-- What is delivered does not depend on the chunks. -/
theorem chunks_deliver_alike (alloc alloc' : Int → Bool) {link link' : Link} (h : link.input.Wf)
    (h' : link'.input.Wf) :
    (link.input.content = [] → link'.input.content = [] → ∀ {chunks chunks' : List Bytes},
        chunks.flatten = chunks'.flatten → (∀ chunk ∈ chunks ++ chunks', chunk.length < 2 ^ 31) →
        ∀ {d d'}, deliver alloc chunks link = some d → deliver alloc' chunks' link' = some d' →
          d = d') ∧
      ∀ {t}, link'.input.content = link.input.content ++ t →
        ((link.recv alloc).1 = .badFormat → (link'.recv alloc').1 = .badFormat) ∧
          ∀ req, (link.recv alloc).1 = .vector req → req ≠ [] →
            ∃ req', (link'.recv alloc').1 = .vector req' ∧
              req'.map (BytesRef.deref link'.input.mem) = req.map (BytesRef.deref link.input.mem) ∧
              (link'.recv alloc').2.input.content = (link.recv alloc).2.input.content ++ t := by
  refine ⟨?_, fun hcontent ↦ recv_stable alloc alloc' h h' hcontent⟩
  intro hnil hnil' chunks chunks' hflat hint d d' hd hd'
  have hfeed := deliver_eq_feed alloc h (fun c hc ↦ hint c (List.mem_append_left _ hc)) hd []
  have hfeed' := deliver_eq_feed alloc' h' (fun c hc ↦ hint c (List.mem_append_right _ hc)) hd' []
  rw [hnil, scanPacket_stable.feed_chunks, List.nil_append] at hfeed
  rw [hnil', scanPacket_stable.feed_chunks, List.nil_append, ← hflat, hfeed] at hfeed'
  exact hfeed'

theorem chunks_deliver_alike_split :
    ∃ d, deliver (fun _ ↦ true) [[49, 10], [97, 13, 10, 10, 50]] (Link.new 3) = some d ∧
      deliver (fun _ ↦ true) [[49, 10, 97, 13], [10, 10], [50]] (Link.new 4) = some d := by
  have hwf (sock : Int) : (Link.new sock).input.Wf := Buffer.wf_new (by decide) (by decide)
  have hflat : ([[49, 10], [97, 13, 10, 10, 50]] : List Bytes).flatten =
      [[49, 10, 97, 13], [10, 10], [50]].flatten := rfl
  obtain ⟨d, hd⟩ := Option.isSome_iff_exists.mp (show (deliver (fun _ ↦ true)
    [[49, 10], [97, 13, 10, 10, 50]] (Link.new 3)).isSome = true by decide +kernel)
  obtain ⟨d', hd'⟩ := Option.isSome_iff_exists.mp (show (deliver (fun _ ↦ true)
    [[49, 10, 97, 13], [10, 10], [50]] (Link.new 4)).isSome = true by decide +kernel)
  have heq := (chunks_deliver_alike (fun _ ↦ true) (fun _ ↦ true) (hwf 3) (hwf 4)).1 rfl rfl hflat
    (by decide) hd hd'
  exact ⟨d, hd, heq ▸ hd'⟩

end Link

end GeminiDB
