import GeminiDB.Lib.PyStr
import GeminiDB.Net.Stream

/-!
# The Python client (`client.py`)

The client writes and reads packets with code of its own. What it sends is what
`recv` of the server takes apart, and it takes apart what `send` of the server
has put together, however the bytes arrive.
-/

namespace GeminiDB

open Decimal Scanner

namespace Client

/-- What the socket answers to a `send`. -/
inductive SockResult where
  | accepted (len : ℕ)
  | error

/-- `nl.join(ps) + '\n\n'`. -/
def message (data : List Bytes) : Bytes :=
  List.intercalate [10] (data.flatMap fun p ↦ [digits p.length, p]) ++ [10, 10]

/-- The loop of `send`: what it returns and what it has written. A list of answers
that has run out stands for an error. -/
def sendLoop : List SockResult → Bytes → Int × Bytes
  | [], _ => (-1, [])
  | .error :: _, _ => (-1, [])
  | .accepted n :: results, s =>
      let ret := min n s.length
      if ret = 0 then (-1, [])
      else
        let rest := s.drop ret
        if rest.length = 0 then (ret, s.take ret)
        else
          let r := sendLoop results rest
          (r.1, s.take ret ++ r.2)

def send (results : List SockResult) (data : List Bytes) : Int × Bytes :=
  sendLoop results (message data)

/-- The loop of `parse`, at most `k` times around: what it returns, `none` for
`None`, and the new `recv_buf`. -/
def parseLoop (recvBuf : Bytes) :
    ℕ → (ret : List Bytes) → (epos : Int) → Option (Option (List Bytes) × Bytes)
  | 0, _, _ => none
  | k + 1, ret, epos =>
      let spos := epos
      let epos := PyStr.find recvBuf 10 spos
      if epos = -1 then some (none, recvBuf)
      else
        let epos := epos + 1
        let line := PyStr.slice recvBuf spos epos
        let spos := epos
        if PyStr.strip line = [] then
          if ret.length = 0 then parseLoop recvBuf k ret epos
          else some (some ret, PyStr.slice recvBuf spos recvBuf.length)
        else
          match PyStr.int? line with
          | none => some (some [], recvBuf)
          | some num =>
              let epos := spos + num
              if epos > recvBuf.length then some (none, recvBuf)
              else
                let data := PyStr.slice recvBuf spos epos
                let ret := ret ++ [data]
                let spos := epos
                let epos := PyStr.find recvBuf 10 spos
                if epos = -1 then some (none, recvBuf)
                else parseLoop recvBuf k ret (epos + 1)

def parse (k : ℕ) (recvBuf : Bytes) : Option (Option (List Bytes) × Bytes) :=
  parseLoop recvBuf k [] 0

/-- `recv`, with the chunks that `net_read` gets: what it returns, the new
`recv_buf` and the chunks not read. An empty chunk is a closed connection. -/
def recv : List Bytes → Bytes → Option (List Bytes × Bytes × List Bytes)
  | [], recvBuf =>
      (parse (recvBuf.length + 1) recvBuf).map fun r ↦ (r.1.getD [], r.2, [])
  | chunk :: chunks, recvBuf =>
      (parse (recvBuf.length + 1) recvBuf).bind fun
        | (some ret, rest) => some (ret, rest, chunk :: chunks)
        | (none, recvBuf) =>
            if chunk = [] then some ([], recvBuf, chunks) else recv chunks (recvBuf ++ chunk)

/-! ## Sending -/

theorem message_eq {data : List Bytes} (hne : data ≠ []) : message data = encodePacket data := by
  induction data with
  | nil => exact absurd rfl hne
  | cons p data ih =>
      cases data with
      | nil => simp [message, encodePacket, encodeRecord, List.intercalate]
      | cons q data =>
          have hrest := ih (by simp)
          calc message (p :: q :: data) = encodeRecord p ++ message (q :: data) := by
                simp [message, encodeRecord, List.intercalate]
            _ = encodePacket (p :: q :: data) := by
                rw [hrest]
                simp [encodePacket]

theorem sendLoop_written {results : List SockResult} {s : Bytes}
    (h : (sendLoop results s).1 ≠ -1) : (sendLoop results s).2 = s := by
  induction results generalizing s with
  | nil => exact absurd rfl h
  | cons result results ih =>
      cases result with
      | error => exact absurd rfl h
      | accepted n =>
          simp only [sendLoop] at h ⊢
          by_cases hzero : min n s.length = 0
          · rw [if_pos hzero] at h
            exact absurd rfl h
          · rw [if_neg hzero] at h ⊢
            by_cases hend : (s.drop (min n s.length)).length = 0
            · rw [if_pos hend]
              rw [List.length_drop] at hend
              exact List.take_of_length_le (by omega)
            · rw [if_neg hend] at h ⊢
              simp only
              rw [ih h, List.take_append_drop]

/-! ## Receiving -/

section Parse

variable {k : ℕ} {ret : List Bytes}

/-- Without a further line end `parse` waits. -/
theorem parseLoop_wait {q : Bytes} (h : 10 ∉ q) (pre : Bytes) :
    parseLoop (pre ++ q) (k + 1) ret pre.length = some (none, pre ++ q) := by
  simp only [parseLoop, PyStr.find_none h, if_true]

theorem not_mem_digits (n : ℕ) : (10 : UInt8) ∉ digits n := fun hmem ↦
  absurd (isDigit_of_mem_digits 10 hmem) (by decide)

theorem parseLoop_header (n : ℕ) (pre q : Bytes) :
    parseLoop (pre ++ (digits n ++ 10 :: q)) (k + 1) ret pre.length =
      if q.length < n then some (none, pre ++ (digits n ++ 10 :: q))
      else
        let epos := PyStr.find (pre ++ (digits n ++ 10 :: q)) 10
          ((pre ++ (digits n ++ 10 :: q.take n)).length : ℕ)
        if epos = -1 then some (none, pre ++ (digits n ++ 10 :: q))
        else parseLoop (pre ++ (digits n ++ 10 :: q)) k (ret ++ [q.take n]) (epos + 1) := by
  have hfind := PyStr.find_mid (not_mem_digits n) pre q
  have hline : PyStr.slice (pre ++ (digits n ++ 10 :: q)) pre.length
      (pre.length + (digits n).length + 1) = digits n ++ [10] := by
    have := PyStr.slice_mid pre (digits n ++ [10]) q
    simpa [Int.add_assoc] using this
  have hstrip : PyStr.strip (digits n ++ [10]) ≠ [] := by
    rw [PyStr.strip_digits isDigit_of_mem_digits (digits_ne_nil n)]
    exact digits_ne_nil n
  have hlength : (pre ++ (digits n ++ 10 :: q)).length =
      pre.length + (digits n).length + 1 + q.length := by
    simp only [List.length_append, List.length_cons]
    omega
  simp only [parseLoop, hfind]
  rw [if_neg (by omega), hline, if_neg hstrip, PyStr.int?_digits]
  simp only [hlength]
  by_cases hshort : q.length < n
  · rw [if_pos hshort, if_pos (by push_cast; omega)]
  · have hbody : PyStr.slice (pre ++ (digits n ++ 10 :: q)) (pre.length + (digits n).length + 1)
        (pre.length + (digits n).length + 1 + n) = q.take n := by
      have := PyStr.slice_mid (pre ++ (digits n ++ [10])) (q.take n) (q.drop n)
      rw [List.take_append_drop, List.length_take, Nat.min_eq_left (by omega)] at this
      simpa [Int.add_assoc] using this
    have hend : ((pre ++ (digits n ++ 10 :: q.take n)).length : Int) =
        pre.length + (digits n).length + 1 + n := by
      simp only [List.length_append, List.length_cons, List.length_take]
      omega
    rw [if_neg hshort, if_neg (by push_cast; omega), hbody, hend]

theorem parseLoop_record (pre s rest : Bytes) :
    parseLoop (pre ++ (encodeRecord s ++ rest)) (k + 1) ret pre.length =
      parseLoop (pre ++ encodeRecord s ++ rest) k (ret ++ [s]) (pre ++ encodeRecord s).length := by
  have hsplit : encodeRecord s ++ rest = digits s.length ++ 10 :: (s ++ 10 :: rest) := by
    simp [encodeRecord]
  have hfind := PyStr.find_mid (show (10 : UInt8) ∉ [] by simp)
    (pre ++ (digits s.length ++ 10 :: s)) rest
  have hpos : ((pre ++ encodeRecord s).length : Int) =
      (pre ++ (digits s.length ++ 10 :: s)).length + 1 := by
    simp [encodeRecord]
    omega
  rw [hsplit, parseLoop_header, if_neg (by simp), List.take_left]
  have hbuf : pre ++ (digits s.length ++ 10 :: s) ++ ([] ++ 10 :: rest) =
      pre ++ (digits s.length ++ 10 :: (s ++ 10 :: rest)) := by simp
  rw [hbuf] at hfind
  simp only [hfind, List.length_nil, Nat.cast_zero, Int.add_zero]
  rw [if_neg (by omega), hpos, List.append_assoc, hsplit]

theorem parseLoop_end (hret : ret ≠ []) (pre rest : Bytes) :
    parseLoop (pre ++ 10 :: rest) (k + 1) ret pre.length = some (some ret, rest) := by
  have hfind := PyStr.find_mid (show (10 : UInt8) ∉ [] by simp) pre rest
  have hline := PyStr.slice_mid pre [10] rest
  have hrest := PyStr.slice_from (pre ++ [10]) rest
  simp only [List.nil_append, List.length_nil, Nat.cast_zero, Int.add_zero] at hfind
  simp only [List.singleton_append, List.length_singleton, Nat.cast_one] at hline
  simp only [List.append_assoc, List.singleton_append, List.length_append, List.length_singleton,
    Nat.cast_add, Nat.cast_one] at hrest
  simp only [parseLoop, hfind]
  rw [if_neg (by omega), hline, if_pos (by decide), if_neg (by simpa using hret)]
  simp only [List.length_append, Nat.cast_add]
  rw [hrest]

theorem parseLoop_packet {data : List Bytes} (hk : data.length < k) (hne : ret ++ data ≠ [])
    (pre rest : Bytes) :
    parseLoop (pre ++ (encodePacket data ++ rest)) k ret pre.length =
      some (some (ret ++ data), rest) := by
  induction data generalizing k ret pre with
  | nil =>
      obtain ⟨k, rfl⟩ : ∃ m, k = m + 1 := ⟨k - 1, by omega⟩
      rw [List.append_nil] at hne ⊢
      exact parseLoop_end hne pre rest
  | cons s data ih =>
      obtain ⟨k, rfl⟩ : ∃ m, k = m + 1 := ⟨k - 1, by omega⟩
      have hsplit : encodePacket (s :: data) ++ rest =
          encodeRecord s ++ (encodePacket data ++ rest) := by simp [encodePacket]
      rw [List.length_cons] at hk
      rw [hsplit, parseLoop_record, ih (by omega) (by simp)]
      simp

theorem parseLoop_of_proper {data : List Bytes} {p : Bytes} (hp : p <+: encodePacket data)
    (hproper : p ≠ encodePacket data) (hk : p.length < k) (pre : Bytes) :
    parseLoop (pre ++ p) k ret pre.length = some (none, pre ++ p) := by
  induction data generalizing k ret pre p with
  | nil =>
      obtain ⟨k, rfl⟩ : ∃ m, k = m + 1 := ⟨k - 1, by omega⟩
      refine parseLoop_wait (fun hmem ↦ hproper ?_) pre
      have hlen : 0 < p.length := List.length_pos_of_mem hmem
      exact hp.eq_of_length_le (Nat.succ_le_of_lt hlen)
  | cons s data ih =>
      obtain ⟨k, rfl⟩ : ∃ m, k = m + 1 := ⟨k - 1, by omega⟩
      by_cases hline : 10 ∈ p
      · obtain ⟨line, q, rfl, hnot⟩ := List.eq_append_cons_of_mem hline
        obtain ⟨t, ht⟩ := hp
        have hsplit : encodePacket (s :: data) =
            digits s.length ++ 10 :: (s ++ 10 :: encodePacket data) := by
          simp [encodePacket, encodeRecord]
        have hfirst := splitLine_eq_some.mpr
          ⟨show line ++ 10 :: q ++ t = line ++ 10 :: (q ++ t) by simp, hnot⟩
        rw [ht, hsplit, splitLine_eq_some.mpr ⟨rfl, not_mem_digits s.length⟩] at hfirst
        simp only [Option.some.injEq, Prod.mk.injEq] at hfirst
        obtain ⟨rfl, hrest⟩ := hfirst
        by_cases hshort : q.length < s.length
        · rw [parseLoop_header, if_pos hshort]
        · obtain ⟨after, rfl⟩ : s <+: q :=
            List.prefix_of_prefix_length_le ⟨_, hrest⟩ ⟨t, rfl⟩ (by omega)
          rw [List.append_assoc, List.append_cancel_left_eq] at hrest
          cases after with
          | nil =>
              have hwait := PyStr.find_none (show (10 : UInt8) ∉ [] by simp)
                (pre ++ (digits s.length ++ 10 :: s))
              rw [List.append_nil] at hwait ⊢
              rw [parseLoop_header, if_neg (by simp), List.take_length, hwait]
              rfl
          | cons b after =>
              simp only [List.cons_append, List.cons.injEq] at hrest
              obtain ⟨rfl, hrest⟩ := hrest
              have hrecord : digits s.length ++ 10 :: (s ++ 10 :: after) =
                  encodeRecord s ++ after := by
                simp [encodeRecord]
              have hlen := congrArg List.length hrecord
              simp only [List.length_append, List.length_cons] at hlen hk
              rw [hrecord, parseLoop_record, ih ⟨t, hrest.symm⟩ (fun heq ↦ hproper ?_) (by omega)]
              · simp
              · rw [hsplit, heq]
      · exact parseLoop_wait hline pre

end Parse

/-- Enough rounds take a packet off the front, and wait on less than a packet. -/
theorem parse_encode {data : List Bytes} (hne : data ≠ []) :
    (∀ {rest k}, (encodePacket data ++ rest).length < k →
      parse k (encodePacket data ++ rest) = some (some data, rest)) ∧
    ∀ {p k}, p <+: encodePacket data → p ≠ encodePacket data → p.length < k →
      parse k p = some (none, p) := by
  refine ⟨fun {rest k} hk ↦ ?_, fun {p k} hp hproper hk ↦ ?_⟩
  · have hlen := length_lt_encodePacket data
    rw [List.length_append] at hk
    exact @parseLoop_packet k [] data (by omega) hne [] rest
  · exact @parseLoop_of_proper k [] data p hp hproper hk []

/-- However the bytes arrive, `recv` returns the packet and keeps what follows it. -/
theorem recv_encode {data : List Bytes} (hne : data ≠ []) {chunks : List Bytes}
    {recvBuf rest : Bytes}
    (hchunks : ∀ chunk ∈ chunks, chunk ≠ [])
    (hbytes : recvBuf ++ chunks.flatten = encodePacket data ++ rest) :
    ∃ recvBuf' chunks', recv chunks recvBuf = some (data, recvBuf', chunks') ∧
      recvBuf' ++ chunks'.flatten = rest := by
  induction chunks generalizing recvBuf with
  | nil =>
      rw [List.flatten_nil, List.append_nil] at hbytes
      rw [recv, hbytes, (parse_encode hne).1 (by omega)]
      exact ⟨rest, [], rfl, by simp⟩
  | cons chunk chunks ih =>
      rw [recv]
      rcases List.prefix_or_prefix_of_prefix ⟨_, hbytes⟩ ⟨rest, rfl⟩ with hshort | ⟨front, rfl⟩
      · by_cases heq : recvBuf = encodePacket data
        · subst heq
          have hparse := (parse_encode hne).1
            (show (encodePacket data ++ []).length < (encodePacket data).length + 1 by simp)
          rw [List.append_nil] at hparse
          rw [hparse]
          exact ⟨[], chunk :: chunks, rfl, by simpa using hbytes⟩
        · rw [(parse_encode hne).2 hshort heq (by omega)]
          simp only [Option.bind_some]
          rw [if_neg (hchunks chunk List.mem_cons_self)]
          exact ih (fun c hc ↦ hchunks c (List.mem_cons_of_mem chunk hc)) (by simpa using hbytes)
      · rw [(parse_encode hne).1 (by omega)]
        refine ⟨front, chunk :: chunks, rfl, ?_⟩
        simpa using hbytes

/-- The bytes of one packet are delivered as this packet alone. -/
theorem deliver_encode (alloc : Int → Bool) {data : List Bytes} (hne : data ≠ [])
    (hsize : (data.flatMap encodeRecord).length ≤ maxPacketSize) {link : Link} (h : link.input.Wf)
    (hempty : link.input.content = []) {chunks : List Bytes}
    (hchunks : chunks.flatten = encodePacket data) {d : List (List Bytes) × Option Bytes}
    (hdeliver : Link.deliver alloc chunks link = some d) : d = ([data], some []) := by
  have hmax : maxPacketSize = 134217728 := by decide
  have hint : ∀ chunk ∈ chunks, chunk.length < 2 ^ 31 := by
    intro chunk hmem
    have hsub := (List.sublist_flatten_of_mem hmem).length_le
    rw [hchunks, encodePacket, List.length_append, List.length_singleton] at hsub
    omega
  have hfeed := Link.deliver_eq_feed alloc h hint hdeliver []
  have hscan := scanPacket_encode hne hsize []
  rw [List.append_nil] at hscan
  rw [hempty, scanPacket_stable.feed_chunks, hchunks, scanPacket_stable.drain_item hscan,
    List.drop_length, drain_more scanPacket_stable.nil, List.nil_append] at hfeed
  exact hfeed.symm

/-- What the client sends the server receives, and what the server sends the
client receives, in whatever chunks; less than a packet leaves the client waiting. -/
theorem client_agrees {data : List Bytes} (hne : data ≠ [])
    (hsize : (data.flatMap encodeRecord).length ≤ maxPacketSize) :
    (∀ results, (send results data).1 ≠ -1 →
      ∀ (alloc : Int → Bool) (link : Link) (chunks : List Bytes),
        link.input.Wf → link.input.content = [] → chunks.flatten = (send results data).2 →
        ∀ d, Link.deliver alloc chunks link = some d → d = ([data], some [])) ∧
      ∀ (allocs : ℕ → Int → Bool) (link : Link) (bytes : Bytes), link.output.Wf →
        link.sendGrows allocs data = true →
        (link.send allocs data).2.output.content = link.output.content ++ bytes →
        (∀ rest k, (bytes ++ rest).length < k → parse k (bytes ++ rest) = some (some data, rest)) ∧
          (∀ p k, p <+: bytes → p ≠ bytes → p.length < k → parse k p = some (none, p)) ∧
          ∀ (chunks : List Bytes) (recvBuf rest : Bytes), (∀ chunk ∈ chunks, chunk ≠ []) →
            recvBuf ++ chunks.flatten = bytes ++ rest →
            ∃ recvBuf' chunks', recv chunks recvBuf = some (data, recvBuf', chunks') ∧
              recvBuf' ++ chunks'.flatten = rest := by
  constructor
  · intro results hsend alloc link chunks hwf hempty hchunks d hdeliver
    have hwritten := sendLoop_written hsend
    rw [send, hwritten, message_eq hne] at hchunks
    exact deliver_encode alloc hne hsize hwf hempty hchunks hdeliver
  · intro allocs link bytes hwf hgrow hcontent
    obtain ⟨-, hsent⟩ := Link.send_content allocs hwf hne hgrow
    rw [hcontent, List.append_cancel_left_eq] at hsent
    subst hsent
    obtain ⟨hparse, hwait⟩ := parse_encode hne
    exact ⟨fun rest k hk ↦ hparse hk, fun p k hp hproper hk ↦ hwait hp hproper hk,
      fun chunks recvBuf rest hchunks hbytes ↦ recv_encode hne hchunks hbytes⟩

/-- An empty element and one of digits and line ends, sent in two parts. -/
theorem client_agrees_lines :
    let data : List Bytes := [[], [10, 49, 10]]
    (∃ d, Link.deliver (fun _ ↦ true) [[48, 10, 10, 51], [10, 10, 49, 10, 10, 10]] (Link.new 3) =
        some d ∧ d = (([data], some []) : List (List Bytes) × Option Bytes)) ∧
      parse 20 [48, 10, 10, 51, 10, 10, 49, 10, 10, 10, 50] = some (some data, [50]) := by
  intro data
  have hagrees := @client_agrees data (by decide) (by decide +kernel)
  obtain ⟨d, hd⟩ := Option.isSome_iff_exists.mp (show (Link.deliver (fun _ ↦ true)
    [[48, 10, 10, 51], [10, 10, 49, 10, 10, 10]] (Link.new 3)).isSome = true by decide +kernel)
  have hin : (Link.new 3).input.Wf := Buffer.wf_new (by decide) (by decide)
  have hout : (Link.new 3).output.Wf := Buffer.wf_new (by decide) (by decide)
  refine ⟨⟨d, hd, hagrees.1 [.accepted 4, .accepted 9] (by decide +kernel) _ _ _ hin rfl
    (by decide +kernel) d hd⟩, ?_⟩
  have hsent : ((Link.new 3).send (fun _ _ ↦ true) data).2.output.content =
      (Link.new 3).output.content ++ [48, 10, 10, 51, 10, 10, 49, 10, 10, 10] := by decide +kernel
  have hdelivers := hagrees.2 (fun _ _ ↦ true) (Link.new 3) _ hout (by decide +kernel) hsent
  exact hdelivers.1 [50] 20 (by decide)

end Client

end GeminiDB
