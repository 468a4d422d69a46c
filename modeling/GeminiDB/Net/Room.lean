import GeminiDB.Net.Input
import GeminiDB.Net.Recv
import GeminiDB.Net.Runs

/-!
# Room for input

A link that waits for `FDEVENT_IN` has free space in its input buffer once `nice`
has been called: it has just been made, or all its input is consumed, or `recv`
has made room. `read` then asks the socket at least once, so that a full buffer
does not look like a closed connection.
-/

namespace GeminiDB

/-! ## Buffers -/

namespace Buffer

variable {b : Buffer}

theorem Wf.space_nonneg (h : b.Wf) : 0 ≤ b.space := by
  rw [h.space_eq]
  have := h.fits
  omega

/-- Without live bytes `nice` leaves at least half of the buffer. -/
theorem Wf.room_of_empty (h : b.Wf) (hsize : b.size = 0) : 0 < b.nice.space := by
  have hpos := h.pos
  have hdata := h.data
  rw [h.nice.space_eq, Buffer.nice, Int.tdiv_eq_ediv_of_nonneg (by omega)]
  split
  · simp only
    omega
  · omega

/-- Growing keeps the room; a small buffer that has grown needs no `nice`. -/
theorem Wf.room_grow (h : b.Wf) (alloc : Int → Bool) (hroom : 0 < b.nice.space) :
    0 < (b.grow alloc).2.nice.space := by
  rcases h.grow alloc with hgrow | ⟨n, hgrow, hlt, hmax, -⟩
  · rwa [hgrow]
  · have hwf := h.extend hlt.le hmax
    have hspace := hwf.space_nice
    have hfits := h.fits
    rw [hwf.space_eq] at hspace
    rw [hgrow]
    simp only at hspace ⊢
    omega

end Buffer

namespace Link

variable {link : Link}

theorem makeRoom_room {input : Buffer} (h : input.Wf) (alloc : Int → Bool)
    (hroom : (makeRoom alloc input).1 = true) : 0 < (makeRoom alloc input).2.nice.space := by
  have hwf := (makeRoom_content h alloc).1
  refine lt_of_lt_of_le ?_ hwf.space_nice
  have hnonneg := h.space_nonneg
  have hnice := h.nice.space_nonneg
  rw [makeRoom] at hroom ⊢
  split at hroom
  · next hfull =>
    dsimp only at hroom
    rw [if_pos hfull]
    dsimp only
    split at hroom
    · next hstill =>
      rw [if_pos hstill]
      rcases h.nice.grow alloc with hgrow | ⟨n, hgrow, hlt, hmax, -⟩
      · simp [hgrow] at hroom
      · have hspace := h.nice.space_eq
        rw [hgrow, (h.nice.extend hlt.le hmax).space_eq]
        simp only
        omega
    · next hfree =>
      rw [if_neg hfree]
      dsimp only
      omega
  · next hfree =>
    rw [if_neg hfree]
    dsimp only
    omega

theorem recv_wf (h : link.input.Wf) (alloc : Int → Bool) : (link.recv alloc).2.input.Wf := by
  cases hscan : scanPacket link.input.content with
  | item packet n =>
      obtain ⟨refs, hrecv, -, -, hle⟩ := recv_item h alloc hscan
      rw [hrecv]
      exact (h.decr hle).1
  | fail =>
      obtain ⟨refs, hrecv⟩ := recv_fail h alloc hscan
      rw [hrecv]
      exact h
  | more =>
      obtain ⟨result, refs, input, hrecv, -, hwf, -⟩ := recv_more h alloc hscan
      rw [hrecv]
      exact hwf

/-- When `recv` is not ready there is room for more input. -/
theorem recv_room (h : link.input.Wf) (alloc : Int → Bool)
    (hrecv : (link.recv alloc).1 = .vector []) : 0 < (link.recv alloc).2.input.nice.space := by
  cases hscan : scanPacket link.input.content with
  | item packet n =>
      obtain ⟨refs, heq, -, hne, -⟩ := recv_item h alloc hscan
      rw [heq] at hrecv
      exact absurd (Recv.vector.inj hrecv) hne
  | fail =>
      obtain ⟨refs, heq⟩ := recv_fail h alloc hscan
      rw [heq] at hrecv
      cases hrecv
  | more =>
      have hfinds := parse_finds h
      rw [hscan] at hfinds
      obtain ⟨refs, hparse⟩ := hfinds.more
      rw [recv] at hrecv ⊢
      split at hrecv
      · next hempty =>
        rw [if_pos hempty]
        exact h.room_of_empty hempty
      · next hsize =>
        rw [if_neg hsize]
        simp only [hparse] at hrecv ⊢
        split at hrecv
        · next hroom =>
          rw [if_pos hroom]
          exact makeRoom_room h alloc hroom
        · cases hrecv

theorem readInput_room (h : link.input.Wf) (hroom : 0 < link.input.nice.space)
    (alloc : Int → Bool) : 0 < (link.readInput alloc).space := by
  rw [readInput]
  split
  · exact h.room_grow alloc hroom
  · exact hroom

/-- With room the loop of `read` calls `::read`. -/
theorem outcomes_ne_nil {alloc : Int → Bool} (hroom : 0 < (link.readInput alloc).space)
    (reads : List ReadResult) : link.outcomes alloc reads ≠ [] := by
  obtain ⟨room, hroom⟩ : ∃ room, (link.readInput alloc).space.toNat = room + 1 :=
    ⟨(link.readInput alloc).space.toNat - 1, by omega⟩
  rw [outcomes, hroom]
  cases reads with
  | nil => simp [seen]
  | cons read reads => cases read <;> simp [seen]

end Link

/-! ## Runs -/

namespace NetworkServer

variable {S : Setup} {s : NetworkServer} {c c' : Conn} {a : Action}

/-- A link that waits for input has room for it. -/
def Roomy (c : Conn) : Prop :=
  ∀ link, c.link = some link →
    link.input.Wf ∧ (c.history.place = .idle → 0 < link.input.nice.space)

theorem Settled.roomy {o : World} {link : Link} {flags : Flags} {h : History}
    (hsettled : Settled o link flags h c) (hwf : link.input.Wf) : Roomy c := by
  have hinput {after : Link} {sent : Option Bytes} (hflushed : Flushed o link after sent) :
      after.input = link.input := by
    by_cases hempty : link.output.size = 0
    · rw [(hflushed.empty hempty).1]
    · rw [(hflushed.pending hempty).1]
      rfl
  cases hsettled with
  | deleted => exact fun _ heq ↦ (by cases heq)
  | idle hflushed hsize =>
      rintro _ ⟨⟩
      rw [hinput hflushed] at hsize ⊢
      exact ⟨hwf, fun _ ↦ hwf.room_of_empty hsize⟩
  | ready hflushed =>
      rintro _ ⟨⟩
      rw [hinput hflushed]
      exact ⟨hwf, fun hplace ↦ (by cases hplace)⟩

theorem input_send (allocs : ℕ → Int → Bool) (resp : List Bytes) (link : Link) :
    (link.send allocs resp).2.input = link.input := by
  rw [Link.send]
  split <;> rfl

theorem Move.roomy (hmove : Move S a c c') (hc : Roomy c) : Roomy c' := by
  cases hmove with
  | accept =>
      rintro _ ⟨⟩
      have hwf : (Buffer.new Link.initBufferSize).Wf := Buffer.wf_new (by decide) (by decide)
      exact ⟨hwf, fun _ ↦ hwf.room_of_empty rfl⟩
  | marked =>
      rintro _ ⟨⟩
      exact ⟨(hc _ rfl).1, fun hplace ↦ (by cases hplace)⟩
  | read =>
      rintro _ ⟨⟩
      exact ⟨Link.procRequest_wf _ _ (hc _ rfl).1, fun hplace ↦ (by cases hplace)⟩
  | result => exact (settle_settled _ _ _ _ _).roomy (hc _ rfl).1
  | drop => exact fun _ heq ↦ (by cases heq)
  | reject => exact fun _ heq ↦ (by cases heq)
  | more _ hrecv =>
      rintro _ ⟨⟩
      have hwf := (hc _ rfl).1
      exact ⟨Link.recv_wf hwf _, fun _ ↦ Link.recv_room hwf _ hrecv⟩
  | queue =>
      rintro _ ⟨⟩
      exact ⟨Link.recv_wf (hc _ rfl).1 _, fun hplace ↦ (by cases hplace)⟩
  | @answer o _ _ _ _ _ _ _ hrecv _ _ _ =>
      have hwf := Link.recv_wf (hc _ rfl).1 o.alloc
      rw [hrecv] at hwf
      exact (settle_settled _ _ _ _ _).roomy ((input_send _ _ _).symm ▸ hwf)
  | withdraw hplace =>
      rintro _ ⟨⟩
      exact ⟨(hc _ rfl).1, fun hidle ↦ by rcases hplace with hplace | hplace <;> simp_all⟩
  | work hplace hsend hwrite =>
      rintro _ ⟨⟩
      have hwf := (hc _ rfl).1
      refine ⟨?_, fun hidle ↦ (by cases hidle)⟩
      rcases hwrite with ⟨rfl, -⟩ | ⟨rfl, -⟩
      · rw [hsend, input_send]
        exact hwf
      · rw [Link.write, hsend, input_send]
        exact hwf

theorem Reached.roomy (hs : Reached S s) (id : ℕ) : Roomy (s.conn id) :=
  conn_invariant (fun _ _ ha ↦ ha) (fun _ heq ↦ (by cases heq))
    (fun _ _ _ _ _ _ _ hc hmove ↦ hmove.roomy hc) hs id

/-- The link that the next round of the loop over the events calls `read` on. -/
def reading (s : NetworkServer) : Option Link :=
  match s.pc with
  | .events (p :: _) =>
      let fde := s.fdes.table.heap p
      if fde.dataPtr ∈ [servPtr, readerPtr, writerPtr] ∨ fde.events &&& fdeventIn = 0 then none
      else (s.links fde.dataPtr).filter fun link ↦ !link.error
  | _ => none

/-- Whatever was received, whenever `read` is called it has room and calls `::read`. -/
theorem read_has_room (hs : Reached S s) {link : Link} (hlink : s.reading = some link)
    (alloc : Int → Bool) (reads : List ReadResult) :
    0 < (link.readInput alloc).space ∧ link.outcomes alloc reads ≠ [] := by
  rw [reading] at hlink
  split at hlink
  · next p batch hpc =>
    dsimp only at hlink
    split at hlink
    · cases hlink
    · next hclient =>
      rw [not_or, List.mem_cons, List.mem_cons, List.mem_singleton, not_or, not_or] at hclient
      obtain ⟨⟨hserv, hreader, hwriter⟩, hin⟩ := hclient
      obtain ⟨link', hlink', hplace, -⟩ :=
        readable_idle hs.custody.wired hs.custody.held hpc hserv hreader hwriter hin
      rw [hlink'] at hlink
      obtain rfl : link' = link := (Option.filter_eq_some_iff.mp hlink).1 |> Option.some.inj
      obtain ⟨hwf, hidle⟩ := hs.roomy _ link' hlink'
      have hroom := Link.readInput_room hwf (hidle hplace) alloc
      exact ⟨hroom, Link.outcomes_ne_nil hroom reads⟩
  · cases hlink

/-- Eight bytes fill the buffer of a link for want of memory. One request is taken
from them, the next one is not ready, and the socket is readable again. -/
def refill : List Action :=
  [.wait [(3, epollIn)], .event { quietWorld with sock := some 7 }, .event quietWorld,
    .ready quietWorld, .wait [(7, epollIn)],
    .event { quietWorld with alloc := fun _ ↦ false, reads := [.bytes (ascii "1\nx\n\n1\nx")] },
    .event quietWorld, .ready { quietWorld with writes := [.accepted 100] }, .ready quietWorld,
    .wait [], .event quietWorld, .ready quietWorld, .ready quietWorld, .wait [(7, epollIn)]]

theorem read_has_room_refill : ∃ s link, Reached smallSetup s ∧ s.reading = some link ∧
    link.input.size = 3 ∧ link.input.total = 8 ∧
      0 < (link.readInput fun _ ↦ false).space ∧ link.outcomes (fun _ ↦ false) [] ≠ [] := by
  obtain ⟨s, hrun, hs⟩ := (Option.any_eq_true ..).mp
    (show (Machine.runVia (step smallSetup) (fun _ a ↦ a.Registered) (init smallSetup)
      refill).any (fun s ↦
      s.reading.any fun link ↦ link.input.size = 3 ∧ link.input.total = 8) = true by decide +kernel)
  obtain ⟨link, hlink, hsize⟩ := (Option.any_eq_true ..).mp hs
  have hreached : Reached smallSetup s := Machine.reachableVia_of_run hrun
  rw [decide_eq_true_eq] at hsize
  exact ⟨s, link, hreached, hlink, hsize.1, hsize.2, read_has_room hreached hlink _ []⟩

end NetworkServer

end GeminiDB
