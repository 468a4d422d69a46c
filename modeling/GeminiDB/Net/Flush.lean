import GeminiDB.Net.Holders
import GeminiDB.Net.Room

/-!
# Output that the socket did not take

`proc_result` subscribes a link to `FDEVENT_OUT` when output is left, but nothing
ends the subscription once the output is sent, and `proc_request` does nothing
when the link is reported writable. What is left goes out with the next answer.
-/

namespace GeminiDB

namespace NetworkServer

/-- The link that the next event reports writable. -/
def writable (s : NetworkServer) : Option ℕ :=
  (s.batch.head?.filter fun p ↦ (s.fdes.table.heap p).events &&& fdeventOut ≠ 0).map
    fun p ↦ (s.fdes.table.heap p).dataPtr

/-- The next event reports writable a link that has output pending and is in no job. -/
structure AwaitsWrite (s : NetworkServer) (id : ℕ) (link : Link) : Prop where
  writable : s.writable = some id
  live : s.links id = some link
  pending : link.output.size ≠ 0
  free : ∀ job ∈ s.inFlight, job.link ≠ id

/-- Links with pending output, and no others, are subscribed to `FDEVENT_OUT` at the top of
the loop. -/
def Subscribed (s : NetworkServer) : Prop :=
  s.pc = .top → ∀ id link, s.links id = some link → (∀ job ∈ s.inFlight, job.link ≠ id) →
    (s.flagsOf id &&& fdeventOut ≠ 0 ↔ link.output.size ≠ 0)

/-- The subscriptions are right, and a report of `FDEVENT_OUT` makes the loop write what is
pending, as much as the socket takes. -/
structure Flushes (S : Setup) (s : NetworkServer) : Prop where
  subscribed : s.Subscribed
  written : ∀ o t, o.Registered → step S s (.event o) = some t →
    ∀ id link, s.AwaitsWrite id link →
      (s.history id).writes < (t.history id).writes ∧
        (t.history id).sent = (s.history id).sent ++ link.accepted o.writes

/-- The loop thread answers a request and the socket takes all that is pending. -/
def Drains (S : Setup) (o : World) : Recv × Link → Prop
  | (.vector (_ :: _), link) =>
      ¬ Threaded S link.request ∧ verdict S o link.request ≠ procError ∧
        (link.send o.appends (reply S o link.request)).2.accepted o.writes =
          (link.send o.appends (reply S o link.request)).2.output.content
  | _ => False

instance (S : Setup) (o : World) : DecidablePred (Drains S o)
  | (.vector (_ :: _), _) => inferInstanceAs (Decidable (_ ∧ _))
  | (.vector [], _) => inferInstanceAs (Decidable False)
  | (.badFormat, _) => inferInstanceAs (Decidable False)
  | (.noMemory, _) => inferInstanceAs (Decidable False)

/-- The sizes that `append_record` computes for the response are `int`s. -/
def Sized (resp : List Bytes) : Prop := ∀ s ∈ resp, s.length + 17 < 2 ^ 31

instance (resp : List Bytes) : Decidable (Sized resp) :=
  inferInstanceAs (Decidable (∀ s ∈ resp, s.length + 17 < 2 ^ 31))

/-- No socket takes all that is pending with an answer of the loop thread while the link is
subscribed to `FDEVENT_OUT`. -/
def Steady (S : Setup) (s : NetworkServer) : Action → Prop
  | .event o => o.Registered
  | .ready o => o.Registered ∧ ∀ id ∈ s.acting (.ready o), ∀ link ∈ s.links id,
      Sized (reply S o (link.recv o.alloc).2.request) ∧
        (s.flagsOf id &&& fdeventOut ≠ 0 → ¬ Drains S o (link.recv o.alloc))
  | .work _ _ o => o.Registered ∧ Sized o.resp
  | _ => True

instance (S : Setup) (s : NetworkServer) (a : Action) : Decidable (Steady S s a) :=
  match a with
  | .event o => inferInstanceAs (Decidable o.Registered)
  | .ready _ => inferInstanceAs (Decidable (_ ∧ _))
  | .work _ _ _ => inferInstanceAs (Decidable (_ ∧ _))
  | .wait _ => inferInstanceAs (Decidable True)
  | .withdraw => inferInstanceAs (Decidable True)
  | .take _ => inferInstanceAs (Decidable True)

variable {S : Setup} {s t : NetworkServer} {c c' : Conn} {a : Action}

theorem Steady.registered (ha : Steady S s a) : a.Registered := by
  cases a with
  | ready => exact ha.1
  | work => exact ha.1
  | event => exact ha
  | _ => trivial

/-- A link that is in no job is subscribed to `FDEVENT_OUT` as long as output is pending. -/
structure OutAsked (c : Conn) : Prop where
  output : ∀ link, c.link = some link → link.output.Wf
  asked : c.history.place = .idle ∨ c.history.place = .ready → ∀ link, c.link = some link →
    (c.flags &&& fdeventOut ≠ 0 ↔ link.output.size ≠ 0)

theorem OutAsked.none {h : History} : OutAsked ⟨none, 0, h⟩ :=
  ⟨fun _ heq ↦ (by cases heq), fun _ _ heq ↦ (by cases heq)⟩

theorem Settled.outAsked {o : World} {link : Link} {flags : Flags} {h : History}
    (hsettled : Settled o link flags h c) (hwf : link.output.Wf)
    (hleft : flags &&& fdeventOut ≠ 0 → ∀ after sent, Flushed o link after sent →
      after.output.size ≠ 0) : OutAsked c := by
  have houtput {after : Link} {sent : Option Bytes} (hflushed : Flushed o link after sent) :
      after.output.Wf := by
    by_cases hempty : link.output.size = 0
    · rw [(hflushed.empty hempty).1]
      exact hwf
    · rw [(hflushed.pending hempty).1]
      exact (Link.write_content o.writes hwf).1
  have hasked {after : Link} {sent : Option Bytes} (hflushed : Flushed o link after sent) :
      (if after.output.size ≠ 0 then flags ||| fdeventOut else flags) &&& fdeventOut ≠ 0 ↔
        after.output.size ≠ 0 := by
    by_cases hempty : after.output.size = 0
    · rw [if_neg (not_not.mpr hempty)]
      exact iff_of_false (fun hflag ↦ hleft hflag _ _ hflushed hempty) (not_not.mpr hempty)
    · rw [if_pos hempty, Flags.or_and_right]
      exact iff_of_true (by decide) hempty
  cases hsettled with
  | deleted => exact .none
  | idle hflushed =>
      refine ⟨?_, fun _ ↦ ?_⟩
      · rintro _ ⟨⟩
        exact houtput hflushed
      · rintro _ ⟨⟩
        rw [Flags.single_out.or, or_iff_left (by decide)]
        exact hasked hflushed
  | ready hflushed =>
      refine ⟨?_, fun _ ↦ ?_⟩
      · rintro _ ⟨⟩
        exact houtput hflushed
      · rintro _ ⟨⟩
        rw [Flags.single_out.and_not, and_iff_left (by decide)]
        exact hasked hflushed

theorem output_recv (alloc : Int → Bool) (link : Link) :
    (link.recv alloc).2.output = link.output := by
  rw [Link.recv]
  split
  · rfl
  · split
    · rfl
    · rfl
    · dsimp only
      split <;> rfl

theorem output_procRequest (alloc : Int → Bool) (reads : List ReadResult) (link : Link) :
    (link.procRequest alloc reads).output = link.output := by
  rw [Link.procRequest]
  split
  · rfl
  · dsimp only
    split <;> rfl

theorem size_ne_zero_iff {b : Buffer} (h : b.Wf) : b.size ≠ 0 ↔ b.content ≠ [] := by
  have hlength := h.length_content
  rw [← List.length_pos_iff]
  omega

theorem Move.outAsked {id : ℕ} (hmove : Move S a c c') (hconn : s.conn id = c) (hc : OutAsked c)
    (ha : Steady S s a) (hact : s.acting a = some id) : OutAsked c' := by
  have hnone {link : Link} (hleft : (0 : Flags) &&& fdeventOut ≠ 0) : link.output.size ≠ 0 :=
    absurd (by decide) hleft
  cases hmove with
  | accept =>
      refine ⟨?_, fun _ ↦ ?_⟩
      · rintro _ ⟨⟩
        exact Buffer.wf_new (by decide) (by decide)
      · rintro _ ⟨⟩
        exact iff_of_false (show ¬ fdeventIn &&& fdeventOut ≠ 0 by decide)
          (by simp [Link.new, Buffer.new])
  | marked hplace => exact ⟨hc.output, fun _ ↦ hc.asked (.inl hplace)⟩
  | read hplace =>
      refine ⟨?_, fun _ ↦ ?_⟩
      · rintro _ ⟨⟩
        rw [output_procRequest]
        exact hc.output _ rfl
      · rintro _ ⟨⟩
        rw [output_procRequest]
        exact hc.asked (.inl hplace) _ rfl
  | result => exact (settle_settled _ _ _ _ _).outAsked (hc.output _ rfl) fun h _ _ _ ↦ hnone h
  | drop => exact .none
  | reject => exact .none
  | more hplace =>
      refine ⟨?_, fun _ ↦ ?_⟩
      · rintro _ ⟨⟩
        rw [output_recv]
        exact hc.output _ rfl
      · rintro _ ⟨⟩
        rw [output_recv, Flags.single_out.or, or_iff_left (by decide)]
        exact hc.asked (.inr hplace) _ rfl
  | queue =>
      refine ⟨?_, fun hplace ↦ by rcases hplace with hplace | hplace <;> cases hplace⟩
      rintro _ ⟨⟩
      rw [output_recv]
      exact hc.output _ rfl
  | @answer o link link' flags h req resp hplace hrecv hne hthread hresp =>
      subst hresp
      have hlive : s.links id = some link := congrArg Conn.link hconn
      have hflags : s.flagsOf id = flags := congrArg Conn.flags hconn
      have hsame : link'.output = link.output := by
        rw [← output_recv o.alloc link, hrecv]
      have hwf : link'.output.Wf := hsame ▸ hc.output _ rfl
      obtain ⟨hsized, hdrains⟩ := ha.2 id hact link hlive
      rw [hrecv] at hsized
      obtain ⟨hwf', hfront⟩ := Link.send_keeps o.appends hwf hsized
      by_cases hcode : verdict S o link'.request = procError
      · rw [settle, if_pos hcode]
        exact .none
      · apply (settle_settled _ _ _ _ _).outAsked hwf'
        intro hout after sent hflushed
        -- what was pending before is in front of what is pending now
        have hpending : (link'.send o.appends (reply S o link'.request)).2.output.size ≠ 0 := by
          have hbefore := (hc.asked (.inr hplace) link rfl).mp hout
          rw [← hsame, size_ne_zero_iff hwf] at hbefore
          rw [size_ne_zero_iff hwf']
          intro hnil
          exact hbefore (List.prefix_nil.mp (hnil ▸ hfront))
        obtain ⟨rfl, rfl⟩ := hflushed.pending hpending
        obtain ⟨hwf'', hcontent⟩ := Link.write_content o.writes hwf'
        rw [size_ne_zero_iff hwf'']
        intro hnil
        obtain ⟨ref, req, rfl⟩ := List.exists_cons_of_ne_nil hne
        have hnot := hdrains (hflags ▸ hout)
        rw [hrecv] at hnot
        refine hnot ⟨hthread, hcode, ?_⟩
        rwa [hnil, List.append_nil] at hcontent
  | withdraw hplace =>
      refine ⟨?_, fun hfree ↦ ?_⟩
      · rintro _ ⟨⟩
        exact hc.output _ rfl
      · rcases hplace with hplace | hplace <;> simp [hplace] at hfree
  | @work p k o link link' flags h w sent hplace hsend hwrite =>
      refine ⟨?_, fun hfree ↦ by rcases hfree with hfree | hfree <;> cases hfree⟩
      rintro _ ⟨⟩
      have hwf : link'.output.Wf :=
        hsend ▸ (Link.send_keeps o.appends (hc.output _ rfl) ha.2).1
      rcases hwrite with ⟨rfl, -⟩ | ⟨rfl, -⟩
      · exact hwf
      · exact (Link.write_content o.writes hwf).1

theorem subscribed_of_steady (hs : Machine.ReachableVia (step S) (Steady S) (init S) s) :
    s.Subscribed := by
  intro _ id link hlink hjobs
  have hreached : Reached S s :=
    Relation.ReflTransGen.mono (fun _ _ ⟨a, ha, hstep⟩ ↦ ⟨a, ha.registered, hstep⟩) _ _ hs
  have hasked : OutAsked (s.conn id) :=
    conn_invariant (fun _ _ ha ↦ Steady.registered ha) .none
      (fun s a id c _ ha hact hc hmove ↦ hmove.outAsked rfl hc ha hact) hs id
  have hnot {job : ProcJob} (hjob : s.unfinishedOf id = [job] ∨ s.resultsOf id = [job]) :
      False := by
    have hmem : job ∈ s.unfinishedOf id ∨ job ∈ s.resultsOf id :=
      hjob.imp (fun h ↦ by simp [h]) fun h ↦ by simp [h]
    have hid : job ∈ s.inFlight ∧ job.link = id := by
      rcases hmem with hmem | hmem
      · obtain ⟨hmem, hid⟩ := List.mem_filter.mp hmem
        exact ⟨List.mem_append_left _ hmem, of_decide_eq_true hid⟩
      · obtain ⟨hmem, hid⟩ := List.mem_filter.mp hmem
        exact ⟨List.mem_append_right _ hmem, of_decide_eq_true hid⟩
    exact hjobs job hid.1 hid.2
  apply hasked.asked _ link hlink
  cases hreached.custody.held id with
  | gone hnone => cases hnone.symm.trans hlink
  | idle _ hplace => exact .inl hplace
  | ready _ hplace => exact .inr hplace
  | waiting _ _ _ _ hjob => exact (hnot (.inl hjob)).elim
  | finished _ _ _ _ _ hjob => exact (hnot (.inr hjob)).elim

/-! ## Reports of a writable socket -/

/-- The event that reports the link is one for `proc_request`. -/
theorem AwaitsWrite.event {id : ℕ} {link : Link} (h : s.AwaitsWrite id link)
    (hs : Custody S s) : ∃ p batch, s.pc = .events (p :: batch) ∧
      (s.fdes.table.heap p).dataPtr = id ∧ ∀ o, s.event p batch o =
        some (({ s with pc := .events batch } : NetworkServer).procRequest
          (s.fdes.table.heap p) o) := by
  obtain ⟨p, hp, hptr⟩ := Option.map_eq_some_iff.mp h.writable
  obtain ⟨hp, -⟩ := Option.filter_eq_some_iff.mp hp
  obtain ⟨batch, hbatch⟩ := List.head?_eq_some_iff.mp hp
  have hrange := (hs.wired.range h.live).1
  have hpc : s.pc = .events (p :: batch) := by
    rw [NetworkServer.batch] at hbatch
    split at hbatch
    · next hpc => rw [hpc, hbatch]
    · cases hbatch
  refine ⟨p, batch, hpc, hptr, fun o ↦ ?_⟩
  have hserv : id ≠ servPtr := by unfold servPtr; omega
  have hreader : id ≠ readerPtr := by unfold readerPtr; omega
  have hwriter : id ≠ writerPtr := by unfold writerPtr; omega
  rw [NetworkServer.event, hptr, if_neg hserv, if_neg hreader, if_neg hwriter]

/-- `proc_request` calls no `write` and leaves the output alone. -/
theorem procRequest_writes (fde : Fdevent) (o : World) {link : Link}
    (hlink : s.links fde.dataPtr = some link) :
    ((s.procRequest fde o).history fde.dataPtr).writes = (s.history fde.dataPtr).writes ∧
      ((s.procRequest fde o).links fde.dataPtr).map Link.output = some link.output := by
  rw [procRequest]
  split
  · dsimp only
    rw [hlink]
    dsimp only [push, store]
    rw [if_neg (by decide)]
    simp only [Function.update_self, Option.map_some, output_procRequest, and_true]
    split <;> rfl
  · rw [hlink]
    exact ⟨rfl, rfl⟩

theorem AwaitsWrite.not_written {id : ℕ} {link : Link} (h : s.AwaitsWrite id link)
    (hs : Custody S s) {o : World} (hstep : step S s (.event o) = some t) :
    (t.history id).writes = (s.history id).writes ∧
      (t.links id).map Link.output = some link.output := by
  obtain ⟨p, batch, hpc, rfl, hevent⟩ := h.event hs
  simp only [step, hpc] at hstep
  split at hstep
  · rw [hevent] at hstep
    cases hstep
    exact procRequest_writes (s := { s with pc := .events batch }) _ o h.live
  · cases hstep

theorem AwaitsWrite.not_flushes {id : ℕ} {link : Link} (h : s.AwaitsWrite id link)
    (hs : Custody S s) : ¬ Flushes S s := by
  intro hflushes
  obtain ⟨p, batch, hpc, -, hevent⟩ := h.event hs
  have hstep : step S s (.event quietWorld) = s.event p batch quietWorld := by
    simp only [step, hpc]
    exact if_pos (by simp [quietWorld])
  rw [hevent] at hstep
  have hwritten := (hflushes.written _ _ (.inl rfl) hstep id link h).1
  rw [(h.not_written hs hstep).1] at hwritten
  exact lt_irrefl _ hwritten

/-- No report of a writable socket, in any run, makes the loop write, so that the loop does
as it should as long as none is due. The subscriptions are right in every run in which no socket
takes all that is pending with an answer of the loop thread to a subscribed link. -/
theorem flushes_of_steady (hs : Reached S s) :
    (∀ o t id link, step S s (.event o) = some t → s.AwaitsWrite id link →
        (t.history id).writes = (s.history id).writes ∧
          (t.links id).map Link.output = some link.output) ∧
      (Machine.ReachableVia (step S) (Steady S) (init S) s →
        s.Subscribed ∧ (Flushes S s ↔ ∀ id link, ¬ s.AwaitsWrite id link)) := by
  refine ⟨fun o t id link hstep hawaits ↦ hawaits.not_written hs.custody hstep, fun hsteady ↦ ?_⟩
  have hsubscribed := subscribed_of_steady hsteady
  refine ⟨hsubscribed, fun hflushes id link hawaits ↦ hawaits.not_flushes hs.custody hflushes,
    fun hnone ↦ ⟨hsubscribed, fun _ _ _ _ id link hawaits ↦ absurd hawaits (hnone id link)⟩⟩

/-- A client that takes two of six bytes, so that its link waits to become writable. -/
def slowClient : List Action :=
  [.wait [(3, epollIn)], .event { quietWorld with sock := some 7 }, .event quietWorld,
    .ready quietWorld, .wait [(7, epollIn)],
    .event { quietWorld with reads := [.bytes (ascii "4\nping\n\n")] }, .event quietWorld,
    .ready { quietWorld with writes := [.accepted 2] }, .ready quietWorld]

theorem flushes_of_steady_slow : ∃ s, Machine.ReachableVia (step smallSetup) (Steady smallSetup)
      (init smallSetup) s ∧
    s.pc = .top ∧ (s.links 4).isSome = true ∧ s.flagsOf 4 &&& fdeventOut ≠ 0 ∧ s.Subscribed := by
  obtain ⟨s, hrun, hs⟩ := (Option.any_eq_true ..).mp
    (show (Machine.runVia (step smallSetup) (Steady smallSetup) (init smallSetup) slowClient).any
      (fun s ↦ s.pc = .top ∧ (s.links 4).isSome = true ∧ s.flagsOf 4 &&& fdeventOut ≠ 0) = true by
        decide +kernel)
  have hsteady := Machine.reachableVia_of_run hrun
  have hreached : Reached smallSetup s :=
    Relation.ReflTransGen.mono (fun _ _ ⟨a, ha, hstep⟩ ↦ ⟨a, ha.registered, hstep⟩) _ _ hsteady
  obtain ⟨htop, hlive, hout⟩ := of_decide_eq_true hs
  exact ⟨s, hsteady, htop, hlive, hout, ((flushes_of_steady hreached).2 hsteady).1⟩

/-- The client is ready to take the rest, and nothing is written. -/
theorem not_flushes : ¬ ∀ s, Reached smallSetup s → Flushes smallSetup s := by
  intro hall
  let o : World := { quietWorld with writes := [.accepted 100] }
  obtain ⟨s, hrun, hs⟩ := (Option.any_eq_true ..).mp
    (show (Machine.runVia (step smallSetup) (fun _ a ↦ a.Registered) (init smallSetup)
      (slowClient ++ [.wait [(7, epollOut)]])).any (fun s ↦
        s.writable = some 4 ∧ s.inFlight.isEmpty = true ∧
        (s.links 4).any (fun link ↦ link.output.size = 4) = true ∧
        (step smallSetup s (.event o)).any (fun t ↦
          (t.history 4).writes = (s.history 4).writes) = true) = true by decide +kernel)
  obtain ⟨hwritable, hjobs, hlink, hstep⟩ := of_decide_eq_true hs
  obtain ⟨link, hlink, hpending⟩ := (Option.any_eq_true ..).mp hlink
  obtain ⟨t, hstep, hsame⟩ := (Option.any_eq_true ..).mp hstep
  have hsize := of_decide_eq_true hpending
  have hflushes := hall s (Machine.reachableVia_of_run hrun)
  have hwritten := (hflushes.written o t (.inl rfl) hstep 4 link
    ⟨hwritable, hlink, by omega, by simp [List.isEmpty_iff.mp hjobs]⟩).1
  rw [of_decide_eq_true hsame] at hwritten
  exact lt_irrefl _ hwritten

end NetworkServer

end GeminiDB
