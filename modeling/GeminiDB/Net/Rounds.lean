import GeminiDB.Net.Pipes
import GeminiDB.Net.Unread

/-!
# The rounds of the event loop

What a round over one event or one ready link does to the lists of the loop, to its batch
and to the results of the pools.
-/

namespace GeminiDB

namespace NetworkServer

variable {S : Setup} {s s' s'' : NetworkServer} {id : ℕ} {link : Link}

/-- A piece of a step that touches neither the lists nor the pools. -/
structure Piece (S : Setup) (s s' : NetworkServer) : Prop where
  lists : SameLists s s'
  next : s.next ≤ s'.next
  posts : Posts S s.fdes s'.fdes

theorem Piece.refl (s : NetworkServer) : Piece S s s :=
  ⟨⟨rfl, rfl, rfl, rfl⟩, le_rfl, .refl _⟩

theorem Piece.trans (h : Piece S s s') (h' : Piece S s' s'') : Piece S s s'' :=
  ⟨h.lists.trans h'.lists, h.next.trans h'.next, h.posts.trans h'.posts⟩

/-- The link is one of a client. -/
structure Foreign (S : Setup) (id : ℕ) (link : Link) : Prop where
  address : 4 ≤ id
  fd : link.fd ∉ (own S).map Prod.fst

theorem Wired.foreign (hw : Wired S s) (hlink : s.links id = some link) : Foreign S id link :=
  ⟨(hw.range hlink).1, hw.client hlink⟩

theorem Foreign.of_fd (h : Foreign S id link) {link' : Link} (hfd : link'.fd = link.fd) :
    Foreign S id link' :=
  ⟨h.address, hfd ▸ h.fd⟩

theorem piece_store (id : ℕ) (link : Link) (h : History) (s : NetworkServer) :
    Piece S s (s.store id link h) :=
  ⟨⟨rfl, rfl, rfl, rfl⟩, le_rfl, .refl _⟩

theorem Foreign.watch (h : Foreign S id link) (flag : Flags) (s : NetworkServer) :
    Piece S s (s.watch flag id link) :=
  ⟨⟨rfl, rfl, rfl, rfl⟩, le_rfl, posts_set h.fd flag 1 h.address s.fdes⟩

theorem Foreign.watch_if (h : Foreign S id link) (p : Prop) [Decidable p] (flag : Flags)
    (s : NetworkServer) : Piece S s (if p then s.watch flag id link else s) := by
  split
  · exact h.watch flag s
  · exact .refl s

theorem Foreign.unwatch (h : Foreign S id link) (flag : Flags) (s : NetworkServer) :
    Piece S s (s.unwatch flag link) :=
  ⟨⟨rfl, rfl, rfl, rfl⟩, le_rfl, posts_clr h.fd flag s.fdes⟩

theorem Foreign.deleteLink (h : Foreign S id link) (s : NetworkServer) :
    Piece S s (s.deleteLink id link) :=
  ⟨⟨rfl, rfl, rfl, rfl⟩, le_rfl, posts_del h.fd s.fdes⟩

/-- A piece after which the link may have been listed. -/
def Lists (S : Setup) (second : Bool) (id : ℕ) (s s' : NetworkServer) : Prop :=
  ∃ r, Piece S s r ∧ (s' = r ∨ s' = r.push second id)

theorem lists_procResult (second : Bool) (job : ProcJob) (o : World)
    (hlink : s.links job.link = some link) (hforeign : Foreign S job.link link) :
    Lists S second job.link s (s.procResult second job o) := by
  rw [procResult]
  dsimp only
  rw [hlink]
  dsimp only
  by_cases herr : job.result = procError
  · rw [if_pos herr]
    exact ⟨_, hforeign.deleteLink s, .inl rfl⟩
  · rw [if_neg herr]
    have hsame : Foreign S job.link
        (if link.output.size ≠ 0 then link.write o.writes else (0, link)).2 := by
      split
      · exact hforeign.of_fd (fd_write o.writes link)
      · exact hforeign
    generalize (if link.output.size ≠ 0 then link.write o.writes else (0, link)) = w at hsame ⊢
    generalize (if link.output.size ≠ 0 then some (link.accepted o.writes) else none) = sent
    have hstore (h : History) : Piece S s (s.store job.link w.2 h) := piece_store ..
    by_cases hdead : w.1 < 0
    · rw [if_pos hdead]
      exact ⟨_, (hstore _).trans (hsame.deleteLink _), .inl rfl⟩
    · rw [if_neg hdead]
      have hflush (h : History) := (hstore h).trans
        (hsame.watch_if (w.2.output.size ≠ 0) fdeventOut _)
      by_cases hidle : w.2.input.size = 0
      · rw [if_pos hidle]
        exact ⟨_, (hflush _).trans (hsame.watch fdeventIn _), .inl rfl⟩
      · rw [if_neg hidle]
        exact ⟨_, (hflush _).trans (hsame.unwatch fdeventIn _), .inr rfl⟩

/-- The loop over the events stays where it is and lists one link at most. -/
theorem Lists.first (h : Lists S false id s s') :
    s'.pc = s.pc ∧ s'.pools = s.pools ∧ s'.readyList2 = s.readyList2 ∧
      s'.readyList.length ≤ s.readyList.length + 1 ∧ s.next ≤ s'.next ∧
        Posts S s.fdes s'.fdes := by
  obtain ⟨r, hpiece, rfl | rfl⟩ := h
  · exact ⟨hpiece.lists.pc, hpiece.lists.pools, hpiece.lists.second,
      by rw [hpiece.lists.first]; omega, hpiece.next, hpiece.posts⟩
  · refine ⟨hpiece.lists.pc, hpiece.lists.pools, hpiece.lists.second, ?_, hpiece.next,
      hpiece.posts⟩
    simp [push, hpiece.lists.first]

theorem lists_procRequest {fde : Fdevent} (o : World)
    (hlink : fde.events &&& fdeventIn ≠ 0 → ∃ link, s.links fde.dataPtr = some link) :
    Lists S false fde.dataPtr s (s.procRequest fde o) := by
  rw [procRequest]
  by_cases hin : fde.events &&& fdeventIn ≠ 0
  · rw [if_pos hin]
    obtain ⟨link, hsome⟩ := hlink hin
    dsimp only
    rw [hsome]
    exact ⟨_, piece_store .., .inr rfl⟩
  · rw [if_neg hin]
    exact ⟨s, .refl s, .inl rfl⟩

theorem piece_accept {o : World} (hstart : 4 ≤ s.next) (hsock : ∀ sock ∈ o.sock, s.Unused S sock) :
    Piece S s (s.accept o) := by
  rw [accept]
  cases ho : o.sock with
  | none => exact .refl s
  | some sock =>
      have hforeign : Foreign S s.next { Link.new sock with noblock := true } :=
        ⟨hstart, (hsock sock ho).1⟩
      have hnew : Piece S s
          { s.store s.next { Link.new sock with noblock := true } History.init with
            next := s.next + 1
            linkCount := s.linkCount + 1 } :=
        ⟨⟨rfl, rfl, rfl, rfl⟩, Nat.le_succ _, .refl _⟩
      exact hnew.trans (hforeign.watch fdeventIn _)

/-- A result is taken from its pool, and its link may be listed. -/
theorem lists_popResult (hs : Custody S s) {batch : List ℕ} {q : PoolId} {o : World}
    (h : ({ s with pc := .events batch } : NetworkServer).popResult q o = some s') :
    ∃ job results, (s.pools q).results = job :: results ∧
      Lists S false job.link
        { s with
          pc := .events batch
          pools := Function.update s.pools q { s.pools q with results := results } } s' := by
  rw [popResult] at h
  split at h
  · cases h
  · next job results hresults =>
    cases h
    have hjob : job ∈ (s.pools q).results := hresults ▸ List.mem_cons_self
    obtain ⟨link, hlink, -⟩ := hs.result (mem_results hjob)
    exact ⟨job, results, hresults,
      lists_procResult (s := { s with pc := _, pools := _ }) false job o hlink
        (hs.wired.foreign hlink)⟩

/-- What the round for one event does; an event of a pool takes a result of it. -/
theorem event_round (hs : Custody S s) {p : ℕ} {batch : List ℕ}
    (hpc : s.pc = .events (p :: batch)) {o : World} (hsock : ∀ sock ∈ o.sock, s.Unused S sock)
    (h : s.event p batch o = some s') :
    s'.pc = .events batch ∧ s.next ≤ s'.next ∧ Posts S s.fdes s'.fdes ∧
      ((∀ q : PoolId, (s.fdes.table.heap p).dataPtr ≠ q.ptr) → s'.pools = s.pools) ∧
        ∀ q : PoolId, (s.fdes.table.heap p).dataPtr = q.ptr →
          ∃ job results, (s.pools q).results = job :: results ∧
            s'.pools = Function.update s.pools q { s.pools q with results := results } ∧
              s'.readyList2 = s.readyList2 ∧ s'.readyList.length ≤ s.readyList.length + 1 := by
  have hpop {p : PoolId} (hpop : ({ s with pc := .events batch } : NetworkServer).popResult p o =
      some s') : s'.pc = .events batch ∧ s.next ≤ s'.next ∧ Posts S s.fdes s'.fdes ∧
        ∃ job results, (s.pools p).results = job :: results ∧
          s'.pools = Function.update s.pools p { s.pools p with results := results } ∧
            s'.readyList2 = s.readyList2 ∧ s'.readyList.length ≤ s.readyList.length + 1 := by
    obtain ⟨job, results, hresults, hlists⟩ := lists_popResult hs hpop
    obtain ⟨hpc', hpools, hsecond, hfirst, hnext, hposts⟩ := hlists.first
    exact ⟨hpc', hnext, hposts, job, results, hresults, hpools, hsecond, hfirst⟩
  rw [event] at h
  split at h
  · next hserv =>
    cases h
    have hpiece : Piece S { s with pc := .events batch } _ :=
      piece_accept (o := o) hs.wired.start hsock
    refine ⟨hpiece.lists.pc, hpiece.next, hpiece.posts, fun _ ↦ hpiece.lists.pools,
      fun q hq ↦ ?_⟩
    cases q <;> cases hserv.symm.trans hq
  · next hserv =>
    split at h
    · next hreader =>
      obtain ⟨hpc', hnext, hposts, hresult⟩ := hpop h
      refine ⟨hpc', hnext, hposts, fun hnot ↦ absurd hreader (hnot .reader), fun q hq ↦ ?_⟩
      cases q with
      | reader => exact hresult
      | writer => cases hreader.symm.trans hq
    · next hreader =>
      split at h
      · next hwriter =>
        obtain ⟨hpc', hnext, hposts, hresult⟩ := hpop h
        refine ⟨hpc', hnext, hposts, fun hnot ↦ absurd hwriter (hnot .writer), fun q hq ↦ ?_⟩
        cases q with
        | reader => cases hwriter.symm.trans hq
        | writer => exact hresult
      · next hwriter =>
        cases h
        have hlists : Lists S false (s.fdes.table.heap p).dataPtr { s with pc := .events batch }
            (({ s with pc := .events batch } : NetworkServer).procRequest
              (s.fdes.table.heap p) o) := by
          refine lists_procRequest o fun hin ↦ ?_
          obtain ⟨link, hlink, -⟩ :=
            readable_idle hs.wired hs.held hpc hserv hreader hwriter hin
          exact ⟨link, hlink⟩
        obtain ⟨hpc', hpools, -, -, hnext, hposts⟩ := hlists.first
        refine ⟨hpc', hnext, hposts, fun _ ↦ hpools, fun q hq ↦ ?_⟩
        cases q with
        | reader => exact absurd hq hreader
        | writer => exact absurd hq hwriter

/-- Without a request the round for one ready link only takes it from the list. -/
theorem piece_readyLink {rest : List ℕ} {o : World} (hlink : s.links id = some link)
    (hforeign : Foreign S id link) (hnone : Unparsed o link) :
    Piece S { s with pc := .ready rest } (s.readyLink S id rest o) := by
  have hrecv := hforeign.of_fd (fd_recv o.alloc link)
  have hdelete (h : History) : Piece S { s with pc := .ready rest }
      ((({ s with pc := .ready rest } : NetworkServer).store id (link.recv o.alloc).2 h).deleteLink
        id (link.recv o.alloc).2) :=
    (piece_store ..).trans (hrecv.deleteLink _)
  rw [readyLink]
  dsimp only
  rw [hlink]
  dsimp only
  split
  · exact hforeign.deleteLink _
  · next herror =>
    split
    · exact hdelete _
    · exact hdelete _
    · next req hreq =>
      split
      · exact (piece_store ..).trans (hrecv.watch fdeventIn _)
      · next hne =>
        rcases hnone with herr | hnone
        · exact absurd herr herror
        · exact absurd hreq (hnone req (by simpa using hne))

theorem posts_procResult (second : Bool) (job : ProcJob) (o : World)
    (hlink : s.links job.link = some link) (hforeign : Foreign S job.link link) :
    s.next ≤ (s.procResult second job o).next ∧
      (s.procResult second job o).pc = s.pc ∧
        Posts S s.fdes (s.procResult second job o).fdes := by
  obtain ⟨r, hpiece, heq | heq⟩ := lists_procResult (S := S) second job o hlink hforeign
  · rw [heq]
    exact ⟨hpiece.next, hpiece.lists.pc, hpiece.posts⟩
  · rw [heq]
    cases second <;> exact ⟨hpiece.next, hpiece.lists.pc, hpiece.posts⟩

theorem posts_finish (req resp : List Bytes) (result : Int) (o : World)
    (hforeign : Foreign S id link) :
    s.next ≤ (s.finish req resp result id link o).next ∧
      (s.finish req resp result id link o).pc = s.pc ∧
        Posts S s.fdes (s.finish req resp result id link o).fdes := by
  have hsent := hforeign.of_fd (fd_send o.appends resp link)
  rw [finish]
  dsimp only
  generalize (if (link.send o.appends resp).1 = -1 then procError else result) = code
  by_cases hthread : code = procThread
  · rw [if_pos hthread]
    exact ⟨le_rfl, rfl, posts_del hsent.fd s.fdes⟩
  · rw [if_neg hthread]
    by_cases hbackend : code = procBackend
    · rw [if_pos hbackend]
      exact ⟨le_rfl, rfl, posts_del hsent.fd s.fdes⟩
    · rw [if_neg hbackend]
      have hstored : (s.store id (link.send o.appends resp).2 ((s.history id).answer req resp link
          (link.send o.appends resp).2)).links id = some (link.send o.appends resp).2 :=
        Function.update_self ..
      exact posts_procResult true ⟨code, id, none, resp, req, _⟩ o hstored hsent

/-- After the round for one ready link the loop goes on with the others. -/
theorem posts_readyLink {rest : List ℕ} (o : World) (hlink : s.links id = some link)
    (hforeign : Foreign S id link) :
    s.next ≤ (s.readyLink S id rest o).next ∧ (s.readyLink S id rest o).batch = [] ∧
      Posts S s.fdes (s.readyLink S id rest o).fdes := by
  by_cases hnone : Unparsed o link
  · have hpiece : Piece S { s with pc := .ready rest } (s.readyLink S id rest o) :=
      piece_readyLink hlink hforeign hnone
    refine ⟨hpiece.next, ?_, hpiece.posts⟩
    rw [batch, hpiece.lists.pc]
  · simp only [Unparsed, not_or, not_forall, not_not] at hnone
    obtain ⟨herror, req, hne, hreq⟩ := hnone
    have hrecv := hforeign.of_fd (fd_recv o.alloc link)
    have hempty : req.isEmpty = false := by simpa using hne
    have hfinish (h : History) (req resp : List Bytes) (result : Int) :
        s.next ≤ ((({ s with pc := .ready rest } : NetworkServer).store id (link.recv o.alloc).2
            h).finish req resp result id (link.recv o.alloc).2 o).next ∧
          ((({ s with pc := .ready rest } : NetworkServer).store id (link.recv o.alloc).2
            h).finish req resp result id (link.recv o.alloc).2 o).batch = [] ∧
            Posts S s.fdes ((({ s with pc := .ready rest } : NetworkServer).store id
              (link.recv o.alloc).2 h).finish req resp result id (link.recv o.alloc).2 o).fdes := by
      obtain ⟨hnext, hpc, hposts⟩ := posts_finish
        (s := ({ s with pc := .ready rest } : NetworkServer).store id (link.recv o.alloc).2 h)
        req resp result o hrecv
      refine ⟨hnext, ?_, hposts⟩
      rw [batch, hpc]
      rfl
    rw [readyLink]
    dsimp only
    rw [hlink]
    dsimp only
    rw [if_neg herror, hreq]
    dsimp only
    rw [hempty, if_neg Bool.false_ne_true, proc]
    dsimp only
    split
    · exact hfinish _ _ _ _
    · split
      · exact ⟨le_rfl, rfl, .refl _⟩
      · exact hfinish _ _ _ _

end NetworkServer

end GeminiDB
