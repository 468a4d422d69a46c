import GeminiDB.Net.Rounds

/-!
# What the loop has left to do

Events that are not of a pool come first, then bytes that are not parsed, then results,
ready links and the way to the next `wait`. Every step of the loop makes less of it, as
long as `wait` has only results to report.
-/

namespace GeminiDB

namespace NetworkServer

variable {S : Setup} {s s' : NetworkServer} {id : ℕ} {link : Link}

/-- The bytes of all links that are not parsed. -/
def unread (s : NetworkServer) : ℕ := ∑ id ∈ Finset.range s.next, (s.conn id).unread

/-- The events of the batch that announce a result of the pool. -/
def announced (s : NetworkServer) (q : PoolId) : ℕ :=
  s.batch.countP fun p ↦ (s.fdes.table.heap p).dataPtr = q.ptr

/-- The other events of the batch. -/
def pending (s : NetworkServer) : ℕ :=
  s.batch.countP fun p ↦ (s.fdes.table.heap p).dataPtr ∉ [readerPtr, writerPtr]

/-- The results of the pool that no event of the batch is for. -/
def unclaimed (s : NetworkServer) (q : PoolId) : ℕ := (s.pools q).results.length - s.announced q

/-- The way to the next `wait`; with nothing ready the loop sleeps there. -/
def distance (s : NetworkServer) : ℕ :=
  match s.pc with
  | .top => if s.readyList = [] then 0 else 3
  | .events _ => 2
  | .ready _ => 1
  | .withdraw _ _ => 2
  | .crashed => 0

/-- What the loop has to do when nothing more is parsed. -/
def effort (s : NetworkServer) : ℕ :=
  5 * (s.unclaimed .reader + s.unclaimed .writer) + 2 * s.batch.length + s.todo.length +
    4 * s.readyList2.length + s.distance

/-- Every announced result is there. -/
def Backed (s : NetworkServer) : Prop := ∀ q, s.announced q ≤ (s.pools q).results.length

theorem Wired.conn_unread (hw : Wired S s) (hid : (s.conn id).unread ≠ 0) : id < s.next := by
  rw [Conn.unread, conn] at hid
  dsimp only at hid
  cases hlink : s.links id with
  | none =>
      rw [hlink] at hid
      exact absurd rfl hid
  | some link => exact (hw.range hlink).2

theorem Wired.sum_unread (hw : Wired S s) {n : ℕ} (hn : s.next ≤ n) :
    ∑ id ∈ Finset.range n, (s.conn id).unread = s.unread := by
  refine (Finset.sum_subset (Finset.range_mono hn) fun id _ hid ↦ ?_).symm
  by_contra hne
  exact hid (Finset.mem_range.mpr (hw.conn_unread hne))

theorem Wired.unread_le (hw : Wired S s) (hnext : s.next ≤ s'.next)
    (hle : ∀ id, (s'.conn id).unread ≤ (s.conn id).unread) : s'.unread ≤ s.unread := by
  rw [← hw.sum_unread hnext]
  exact Finset.sum_le_sum fun id _ ↦ hle id

theorem Wired.unread_lt (hw : Wired S s) (hnext : s.next ≤ s'.next)
    (hle : ∀ id, (s'.conn id).unread ≤ (s.conn id).unread)
    (hlt : (s'.conn id).unread < (s.conn id).unread) : s'.unread < s.unread := by
  rw [← hw.sum_unread hnext]
  have hid := hw.conn_unread (Nat.ne_zero_of_lt hlt)
  exact Finset.sum_lt_sum (fun i _ ↦ hle i) ⟨id, Finset.mem_range.mpr (hid.trans_le hnext), hlt⟩

/-- Outside the loop over the events nothing is announced. -/
theorem announced_nil (hbatch : s.batch = []) (q : PoolId) : s.announced q = 0 := by
  rw [announced, hbatch]
  rfl

theorem unclaimed_nil (hbatch : s.batch = []) (q : PoolId) :
    s.unclaimed q = (s.pools q).results.length := by
  rw [unclaimed, announced_nil hbatch, Nat.sub_zero]

theorem pending_nil (hbatch : s.batch = []) : s.pending = 0 := by
  rw [pending, hbatch]
  rfl

/-- The objects of a batch keep their data, as far as the server's own are concerned. -/
theorem Posts.announced_eq {r : NetworkServer} (h : Posts S s.fdes r.fdes)
    (hposted : Posted S s.fdes.table) (hmade : ∀ p ∈ r.batch, ∃ fd : ℕ,
      s.fdes.table.events[fd]? = some p) (q : PoolId) :
    r.announced q = r.batch.countP fun p ↦ (s.fdes.table.heap p).dataPtr = q.ptr :=
  List.countP_congr fun p hp ↦ by
    simpa using h.ptr_iff hposted (pool_own S q) (hmade p hp)

theorem Posts.pending_eq {r : NetworkServer} (h : Posts S s.fdes r.fdes)
    (hposted : Posted S s.fdes.table) (hmade : ∀ p ∈ r.batch, ∃ fd : ℕ,
      s.fdes.table.events[fd]? = some p) :
    r.pending = r.batch.countP fun p ↦ (s.fdes.table.heap p).dataPtr ∉ [readerPtr, writerPtr] := by
  refine List.countP_congr fun p hp ↦ ?_
  have hreader := h.ptr_iff hposted (pool_own S .reader) (hmade p hp)
  have hwriter := h.ptr_iff hposted (pool_own S .writer) (hmade p hp)
  simp only [PoolId.ptr] at hreader hwriter
  simp [hreader, hwriter]

/-! ## Events -/

theorem ptr_inj {q q' : PoolId} (h : q.ptr = q'.ptr) : q = q' := by
  cases q <;> cases q' <;> first | rfl | cases h

/-- A round that takes a result from its pool and lists its link. -/
theorem effort_pop {p : ℕ} {batch : List ℕ} (hpc : s.pc = .events (p :: batch))
    (hpc' : s'.pc = .events batch) {q : PoolId}
    (hannounced : ∀ q', s.announced q' = (if q' = q then 1 else 0) + s'.announced q')
    {job : ProcJob} {results : List ProcJob} (hresults : (s.pools q).results = job :: results)
    (hpools : s'.pools = Function.update s.pools q { s.pools q with results := results })
    (hsecond : s'.readyList2 = s.readyList2)
    (hfirst : s'.readyList.length ≤ s.readyList.length + 1) : s'.effort < s.effort := by
  have hunclaimed (q' : PoolId) : s'.unclaimed q' = s.unclaimed q' := by
    rw [unclaimed, unclaimed, hannounced q', hpools]
    by_cases hq : q' = q
    · subst hq
      rw [Function.update_self, if_pos rfl, hresults, List.length_cons]
      dsimp only
      omega
    · rw [Function.update_of_ne hq, if_neg hq, Nat.zero_add]
  simp only [effort, hunclaimed, NetworkServer.batch, todo, distance, hpc, hpc', hsecond,
    List.length_cons]
  omega

/-- A round for an event leaves fewer events that are not of a pool, or fewer results. -/
theorem event_lowers (hs : Custody S s) (hposted : Posted S s.fdes.table) {p : ℕ}
    {batch : List ℕ} (hpc : s.pc = .events (p :: batch)) {o : World}
    (hsock : ∀ sock ∈ o.sock, s.Unused S sock)
    (hwf : ∀ id link, s.links id = some link → link.input.Wf)
    (h : s.event p batch o = some s') :
    s'.pending < s.pending ∨ s'.pending = s.pending ∧ s'.unread ≤ s.unread ∧
      s'.effort < s.effort ∧ s'.unfinished = s.unfinished := by
  obtain ⟨hpc', hnext, hposts, -, hpool⟩ := event_round hs hpc hsock h
  have hbatch : s.batch = p :: batch := by rw [NetworkServer.batch, hpc]
  have hbatch' : s'.batch = batch := by rw [NetworkServer.batch, hpc']
  have hmade : ∀ q ∈ s'.batch, ∃ fd : ℕ, s.fdes.table.events[fd]? = some q := by
    rw [hbatch']
    intro q hq
    exact hs.wired.made q (hbatch ▸ List.mem_cons_of_mem p hq)
  have hpending := hposts.pending_eq hposted hmade
  rw [hbatch'] at hpending
  rw [hpending, pending, hbatch, List.countP_cons]
  by_cases hown : (s.fdes.table.heap p).dataPtr ∉ [readerPtr, writerPtr]
  · rw [if_pos (decide_eq_true hown)]
    exact .inl (Nat.lt_succ_self _)
  · rw [if_neg (by simpa using hown)]
    obtain ⟨q, hq⟩ : ∃ q : PoolId, (s.fdes.table.heap p).dataPtr = q.ptr := by
      rw [not_not, List.mem_cons, List.mem_singleton] at hown
      exact hown.elim (fun h ↦ ⟨.reader, h⟩) fun h ↦ ⟨.writer, h⟩
    obtain ⟨job, results, hresults, hpools, hsecond, hfirst⟩ := hpool q hq
    have hjob : job ∈ (s.pools q).results := hresults ▸ List.mem_cons_self
    obtain ⟨link, hlink, hplace, -⟩ := hs.result (mem_results hjob)
    refine .inr ⟨rfl, hs.wired.unread_le hnext fun i ↦ ?_, ?_, ?_⟩
    · rcases (event_steps hs hpc hsock h).2 i with hsame | ⟨hact, hmove⟩
      · rw [hsame]
      · obtain rfl : job.link = i := by
          rw [acting, hpc] at hact
          dsimp only at hact
          rw [hq] at hact
          cases q <;> simpa [PoolId.ptr, servPtr, readerPtr, writerPtr, hresults] using hact
        exact hmove.unread_le (hwf _) (fun _ ↦ hplace) (by rw [conn, hlink]; simp)
    · refine effort_pop hpc hpc' (fun q' ↦ ?_) hresults hpools hsecond hfirst
      have hannounced := hposts.announced_eq hposted hmade q'
      rw [hbatch'] at hannounced
      rw [hannounced, announced, hbatch, List.countP_cons, Nat.add_comm, hq]
      by_cases heq : q' = q
      · subst heq
        simp
      · have hne : q.ptr ≠ q'.ptr := fun hptr ↦ heq (ptr_inj hptr).symm
        simp [heq, hne]
    · rw [unfinished, unfinished, hpools]
      cases q <;> simp

theorem effort_events (hpc : s.pc = .events []) :
    ({ s with pc := .ready s.readyList } : NetworkServer).effort < s.effort := by
  have hbatch : s.batch = [] := by rw [NetworkServer.batch, hpc]
  have hbatch' : ({ s with pc := .ready s.readyList } : NetworkServer).batch = [] := rfl
  simp only [effort, unclaimed_nil hbatch, unclaimed_nil hbatch', hbatch, hbatch', todo, distance,
    hpc]
  omega

/-! ## Ready links -/

/-- A round for a ready link parses something, or the list gets shorter. -/
theorem ready_lowers (hs : Custody S s) {rest : List ℕ} (hpc : s.pc = .ready (id :: rest))
    {o : World} (ho : o.Registered)
    (hwf : ∀ id link, s.links id = some link → link.input.Wf) :
    (s.readyLink S id rest o).unread < s.unread ∨
      (s.readyLink S id rest o).unread ≤ s.unread ∧ (s.readyLink S id rest o).effort < s.effort ∧
        (s.readyLink S id rest o).pools = s.pools := by
  obtain ⟨-, -, -, link, hlink, -⟩ := hs.takeReady hpc
  have hforeign := hs.wired.foreign hlink
  obtain ⟨hnext, -, -⟩ := posts_readyLink (S := S) o hlink hforeign
  obtain ⟨c, hserved, hmove⟩ := readyLink_spec hs hpc ho
  obtain ⟨hle, hlt⟩ := hmove.unread_ready hlink (hwf id link hlink)
  rw [← hserved.conn] at hle hlt
  have hall (i : ℕ) : ((s.readyLink S id rest o).conn i).unread ≤ (s.conn i).unread := by
    by_cases hi : i = id
    · rw [hi]
      exact hle
    · rw [hserved.others i hi]
  by_cases hnone : Unparsed o link
  · have hpiece : Piece S { s with pc := .ready rest } (s.readyLink S id rest o) :=
      piece_readyLink hlink hforeign hnone
    refine .inr ⟨hs.wired.unread_le hnext hall, ?_, hpiece.lists.pools⟩
    have hpc' : (s.readyLink S id rest o).pc = .ready rest := hpiece.lists.pc
    have hbatch : s.batch = [] := by rw [NetworkServer.batch, hpc]
    have hbatch' : (s.readyLink S id rest o).batch = [] := by rw [NetworkServer.batch, hpc']
    simp only [effort, unclaimed_nil hbatch, unclaimed_nil hbatch', hbatch, hbatch', todo,
      distance, hpc, hpc', hpiece.lists.pools, hpiece.lists.second, List.length_cons]
    omega
  · exact .inl (hs.wired.unread_lt hnext hall (hlt hnone))

/-- With something in the second list the loop will not sleep. -/
theorem effort_ready (hpc : s.pc = .ready []) :
    ({ s with readyList := s.readyList2, readyList2 := [], pc := .top } :
      NetworkServer).effort < s.effort := by
  have hbatch : s.batch = [] := by rw [NetworkServer.batch, hpc]
  have hbatch' : ({ s with readyList := s.readyList2, readyList2 := [], pc := .top } :
    NetworkServer).batch = [] := rfl
  simp only [effort, unclaimed_nil hbatch, unclaimed_nil hbatch', hbatch, hbatch', todo, distance,
    hpc, List.length_nil]
  cases hsecond : s.readyList2 with
  | nil => simp
  | cons id rest =>
      rw [if_neg (List.cons_ne_nil id rest), List.length_cons]
      omega

theorem effort_withdraw {rest : List ℕ} (hpc : s.pc = .withdraw id rest)
    (hpc' : s'.pc = .ready rest) (hpools : s'.pools = s.pools)
    (hsecond : s'.readyList2 = s.readyList2) : s'.effort < s.effort := by
  have hbatch : s.batch = [] := by rw [NetworkServer.batch, hpc]
  have hbatch' : s'.batch = [] := by rw [NetworkServer.batch, hpc']
  simp only [effort, unclaimed_nil hbatch, unclaimed_nil hbatch', hbatch, hbatch', todo, distance,
    hpc, hpc', hpools, hsecond]
  omega

/-! ## Waiting -/

/-- Every event that is reported is one of a pool with a result. -/
def Calls (S : Setup) (s : NetworkServer) (reports : List (ℕ × Flags)) : Prop :=
  ∀ r ∈ reports, ∃ q : PoolId, r.1 = q.fd S ∧ (s.pools q).results ≠ []

/-- A pool is only reported when it has a result. -/
def Woken (S : Setup) (s : NetworkServer) (reports : List (ℕ × Flags)) : Prop :=
  ∀ r ∈ reports, ∀ q : PoolId, r.1 = q.fd S → (s.pools q).results ≠ []

theorem Calls.woken {reports : List (ℕ × Flags)} (h : Calls S s reports) : Woken S s reports := by
  intro r hr q hq
  obtain ⟨q', hq', hresults⟩ := h r hr
  obtain rfl : q = q' := by
    refine ptr_inj (own_fd (pool_own S q) ?_)
    rw [← hq, hq']
    exact pool_own S q'
  exact hresults

section Wait

variable {reports : List (ℕ × Flags)}

/-- The server after `wait`. -/
def waited (s : NetworkServer) (reports : List (ℕ × Flags)) : NetworkServer :=
  { s with fdes := (s.fdes.wait reports).2, pc := .events (s.fdes.wait reports).1 }

/-- An object of the batch with the data of the server is one of its descriptors. -/
theorem waited_ptr (hs : Custody S s) (hposted : Posted S s.fdes.table)
    (hreported : s.Reported reports) {p : ℕ} (hp : p ∈ (s.waited reports).batch) :
    ∃ r ∈ reports, (s.waited reports).fdes.table.events[r.1]? = some p ∧
      ∀ q : PoolId, ((s.waited reports).fdes.table.heap p).dataPtr = q.ptr ↔ r.1 = q.fd S := by
  obtain ⟨hposted', -⟩ := posts_wait hs.wired.mirrors hreported.1 hreported.2 hposted
  obtain ⟨r, hr, hentry⟩ := (wait_batch hs.wired.mirrors hreported.2).2 p hp
  exact ⟨r, hr, hentry, fun q ↦ hposted'.ptr_iff hentry (pool_own S q)⟩

/-- A pool that is reported has a result, and it is reported once. -/
theorem waited_backed (hs : Custody S s) (hposted : Posted S s.fdes.table)
    (hreported : s.Reported reports) (hwoken : Woken S s reports) :
    Backed (s.waited reports) := by
  intro q
  have hnodup : (s.waited reports).batch.Nodup :=
    (hs.wired.mirrors.waited hs.wired.table hreported.1 hreported.2).nodup
  by_cases hnone : (s.waited reports).announced q = 0
  · rw [hnone]
    exact Nat.zero_le _
  · obtain ⟨p, hp, hptr⟩ := List.countP_pos_iff.mp (Nat.pos_of_ne_zero hnone)
    obtain ⟨r, hr, hentry, hiff⟩ := waited_ptr hs hposted hreported hp
    have hfd := (hiff q).mp (of_decide_eq_true hptr)
    have hone : (s.waited reports).announced q ≤ (s.waited reports).batch.count p := by
      refine List.countP_mono_left fun p' hp' hptr' ↦ ?_
      obtain ⟨r', -, hentry', hiff'⟩ := waited_ptr hs hposted hreported hp'
      have hfd' := (hiff' q).mp (of_decide_eq_true hptr')
      rw [hfd', ← hfd] at hentry'
      exact beq_iff_eq.mpr (Option.some.inj (hentry'.symm.trans hentry))
    have hresults := List.length_pos_iff.mpr (hwoken r hr q hfd)
    exact (hone.trans (List.nodup_iff_count_le_one.mp hnodup p)).trans hresults

/-- After a report of results the loop has less to do, and so has a loop that does not
sleep. -/
theorem wait_lowers (hs : Custody S s) (hposted : Posted S s.fdes.table) (hpc : s.pc = .top)
    (hreported : s.Reported reports) (hcalls : Calls S s reports)
    (hgo : reports ≠ [] ∨ s.readyList ≠ []) :
    (s.waited reports).pending = 0 ∧ (s.waited reports).effort < s.effort := by
  have hpool {p : ℕ} (hp : p ∈ (s.waited reports).batch) :
      ∃ q : PoolId, ((s.waited reports).fdes.table.heap p).dataPtr = q.ptr := by
    obtain ⟨r, hr, -, hiff⟩ := waited_ptr hs hposted hreported hp
    obtain ⟨q, hq, -⟩ := hcalls r hr
    exact ⟨q, (hiff q).mpr hq⟩
  constructor
  · refine List.countP_eq_zero.mpr fun p hp ↦ ?_
    obtain ⟨q, hq⟩ := hpool hp
    cases q <;> simp [hq, PoolId.ptr]
  · have hlength : (s.waited reports).batch.length = reports.length :=
      (wait_batch hs.wired.mirrors hreported.2).1
    have hsum : (s.waited reports).batch.length =
        (s.waited reports).announced .reader + (s.waited reports).announced .writer := by
      rw [List.length_eq_countP_add_countP
        (fun p ↦ decide (((s.waited reports).fdes.table.heap p).dataPtr = PoolId.reader.ptr))]
      refine congrArg (_ + ·) (List.countP_congr fun p hp ↦ ?_)
      obtain ⟨q, hq⟩ := hpool hp
      cases q <;> simp [hq, PoolId.ptr, readerPtr, writerPtr]
    have hbacked := waited_backed hs hposted hreported hcalls.woken
    have hreader := hbacked .reader
    have hwriter := hbacked .writer
    have hbatch : s.batch = [] := by rw [NetworkServer.batch, hpc]
    have hsleep : s.distance = if s.readyList = [] then 0 else 3 := by rw [distance, hpc]
    have htodo : (s.waited reports).todo = s.todo := by simp only [todo, hpc, waited]
    have hawake : (s.waited reports).distance = 2 := rfl
    have hpools : (s.waited reports).pools = s.pools := rfl
    have hsecond : (s.waited reports).readyList2 = s.readyList2 := rfl
    rw [hpools] at hreader hwriter
    simp only [effort, unclaimed, announced_nil hbatch, hbatch, htodo, hsleep, hawake, hsecond,
      hpools, hsum, List.length_nil, Nat.sub_zero]
    rcases hgo with hgo | hgo
    · have hpos := List.length_pos_iff.mpr hgo
      omega
    · rw [if_neg hgo]
      omega

end Wait

/-! ## Runs -/

theorem posts_step (hs : Custody S s) {a : Action} (h : s.step S a = some s') :
    Posts S s.fdes s'.fdes := by
  cases a with
  | wait reports =>
      simp only [step] at h
      split at h
      · next hgo =>
        cases h
        exact posts_wait hs.wired.mirrors hgo.2.1 hgo.2.2
      · cases h
  | event o =>
      simp only [step] at h
      split at h
      · cases h
        exact .refl _
      · next p batch hpc =>
        split at h
        · next hsock => exact (event_round hs hpc hsock h).2.2.1
        · cases h
      · cases h
  | ready o =>
      simp only [step] at h
      split at h
      · cases h
        exact .refl _
      · next id rest hpc =>
        cases h
        obtain ⟨-, -, -, link, hlink, -⟩ := hs.takeReady hpc
        exact (posts_readyLink o hlink (hs.wired.foreign hlink)).2.2
      · cases h
  | withdraw =>
      simp only [step] at h
      split at h
      · split at h
        · cases h
          exact .refl _
        · next link hlink =>
          cases h
          exact posts_del (hs.wired.foreign hlink).fd _
      · cases h
  | take p =>
      obtain ⟨job, jobs, -, -, rfl⟩ := step_take h
      exact .refl _
  | work p k o =>
      simp only [step, if_neg hs.wired.alive, work] at h
      split at h
      · cases h
      · split at h
        · cases h
          exact .refl _
        · cases h
          exact .refl _

theorem Reached.posted (hs : Reached S s) : Posted S s.fdes.table := by
  have hboth : Custody S s ∧ Posted S s.fdes.table := by
    refine hs.invariant (P := fun s ↦ Custody S s ∧ Posted S s.fdes.table)
      ⟨custody_init S, posted_init S⟩ fun s a t hP ha hstep ↦ ?_
    exact ⟨(hP.1.step ha hstep).1, (posts_step hP.1 hstep hP.2).1⟩
  exact hboth.2

/-- A result that is announced stays until its event. -/
theorem Backed.step (hbacked : Backed s) (hs : Custody S s) (hposted : Posted S s.fdes.table)
    {a : Action} (hwoken : ∀ reports, a = .wait reports → Woken S s reports)
    (h : s.step S a = some s') : Backed s' := by
  have hnone (hbatch : s'.batch = []) : Backed s' := fun q ↦ by
    rw [announced_nil hbatch]
    exact Nat.zero_le _
  cases a with
  | wait reports =>
      simp only [NetworkServer.step] at h
      split at h
      · next hgo =>
        cases h
        exact waited_backed hs hposted hgo.2 (hwoken reports rfl)
      · cases h
  | event o =>
      simp only [NetworkServer.step] at h
      split at h
      · cases h
        exact hnone rfl
      · next p batch hpc =>
        split at h
        · next hsock =>
          obtain ⟨hpc', -, hposts, hother, hpool⟩ := event_round hs hpc hsock h
          have hbatch : s.batch = p :: batch := by rw [NetworkServer.batch, hpc]
          have hbatch' : s'.batch = batch := by rw [NetworkServer.batch, hpc']
          intro q
          have hannounced := hposts.announced_eq hposted (by
            rw [hbatch']
            exact fun q hq ↦ hs.wired.made q (hbatch ▸ List.mem_cons_of_mem p hq)) q
          have hold := hbacked q
          rw [announced, hbatch, List.countP_cons] at hold
          rw [hannounced, hbatch']
          by_cases hq : (s.fdes.table.heap p).dataPtr = q.ptr
          · obtain ⟨job, results, hresults, hpools, -⟩ := hpool q hq
            rw [hresults, if_pos (decide_eq_true hq), List.length_cons] at hold
            rw [hpools, Function.update_self]
            exact Nat.le_of_succ_le_succ hold
          · rw [if_neg (by simpa using hq), Nat.add_zero] at hold
            by_cases hown : ∃ q' : PoolId, (s.fdes.table.heap p).dataPtr = q'.ptr
            · obtain ⟨q', hq'⟩ := hown
              obtain ⟨job, results, -, hpools, -⟩ := hpool q' hq'
              have hne : q ≠ q' := by
                rintro rfl
                exact hq hq'
              rwa [hpools, Function.update_of_ne hne]
            · rwa [hother fun q' hq' ↦ hown ⟨q', hq'⟩]
        · cases h
      · cases h
  | ready o =>
      simp only [NetworkServer.step] at h
      split at h
      · cases h
        exact hnone rfl
      · next id rest hpc =>
        cases h
        obtain ⟨-, -, -, link, hlink, -⟩ := hs.takeReady hpc
        exact hnone (posts_readyLink o hlink (hs.wired.foreign hlink)).2.1
      · cases h
  | withdraw =>
      simp only [NetworkServer.step] at h
      split at h
      · split at h
        · cases h
          exact hnone rfl
        · cases h
          exact hnone rfl
      · cases h
  | take p =>
      obtain ⟨job, jobs, -, -, rfl⟩ := step_take h
      intro q
      refine (hbacked q).trans_eq ?_
      by_cases hq : q = p
      · subst hq
        simp
      · simp [hq]
  | work p k o =>
      simp only [NetworkServer.step, if_neg hs.wired.alive, work] at h
      split at h
      · cases h
      · next job hjob =>
        split at h
        · cases h
          exact hnone rfl
        · cases h
          intro q
          refine (hbacked q).trans ?_
          by_cases hq : q = p
          · subst hq
            simp
          · simp [hq]

/-! ## Every step of the loop -/

/-- A step of the loop leaves less to do, if the kernel reports nothing but results. -/
theorem loop_lowers (hs : Reached S s) {a : Action} (ha : a.Registered)
    (hwait : ∀ reports, a = .wait reports →
      Calls S s reports ∧ (reports ≠ [] ∨ s.readyList ≠ []))
    (htake : ∀ p, a ≠ .take p) (hwork : ∀ p k o, a ≠ .work p k o) (h : s.step S a = some s') :
    s'.pending < s.pending ∨ s'.pending = s.pending ∧
      (s'.unread < s.unread ∨ s'.unread ≤ s.unread ∧ s'.effort < s.effort ∧
        s'.unfinished = s.unfinished) := by
  have hcustody := hs.custody
  have hwf (id : ℕ) (link : Link) (hlink : s.links id = some link) : link.input.Wf :=
    (hs.roomy id link hlink).1
  cases a with
  | wait reports =>
      obtain ⟨hcalls, hgo⟩ := hwait reports rfl
      simp only [step] at h
      split at h
      · next hready =>
        cases h
        obtain ⟨hnone, heffort⟩ :=
          wait_lowers hcustody hs.posted hready.1 hready.2 hcalls hgo
        refine .inr ⟨?_, .inr ⟨le_rfl, heffort, rfl⟩⟩
        rw [pending_nil (s := s) (by rw [batch, hready.1])]
        exact hnone
      · cases h
  | event o =>
      simp only [step] at h
      split at h
      · next hpc =>
        cases h
        refine .inr ⟨?_, .inr ⟨le_rfl, effort_events hpc, rfl⟩⟩
        rw [pending_nil (s := s) (by rw [batch, hpc]), pending_nil rfl]
      · next p batch hpc =>
        split at h
        · next hsock =>
          have hlower := event_lowers hcustody hs.posted hpc hsock hwf h
          exact hlower.imp_right fun hless ↦ ⟨hless.1, .inr hless.2⟩
        · cases h
      · cases h
  | ready o =>
      simp only [step] at h
      split at h
      · next hpc =>
        cases h
        refine .inr ⟨?_, .inr ⟨le_rfl, effort_ready hpc, rfl⟩⟩
        rw [pending_nil (s := s) (by rw [batch, hpc]), pending_nil rfl]
      · next id rest hpc =>
        cases h
        obtain ⟨-, -, -, link, hlink, -⟩ := hcustody.takeReady hpc
        have hbatch : (s.readyLink S id rest o).batch = [] :=
          (posts_readyLink o hlink (hcustody.wired.foreign hlink)).2.1
        refine .inr ⟨?_, ?_⟩
        · rw [pending_nil hbatch, pending_nil (by rw [batch, hpc])]
        · refine (ready_lowers hcustody hpc ha hwf).imp_right fun hless ↦ ?_
          exact ⟨hless.1, hless.2.1, by rw [unfinished, unfinished, hless.2.2]⟩
      · cases h
  | withdraw =>
      simp only [step] at h
      split at h
      · next id rest hpc =>
        obtain ⟨link, hlink, -⟩ := withdraw_steps hcustody hpc
        rw [hlink] at h
        cases h
        refine .inr ⟨?_, .inr ⟨le_rfl, effort_withdraw hpc rfl rfl rfl, rfl⟩⟩
        rw [pending_nil (s := s) (by rw [batch, hpc]), pending_nil rfl]
      · cases h
  | take p => exact absurd rfl (htake p)
  | work p k o => exact absurd rfl (hwork p k o)

/-- A worker neither adds an event nor bytes that are not parsed. -/
theorem work_keeps (hs : Reached S s) {p : PoolId} {k : ℕ} {o : World} (ho : o.Registered)
    (h : s.step S (.work p k o) = some s') : s'.pending = s.pending ∧ s'.unread ≤ s.unread := by
  have hcustody := hs.custody
  obtain ⟨-, hconn⟩ := hcustody.step (a := .work p k o) ho h
  simp only [step, if_neg hcustody.wired.alive, work] at h
  split at h
  · cases h
  · next job hjob =>
    obtain ⟨link, hlink, -⟩ :=
      hcustody.unfinished (mem_unfinished (.inr (List.mem_of_getElem? hjob)))
    rw [hlink] at h
    cases h
    refine ⟨rfl, hcustody.wired.unread_le le_rfl fun i ↦ ?_⟩
    rcases hconn i with hsame | ⟨hact, hmove⟩
    · rw [hsame]
    · refine hmove.unread_le (fun link hlink ↦ (hs.roomy i link hlink).1) (by simp) ?_
      obtain rfl : job.link = i := by simpa [acting, hjob] using hact
      rw [conn, hlink]
      exact Option.some_ne_none link

/-- The loop over the events never waits for a result. -/
theorem event_enabled (hbacked : Backed s) {batch : List ℕ} (hpc : s.pc = .events batch)
    {o : World} (ho : o.sock = none) : ∃ s', s.step S (.event o) = some s' := by
  cases batch with
  | nil => exact ⟨_, by rw [step, hpc]⟩
  | cons p batch =>
      have hpop (q : PoolId) (hq : (s.fdes.table.heap p).dataPtr = q.ptr) :
          ∃ s', ({ s with pc := .events batch } : NetworkServer).popResult q o = some s' := by
        have hone : 0 < s.announced q := by
          refine List.countP_pos_iff.mpr ⟨p, ?_, decide_eq_true hq⟩
          rw [NetworkServer.batch, hpc]
          exact List.mem_cons_self
        obtain ⟨job, results, hresults⟩ :=
          List.exists_cons_of_length_pos (hone.trans_le (hbacked q))
        exact ⟨_, by rw [popResult, hresults]⟩
      have hevent : ∃ s', s.event p batch o = some s' := by
        rw [event]
        by_cases hserv : (s.fdes.table.heap p).dataPtr = servPtr
        · exact ⟨_, if_pos hserv⟩
        · rw [if_neg hserv]
          by_cases hreader : (s.fdes.table.heap p).dataPtr = readerPtr
          · rw [if_pos hreader]
            exact hpop .reader hreader
          · rw [if_neg hreader]
            by_cases hwriter : (s.fdes.table.heap p).dataPtr = writerPtr
            · rw [if_pos hwriter]
              exact hpop .writer hwriter
            · exact ⟨_, if_neg hwriter⟩
      obtain ⟨s', hs'⟩ := hevent
      refine ⟨s', ?_⟩
      simp only [step, hpc]
      rw [if_pos (by simp [ho])]
      exact hs'

/-- The kernel can report a pool. -/
theorem Posted.reported (hposted : Posted S s.fdes.table) (hm : s.fdes.Mirrors) (q : PoolId) :
    s.Reported [(q.fd S, epollIn)] := by
  have hflags : s.fdes.sFlags (q.fd S) = fdeventIn := (hposted.own (pool_own S q)).1
  obtain ⟨epe, hepe⟩ : ∃ epe, s.fdes.interest (q.fd S) = some epe := by
    refine Option.isSome_iff_exists.mp ((hm.registered _).mpr ?_)
    rw [hflags]
    decide
  have hevents := hm.events _ _ hepe
  rw [hflags] at hevents
  refine ⟨List.nodup_singleton _, fun r hr ↦ ?_⟩
  rw [List.mem_singleton.mp hr]
  refine ⟨epe, hepe, ?_⟩
  rw [hevents]
  change epollIn &&& ~~~(epollEvents fdeventIn ||| epollErr ||| epollHup) = 0
  decide

end NetworkServer

end GeminiDB
