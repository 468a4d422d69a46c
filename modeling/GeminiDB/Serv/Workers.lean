import GeminiDB.Serv.Linear

/-!
# The workers go on

There is one writer, and readers only read. So nobody ever waits for the lock of the
write batch, and whatever a worker does next, it can do at once. In the end it has a
response: no handler in a thread writes beyond the buffer of `add`.
-/

namespace GeminiDB

open Program NetworkServer

/-! ## Responses -/

/-- Whatever the database answers, the handler has a response. -/
def Responds (p : Api (Option Response)) : Prop :=
  (moments p).Ends Database.moments fun resp ↦ resp ≠ none

theorem responds_map {α : Type} (p : Prog Moment Moment.Result α) (f : α → Response) :
    (p >>= fun a ↦ .ret (some (f a))).Ends Database.moments fun resp ↦ resp ≠ none :=
  (Prog.ends_true _ p).bind fun a _ ↦ by simp [Prog.Ends]

theorem responds_checkParams {n : ℕ} {req : Request} {p : Api (Option Response)}
    (hp : Responds p) : Responds (checkParams n req p) := by
  rw [checkParams]
  split
  · simp [Responds, moments, Prog.Ends]
  · exact hp

theorem responds_call (c : ApiCall) (f : Int × Bytes → Response) :
    Responds (.call c fun r ↦ .ret (some (f r))) :=
  responds_map c.moments f

theorem responds_multiExistsLoop (keys : List Bytes) (resp : Response) :
    Responds (Api.multiExistsLoop keys resp) := by
  induction keys generalizing resp with
  | nil => simp [Api.multiExistsLoop, Responds, moments, Prog.Ends]
  | cons key keys ih => exact (Prog.ends_true _ (ApiCall.get key).moments).bind fun r _ ↦ ih _

theorem responds_multiGetLoop (keys : List Bytes) (resp : Response) :
    Responds (Api.multiGetLoop keys resp) := by
  induction keys generalizing resp with
  | nil => simp [Api.multiGetLoop, Responds, moments, Prog.Ends]
  | cons key keys ih => exact (Prog.ends_true _ (ApiCall.get key).moments).bind fun r _ ↦ ih _

theorem responds_ofHandler (h : Handler Response) : Responds (Api.ofHandler h) := by
  rw [Responds, moments, Api.ofHandler, Prog.expand_bind]
  exact responds_map _ id

/-- A size fits into the buffer. -/
theorem responds_procQsize (req : Request) : Responds (Api.procQsize req) := by
  refine responds_checkParams ?_
  intro x d
  have hfits : ∀ size : Int64, (size = -1 ∨ ∃ n < 2 ^ 63, size = Int64.ofNat n) →
      Response.replyIntAdd [] (int32 size.toInt) size.toInt ≠ none := by
    rintro size (rfl | ⟨n, hn, rfl⟩)
    · decide +kernel
    · have hint : (Int64.ofNat n).toInt = n := Int64.toInt_ofNat_of_lt hn
      rw [hint]
      have hadd : (Response.addText n).length ≤ Response.addBufSize :=
        (Response.addText_fits_iff n).mpr (by omega)
      rw [Response.replyIntAdd_of_fits _ _ hadd]
      simp
  cases x with
  | some junk => exact hfits _ (.inl rfl)
  | none =>
      refine hfits _ (.inr ⟨_, d.length_lt (req.arg 1), ?_⟩)
      exact d.readSize_read (req.arg 1)

/-- Only the two `proc_info` may have none. -/
theorem responds_api {proc : Proc} (hinfo : proc ≠ .procInfo) (hnet : proc ≠ .procNetInfo)
    (r : Report) (req : Request) : Responds (proc.api r req) := by
  have hret (resp : Response) : Responds (.ret (some resp)) := by
    simp [Responds, moments, Prog.Ends]
  cases proc with
  | procInfo => exact absurd rfl hinfo
  | procNetInfo => exact absurd rfl hnet
  | procPing => exact hret _
  | procVersion => exact hret _
  | procDbsize => exact hret _
  | procGet => exact responds_checkParams (responds_call _ _)
  | procSet => exact responds_checkParams (responds_call _ _)
  | procDel => exact responds_checkParams (responds_call _ _)
  | procExists => exact responds_checkParams (responds_call _ _)
  | procMultiExists => exact responds_checkParams (responds_multiExistsLoop _ _)
  | procMultiGet => exact responds_checkParams (responds_multiGetLoop _ _)
  | procMultiSet =>
      rw [Proc.api, Api.procMultiSet]
      split
      · exact hret _
      · exact responds_call _ _
  | procMultiDel => exact responds_checkParams (responds_call _ _)
  | procQsize => exact responds_procQsize req
  | procQfront => exact responds_checkParams (responds_call _ _)
  | procQback => exact responds_checkParams (responds_call _ _)
  | procQpush => exact responds_ofHandler _
  | procQpushFront => exact responds_ofHandler _
  | procQpushBack => exact responds_ofHandler _
  | procQpop => exact responds_ofHandler _
  | procQpopFront => exact responds_ofHandler _
  | procQpopBack => exact responds_ofHandler _

/-- The commands of the threads, by pool. -/
theorem procMap_threads : ∀ cmd ∈ procMap.entries, cmd.flags &&& Command.flagThread ≠ 0 →
    cmd.proc ≠ .procInfo ∧ cmd.proc ≠ .procNetInfo := by
  decide +kernel

variable {fds : Descriptors} {strict : Bool} {s s' : System} {p : PoolId} {job : ProcJob}

/-- The command that a job is for. -/
theorem suited_entry (h : Suited (serverSetup fds) p job) :
    ∃ cmd ∈ procMap.entries, procMap.getProc (job.request.headD []) = some cmd ∧
      cmd.flags &&& Command.flagThread ≠ 0 ∧
        (p = .writer ↔ cmd.flags &&& Command.flagWrite ≠ 0) := by
  obtain ⟨command, hget, hthread, hwrite⟩ := h
  obtain ⟨cmd, hcmd, rfl⟩ := Option.map_eq_some_iff.mp hget
  exact ⟨cmd, List.mem_of_find?_eq_some hcmd, hcmd, hthread, hwrite⟩

/-- A handler that a worker executes has a response. -/
theorem suited_responds (h : Suited (serverSetup fds) p job) (r : Report) :
    Responds (handler r job.request) := by
  obtain ⟨cmd, hmem, hget, hthread, -⟩ := suited_entry h
  obtain ⟨hinfo, hnet⟩ := procMap_threads cmd hmem hthread
  rw [handler, hget]
  exact responds_api hinfo hnet r job.request

/-- One that a reader executes reads. -/
theorem suited_reads (h : Suited (serverSetup fds) .reader job) (r : Report) :
    (handler r job.request).All ApiCall.Reads := by
  obtain ⟨cmd, hmem, hget, -, hwrite⟩ := suited_entry h
  have hnot : ¬ cmd.proc.mutates = true := by
    intro hmutates
    cases hwrite.mpr ((procMap_flags cmd hmem).1.mpr hmutates)
  rw [handler, hget]
  exact Proc.all_reads (by simpa using hnot) r job.request

/-! ## Who does what -/

/-- The writer pool has one worker, readers read, and the lock is the writer's. -/
structure Staffed (fds : Descriptors) (s : System) : Prop where
  single : (s.net.pools .writer).running.length ≤ 1
  suited : ∀ p job, job ∈ (s.net.pools p).jobs ∨ job ∈ (s.net.pools p).running →
    Suited (serverSetup fds) p job
  busy : ∀ p, ∀ job ∈ (s.net.pools p).running, s.threads.rest job.link ≠ none
  reading : ∀ job ∈ (s.net.pools .reader).running, ∀ q, s.threads.rest job.link = some q →
    q.All IsRead
  owner : ∀ id, s.threads.owner = some id →
    ∃ job ∈ (s.net.pools .writer).running, job.link = id

namespace Staffed

theorem init (fds : Descriptors) : Staffed fds (System.init fds) where
  single := Nat.zero_le _
  suited p job h := by rcases h with h | h <;> cases h
  busy p job h := by cases h
  reading job h := by cases h
  owner id h := by cases h

/-- The loop changes nothing but the jobs to come. -/
theorem loop (h : Staffed fds s) {net : NetworkServer} {a : NetworkServer.Action}
    (hstep : s.net.step (serverSetup fds) a = some net) (htake : ∀ p, a ≠ .take p)
    (hwork : ∀ p k o, a ≠ .work p k o) (calls : Bytes → UInt64) (log : List Event) :
    Staffed fds { s with net := net, calls := calls, log := log } := by
  obtain ⟨hrunning, hjobs, -⟩ := step_apart hstep htake hwork
  refine ⟨?_, fun p job hjob ↦ ?_, fun p job hjob ↦ ?_, fun job hjob ↦ ?_, fun id hid ↦ ?_⟩
  · exact (congrArg List.length (hrunning .writer)).trans_le h.single
  · rcases hjob with hjob | hjob
    · rcases hjobs p job hjob with hold | hnew
      · exact h.suited p job (.inl hold)
      · exact hnew
    · exact h.suited p job (.inr (hrunning p ▸ hjob))
  · exact h.busy p job (hrunning p ▸ hjob)
  · exact h.reading job (hrunning .reader ▸ hjob)
  · obtain ⟨job, hjob, hlink⟩ := h.owner id hid
    exact ⟨job, (hrunning .writer).symm ▸ hjob, hlink⟩

/-- A worker takes a job. -/
theorem take (h : Staffed fds s) {net : NetworkServer} (r : Report) {jobs : List ProcJob}
    (hjobs : (s.net.pools p).jobs = job :: jobs) (hrest : s.threads.rest job.link = none)
    (hstep : s.net.step (serverSetup fds) (.take p) = some net) :
    Staffed fds
      { s with
        net := net
        threads := s.threads.put job.link (some (body (handler r job.request))) } := by
  obtain ⟨job', jobs', hjobs', hroom, rfl⟩ := step_take hstep
  cases hjobs.symm.trans hjobs'
  have hnew : Suited (serverSetup fds) p job := h.suited p job (.inl (hjobs ▸ List.mem_cons_self))
  have hother {q : PoolId} {other : ProcJob} (hmem : other ∈ (s.net.pools q).running) :
      other.link ≠ job.link := by
    intro hlink
    exact h.busy q other hmem (hlink ▸ hrest)
  have hrunning (q : PoolId) (other : ProcJob)
      (hmem : other ∈ (Function.update s.net.pools p { s.net.pools p with
        jobs := jobs, running := (s.net.pools p).running ++ [job] } q).running) :
      other ∈ (s.net.pools q).running ∨ q = p ∧ other = job := by
    by_cases hq : q = p
    · subst hq
      simpa using hmem
    · exact .inl (by simpa [hq] using hmem)
  refine ⟨?_, fun q other hmem ↦ ?_, fun q other hmem ↦ ?_, fun other hmem prog hprog ↦ ?_,
    fun id hid ↦ ?_⟩
  · by_cases hp : p = .writer
    · subst hp
      have hlt : (s.net.pools .writer).running.length < 1 := hroom
      simp only [Function.update_self, List.length_append, List.length_singleton]
      omega
    · simpa [Ne.symm hp] using h.single
  · rcases hmem with hmem | hmem
    · refine h.suited q other (.inl ?_)
      by_cases hq : q = p
      · subst hq
        rw [hjobs]
        exact List.mem_cons_of_mem _ (by simpa using hmem)
      · simpa [hq] using hmem
    · rcases hrunning q other hmem with hold | ⟨rfl, rfl⟩
      · exact h.suited q other (.inr hold)
      · exact hnew
  · rcases hrunning q other hmem with hold | ⟨rfl, rfl⟩
    · simpa [Threads.put, hother hold] using h.busy q other hold
    · simp [Threads.put]
  · rcases hrunning .reader other hmem with hold | ⟨rfl, rfl⟩
    · exact h.reading other hold prog (by simpa [Threads.put, hother hold] using hprog)
    · obtain rfl : body (handler r other.request) = prog := by simpa [Threads.put] using hprog
      exact .expand (P := ApiCall.Reads) _ (fun c hc ↦ hc.body) (suited_reads hnew r)
  · obtain ⟨other, hmem, hlink⟩ := h.owner id hid
    refine ⟨other, ?_, hlink⟩
    by_cases hp : p = .writer
    · subst hp
      simp [hmem]
    · simpa [Ne.symm hp] using hmem

/-- A worker goes on. -/
theorem access (h : Staffed fds s) {id : ℕ} {x : Unit × Bool}
    {threads : Threads ℕ DbOp DbOp.Result (BinlogQueue Unit) (Option Response)}
    (hrunning : s.threads.rest id ≠ none → ∃ p, ∃ job ∈ (s.net.pools p).running, job.link = id)
    (hexec : s.threads.exec binlogs id x = some threads) :
    Staffed fds { s with threads := threads } := by
  obtain ⟨op, next, v, hrest, hrest', howner⟩ := Threads.exec_cases hexec
  have hmine : ∃ p, ∃ job ∈ (s.net.pools p).running, job.link = id :=
    hrunning (by rw [hrest]; simp)
  have hreads {job : ProcJob} (hjob : job ∈ (s.net.pools .reader).running) (hlink : job.link = id) :
      (Prog.call op next).All IsRead :=
    h.reading job hjob _ (hlink ▸ hrest)
  refine ⟨h.single, h.suited, fun p job hjob ↦ ?_, fun job hjob prog hprog ↦ ?_, fun i hi ↦ ?_⟩
  · dsimp only
    rw [hrest']
    by_cases hlink : job.link = id
    · simp [hlink]
    · rw [Function.update_of_ne hlink]
      exact h.busy p job hjob
  · dsimp only at hprog
    rw [hrest'] at hprog
    by_cases hlink : job.link = id
    · rw [hlink, Function.update_self] at hprog
      cases hprog
      exact (hreads hjob hlink).2 v
    · rw [Function.update_of_ne hlink] at hprog
      exact h.reading job hjob prog hprog
  · rcases howner with hsame | ⟨rfl, hnew⟩ | ⟨-, hnone⟩
    · exact h.owner i (hsame.symm.trans hi)
    · cases hnew.symm.trans hi
      obtain ⟨p, job, hjob, hlink⟩ := hmine
      cases p with
      | reader => exact (hreads hjob hlink).1.elim
      | writer => exact ⟨job, hjob, hlink⟩
    · cases hnone.symm.trans hi

/-- A worker is done. -/
theorem work (h : Staffed fds s) {t : Spec} (hrefines : Refines fds strict s t) {k : ℕ} {o : World}
    (ho : o.Registered) {net : NetworkServer} (hjob : (s.net.pools p).running[k]? = some job)
    {resp : Option Response} (hdone : s.threads.rest job.link = some (.ret resp))
    (hstep : s.net.step (serverSetup fds) (.work p k o) = some net) (log : List Event) :
    Staffed fds { s with net := net, threads := s.threads.put job.link none, log := log } := by
  obtain ⟨hrunning, hjobs, -⟩ := step_work hrefines.custody hstep
  have hcustody := (hrefines.custody.step (a := .work p k o) ho hstep).1
  have hwaiting := (work_record hrefines.custody ho hjob hstep).2.1
  have hsub (q : PoolId) {other : ProcJob} (hmem : other ∈ (net.pools q).running) :
      other ∈ (s.net.pools q).running := by
    rw [hrunning] at hmem
    split at hmem
    · next hq => exact hq ▸ List.mem_of_mem_eraseIdx hmem
    · exact hmem
  -- the link of the job waits for nothing any more, those of the other jobs do
  have hother {q : PoolId} {other : ProcJob} (hmem : other ∈ (net.pools q).running) :
      other.link ≠ job.link := by
    intro hlink
    have := (job_waiting hcustody (mem_unfinished (.inr hmem))).1
    rw [hlink, hwaiting] at this
    cases this
  refine ⟨?_, fun q other hmem ↦ ?_, fun q other hmem ↦ ?_, fun other hmem prog hprog ↦ ?_,
    fun id hid ↦ ?_⟩
  · change (net.pools .writer).running.length ≤ 1
    rw [hrunning]
    split
    · next hp => exact (List.length_eraseIdx_le ..).trans (hp ▸ h.single)
    · exact h.single
  · rcases hmem with hmem | hmem
    · exact h.suited q other (.inl (hjobs q ▸ hmem))
    · exact h.suited q other (.inr (hsub q hmem))
  · simpa [Threads.put, hother hmem] using h.busy q other (hsub q hmem)
  · exact h.reading other (hsub .reader hmem) prog
      (by simpa [Threads.put, hother hmem] using hprog)
  · obtain ⟨other, hmem, hlink⟩ := h.owner id hid
    refine ⟨other, ?_, hlink⟩
    change other ∈ (net.pools .writer).running
    rw [hrunning]
    split
    · next hp =>
      obtain ⟨j, hj⟩ := List.mem_iff_getElem?.mp hmem
      refine List.mem_eraseIdx_iff_getElem?.mpr ⟨j, ?_, hp ▸ hj⟩
      rintro rfl
      obtain rfl := Option.some.inj (hjob.symm.trans (hp ▸ hj))
      exact hrefines.linked.not_owner hdone (hlink ▸ hid)
    · exact hmem

theorem step (h : Staffed fds s) {t : Spec} (hrefines : Refines fds strict s t)
    {a : System.Action} (hstep : s.step fds a = some s') : Staffed fds s' := by
  cases a with
  | wait reports =>
      obtain ⟨net, hnet, rfl⟩ := Option.map_eq_some_iff.mp hstep
      exact h.loop hnet (by simp) (by simp) _ _
  | event o =>
      obtain ⟨net, hnet, rfl⟩ := Option.map_eq_some_iff.mp hstep
      exact h.loop hnet (by simp) (by simp) _ _
  | ready o r =>
      simp only [System.step] at hstep
      split at hstep
      · rw [System.ready] at hstep
        split at hstep
        · obtain ⟨net, hnet, rfl⟩ := Option.map_eq_some_iff.mp hstep
          exact h.loop hnet (by simp) (by simp) _ _
        · split at hstep
          · obtain ⟨net, hnet, rfl⟩ := Option.map_eq_some_iff.mp hstep
            exact h.loop hnet (by simp) (by simp) _ _
          · split at hstep
            · obtain ⟨net, hnet, rfl⟩ := Option.map_eq_some_iff.mp hstep
              exact h.loop hnet (by simp) (by simp) _ _
            · cases hstep
      · cases hstep
  | withdraw =>
      obtain ⟨net, hnet, rfl⟩ := Option.map_eq_some_iff.mp hstep
      exact h.loop hnet (by simp) (by simp) _ _
  | take p r =>
      simp only [System.step] at hstep
      split at hstep
      · cases hstep
      · next job jobs hjobs =>
        obtain ⟨net, hnet, rfl⟩ := Option.map_eq_some_iff.mp hstep
        exact h.take r hjobs (hrefines.take_absent hjobs) hnet
  | access id x =>
      simp only [System.step] at hstep
      split at hstep
      · cases hstep
      · obtain ⟨threads, hexec, rfl⟩ := Option.map_eq_some_iff.mp hstep
        exact h.access (hrefines.running id) hexec
  | work p k o =>
      simp only [System.step] at hstep
      split at hstep
      · cases hstep
      · next job hjob =>
        split at hstep
        · next resp hdone =>
          obtain ⟨net, hnet, rfl⟩ := Option.map_eq_some_iff.mp hstep
          exact h.work hrefines (o := System.respond o resp) (.inl rfl) hjob hdone hnet _
        · cases hstep

end Staffed

theorem System.Reached.staffed (h : s.Reached fds strict) :
    Staffed fds s ∧ ∃ t, Spec.Reached strict t ∧ Refines fds strict s t := by
  refine Machine.ReachableVia.invariant (P := fun s ↦ Staffed fds s ∧ ∃ t, Spec.Reached strict t ∧
    Refines fds strict s t) h ⟨.init fds, _, .refl, refines_init fds strict⟩ ?_
  rintro s a s' ⟨hstaffed, t, hreached, hrefines⟩ ha hstep
  obtain ⟨t', -, hsteps, -, -, hrefines'⟩ := hrefines.step ha hstep
  exact ⟨hstaffed.step hrefines hstep, t', hreached.trans hsteps, hrefines'⟩

/-! ## Nobody waits -/

/-- The job of the only writer. -/
theorem Staffed.running_eq (h : Staffed fds s) (hjob : job ∈ (s.net.pools .writer).running) :
    (s.net.pools .writer).running = [job] := by
  obtain ⟨other, hone⟩ := List.length_eq_one_iff.mp
    (le_antisymm h.single (List.length_pos_of_mem hjob))
  rw [hone] at hjob ⊢
  rw [List.mem_singleton.mp hjob]

/-- A worker that comes to the lock finds it free: the other workers do not take it. -/
theorem lock_free (h : s.Reached fds strict) {id : ℕ}
    {next : PUnit → Body (Option Response)}
    (hlock : s.threads.rest id = some (.call .lock next)) : s.threads.owner = none := by
  obtain ⟨hstaffed, t, -, hrefines⟩ := h.staffed
  cases howner : s.threads.owner with
  | none => rfl
  | some i =>
      obtain ⟨other, hother, rfl⟩ := hstaffed.owner i howner
      obtain ⟨p, job, hjob, rfl⟩ := hrefines.running id (by rw [hlock]; simp)
      cases p with
      | reader => exact (hstaffed.reading job hjob _ hlock).1.elim
      | writer =>
          rw [hstaffed.running_eq hjob, List.mem_singleton] at hother
          rw [hother] at howner
          exact absurd howner (hrefines.linked.owner_not_locking hlock)

/-- Only the writer, and there is only one, ever changes the store, the batch or the lock. -/
theorem System.only_writer (h : s.Reached fds strict) {a : System.Action}
    (hstep : s.step fds a = some s')
    (hchanged : s'.threads.shared ≠ s.threads.shared ∨ s'.threads.owner ≠ s.threads.owner) :
    ∃ job x, (s.net.pools .writer).running = [job] ∧ a = .access job.link x := by
  have hsame (hthreads : s'.threads.shared = s.threads.shared ∧
      s'.threads.owner = s.threads.owner) : False := by
    rcases hchanged with hshared | howner
    · exact hshared hthreads.1
    · exact howner hthreads.2
  obtain ⟨hstaffed, t, -, hrefines⟩ := h.staffed
  cases a with
  | wait reports =>
      obtain ⟨net, -, rfl⟩ := Option.map_eq_some_iff.mp hstep
      exact (hsame ⟨rfl, rfl⟩).elim
  | event o =>
      obtain ⟨net, -, rfl⟩ := Option.map_eq_some_iff.mp hstep
      exact (hsame ⟨rfl, rfl⟩).elim
  | withdraw =>
      obtain ⟨net, -, rfl⟩ := Option.map_eq_some_iff.mp hstep
      exact (hsame ⟨rfl, rfl⟩).elim
  | ready o r =>
      simp only [step] at hstep
      split at hstep
      · have hthreads := (ready_net hstep).2
        exact (hsame ⟨congrArg Threads.shared hthreads, congrArg Threads.owner hthreads⟩).elim
      · cases hstep
  | take p r =>
      simp only [step] at hstep
      split at hstep
      · cases hstep
      · obtain ⟨net, -, rfl⟩ := Option.map_eq_some_iff.mp hstep
        exact (hsame ⟨rfl, rfl⟩).elim
  | work p k o =>
      simp only [step] at hstep
      split at hstep
      · cases hstep
      · split at hstep
        · obtain ⟨net, -, rfl⟩ := Option.map_eq_some_iff.mp hstep
          exact (hsame ⟨rfl, rfl⟩).elim
        · cases hstep
  | access id x =>
      simp only [step] at hstep
      split at hstep
      · cases hstep
      · obtain ⟨threads, hexec, rfl⟩ := Option.map_eq_some_iff.mp hstep
        obtain ⟨op, next, v, hrest, -⟩ := Threads.exec_cases hexec
        obtain ⟨p, job, hjob, rfl⟩ := hrefines.running id (by rw [hrest]; simp)
        cases p with
        | writer => exact ⟨job, x, hstaffed.running_eq hjob, rfl⟩
        | reader =>
            have hreads : IsRead op := (hstaffed.reading job hjob _ hrest).1
            cases op with
            | op o =>
                simp only [Threads.exec, hrest, Option.some.injEq] at hexec
                subst hexec
                exact (hsame ⟨hreads.state x _, rfl⟩).elim
            | lock => exact hreads.elim
            | unlock => exact hreads.elim

/-- The writer has a job and comes to the lock next. -/
theorem setThenGet_writing : ∃ s : System, s.Reached smallFds true ∧
    (s.net.pools .writer).running.map ProcJob.link = [4] ∧ s.threads.owner = none ∧
      (s.step smallFds (.access 4 ((), false))).map (fun s ↦ s.threads.owner) = some (some 4) := by
  obtain ⟨s, hrun, hs⟩ := (Option.any_eq_true ..).mp
    (show (Machine.runVia (System.step smallFds) (fun _ a ↦ a.Admitted true)
      (System.init smallFds) (setThenGet.take 15)).any (fun s ↦
      (s.net.pools .writer).running.map ProcJob.link = [4] ∧ s.threads.owner = none ∧
        (s.step smallFds (.access 4 ((), false))).map (fun s ↦ s.threads.owner) =
          some (some 4)) = true by decide +kernel)
  exact ⟨s, Machine.reachableVia_of_run hrun, of_decide_eq_true hs⟩

theorem System.only_writer_run : ∃ s s' : System, s.Reached smallFds true ∧
    s.step smallFds (.access 4 ((), false)) = some s' ∧
      ∃ job x, (s.net.pools .writer).running = [job] ∧
        (.access 4 ((), false) : System.Action) = .access job.link x := by
  obtain ⟨s, hreached, -, howner, hstep⟩ := setThenGet_writing
  obtain ⟨s', hs', hlocked⟩ := Option.map_eq_some_iff.mp hstep
  have hchanged : s'.threads.owner ≠ s.threads.owner := by
    rw [howner, hlocked]
    simp
  exact ⟨s, s', hreached, hs', System.only_writer hreached hs' (.inr hchanged)⟩

/-- A handler in a thread never ends without a response. -/
theorem rest_ne_none (h : s.Reached fds strict) (hjob : job ∈ (s.net.pools p).running) :
    s.threads.rest job.link ≠ some (.ret none) := by
  intro hnone
  obtain ⟨hstaffed, t, hreached, hrefines⟩ := h.staffed
  obtain ⟨a, hatomic, hrest, -⟩ := hrefines.linked.finish (moments_sound strict) hnone
  obtain ⟨t', -, hsteps, rfl, hasked, -⟩ := Spec.steps_of_atomic hatomic
  have hwaiting := (job_waiting hrefines.custody (mem_unfinished (.inr hjob))).1
  have htraced := Spec.Reached.traced (Relation.ReflTransGen.trans hreached hsteps)
  obtain ⟨b, c, r, -, hfollows⟩ := htraced.started
    ((congrFun hasked _).trans ((hrefines.asked _).trans hwaiting)) hrest
  exact hfollows.ends (suited_responds (hstaffed.suited p job (.inr hjob)) r) rfl

/-- A handler under way can always perform its next access. -/
theorem access_enabled (h : s.Reached fds strict) {id : ℕ} {op : LockOp DbOp}
    {next : LockOp.Result DbOp.Result op → Body (Option Response)}
    (hrest : s.threads.rest id = some (.call op next)) (x : Unit × Bool) :
    ∃ s', s.step fds (.access id x) = some s' ∧ s'.net.pc ≠ .crashed := by
  obtain ⟨-, t, -, hrefines⟩ := h.staffed
  have halive := hrefines.custody.wired.alive
  have hexec : ∃ threads, s.threads.exec binlogs id x = some threads := by
    rw [Threads.exec, hrest]
    cases op with
    | op o => exact ⟨_, rfl⟩
    | unlock => exact ⟨_, rfl⟩
    | lock =>
        rw [lock_free h hrest]
        exact ⟨_, rfl⟩
  obtain ⟨threads, hexec⟩ := hexec
  refine ⟨{ s with threads }, ?_, halive⟩
  rw [System.step, if_neg halive, hexec]
  rfl

/-- A worker whose handler is done can always give its response to the loop. -/
theorem work_enabled (h : s.Reached fds strict) {k : ℕ}
    (hjob : (s.net.pools p).running[k]? = some job) {resp : Option Response}
    (hrest : s.threads.rest job.link = some (.ret resp)) (o : World) :
    ∃ s', s.step fds (.work p k o) = some s' ∧ s'.net.pc ≠ .crashed := by
  obtain ⟨-, t, -, hrefines⟩ := h.staffed
  have halive := hrefines.custody.wired.alive
  have hmem := List.mem_of_getElem? hjob
  cases resp with
  | none => exact absurd hrest (rest_ne_none h hmem)
  | some resp =>
      obtain ⟨link, hlink, -⟩ := hrefines.custody.unfinished (mem_unfinished (.inr hmem))
      simp [System.step, hjob, hrest, NetworkServer.step, halive, NetworkServer.work, hlink, store]

/-- A worker with a job can always do what comes next: access the store, take or release the
lock, or give its response to the loop. Its link is there, so that nothing breaks. -/
theorem System.worker_goes_on (h : s.Reached fds strict) {k : ℕ}
    (hjob : (s.net.pools p).running[k]? = some job) :
    (∀ x, ∃ s', s.step fds (.access job.link x) = some s' ∧ s'.net.pc ≠ .crashed) ∨
      ∀ o, ∃ s', s.step fds (.work p k o) = some s' ∧ s'.net.pc ≠ .crashed := by
  cases hrest : s.threads.rest job.link with
  | none => exact absurd hrest (h.staffed.1.busy p job (List.mem_of_getElem? hjob))
  | some q =>
      cases q with
      | call op next => exact .inl (access_enabled h hrest)
      | ret resp => exact .inr (work_enabled h hjob hrest)

theorem System.worker_goes_on_run : ∃ (s : System) (job : ProcJob), s.Reached smallFds true ∧
    job.link = 4 ∧
      ((∀ x, ∃ s', s.step smallFds (.access job.link x) = some s' ∧ s'.net.pc ≠ .crashed) ∨
        ∀ o, ∃ s', s.step smallFds (.work .writer 0 o) = some s' ∧ s'.net.pc ≠ .crashed) := by
  obtain ⟨s, hreached, hrunning, -⟩ := setThenGet_writing
  obtain ⟨job, hjob, hlink⟩ := List.map_eq_singleton_iff.mp hrunning
  exact ⟨s, job, hreached, hlink, System.worker_goes_on hreached (p := .writer) (k := 0)
    (by rw [hjob]; rfl)⟩

end GeminiDB
