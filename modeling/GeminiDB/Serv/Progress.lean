import GeminiDB.Lib.Tasks
import GeminiDB.Serv.Workers

/-!
# The workers come to an end

Left to themselves, the workers cannot go on for ever, in whatever order they take jobs,
access the store and finish. When they stop, every job that was there is answered, once.
So no request waits for more than the loop, and the loop never for a worker that is stuck.
-/

namespace GeminiDB

open Program NetworkServer

namespace System

/-- What workers do. -/
def Action.OfWorker : Action → Prop
  | .take _ _ => True
  | .access _ _ => True
  | .work _ _ _ => True
  | _ => False

/-- A step of a worker. -/
def WorkerStep (fds : Descriptors) (strict : Bool) : System → System → Prop :=
  Machine.Moves (step fds) fun _ a ↦ a.OfWorker ∧ a.Admitted strict

/-- The handlers of the unfinished jobs; one that no worker has begun is `none`. -/
def tasks (s : System) : Multiset (Option (Body (Option Response))) :=
  (s.net.unfinished.map fun job ↦ s.threads.rest job.link : List _)

end System

/-- The event of a job that is answered. -/
def Event.ofJob (p : ProcJob × Response) : Event := .reply p.1.link p.1.request p.2

/-- Some jobs are answered, and the others are what is left. -/
def Answers (s s' : System) (replies : List (ProcJob × Response)) : Prop :=
  s'.log = s.log ++ replies.map Event.ofJob ∧
    (replies.map Prod.fst ++ s'.net.unfinished).Perm s.net.unfinished

variable {fds : Descriptors} {strict : Bool} {s s' : System} {p : PoolId} {job : ProcJob}

/-- A link has one unfinished job. -/
theorem others_apart {S : Setup} {net : NetworkServer} (h : Custody S net)
    (hjob : job ∈ net.unfinished) :
    ∃ others, net.unfinished.Perm (job :: others) ∧ ∀ other ∈ others, other.link ≠ job.link := by
  have hone : (net.unfinished.filter fun other ↦ other.link = job.link) = [job] :=
    (job_waiting h hjob).2
  have hsplit := List.filter_append_perm (fun other : ProcJob ↦ decide (other.link = job.link))
    net.unfinished
  rw [hone, List.singleton_append] at hsplit
  exact ⟨_, hsplit.symm, fun other hother ↦ by simpa using (List.mem_filter.mp hother).2⟩

/-- A worker that is done has one job less. -/
theorem unfinished_work {S : Setup} {net net' : NetworkServer} (h : Custody S net) {k : ℕ}
    {o : World} (hjob : (net.pools p).running[k]? = some job)
    (hstep : net.step S (.work p k o) = some net') :
    net.unfinished.Perm (job :: net'.unfinished) := by
  obtain ⟨hrunning, hjobs, -⟩ := step_work h hstep
  obtain ⟨hlt, heq⟩ := List.getElem?_eq_some_iff.mp hjob
  have herase := (List.getElem_cons_eraseIdx_perm hlt).symm
  rw [heq] at herase
  have hpool := (herase.append_left (net.pools p).jobs).trans List.perm_middle
  cases p with
  | reader =>
      simp only [unfinished, hrunning, hjobs, if_true, reduceCtorEq, if_false]
      exact hpool.append_right _
  | writer =>
      simp only [unfinished, hrunning, hjobs, if_true, reduceCtorEq, if_false]
      exact (hpool.append_left _).trans List.perm_middle

theorem tasks_eq {others : List ProcJob} (h : s.net.unfinished.Perm (job :: others)) :
    s.tasks = s.threads.rest job.link ::ₘ
      (others.map fun other ↦ s.threads.rest other.link : List _) := by
  rw [System.tasks, Multiset.cons_coe]
  exact Multiset.coe_eq_coe.mpr (h.map _)

/-- The handlers of the other jobs are as they were. -/
theorem tasks_others {others : List ProcJob} (hothers : ∀ other ∈ others, other.link ≠ job.link)
    {q : Option (Body (Option Response))}
    (hrest : s'.threads.rest = Function.update s.threads.rest job.link q) :
    (others.map fun other ↦ s'.threads.rest other.link) =
      others.map fun other ↦ s.threads.rest other.link := by
  refine List.map_congr_left fun other hother ↦ ?_
  rw [hrest, Function.update_of_ne (hothers other hother)]

/-- The handler of one job has gone on. -/
theorem less_of_step (h : Custody (serverSetup fds) s.net) (hjob : job ∈ s.net.unfinished)
    {q : Option (Body (Option Response))} (hafter : After q (s.threads.rest job.link))
    (hrest : s'.threads.rest = Function.update s.threads.rest job.link q)
    (hsame : s'.net.unfinished.Perm s.net.unfinished) : Less s'.tasks s.tasks := by
  obtain ⟨others, hperm, hothers⟩ := others_apart h hjob
  rw [tasks_eq hperm, tasks_eq (hsame.trans hperm), tasks_others hothers hrest, hrest,
    Function.update_self]
  exact less_of_after hafter _

/-- The handler of one job has ended. -/
theorem less_of_work (h : Custody (serverSetup fds) s.net) (hjob : job ∈ s.net.unfinished)
    {q : Option (Body (Option Response))}
    (hrest : s'.threads.rest = Function.update s.threads.rest job.link q)
    (hperm : s.net.unfinished.Perm (job :: s'.net.unfinished)) : Less s'.tasks s.tasks := by
  obtain ⟨others, hsplit, hothers⟩ := others_apart h hjob
  have hrest' : s'.net.unfinished.Perm others := (hperm.symm.trans hsplit).cons_inv
  have htasks : s'.tasks = (others.map fun other ↦ s.threads.rest other.link : List _) := by
    rw [← tasks_others hothers hrest]
    exact Multiset.coe_eq_coe.mpr (hrest'.map _)
  rw [tasks_eq hsplit, htasks]
  exact less_of_end _ _

/-- A worker takes a job and begins. -/
theorem take_less {t : Spec} (hrefines : Refines fds strict s t) {r : Report}
    (hstep : s.step fds (.take p r) = some s') : Less s'.tasks s.tasks ∧ Answers s s' [] := by
  simp only [System.step] at hstep
  split at hstep
  · cases hstep
  · next job jobs hjobs =>
    obtain ⟨net, hnet, rfl⟩ := Option.map_eq_some_iff.mp hstep
    obtain ⟨job', jobs', hjobs', -, rfl⟩ := step_take hnet
    cases hjobs.symm.trans hjobs'
    have hmem : job ∈ s.net.unfinished :=
      mem_unfinished (p := p) (.inl (hjobs ▸ List.mem_cons_self))
    have hsame : ({ s.net with
        pools := Function.update s.net.pools p
          { s.net.pools p with
            jobs := jobs
            running := (s.net.pools p).running ++ [job] } } : NetworkServer).unfinished.Perm
              ([] ++ s.net.unfinished) := by
      refine unfinished_perm (fun q hq ↦ Function.update_of_ne hq ..) ?_
      simp only [Function.update_self, hjobs, List.nil_append]
      rw [← List.append_assoc]
      exact List.perm_append_singleton ..
    refine ⟨less_of_step hrefines.custody hmem ?_ rfl hsame, (List.append_nil _).symm, hsame⟩
    rw [hrefines.take_absent hjobs]
    exact .begin _

/-- A worker accesses the store. -/
theorem access_less {t : Spec} (hrefines : Refines fds strict s t) {id : ℕ} {x : Unit × Bool}
    (hstep : s.step fds (.access id x) = some s') : Less s'.tasks s.tasks ∧ Answers s s' [] := by
  simp only [System.step] at hstep
  split at hstep
  · cases hstep
  · obtain ⟨threads, hexec, rfl⟩ := Option.map_eq_some_iff.mp hstep
    obtain ⟨op, next, v, hrest, hrest', -⟩ := Threads.exec_cases hexec
    obtain ⟨p, job, hjob, rfl⟩ := hrefines.running id (by rw [hrest]; simp)
    refine ⟨less_of_step hrefines.custody (mem_unfinished (.inr hjob)) ?_ hrest' (.refl _),
      (List.append_nil _).symm, .refl _⟩
    rw [hrest]
    exact .next op next v

/-- A worker answers. -/
theorem work_less {t : Spec} (hrefines : Refines fds strict s t) {k : ℕ} {o : World}
    (hstep : s.step fds (.work p k o) = some s') :
    Less s'.tasks s.tasks ∧ ∃ job resp, Answers s s' [(job, resp)] := by
  simp only [System.step] at hstep
  split at hstep
  · cases hstep
  · next job hjob =>
    split at hstep
    · next resp hdone =>
      obtain ⟨net, hnet, rfl⟩ := Option.map_eq_some_iff.mp hstep
      have hperm := unfinished_work hrefines.custody hjob hnet
      exact ⟨less_of_work hrefines.custody (mem_unfinished (.inr (List.mem_of_getElem? hjob))) rfl
        hperm, job, resp, rfl, hperm.symm⟩
    · cases hstep

theorem Answers.trans {s'' : System} {replies replies' : List (ProcJob × Response)}
    (h : Answers s s' replies) (h' : Answers s' s'' replies') :
    Answers s s'' (replies ++ replies') := by
  refine ⟨?_, ?_⟩
  · rw [h'.1, h.1, List.map_append, List.append_assoc]
  · rw [List.map_append, List.append_assoc]
    exact (h'.2.append_left _).trans h.2

theorem worker_step (h : s.Reached fds strict) (hstep : System.WorkerStep fds strict s s') :
    s'.Reached fds strict ∧ Less s'.tasks s.tasks ∧ ∃ replies, Answers s s' replies := by
  obtain ⟨a, ⟨hworker, hadmitted⟩, ha⟩ := hstep
  obtain ⟨-, t, -, hrefines⟩ := h.staffed
  refine ⟨h.step hadmitted ha, ?_⟩
  cases a with
  | take p r => exact (take_less hrefines ha).imp_right fun h ↦ ⟨_, h⟩
  | access id x => exact (access_less hrefines ha).imp_right fun h ↦ ⟨_, h⟩
  | work p k o => exact (work_less hrefines ha).imp_right fun ⟨_, _, h⟩ ↦ ⟨_, h⟩
  | wait reports => exact hworker.elim
  | event o => exact hworker.elim
  | ready o r => exact hworker.elim
  | withdraw => exact hworker.elim

/-- A job that is there can be taken or can go on. -/
theorem worker_enabled (h : s.Reached fds strict) (hjob : job ∈ s.net.unfinished) :
    ∃ s', System.WorkerStep fds strict s s' := by
  have hgo {a : System.Action} (hworker : a.OfWorker) (hadmitted : a.Admitted strict)
      (hstep : ∃ s', s.step fds a = some s') : ∃ s', System.WorkerStep fds strict s s' := by
    obtain ⟨s', hs'⟩ := hstep
    exact ⟨s', a, ⟨hworker, hadmitted⟩, hs'⟩
  have hrunning {p : PoolId} {job : ProcJob} (hmem : job ∈ (s.net.pools p).running) :
      ∃ s', System.WorkerStep fds strict s s' := by
    obtain ⟨k, hk⟩ := List.getElem?_of_mem hmem
    cases hrest : s.threads.rest job.link with
    | none => exact absurd hrest (h.staffed.1.busy p job hmem)
    | some q =>
        cases q with
        | call op next =>
            obtain ⟨s', hs', -⟩ := access_enabled h hrest ((), false)
            exact hgo (a := .access job.link ((), false)) trivial (fun _ ↦ rfl) ⟨s', hs'⟩
        | ret resp =>
            obtain ⟨s', hs', -⟩ := work_enabled h hk hrest calmWorld
            exact hgo (a := .work p k calmWorld) trivial trivial ⟨s', hs'⟩
  have hwaiting {p : PoolId} (hmem : job ∈ (s.net.pools p).jobs) :
      ∃ s', System.WorkerStep fds strict s s' := by
    cases hpool : (s.net.pools p).running with
    | cons other rest => exact hrunning (hpool ▸ List.mem_cons_self)
    | nil =>
        obtain ⟨first, rest, hjobs⟩ := List.exists_cons_of_ne_nil (List.ne_nil_of_mem hmem)
        obtain ⟨-, t, -, hrefines⟩ := h.staffed
        have hroom : 0 < (serverSetup fds).workers p := by
          cases p with
          | reader => exact Nat.succ_pos 9
          | writer => exact Nat.one_pos
        refine hgo (a := .take p ⟨0, [], [], 0, []⟩) trivial trivial
          (Option.isSome_iff_exists.mp ?_)
        simp [System.step, hjobs, NetworkServer.step, hrefines.custody.wired.alive,
          NetworkServer.take, hpool, hroom]
  simp only [unfinished, List.mem_append] at hjob
  rcases hjob with (hjob | hjob) | hjob | hjob
  · exact hwaiting hjob
  · exact hrunning hjob
  · exact hwaiting hjob
  · exact hrunning hjob

/-- Left to themselves the workers stop, in whatever order they go on, and when they stop every
job is answered, once. -/
theorem System.workers_finish (h : s.Reached fds strict) :
    (∀ run : ℕ → System, run 0 = s → ¬ ∀ n, WorkerStep fds strict (run n) (run (n + 1))) ∧
      ∀ s', Relation.ReflTransGen (WorkerStep fds strict) s s' →
        (¬ ∃ s'', WorkerStep fds strict s' s'') →
          ∃ replies : List (ProcJob × Response), s'.log = s.log ++ replies.map Event.ofJob ∧
            (replies.map Prod.fst).Perm s.net.unfinished := by
  constructor
  · rintro run rfl hsteps
    have hreached (n : ℕ) : (run n).Reached fds strict := by
      induction n with
      | zero => exact h
      | succ n ih => exact (worker_step ih (hsteps n)).1
    obtain ⟨n, hn⟩ := WellFounded.not_rel_apply_succ (r := Less) fun n ↦ (run n).tasks
    exact hn (worker_step (hreached n) (hsteps n)).2.1
  · intro s' hrun hstopped
    have hanswers : s'.Reached fds strict ∧ ∃ replies, Answers s s' replies := by
      clear hstopped
      induction hrun with
      | refl => exact ⟨h, [], (List.append_nil _).symm, .refl _⟩
      | tail _ hstep ih =>
          obtain ⟨hreached, replies, hanswers⟩ := ih
          obtain ⟨hreached', -, replies', hanswers'⟩ := worker_step hreached hstep
          exact ⟨hreached', _, hanswers.trans hanswers'⟩
    obtain ⟨hreached, replies, hlog, hperm⟩ := hanswers
    have hnone : s'.net.unfinished = [] := by
      by_contra hne
      obtain ⟨job, hjob⟩ := List.exists_mem_of_ne_nil _ hne
      exact hstopped (worker_enabled hreached hjob)
    rw [hnone, List.append_nil] at hperm
    exact ⟨replies, hlog, hperm⟩

/-- A job waits for the writer. -/
theorem System.workers_finish_run : ∃ s : System, s.Reached smallFds true ∧
    s.net.unfinished.map ProcJob.link = [4] ∧
      (∀ run : ℕ → System, run 0 = s → ¬ ∀ n, WorkerStep smallFds true (run n) (run (n + 1))) ∧
        ∀ s', Relation.ReflTransGen (WorkerStep smallFds true) s s' →
          (¬ ∃ s'', WorkerStep smallFds true s' s'') →
            ∃ replies : List (ProcJob × Response), s'.log = s.log ++ replies.map Event.ofJob ∧
              (replies.map Prod.fst).Perm s.net.unfinished := by
  obtain ⟨s, hrun, hs⟩ := (Option.any_eq_true ..).mp
    (show (Machine.runVia (System.step smallFds) (fun _ a ↦ a.Admitted true)
      (System.init smallFds) (setThenGet.take 14)).any (fun s ↦
        s.net.unfinished.map ProcJob.link = [4]) = true by decide +kernel)
  have hreached : s.Reached smallFds true := Machine.reachableVia_of_run hrun
  exact ⟨s, hreached, of_decide_eq_true hs, System.workers_finish hreached⟩

end GeminiDB
