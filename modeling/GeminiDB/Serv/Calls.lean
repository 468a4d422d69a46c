import Mathlib.Algebra.BigOperators.Group.List.Basic
import GeminiDB.Serv.Workers

/-!
# What `info` counts (`net/server.cpp`, `serv.cpp`)

`proc_result` counts a request when the loop collects its result, so the counter of a
command lags behind the replies by the results that wait in the pools.
-/

namespace GeminiDB

open NetworkServer

variable {fds : Descriptors} {strict : Bool} {s s' : System}

/-! ## Counting by names -/

/-- The name in the request that is replied to. -/
def Event.answered : Event → Option Bytes
  | .reply _ req _ => some (req.headD [])
  | _ => none

namespace System

/-- The names in the requests that are answered. -/
def answered (s : System) : List Bytes := s.log.filterMap Event.answered

/-- The names in the requests whose results the loop has not collected. -/
def uncollected (s : System) : List Bytes := s.net.results.map fun job ↦ job.request.headD []

end System

theorem sum_indicator {names : List Bytes} (hnodup : names.Nodup) (x : Bytes) :
    (names.map fun name ↦ if x = name then 1 else 0).sum = if x ∈ names then 1 else 0 := by
  induction names with
  | nil => rfl
  | cons name names ih =>
      obtain ⟨hnot, hnodup⟩ := List.nodup_cons.mp hnodup
      rw [List.map_cons, List.sum_cons, ih hnodup]
      by_cases hx : x = name
      · subst hx
        simp [hnot]
      · simp [hx]

/-- Every element is counted under one name. -/
theorem sum_count {names : List Bytes} (hnodup : names.Nodup) (xs : List Bytes) :
    (names.map fun name ↦ xs.count name).sum = xs.countP fun x ↦ x ∈ names := by
  induction xs with
  | nil => simp
  | cons x xs ih =>
      simp only [List.count_cons, List.countP_cons, beq_iff_eq, decide_eq_true_eq]
      rw [List.sum_map_add, ih, sum_indicator hnodup]

/-! ## The counters of the commands -/

/-- What is counted and what waits to be counted are the replies. -/
structure Counted (s : System) : Prop where
  known : ∀ name ∈ s.uncollected, (procMap.getProc name).isSome = true
  calls : ∀ name, (procMap.getProc name).isSome = true →
    s.calls name + UInt64.ofNat (s.uncollected.count name) = UInt64.ofNat (s.answered.count name)

theorem count_apply (req : Request) (calls : Bytes → UInt64) {name : Bytes}
    (hname : (procMap.getProc name).isSome = true) :
    System.count req calls name =
      calls name + UInt64.ofNat ([req.headD []].count name) := by
  rw [System.count]
  by_cases hreq : req.headD [] = name
  · rw [hreq, if_pos hname]
    simp
  · have hzero : [req.headD []].count name = 0 :=
      List.count_singleton.trans (if_neg (by simpa using hreq))
    rw [hzero]
    split
    · exact (Function.update_of_ne (Ne.symm hreq) ..).trans (UInt64.add_zero _).symm
    · exact (UInt64.add_zero _).symm

namespace Counted

theorem init (fds : Descriptors) : Counted (System.init fds) := by
  refine ⟨fun name hname ↦ ?_, fun name _ ↦ rfl⟩
  cases hname

/-- Nothing is answered or counted. -/
theorem same (h : Counted s) (hcalls : s'.calls = s.calls)
    (hresults : s.net.results.Perm s'.net.results) (hlog : s'.answered = s.answered) :
    Counted s' := by
  have huncollected : s.uncollected.Perm s'.uncollected := hresults.map _
  refine ⟨fun name hname ↦ h.known name (huncollected.mem_iff.mpr hname), fun name hname ↦ ?_⟩
  rw [hcalls, ← huncollected.count_eq, hlog]
  exact h.calls name hname

/-- A result is collected. -/
theorem collect (h : Counted s) {job : ProcJob}
    (hcalls : s'.calls = System.count job.request s.calls)
    (hresults : s.net.results.Perm (job :: s'.net.results)) (hlog : s'.answered = s.answered) :
    Counted s' := by
  have huncollected : s.uncollected.Perm (job.request.headD [] :: s'.uncollected) :=
    hresults.map _
  refine ⟨fun name hname ↦ h.known name (huncollected.mem_iff.mpr (List.mem_cons_of_mem _ hname)),
    fun name hname ↦ ?_⟩
  have hold := h.calls name hname
  rw [huncollected.count_eq, ← List.singleton_append, List.count_append, UInt64.ofNat_add] at hold
  rw [hcalls, count_apply _ _ hname, hlog, ← hold, UInt64.add_assoc]

/-- A request is answered and counted by the loop. -/
theorem inline (h : Counted s) {req : Request} (hcalls : s'.calls = System.count req s.calls)
    (hresults : s'.net.results = s.net.results)
    (hlog : s'.answered = s.answered ++ [req.headD []]) : Counted s' := by
  have huncollected : s'.uncollected = s.uncollected := by
    rw [System.uncollected, hresults, System.uncollected]
  refine ⟨fun name hname ↦ h.known name (huncollected ▸ hname), fun name hname ↦ ?_⟩
  rw [hcalls, count_apply _ _ hname, huncollected, hlog, List.count_append, UInt64.ofNat_add,
    ← h.calls name hname]
  ac_rfl

/-- A request is answered by a worker. -/
theorem work (h : Counted s) {done : ProcJob} (hcalls : s'.calls = s.calls)
    (hknown : (procMap.getProc (done.request.headD [])).isSome = true)
    (hresults : s'.net.results.Perm (done :: s.net.results))
    (hlog : s'.answered = s.answered ++ [done.request.headD []]) : Counted s' := by
  have huncollected : s'.uncollected.Perm (done.request.headD [] :: s.uncollected) :=
    hresults.map _
  refine ⟨fun name hname ↦ ?_, fun name hname ↦ ?_⟩
  · rcases List.mem_cons.mp (huncollected.mem_iff.mp hname) with rfl | hold
    · exact hknown
    · exact h.known name hold
  · rw [hcalls, huncollected.count_eq, ← List.singleton_append, List.count_append, hlog,
      List.count_append, UInt64.ofNat_add, UInt64.ofNat_add, ← h.calls name hname]
    ac_rfl

theorem step (h : Counted s) (hstaffed : Staffed fds s) {t : Spec}
    (hrefines : Refines fds strict s t) {a : System.Action} (hstep : s.step fds a = some s') :
    Counted s' := by
  have hlog {id : ℕ} {req : Request} :
      (s.log ++ [Event.request id req]).filterMap Event.answered = s.answered := by
    simp [System.answered, Event.answered]
  cases a with
  | wait reports =>
      obtain ⟨net, hnet, rfl⟩ := Option.map_eq_some_iff.mp hstep
      obtain ⟨-, -, -, hresults⟩ := step_apart hnet (by simp) (by simp)
      exact h.same rfl (.of_eq (hresults (by simp)).symm) rfl
  | event o =>
      obtain ⟨net, hnet, rfl⟩ := Option.map_eq_some_iff.mp hstep
      obtain ⟨-, -, -, hresults⟩ := event_apart hnet
      cases hjob : s.net.collected with
      | none =>
          rw [hjob] at hresults
          exact h.same rfl hresults rfl
      | some job =>
          rw [hjob] at hresults
          exact h.collect (by simp) hresults rfl
  | ready o r =>
      simp only [System.step] at hstep
      split at hstep
      · rw [System.ready] at hstep
        split at hstep
        · obtain ⟨net, hnet, rfl⟩ := Option.map_eq_some_iff.mp hstep
          obtain ⟨-, -, -, hresults⟩ := step_apart hnet (by simp) (by simp)
          exact h.same rfl (.of_eq (hresults (by simp)).symm) rfl
        · split at hstep
          · obtain ⟨net, hnet, rfl⟩ := Option.map_eq_some_iff.mp hstep
            obtain ⟨-, -, -, hresults⟩ := step_apart hnet (by simp) (by simp)
            exact h.same rfl (.of_eq (hresults (by simp)).symm) hlog
          · split at hstep
            · obtain ⟨net, hnet, rfl⟩ := Option.map_eq_some_iff.mp hstep
              obtain ⟨-, -, -, hresults⟩ := step_apart hnet (by simp) (by simp)
              refine h.inline rfl (hresults (by simp)) ?_
              exact List.filterMap_append ..
            · cases hstep
      · cases hstep
  | withdraw =>
      obtain ⟨net, hnet, rfl⟩ := Option.map_eq_some_iff.mp hstep
      obtain ⟨-, -, -, hresults⟩ := step_apart hnet (by simp) (by simp)
      exact h.same rfl (.of_eq (hresults (by simp)).symm) rfl
  | take p r =>
      simp only [System.step] at hstep
      split at hstep
      · cases hstep
      · obtain ⟨net, hnet, rfl⟩ := Option.map_eq_some_iff.mp hstep
        obtain ⟨job, jobs, -, -, rfl⟩ := step_take hnet
        have hresults (new : ProcWorkerPool) (hnew : new.results = (s.net.pools p).results) :=
          (results_update hnew).symm
        exact h.same rfl (.of_eq (hresults _ rfl)) rfl
  | access id x =>
      simp only [System.step] at hstep
      split at hstep
      · cases hstep
      · obtain ⟨threads, hexec, rfl⟩ := Option.map_eq_some_iff.mp hstep
        exact h.same rfl (.refl _) rfl
  | work p k o =>
      simp only [System.step] at hstep
      split at hstep
      · cases hstep
      · next job hjob =>
        split at hstep
        · next resp hdone =>
          obtain ⟨net, hnet, rfl⟩ := Option.map_eq_some_iff.mp hstep
          obtain ⟨-, -, -, job', done, hjob', hrequest, hresults⟩ := step_work hrefines.custody hnet
          obtain rfl : job = job' := Option.some.inj (hjob.symm.trans hjob')
          obtain ⟨cmd, -, hget, -⟩ :=
            suited_entry (hstaffed.suited p job (.inr (List.mem_of_getElem? hjob)))
          refine h.work rfl ?_ hresults ?_
          · rw [hrequest, hget]
            rfl
          · simp [System.answered, Event.answered, hrequest]
        · cases hstep

end Counted

theorem System.Reached.counted (h : s.Reached fds strict) :
    Counted s ∧ Staffed fds s ∧ ∃ t, Spec.Reached strict t ∧ Refines fds strict s t := by
  refine Machine.ReachableVia.invariant (P := fun s ↦ Counted s ∧ Staffed fds s ∧
    ∃ t, Spec.Reached strict t ∧ Refines fds strict s t) h
      ⟨.init fds, .init fds, _, .refl, refines_init fds strict⟩ ?_
  rintro s a s' ⟨hcounted, hstaffed, t, hreached, hrefines⟩ ha hstep
  obtain ⟨t', -, hsteps, -, -, hrefines'⟩ := hrefines.step ha hstep
  exact ⟨hcounted.step hstaffed hrefines hstep, hstaffed.step hrefines hstep, t',
    hreached.trans hsteps, hrefines'⟩

/-! ## What `info` says -/

theorem getProc_isSome {name : Bytes} :
    (procMap.getProc name).isSome = true ↔ name ∈ procMap.entries.map ProcMap.Entry.name := by
  rw [ProcMap.getProc, List.find?_isSome]
  simp [List.mem_map]

/-- Sums of counters that lag behind. -/
theorem foldl_calls {names : List Bytes} {calls : Bytes → UInt64} {waiting done : Bytes → ℕ}
    (h : ∀ name ∈ names, calls name + UInt64.ofNat (waiting name) = UInt64.ofNat (done name))
    (x : UInt64) :
    names.foldl (fun c name ↦ c + calls name) x + UInt64.ofNat (names.map waiting).sum =
      x + UInt64.ofNat (names.map done).sum := by
  induction names generalizing x with
  | nil => simp
  | cons name names ih =>
      have hrest := ih (fun other hother ↦ h other (List.mem_cons_of_mem _ hother))
        (x + calls name)
      rw [List.foldl_cons, List.map_cons, List.sum_cons, List.map_cons, List.sum_cons,
        UInt64.ofNat_add, UInt64.ofNat_add, ← h name List.mem_cons_self]
      calc
        _ = names.foldl (fun c name ↦ c + calls name) (x + calls name) +
              UInt64.ofNat (names.map waiting).sum + UInt64.ofNat (waiting name) := by ac_rfl
        _ = _ := by
          rw [hrest]
          ac_rfl

/-- The sum of the counters as `info` reports it. -/
def System.totalCalls (s : System) : Int64 :=
  ((procMap.entries.map ProcMap.Entry.name).foldl (fun c name ↦ c + s.calls name) 0).toInt64

theorem totalCalls_eq {r : Report} (hr : s.Reports r) : r.totalCalls = s.totalCalls := by
  have hcomm : RightCommutative fun x y : UInt64 ↦ x + y :=
    ⟨fun x y z ↦ by rw [UInt64.add_assoc, UInt64.add_comm y z, UInt64.add_assoc]⟩
  have hperm := (hr.2.map fun x ↦ x.2.2.2).foldl_eq (f := fun x y : UInt64 ↦ x + y) 0
  rw [List.map_map, List.map_map, List.foldl_map, List.foldl_map] at hperm
  rw [Report.totalCalls, System.totalCalls, List.foldl_map]
  exact congrArg UInt64.toInt64 hperm

/-- Each counter that `info` reports, and their sum, is the number of replies that clients got
so far to requests that the table knows, less the results that the loop has not collected. -/
theorem System.info_counts (h : s.Reached fds strict) {r : Report} (hr : s.Reports r) :
    (∀ cmd ∈ r.commands, cmd.calls + UInt64.ofNat (s.uncollected.count cmd.name) =
      UInt64.ofNat (s.answered.count cmd.name)) ∧
        r.totalCalls + Int64.ofNat s.uncollected.length =
          Int64.ofNat (s.answered.countP fun name ↦ (procMap.getProc name).isSome) := by
  obtain ⟨hcounted, -⟩ := h.counted
  have hcalls (name : Bytes) (hname : name ∈ procMap.entries.map ProcMap.Entry.name) :=
    hcounted.calls name (getProc_isSome.mpr hname)
  refine ⟨fun cmd hcmd ↦ ?_, ?_⟩
  · have hmem := hr.2.mem_iff.mp (List.mem_map_of_mem hcmd)
    obtain ⟨entry, hentry, heq⟩ := List.mem_map.mp hmem
    obtain ⟨hname, -, -, hcount⟩ : entry.name = cmd.name ∧ entry.flags = cmd.flags ∧
        entry.proc = cmd.proc ∧ s.calls entry.name = cmd.calls := by
      simpa only [Prod.mk.injEq] using heq
    rw [← hcount, hname]
    exact hcalls cmd.name (hname ▸ List.mem_map_of_mem hentry)
  · have hsum := foldl_calls hcalls 0
    rw [sum_count procMap.nodup, sum_count procMap.nodup] at hsum
    have hlength : s.uncollected.countP (fun x ↦ x ∈ procMap.entries.map ProcMap.Entry.name) =
        s.uncollected.length :=
      List.countP_eq_length.mpr fun name hname ↦
        decide_eq_true (getProc_isSome.mp (hcounted.known name hname))
    have hanswered : s.answered.countP (fun x ↦ x ∈ procMap.entries.map ProcMap.Entry.name) =
        s.answered.countP fun name ↦ (procMap.getProc name).isSome :=
      List.countP_congr fun name _ ↦ by rw [decide_eq_true_eq, getProc_isSome]
    rw [hlength, hanswered, UInt64.zero_add] at hsum
    have hint := congrArg UInt64.toInt64 hsum
    rw [UInt64.toInt64_add, UInt64.toInt64_ofNat', UInt64.toInt64_ofNat'] at hint
    rw [totalCalls_eq hr]
    exact hint

/-- Two requests are answered; the loop has collected the result of the first one. -/
theorem System.info_counts_run : ∃ (s : System) (r : Report), s.Reached smallFds true ∧
    s.uncollected = [ascii "get"] ∧ s.answered = [ascii "set", ascii "get"] ∧
      r.totalCalls + Int64.ofNat s.uncollected.length =
        Int64.ofNat (s.answered.countP fun name ↦ (procMap.getProc name).isSome) := by
  obtain ⟨s, hrun, hs⟩ := (Option.any_eq_true ..).mp
    (show (Machine.runVia (System.step smallFds) (fun _ a ↦ a.Admitted true)
      (System.init smallFds) (setThenGet ++ [.ready calmWorld (smallReport 2),
        .wait [(5, epollIn)], .event calmWorld])).any (fun s ↦
          s.uncollected = [ascii "get"] ∧ s.answered = [ascii "set", ascii "get"]) = true by
            decide +kernel)
  obtain ⟨huncollected, hanswered⟩ := of_decide_eq_true hs
  have hreached : s.Reached smallFds true := Machine.reachableVia_of_run hrun
  exact ⟨s, _, hreached, huncollected, hanswered,
    (System.info_counts hreached s.reports_report).2⟩

end GeminiDB
