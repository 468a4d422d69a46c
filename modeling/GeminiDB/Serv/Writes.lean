import GeminiDB.Serv.Sequential
import GeminiDB.Serv.Workers

/-!
# Writes are atomic

As there is one writer, the mutating calls of one request are not interrupted by those
of another one. So a request that writes does what its handler would do alone, from the
database at its first call to the database at its reply, whatever the readers do
meanwhile.
-/

namespace GeminiDB

open Program NetworkServer

/-- From a mutating call up to the reply, all mutating calls are of one link. -/
def Serial (log : List Event) : Prop :=
  ∀ {l₁ i m x l₂ l₃}, log = l₁ ++ .moment i (.mutate m) x :: (l₂ ++ l₃) →
    (∀ e ∈ l₂, e.visible = true → e.link ≠ i) → ∀ {j m' x'}, .moment j (.mutate m') x' ∈ l₂ → j = i

/-- A link with a mutating call and no reply yet is that of the writer's job. -/
structure Written (s : System) (t : Spec) : Prop where
  serial : Serial t.log
  writer : ∀ {l₁ i m x l₂}, t.log = l₁ ++ .moment i (.mutate m) x :: l₂ →
    (∀ e ∈ l₂, e.visible = true → e.link ≠ i) →
      ∃ job ∈ (s.net.pools .writer).running, job.link = i

theorem written_init (fds : Descriptors) : Written (System.init fds) Spec.init :=
  ⟨fun h ↦ (List.append_ne_nil_of_right_ne_nil _ (by simp) h.symm).elim,
    fun h ↦ (List.append_ne_nil_of_right_ne_nil _ (by simp) h.symm).elim⟩

variable {fds : Descriptors} {strict : Bool} {s s' : System} {t t' : Spec} {ext : List Event}

/-- The moments of functions that read are not mutating ones. -/
theorem reader_moments {p : Api (Option Response)} (h : p.All ApiCall.Reads) :
    (moments p).All fun m ↦ ∀ m', m ≠ .mutate m' := by
  refine .expand (P := ApiCall.Reads) _ (fun c hc ↦ ?_) h
  have hpeek (name item : Bytes) (side : SeqDeque.Side) :
      (ApiCall.peekMoments name item side).All fun m ↦ ∀ m', m ≠ .mutate m' := by
    refine ⟨by simp, fun r ↦ ?_⟩
    dsimp only
    split
    · trivial
    · split
      · trivial
      · exact ⟨by simp, fun _ ↦ trivial⟩
  cases c with
  | get key => exact ⟨by simp, fun _ ↦ trivial⟩
  | qsize name => exact ⟨by simp, fun _ ↦ trivial⟩
  | qfront name item => exact hpeek name item .front
  | qback name item => exact hpeek name item .back
  | mutate m => exact hc.elim

/-- A step makes mutating calls for the writer's job only. -/
theorem Advance.writer (hadvance : Advance s s' t ext) (hstaffed : Staffed fds s)
    (hrefines : Refines fds strict s t) (htraced : Traced strict t) {i : ℕ} {m : Mutation}
    {x : Option Bytes} (hmem : .moment i (.mutate m) x ∈ ext) :
    ∃ job, (s.net.pools .writer).running = [job] ∧ job.link = i := by
  obtain ⟨p, hp, hall⟩ := hadvance.moments hmem
  have hrest : s.threads.rest i ≠ none := by
    intro hnone
    cases (hrefines.linked.absent hnone).1.symm.trans hp
  obtain ⟨q, job, hjob, rfl⟩ := hrefines.running i hrest
  cases q with
  | writer => exact ⟨job, hstaffed.running_eq hjob, rfl⟩
  | reader =>
      have hwaiting := (job_waiting hrefines.custody (mem_unfinished (.inr hjob))).1
      obtain ⟨a, b, r, -, hfollows⟩ :=
        htraced.started ((hrefines.asked job.link).trans hwaiting) hp
      have hreads := suited_reads (hstaffed.suited _ job (.inr hjob)) r
      exact (hall _ (hfollows.all (reader_moments hreads)) m rfl).elim

theorem append_eq_append_cons {α : Type*} {l k l₁ r : List α} {x : α}
    (h : l ++ k = l₁ ++ x :: r) :
    (∃ r', l = l₁ ++ x :: r' ∧ r = r' ++ k) ∨ ∃ k', k = k' ++ x :: r := by
  rcases List.append_eq_append_iff.mp h with ⟨m, rfl, hk⟩ | ⟨m, rfl, hr⟩
  · exact .inr ⟨m, hk⟩
  · cases m with
    | nil => exact .inr ⟨[], hr.symm⟩
    | cons y m =>
        obtain ⟨rfl, rfl⟩ := List.cons.inj hr
        exact .inl ⟨m, rfl, rfl⟩

theorem Written.step (h : Written s t) (hstaffed : Staffed fds s)
    (hrefines : Refines fds strict s t) (htraced : Traced strict t)
    (hlog : t'.log = t.log ++ ext) (hadvance : Advance s s' t ext) : Written s' t' := by
  have hwriter {i : ℕ} {m : Mutation} {x : Option Bytes} (hmem : .moment i (.mutate m) x ∈ ext) :=
    hadvance.writer hstaffed hrefines htraced hmem
  -- the mutating calls of a step are of one link
  have hsame {i : ℕ} (hi : ∃ job ∈ (s.net.pools .writer).running, job.link = i) {j : ℕ}
      {m : Mutation} {x : Option Bytes} (hmem : .moment j (.mutate m) x ∈ ext) : j = i := by
    obtain ⟨job, hjob, rfl⟩ := hi
    obtain ⟨job', hone, rfl⟩ := hwriter hmem
    rw [hone, List.mem_singleton] at hjob
    rw [hjob]
  have hmember {i : ℕ} {m : Mutation} {x : Option Bytes} (hmem : .moment i (.mutate m) x ∈ ext) :
      ∃ job ∈ (s.net.pools .writer).running, job.link = i := by
    obtain ⟨job, hone, hlink⟩ := hwriter hmem
    exact ⟨job, hone ▸ List.mem_singleton_self job, hlink⟩
  constructor
  · intro l₁ i m x l₂ l₃ heq hsilent j m' x' hmem
    rcases append_eq_append_cons (hlog.symm.trans heq) with ⟨r, hold, hr⟩ | ⟨k, hnew⟩
    · rcases List.append_eq_append_iff.mp hr with ⟨as, rfl, -⟩ | ⟨bs, rfl, hext⟩
      · exact h.serial hold hsilent hmem
      · have hactive := h.writer hold fun e he ↦ hsilent e (List.mem_append_left _ he)
        rcases List.mem_append.mp hmem with hfirst | hsecond
        · have hold' : t.log = l₁ ++ .moment i (.mutate m) x :: (r ++ []) :=
            hold.trans (by rw [List.append_nil])
          exact h.serial hold' (fun e he ↦ hsilent e (List.mem_append_left _ he)) hfirst
        · exact hsame hactive (hext ▸ List.mem_append_left _ hsecond)
    · have hmine : .moment i (.mutate m) x ∈ ext := by
        rw [hnew]
        simp
      have hother : .moment j (.mutate m') x' ∈ ext := by
        rw [hnew]
        simp [hmem]
      exact hsame (hmember hmine) hother
  · intro l₁ i m x l₂ heq hsilent
    have hstays {job : ProcJob} (hjob : job ∈ (s.net.pools .writer).running)
        (hlink : job.link = i)
        (hlast : ∀ before req resp, ext = before ++ [.reply i req resp] →
          .reply i req resp ∈ l₂) :
        ∃ job ∈ (s'.net.pools .writer).running, job.link = i := by
      rcases hadvance.leaves .writer job hjob with hstill | ⟨before, req, resp, hext⟩
      · exact ⟨job, hstill, hlink⟩
      · rw [hlink] at hext
        exact (hsilent _ (hlast before req resp hext) rfl rfl).elim
    rcases append_eq_append_cons (hlog.symm.trans heq) with ⟨r, hold, rfl⟩ | ⟨k, hnew⟩
    · obtain ⟨job, hjob, hlink⟩ :=
        h.writer hold fun e he ↦ hsilent e (List.mem_append_left _ he)
      refine hstays hjob hlink fun before req resp hext ↦ List.mem_append_right _ ?_
      rw [hext]
      simp
    · have hmine : .moment i (.mutate m) x ∈ ext := by
        rw [hnew]
        simp
      obtain ⟨job, hjob, hlink⟩ := hmember hmine
      refine hstays hjob hlink fun before req resp hext ↦ ?_
      have hlast := congrArg List.getLast? (hnew.symm.trans hext)
      rw [List.getLast?_concat, List.getLast?_append_cons] at hlast
      rcases List.mem_cons.mp (List.mem_of_getLast? hlast) with heq | hmem
      · cases heq
      · exact hmem

theorem System.Reached.written (h : s.Reached fds strict) :
    ∃ t, Spec.Reached strict t ∧ Refines fds strict s t ∧ Written s t := by
  suffices hboth : Staffed fds s ∧ ∃ t, Spec.Reached strict t ∧ Refines fds strict s t ∧
      Written s t from hboth.2
  refine Machine.ReachableVia.invariant (P := fun s ↦ Staffed fds s ∧ ∃ t, Spec.Reached strict t ∧
    Refines fds strict s t ∧ Written s t) h
    ⟨.init fds, _, .refl, refines_init fds strict, written_init fds⟩ ?_
  rintro s a s' ⟨hstaffed, t, hreached, hrefines, hwritten⟩ ha hstep
  obtain ⟨t', ext, hsteps, hlog, hadvance, hrefines'⟩ := hrefines.step ha hstep
  exact ⟨hstaffed.step hrefines hstep, t', hreached.trans hsteps, hrefines',
    hwritten.step hstaffed hrefines (Spec.Reached.traced hreached) hlog hadvance⟩

/-! ## One after the other -/

/-- The request is for a command with the flag `w`. -/
def Request.Mutates (req : Request) : Prop :=
  ∃ cmd, procMap.getProc (req.headD []) = some cmd ∧ cmd.flags &&& Command.flagWrite ≠ 0

/-- A handler with the flag `w` makes mutating calls only. -/
theorem writer_moments {req : Request} (h : req.Mutates) (r : Report) :
    (moments (handler r req)).All fun m ↦ ∃ m', m = .mutate m' := by
  have hcall {m : Mutation} (f : Int × Bytes → Response) :
      (moments (.call (.mutate m) fun r ↦ .ret (some (f r)))).All fun m ↦ ∃ m', m = .mutate m' :=
    ⟨⟨m, rfl⟩, fun _ ↦ trivial⟩
  have hcheck {n : ℕ} {p : Api (Option Response)}
      (hp : (moments p).All fun m ↦ ∃ m', m = .mutate m') :
      (moments (checkParams n req p)).All fun m ↦ ∃ m', m = .mutate m' := by
    rw [checkParams]
    split
    · trivial
    · exact hp
  have hqueue (h : Handler Response) :
      (moments (Api.ofHandler h)).All fun m ↦ ∃ m', m = .mutate m' := by
    rw [moments, Api.ofHandler, Prog.expand_bind, Prog.expand_expand]
    refine .bind (.expand (P := fun _ ↦ True) _ (fun m _ ↦ ?_) (Prog.all_true h)) fun _ ↦ trivial
    exact ⟨⟨m, rfl⟩, fun _ ↦ trivial⟩
  obtain ⟨cmd, hcmd, hwrite⟩ := h
  have hmutates := ((procMap_flags cmd (List.mem_of_find?_eq_some hcmd)).1).mp hwrite
  rw [handler, hcmd]
  dsimp only
  cases hproc : cmd.proc with
  | procSet => exact hcheck (hcall _)
  | procDel => exact hcheck (hcall _)
  | procMultiSet =>
      rw [Proc.api, Api.procMultiSet]
      split
      · trivial
      · exact hcall _
  | procMultiDel => exact hcheck (hcall _)
  | procQpush => exact hqueue _
  | procQpushFront => exact hqueue _
  | procQpushBack => exact hqueue _
  | procQpop => exact hqueue _
  | procQpopFront => exact hqueue _
  | procQpopBack => exact hqueue _
  | _ =>
      rw [hproc] at hmutates
      cases hmutates

/-- Where the others leave the database alone, a link does what its handler does alone. -/
theorem Follows.answer {id : ℕ} {d : Database} {log : List Event} {r : Report} {req : Request}
    {resp : Response} (h : Follows id d (moments (handler r req)) log (.ret (some resp)))
    (hothers : ∀ e ∈ log, e.link ≠ id → ∀ d, e.apply d = d)
    (hworks : ∀ {m x}, .moment id m x ∈ log → x = none) :
    d.answer r req = (some resp, replay log d) := by
  obtain ⟨hval, hstate⟩ := h.run_alone hothers hworks
  obtain ⟨hval', hstate'⟩ := run_moments (handler r req) d
  exact Prod.ext (hval'.symm.trans hval) (hstate'.symm.trans hstate)

/-- From a mutating call of a link on, the others leave the database alone. -/
theorem Serial.others {log l e rest : List Event} (h : Serial log) {id : ℕ} {m : Mutation}
    {x : Option Bytes} (hlog : log = l ++ .moment id (.mutate m) x :: (e ++ rest))
    (hsilent : ∀ ev ∈ e, ev.visible = true → ev.link ≠ id) :
    ∀ ev ∈ .moment id (.mutate m) x :: e, ev.link ≠ id → ∀ d, ev.apply d = d := by
  intro ev hev hne d
  rcases List.mem_cons.mp hev with rfl | hmem
  · exact absurd rfl hne
  · cases ev with
    | request => rfl
    | reply => rfl
    | moment j m' y =>
        cases m' with
        | read slot => rfl
        | mutate m' => exact absurd (h hlog hsilent hmem) hne

/-- A request that writes is answered without a call, or from its first call on it does what
its handler does alone. -/
theorem Explained.write {log a b : List Event} (h : Explained log) (hserial : Serial log)
    (hworks : ∀ {id m x}, .moment id m x ∈ log → x = none) {id : ℕ} {req : Request}
    {resp : Response} (hlog : log = a ++ .reply id req resp :: b) (hmutates : req.Mutates) :
    ∃ c l r, a = c ++ .request id req :: l ∧
      (((∀ d : Database, d.answer r req = (some resp, d)) ∧ ∀ ev ∈ l, ev.link ≠ id) ∨
        ∃ d m x e, l = d ++ .moment id (.mutate m) x :: e ∧ (∀ ev ∈ d, ev.link ≠ id) ∧
          (∀ ev ∈ e, ev.visible = true → ev.link ≠ id) ∧
            (replay (c ++ .request id req :: d) .empty).answer r req =
              (some resp, replay a .empty)) := by
  obtain ⟨c, l, r, rfl, hfollows⟩ := h.reply hlog
  refine ⟨c, l, r, rfl, ?_⟩
  cases hprog : moments (handler r req) with
  | ret v =>
      left
      rw [hprog] at hfollows
      obtain rfl := hfollows.ret
      refine ⟨fun d ↦ ?_, hfollows.ret_apart⟩
      have hnil : Follows id d (moments (handler r req)) [] (.ret (some resp)) := hprog ▸ .nil
      exact hnil.answer (fun ev hev ↦ absurd hev List.not_mem_nil)
        fun hmem ↦ absurd hmem List.not_mem_nil
  | call m next =>
      right
      have hfirst := writer_moments hmutates r
      have hsilent := hfollows.silent
      rw [hprog] at hfollows hfirst
      obtain ⟨d, x, e, rfl, hd, hrest⟩ := hfollows.call
      obtain ⟨m', rfl⟩ := hfirst.1
      have hsplit : log = (c ++ .request id req :: d) ++
          .moment id (.mutate m') x :: (e ++ .reply id req resp :: b) :=
        hlog.trans (by simp)
      have hquiet : ∀ ev ∈ e, ev.visible = true → ev.link ≠ id := fun ev hev ↦
        hsilent ev (List.mem_append_right _ (List.mem_cons_of_mem _ hev))
      refine ⟨d, m', x, e, rfl, hd, hquiet, ?_⟩
      have hrun : Follows id (replay (c ++ .request id req :: d) .empty) (moments (handler r req))
          (.moment id (.mutate m') x :: e) (.ret (some resp)) := by
        rw [hprog, replay_append, replay, List.foldl_cons]
        exact .mine hrest
      have hmem {ev : Event} (hev : ev ∈ .moment id (.mutate m') x :: e) : ev ∈ log := by
        rw [hsplit]
        exact List.mem_append_right _ (List.mem_append_left _ hev)
      rw [hrun.answer (hserial.others hsplit hquiet) fun hev ↦ hworks (hmem hev), ← replay_append]
      simp

/-- A request that writes does what its handler does alone, from a database after the request
to the one at the reply. -/
theorem System.writes_atomic (h : s.Reached fds true) :
    ∃ log, log.filter Event.visible = s.log ∧
      Represents s.threads.shared.db (replay log .empty) ∧
        ∀ {a id req resp b}, log = a ++ .reply id req resp :: b → req.Mutates →
          ∃ c d e r, a = c ++ .request id req :: (d ++ e) ∧
            (∀ ev ∈ d ++ e, ev.visible = true → ev.link ≠ id) ∧
              (replay (c ++ .request id req :: d) .empty).answer r req =
                (some resp, replay a .empty) := by
  obtain ⟨t, hreached, hrefines, hwritten⟩ := h.written
  have htraced := hreached.traced
  refine ⟨t.log, hrefines.log, htraced.shared ▸ hrefines.linked.shared, ?_⟩
  intro a id req resp b hlog hmutates
  obtain ⟨c, l, r, rfl, hcases⟩ := htraced.explained.write hwritten.serial
    (fun hmem ↦ htraced.admitted hmem rfl) hlog hmutates
  rcases hcases with ⟨hanswer, hapart⟩ | ⟨d, m, x, e, rfl, hd, hquiet, hanswer⟩
  · refine ⟨c, l, [], r, by rw [List.append_nil], fun ev hev _ ↦ ?_, hanswer _⟩
    rw [List.append_nil] at hev
    exact hapart ev hev
  · refine ⟨c, d, .moment id (.mutate m) x :: e, r, rfl, fun ev hev hvisible ↦ ?_, hanswer⟩
    rcases List.mem_append.mp hev with hmem | hmem
    · exact hd ev hmem
    · rcases List.mem_cons.mp hmem with rfl | hmem
      · cases hvisible
      · exact hquiet ev hmem hvisible

theorem System.writes_atomic_run : ∃ s : System, s.Reached smallFds true ∧ s.log = setThenGetLog ∧
    ∃ log, log.filter Event.visible = s.log ∧
      ∀ {a id req resp b}, log = a ++ .reply id req resp :: b → req.Mutates →
        ∃ c d e r, a = c ++ .request id req :: (d ++ e) ∧
          (replay (c ++ .request id req :: d) .empty).answer r req =
            (some resp, replay a .empty) := by
  obtain ⟨s, hreached, hlog⟩ := setThenGet_reached
  obtain ⟨log, hvisible, -, hatomic⟩ := System.writes_atomic hreached
  refine ⟨s, hreached, hlog, log, hvisible, fun hsplit hmutates ↦ ?_⟩
  obtain ⟨c, d, e, r, ha, -, hanswer⟩ := hatomic hsplit hmutates
  exact ⟨c, d, e, r, ha, hanswer⟩

end GeminiDB
