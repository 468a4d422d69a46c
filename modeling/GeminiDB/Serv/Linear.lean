import GeminiDB.Serv.Refinement

/-!
# Every reply has its moments

The log of the service explains what clients see. The database is what the moments so
far have made of it, and a reply is what the handler of its request computes from the
moments of its link between the request and the reply, each at the database of its time.
-/

namespace GeminiDB

open Program

abbrev MomentProg := Prog Moment Moment.Result (Option Response)

/-- The link of an event. -/
def Event.link : Event → ℕ
  | .request id _ => id
  | .moment id _ _ => id
  | .reply id _ _ => id

/-- What an event does to the database. -/
def Event.apply : Event → Database → Database
  | .moment _ m x, d => (Database.moments.exec m x d).2
  | _, d => d

/-- The database after the events. -/
def replay (log : List Event) (d : Database) : Database := log.foldl (fun d e ↦ e.apply d) d

/-- From the database `d` on, the moments of `id` in the log lead from the program `p` to
the program `q`. The link asks and answers nothing meanwhile. -/
inductive Follows (id : ℕ) : Database → MomentProg → List Event → MomentProg → Prop
  | nil {d : Database} {p : MomentProg} : Follows id d p [] p
  | mine {d : Database} {m : Moment} {next : m.Result → MomentProg} {x : Option Bytes}
      {log : List Event} {q : MomentProg}
      (h : Follows id (Database.moments.exec m x d).2 (next (Database.moments.exec m x d).1)
        log q) :
      Follows id d (.call m next) (.moment id m x :: log) q
  | other {d : Database} {p : MomentProg} {e : Event} {log : List Event} {q : MomentProg}
      (he : e.link ≠ id) (h : Follows id (e.apply d) p log q) : Follows id d p (e :: log) q

/-- Every reply, and every moment, is one of a handler that has begun after its request. -/
structure Explained (log : List Event) : Prop where
  reply : ∀ {before id req resp after}, log = before ++ .reply id req resp :: after →
    ∃ a b r, before = a ++ .request id req :: b ∧
      Follows id (replay a .empty) (moments (handler r req)) b (.ret (some resp))
  moment : ∀ {before id m x after}, log = before ++ .moment id m x :: after →
    ∃ a req b r next, before = a ++ .request id req :: b ∧
      Follows id (replay a .empty) (moments (handler r req)) b (.call m next)

theorem replay_append (log log' : List Event) (d : Database) :
    replay (log ++ log') d = replay log' (replay log d) :=
  List.foldl_append

namespace Follows

variable {id : ℕ} {d : Database} {p q q' : MomentProg} {log log' : List Event}

theorem append (h : Follows id d p log q) (h' : Follows id (replay log d) q log' q') :
    Follows id d p (log ++ log') q' := by
  induction h with
  | nil => exact h'
  | mine _ ih => exact .mine (ih h')
  | other he _ ih => exact .other he (ih h')

/-- The others go on. -/
theorem idle (d : Database) (p : MomentProg) (h : ∀ e ∈ log, e.link ≠ id) :
    Follows id d p log p := by
  induction log generalizing d with
  | nil => exact .nil
  | cons e log ih =>
      exact .other (h e List.mem_cons_self) (ih _ fun e' he' ↦ h e' (List.mem_cons_of_mem _ he'))

theorem ret {a b : Option Response} (h : Follows id d (.ret a) log (.ret b)) : a = b := by
  generalize hp : (Prog.ret a : MomentProg) = p, hq : (Prog.ret b : MomentProg) = q at h
  induction h with
  | nil => exact Prog.ret.inj (hp.trans hq.symm)
  | mine => cases hp
  | other _ _ ih => exact ih hp hq

/-- What holds of all that a program may return holds of all that is left of it. -/
theorem ends {P : Option Response → Prop} (h : Follows id d p log q)
    (hp : p.Ends Database.moments P) : q.Ends Database.moments P := by
  induction h with
  | nil => exact hp
  | mine _ ih => exact ih (hp _ _)
  | other _ _ ih => exact ih hp

/-- What holds of all moments of a program holds of those of what is left of it. -/
theorem all {P : Moment → Prop} (h : Follows id d p log q) (hp : p.All P) : q.All P := by
  induction h with
  | nil => exact hp
  | mine _ ih => exact ih (hp.2 _)
  | other _ _ ih => exact ih hp

/-- The link asks and answers nothing. -/
theorem silent (h : Follows id d p log q) : ∀ e ∈ log, e.visible = true → e.link ≠ id := by
  induction h with
  | nil => exact fun e he ↦ absurd he List.not_mem_nil
  | mine _ ih =>
      intro e he hvisible
      rcases List.mem_cons.mp he with rfl | hmem
      · cases hvisible
      · exact ih e hmem hvisible
  | other he _ ih =>
      intro e' he' hvisible
      rcases List.mem_cons.mp he' with rfl | hmem
      · exact he
      · exact ih e' hmem hvisible

/-- A program that has ended has no moments. -/
theorem ret_apart {a : Option Response} (h : Follows id d (.ret a) log q) :
    ∀ e ∈ log, e.link ≠ id := by
  generalize hp : (Prog.ret a : MomentProg) = p at h
  induction h with
  | nil => exact fun e he ↦ absurd he List.not_mem_nil
  | mine => cases hp
  | other he _ ih =>
      intro e' he'
      rcases List.mem_cons.mp he' with rfl | hmem
      · exact he
      · exact ih hp e' hmem

/-- A program that goes on to its end performs its first moment somewhere. -/
theorem call {m : Moment} {next : m.Result → MomentProg} {a : Option Response}
    (h : Follows id d (.call m next) log (.ret a)) :
    ∃ before x after, log = before ++ .moment id m x :: after ∧
      (∀ e ∈ before, e.link ≠ id) ∧
        Follows id (Database.moments.exec m x (replay before d)).2
          (next (Database.moments.exec m x (replay before d)).1) after (.ret a) := by
  generalize hp : (Prog.call m next : MomentProg) = p, hq : (Prog.ret a : MomentProg) = q at h
  induction h with
  | nil => cases hp.trans hq.symm
  | @mine d m' next' x log q h ih =>
      cases hp
      subst hq
      exact ⟨[], x, log, rfl, by simp, h⟩
  | @other d p e log q he h ih =>
      obtain ⟨before, x, after, rfl, hbefore, hrest⟩ := ih hp hq
      refine ⟨e :: before, x, after, rfl, fun e' he' ↦ ?_, hrest⟩
      rcases List.mem_cons.mp he' with rfl | hmem
      · exact he
      · exact hbefore e' hmem

/-- When nothing fails and the others leave the database alone, so does the link. -/
theorem run_alone {a : Option Response} (h : Follows id d p log (.ret a))
    (hothers : ∀ e ∈ log, e.link ≠ id → ∀ d, e.apply d = d)
    (hworks : ∀ {m x}, .moment id m x ∈ log → x = none) :
    (p.run Database.moments (fun _ ↦ none) d).val = a ∧
      (p.run Database.moments (fun _ ↦ none) d).state = replay log d := by
  generalize hq : (Prog.ret a : MomentProg) = q at h
  induction h with
  | nil =>
      subst hq
      exact ⟨rfl, rfl⟩
  | @mine d m next x log q h ih =>
      obtain rfl : x = none := hworks List.mem_cons_self
      exact ih (fun e he ↦ hothers e (List.mem_cons_of_mem _ he))
        (fun hmem ↦ hworks (List.mem_cons_of_mem _ hmem)) hq
  | @other d p e log q he h ih =>
      have hsame := hothers e List.mem_cons_self he d
      rw [hsame] at ih
      have hreplay : replay (e :: log) d = replay log d := congrArg (replay log) hsame
      rw [hreplay]
      exact ih (fun e he ↦ hothers e (List.mem_cons_of_mem _ he))
        (fun hmem ↦ hworks (List.mem_cons_of_mem _ hmem)) hq

end Follows

/-! ## The log explains -/

/-- How the log tells the state of the service. -/
structure Traced (strict : Bool) (t : Spec) : Prop where
  shared : t.atomic.shared = replay t.log .empty
  admitted : ∀ {id m x}, .moment id m x ∈ t.log → AdmitsMoment strict x
  idle : ∀ {id}, t.asked id = none → t.atomic.rest id = none
  asked : ∀ {id req}, t.asked id = some req → t.atomic.rest id = none →
    ∃ a b, t.log = a ++ .request id req :: b ∧ ∀ e ∈ b, e.link ≠ id
  started : ∀ {id req p}, t.asked id = some req → t.atomic.rest id = some p →
    ∃ a b r, t.log = a ++ .request id req :: b ∧
      Follows id (replay a .empty) (moments (handler r req)) b p
  explained : Explained t.log

/-- A point of a log is its last event or a point of what comes before that. -/
theorem split_concat {log l r : List Event} {e e' : Event} (h : log ++ [e] = l ++ e' :: r) :
    (l = log ∧ e = e' ∧ r = []) ∨ ∃ r', r = r' ++ [e] ∧ log = l ++ e' :: r' := by
  induction r using List.reverseRecOn with
  | nil =>
      obtain ⟨hlog, hone⟩ := List.append_inj' h rfl
      exact .inl ⟨hlog.symm, List.singleton_inj.mp hone, rfl⟩
  | append_singleton r e'' _ =>
      rw [← List.cons_append, ← List.append_assoc] at h
      obtain ⟨hlog, hone⟩ := List.append_inj' h rfl
      exact .inr ⟨r, by rw [List.singleton_inj.mp hone], hlog⟩

theorem Explained.concat {log : List Event} (h : Explained log) {e : Event}
    (hreply : ∀ {id req resp}, e = .reply id req resp → ∃ a b r,
      log = a ++ .request id req :: b ∧
        Follows id (replay a .empty) (moments (handler r req)) b (.ret (some resp)))
    (hmoment : ∀ {id m x}, e = .moment id m x → ∃ a req b r next,
      log = a ++ .request id req :: b ∧
        Follows id (replay a .empty) (moments (handler r req)) b (.call m next)) :
    Explained (log ++ [e]) := by
  refine ⟨fun heq ↦ ?_, fun heq ↦ ?_⟩
  · rcases split_concat heq with ⟨rfl, hnew, -⟩ | ⟨after', -, hold⟩
    · exact hreply hnew
    · exact h.reply hold
  · rcases split_concat heq with ⟨rfl, hnew, -⟩ | ⟨after', -, hold⟩
    · exact hmoment hnew
    · exact h.moment hold

namespace Traced

variable {strict : Bool} {t t' : Spec}

theorem init (strict : Bool) : Traced strict Spec.init where
  shared := rfl
  admitted h := absurd h List.not_mem_nil
  idle _ := rfl
  asked h := by cases h
  started h := by cases h
  explained := ⟨fun h ↦ (List.append_ne_nil_of_right_ne_nil _ (by simp) h.symm).elim,
    fun h ↦ (List.append_ne_nil_of_right_ne_nil _ (by simp) h.symm).elim⟩

/-- What is known of a link outlives the events of another one. -/
theorem asked_other (h : Traced strict t) {id : ℕ} {e : Event} (he : e.link ≠ id) {req : Request}
    (hasked : t.asked id = some req) (hrest : t.atomic.rest id = none) :
    ∃ a b, t.log ++ [e] = a ++ .request id req :: b ∧ ∀ e ∈ b, e.link ≠ id := by
  obtain ⟨a, b, hlog, hb⟩ := h.asked hasked hrest
  refine ⟨a, b ++ [e], by rw [hlog]; simp, fun e' he' ↦ ?_⟩
  rcases List.mem_append.mp he' with hold | hnew
  · exact hb e' hold
  · rwa [List.mem_singleton.mp hnew]

theorem started_other (h : Traced strict t) {id : ℕ} {e : Event} (he : e.link ≠ id)
    {req : Request} {p : MomentProg} (hasked : t.asked id = some req)
    (hrest : t.atomic.rest id = some p) :
    ∃ a b r, t.log ++ [e] = a ++ .request id req :: b ∧
      Follows id (replay a .empty) (moments (handler r req)) b p := by
  obtain ⟨a, b, r, hlog, hfollows⟩ := h.started hasked hrest
  exact ⟨a, b ++ [e], r, by rw [hlog]; simp, hfollows.append (.other he .nil)⟩

theorem step (h : Traced strict t) (hstep : Spec.Step strict t t') : Traced strict t' := by
  cases hstep with
  | request id req hfree =>
      refine ⟨?_, fun hmem ↦ ?_, fun {i} hi ↦ ?_, fun {i r} hi hrest ↦ ?_,
        fun {i r p} hi hrest ↦ ?_, h.explained.concat nofun nofun⟩
      · rw [replay_append]
        exact h.shared
      · rcases List.mem_append.mp hmem with hold | hnew
        · exact h.admitted hold
        · cases List.mem_singleton.mp hnew
      · by_cases hid : i = id
        · subst hid
          cases (Function.update_self ..).symm.trans hi
        · exact h.idle ((Function.update_of_ne hid ..).symm.trans hi)
      · by_cases hid : i = id
        · subst hid
          cases (Function.update_self ..).symm.trans hi
          exact ⟨t.log, [], rfl, by simp⟩
        · exact h.asked_other (Ne.symm hid) ((Function.update_of_ne hid ..).symm.trans hi) hrest
      · by_cases hid : i = id
        · subst hid
          cases (h.idle hfree).symm.trans hrest
        · exact h.started_other (Ne.symm hid) ((Function.update_of_ne hid ..).symm.trans hi) hrest
  | start id r hasked hrest =>
      refine ⟨h.shared, h.admitted, fun {i} hi ↦ ?_, fun {i req} hi hnone ↦ ?_,
        fun {i req p} hi hp ↦ ?_, h.explained⟩
      · by_cases hid : i = id
        · subst hid
          cases hasked.symm.trans hi
        · exact (Function.update_of_ne hid ..).trans (h.idle hi)
      · by_cases hid : i = id
        · subst hid
          cases (Function.update_self ..).symm.trans hnone
        · exact h.asked hi ((Function.update_of_ne hid ..).symm.trans hnone)
      · by_cases hid : i = id
        · subst hid
          cases (Function.update_self ..).symm.trans hp
          cases hasked.symm.trans hi
          obtain ⟨a, b, hlog, hb⟩ := h.asked hasked hrest
          exact ⟨a, b, r, hlog, .idle _ _ hb⟩
        · exact h.started hi ((Function.update_of_ne hid ..).symm.trans hp)
  | @moment id m next x hx hrest =>
      obtain ⟨req, hasked⟩ : ∃ req, t.asked id = some req := by
        cases hasked : t.asked id with
        | none => cases (h.idle hasked).symm.trans hrest
        | some req => exact ⟨req, rfl⟩
      obtain ⟨a, b, r, hlog, hfollows⟩ := h.started hasked hrest
      have hshared : replay b (replay a .empty) = t.atomic.shared := by
        rw [h.shared, hlog, replay_append]
        rfl
      refine ⟨?_, fun hmem ↦ ?_, fun {i} hi ↦ ?_, fun {i req'} hi hnone ↦ ?_,
        fun {i req' p} hi hp ↦ ?_, h.explained.concat nofun ?_⟩
      · rw [replay_append, ← h.shared]
        rfl
      · rcases List.mem_append.mp hmem with hold | hnew
        · exact h.admitted hold
        · cases List.mem_singleton.mp hnew
          exact hx
      · by_cases hid : i = id
        · subst hid
          cases hasked.symm.trans hi
        · exact (Function.update_of_ne hid ..).trans (h.idle hi)
      · by_cases hid : i = id
        · subst hid
          cases (Function.update_self ..).symm.trans hnone
        · exact h.asked_other (Ne.symm hid) hi ((Function.update_of_ne hid ..).symm.trans hnone)
      · by_cases hid : i = id
        · subst hid
          cases (Function.update_self ..).symm.trans hp
          cases hasked.symm.trans hi
          refine ⟨a, b ++ [.moment i m x], r, by rw [hlog]; simp, hfollows.append ?_⟩
          rw [hshared]
          exact .mine .nil
        · exact h.started_other (Ne.symm hid) hi ((Function.update_of_ne hid ..).symm.trans hp)
      · rintro i m' x' heq
        cases heq
        exact ⟨a, req, b, r, next, hlog, hfollows⟩
  | @reply id req resp hasked hrest =>
      obtain ⟨a, b, r, hlog, hfollows⟩ := h.started hasked hrest
      refine ⟨?_, fun hmem ↦ ?_, fun {i} hi ↦ ?_, fun {i req'} hi hnone ↦ ?_,
        fun {i req' p} hi hp ↦ ?_, h.explained.concat ?_ nofun⟩
      · rw [replay_append]
        exact h.shared
      · rcases List.mem_append.mp hmem with hold | hnew
        · exact h.admitted hold
        · cases List.mem_singleton.mp hnew
      · by_cases hid : i = id
        · subst hid
          exact Function.update_self ..
        · exact (Function.update_of_ne hid ..).trans
            (h.idle ((Function.update_of_ne hid ..).symm.trans hi))
      · by_cases hid : i = id
        · subst hid
          cases (Function.update_self ..).symm.trans hi
        · exact h.asked_other (Ne.symm hid) ((Function.update_of_ne hid ..).symm.trans hi)
            ((Function.update_of_ne hid ..).symm.trans hnone)
      · by_cases hid : i = id
        · subst hid
          cases (Function.update_self ..).symm.trans hi
        · exact h.started_other (Ne.symm hid) ((Function.update_of_ne hid ..).symm.trans hi)
            ((Function.update_of_ne hid ..).symm.trans hp)
      · rintro i req' resp' heq
        cases heq
        exact ⟨a, b, r, hlog, hfollows⟩

end Traced

theorem Spec.Reached.traced {strict : Bool} {t : Spec} (h : Spec.Reached strict t) :
    Traced strict t := by
  induction h with
  | refl => exact .init strict
  | tail _ hstep ih => exact ih.step hstep

/-- In every interleaving the replies of the server are those of a log that explains them, and
the store holds what the log has made of the database. -/
theorem System.linearized {fds : Descriptors} {strict : Bool} {s : System}
    (h : s.Reached fds strict) :
    ∃ log, log.filter Event.visible = s.log ∧ Explained log ∧
      (∀ {id m x}, .moment id m x ∈ log → AdmitsMoment strict x) ∧
        Represents s.threads.shared.db (replay log .empty) ∧
          ∀ id, requestsOf id s.log = (s.net.history id).parsed ∧
            repliesOf id s.log = (s.net.history id).answers := by
  obtain ⟨t, hreached, hrefines⟩ := refines_reached h
  have htraced := hreached.traced
  refine ⟨t.log, hrefines.log, htraced.explained, htraced.admitted, ?_,
    fun id ↦ ⟨hrefines.parsed id, hrefines.answers id⟩⟩
  rw [← htraced.shared]
  exact hrefines.linked.shared

/-! ## A run -/

def smallFds : Descriptors := ⟨3, 4, 5, NetworkServer.smallSetup.distinct⟩

/-- Memory is there, and sockets neither give nor take a byte. -/
def calmWorld : World := ⟨none, fun _ ↦ true, fun _ _ ↦ true, [], [], procOk, []⟩

def smallReport (linkCount : Int) : Report := ⟨linkCount, procMap.entries, [], 0, []⟩

/-- Two clients. The second one has asked for a key before the first one's value for it is
stored, but the loop comes to it later. -/
def setThenGet : List System.Action :=
  [.wait [(3, epollIn)], .event { calmWorld with sock := some 7 }, .event calmWorld,
    .ready calmWorld (smallReport 1),
    .wait [(3, epollIn)], .event { calmWorld with sock := some 8 }, .event calmWorld,
    .ready calmWorld (smallReport 2),
    .wait [(7, epollIn), (8, epollIn)],
    .event { calmWorld with reads := [.bytes (ascii "3\nset\n1\nx\n1\n7\n\n")] },
    .event { calmWorld with reads := [.bytes (ascii "3\nget\n1\nx\n\n")] }, .event calmWorld,
    .ready calmWorld (smallReport 2), .withdraw, .take .writer (smallReport 2),
    .access 4 ((), false), .access 4 ((), false), .access 4 ((), false), .access 4 ((), false),
    .work .writer 0 calmWorld,
    .ready calmWorld (smallReport 2), .withdraw, .take .reader (smallReport 2),
    .access 5 ((), false), .work .reader 0 calmWorld]

def setThenGetLog : List Event :=
  [.request 4 [ascii "set", ascii "x", ascii "7"],
    .reply 4 [ascii "set", ascii "x", ascii "7"] [ascii "ok", ascii "1"],
    .request 5 [ascii "get", ascii "x"],
    .reply 5 [ascii "get", ascii "x"] [ascii "ok", ascii "7"]]

theorem setThenGet_reached :
    ∃ s : System, s.Reached smallFds true ∧ s.log = setThenGetLog := by
  obtain ⟨s, hrun, hs⟩ := (Option.any_eq_true ..).mp
    (show (Machine.runVia (System.step smallFds) (fun _ a ↦ a.Admitted true)
      (System.init smallFds) setThenGet).any (fun s ↦ s.log = setThenGetLog) = true by
        decide +kernel)
  exact ⟨s, Machine.reachableVia_of_run hrun, of_decide_eq_true hs⟩

theorem System.linearized_run : ∃ s : System, s.Reached smallFds true ∧ s.log = setThenGetLog ∧
    ∃ log, log.filter Event.visible = s.log ∧ Explained log ∧
      Represents s.threads.shared.db (replay log .empty) := by
  obtain ⟨s, hreached, hlog⟩ := setThenGet_reached
  obtain ⟨log, hvisible, hexplained, -, hstore, -⟩ := System.linearized hreached
  exact ⟨s, hreached, hlog, log, hvisible, hexplained, hstore⟩

end GeminiDB
