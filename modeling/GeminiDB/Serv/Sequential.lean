import GeminiDB.Serv.Linear

/-!
# One request after the other

When no request is parsed before the reply to the one before it is made, the server is a
sequential program: each handler computes its response from the database that the
handlers before it have left, function by function.
-/

namespace GeminiDB

open Program

/-- What a handler returns and leaves when nothing else is under way and nothing fails. -/
def Database.answer (r : Report) (req : Request) (d : Database) : Option Response × Database :=
  let out := (handler r req).run Database.api (fun _ ↦ none) d
  (out.val, out.state)

/-- Requests with their responses, and the database before and after them. -/
inductive Serves : Database → List (ℕ × Request × Response) → Database → Prop
  | nil {d : Database} : Serves d [] d
  | cons {d d' d'' : Database} {id : ℕ} {req : Request} {resp : Response}
      {rest : List (ℕ × Request × Response)} (r : Report)
      (hanswer : d.answer r req = (some resp, d')) (hrest : Serves d' rest d'') :
      Serves d ((id, req, resp) :: rest) d''

/-- Every request is followed by its reply. -/
def inTurn (pairs : List (ℕ × Request × Response)) : List Event :=
  pairs.flatMap fun p ↦ [.request p.1 p.2.1, .reply p.1 p.2.1 p.2.2]

theorem Serves.append {d d' d'' : Database} {pairs rest : List (ℕ × Request × Response)}
    (h : Serves d pairs d') (h' : Serves d' rest d'') : Serves d (pairs ++ rest) d'' := by
  induction h with
  | nil => exact h'
  | cons r hanswer _ ih => exact .cons r hanswer (ih h')

/-- Alone, the moments of a handler do what its functions do. -/
theorem run_moments (p : Api (Option Response)) (d : Database) :
    ((moments p).run Database.moments (fun _ ↦ none) d).val =
        (p.run Database.api (fun _ ↦ none) d).val ∧
      ((moments p).run Database.moments (fun _ ↦ none) d).state =
        (p.run Database.api (fun _ ↦ none) d).state := by
  obtain ⟨x, hx, hval, hstate⟩ := moments_implement.run rfl p (fun _ ↦ none) (Eq.refl d)
  obtain rfl : x = fun _ ↦ none := funext (hx fun _ ↦ rfl)
  exact ⟨hval, hstate⟩

section Turns

variable {l : List Event} {pairs : List (ℕ × Request × Response)} {id : ℕ} {req : Request}
  {resp : Response}

theorem inTurn_append (pairs rest : List (ℕ × Request × Response)) :
    inTurn (pairs ++ rest) = inTurn pairs ++ inTurn rest :=
  List.flatMap_append

/-- The last event of a turn is a reply. -/
theorem append_request_ne_inTurn : l ++ [.request id req] ≠ inTurn pairs := by
  intro h
  induction pairs using List.reverseRecOn with
  | nil => exact List.append_ne_nil_of_right_ne_nil _ (by simp) h
  | append_singleton pairs p _ =>
      have hlast : inTurn (pairs ++ [p]) =
          (inTurn pairs ++ [.request p.1 p.2.1]) ++ [.reply p.1 p.2.1 p.2.2] := by
        rw [inTurn_append, List.append_assoc]
        rfl
      rw [hlast] at h
      cases List.singleton_inj.mp (List.append_inj' h rfl).2

theorem eq_of_append_reply (h : l ++ [.reply id req resp] = inTurn pairs) :
    ∃ before, pairs = before ++ [(id, req, resp)] ∧ l = inTurn before ++ [.request id req] := by
  induction pairs using List.reverseRecOn with
  | nil => exact (List.append_ne_nil_of_right_ne_nil _ (by simp) h).elim
  | append_singleton pairs p _ =>
      have hlast : inTurn (pairs ++ [p]) =
          (inTurn pairs ++ [.request p.1 p.2.1]) ++ [.reply p.1 p.2.1 p.2.2] := by
        rw [inTurn_append, List.append_assoc]
        rfl
      rw [hlast] at h
      obtain ⟨hl, hone⟩ := List.append_inj' h rfl
      cases List.singleton_inj.mp hone
      exact ⟨pairs, rfl, hl⟩

end Turns

/-- What is known of a service whose requests came in turn so far. -/
structure Orderly (t : Spec) : Prop where
  served : ∀ {pairs}, t.log.filter Event.visible = inTurn pairs →
    (∀ id, t.asked id = none) ∧ Serves .empty pairs t.atomic.shared
  serving : ∀ {pairs id req}, t.log.filter Event.visible = inTurn pairs ++ [.request id req] →
    t.asked id = some req ∧ (∀ i, i ≠ id → t.asked i = none) ∧
      ∃ d, Serves .empty pairs d ∧ (t.atomic.rest id = none → t.atomic.shared = d) ∧
        ∀ p, t.atomic.rest id = some p → ∃ r, d.answer r req =
          ((p.run Database.moments (fun _ ↦ none) t.atomic.shared).val,
            (p.run Database.moments (fun _ ↦ none) t.atomic.shared).state)

namespace Orderly

variable {t t' : Spec}

theorem init : Orderly Spec.init where
  served := by
    intro pairs h
    cases pairs with
    | nil => exact ⟨fun _ ↦ rfl, .nil⟩
    | cons p pairs => cases h
  serving h := (List.append_ne_nil_of_right_ne_nil _ (by simp) h.symm).elim

theorem step (h : Orderly t) (htraced : Traced true t) (hstep : Spec.Step true t t') :
    Orderly t' := by
  cases hstep with
  | request id req hfree =>
      have hfilter : (t.log ++ [Event.request id req]).filter Event.visible =
          t.log.filter Event.visible ++ [.request id req] :=
        List.filter_append ..
      refine ⟨fun {pairs} hlog ↦ ?_, fun {pairs id' req'} hlog ↦ ?_⟩
      · rw [hfilter] at hlog
        exact absurd hlog append_request_ne_inTurn
      · rw [hfilter] at hlog
        obtain ⟨hold, hone⟩ := List.append_inj' hlog rfl
        cases List.singleton_inj.mp hone
        obtain ⟨hnone, hserves⟩ := h.served hold
        refine ⟨Function.update_self .., fun i hi ↦ ?_, _, hserves, fun _ ↦ rfl, fun p hp ↦ ?_⟩
        · exact (Function.update_of_ne hi ..).trans (hnone i)
        · cases (htraced.idle hfree).symm.trans hp
  | @start id req r hasked hrest =>
      refine ⟨fun {pairs} hlog ↦ ?_, fun {pairs id' req'} hlog ↦ ?_⟩
      · cases hasked.symm.trans ((h.served hlog).1 id)
      · obtain ⟨hthis, hothers, d, hserves, hsame, -⟩ := h.serving hlog
        obtain rfl : id = id' := by
          by_contra hid
          cases hasked.symm.trans (hothers id hid)
        cases hasked.symm.trans hthis
        obtain rfl := hsame hrest
        refine ⟨hthis, hothers, _, hserves, fun hnone ↦ ?_, fun p hp ↦ ⟨r, ?_⟩⟩
        · cases (Function.update_self ..).symm.trans hnone
        · cases (Function.update_self ..).symm.trans hp
          obtain ⟨hval, hstate⟩ := run_moments (handler r req) t.atomic.shared
          exact Prod.ext hval.symm hstate.symm
  | @moment id m next x hx hrest =>
      obtain rfl : x = none := hx rfl
      have hfilter : (t.log ++ [Event.moment id m none]).filter Event.visible =
          t.log.filter Event.visible := by
        rw [List.filter_append]
        exact List.append_nil _
      have hasked : t.asked id ≠ none := fun hnone ↦ by
        cases (htraced.idle hnone).symm.trans hrest
      refine ⟨fun {pairs} hlog ↦ ?_, fun {pairs id' req'} hlog ↦ ?_⟩
      · rw [hfilter] at hlog
        exact absurd ((h.served hlog).1 id) hasked
      · rw [hfilter] at hlog
        obtain ⟨hthis, hothers, d, hserves, -, hruns⟩ := h.serving hlog
        obtain rfl : id = id' := by
          by_contra hid
          exact hasked (hothers id hid)
        refine ⟨hthis, hothers, d, hserves, fun hnone ↦ ?_, fun p hp ↦ ?_⟩
        · cases (Function.update_self ..).symm.trans hnone
        · cases (Function.update_self ..).symm.trans hp
          exact hruns _ hrest
  | @reply id req resp hasked hrest =>
      have hfilter : (t.log ++ [Event.reply id req resp]).filter Event.visible =
          t.log.filter Event.visible ++ [.reply id req resp] :=
        List.filter_append ..
      refine ⟨fun {pairs} hlog ↦ ?_, fun {pairs id' req'} hlog ↦ ?_⟩
      · rw [hfilter] at hlog
        obtain ⟨before, rfl, hopen⟩ := eq_of_append_reply hlog
        obtain ⟨-, hothers, d, hserves, -, hruns⟩ := h.serving hopen
        obtain ⟨r, hanswer⟩ := hruns _ hrest
        refine ⟨fun i ↦ ?_, hserves.append (.cons r hanswer .nil)⟩
        by_cases hi : i = id
        · subst hi
          exact Function.update_self ..
        · exact (Function.update_of_ne hi ..).trans (hothers i hi)
      · rw [hfilter] at hlog
        cases List.singleton_inj.mp (List.append_inj' hlog rfl).2

end Orderly

theorem Spec.Reached.orderly {t : Spec} (h : Spec.Reached true t) : Orderly t := by
  induction h with
  | refl => exact .init
  | tail hreached hstep ih => exact ih.step (Spec.Reached.traced hreached) hstep

/-- When every request is followed by its reply and nothing fails, the replies are those of the
handlers run one after the other, and so is what the store holds in the end. -/
theorem System.in_turn {fds : Descriptors} {s : System} (h : s.Reached fds true)
    {pairs : List (ℕ × Request × Response)} (hlog : s.log = inTurn pairs) :
    ∃ d, Serves .empty pairs d ∧ Represents s.threads.shared.db d := by
  obtain ⟨t, hreached, hrefines⟩ := refines_reached h
  exact ⟨_, (hreached.orderly.served (hrefines.log.trans hlog)).2, hrefines.linked.shared⟩

theorem System.in_turn_run : ∃ s : System, s.Reached smallFds true ∧ s.log = setThenGetLog ∧
    ∃ d, Serves .empty [(4, [ascii "set", ascii "x", ascii "7"], [ascii "ok", ascii "1"]),
      (5, [ascii "get", ascii "x"], [ascii "ok", ascii "7"])] d ∧
        Represents s.threads.shared.db d := by
  obtain ⟨s, hreached, hlog⟩ := setThenGet_reached
  exact ⟨s, hreached, hlog, System.in_turn hreached (hlog.trans rfl)⟩

end GeminiDB
