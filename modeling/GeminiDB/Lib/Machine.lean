import Mathlib.Algebra.GroupWithZero.Nat
import Mathlib.Data.List.Induction
import Mathlib.Logic.Relation

/-!
# Step functions and machines with outputs

A system is given by a partial step function: an action that is not enabled in
a state has no successor. Reachability may be restricted to the actions a
predicate allows, so that one induction covers all runs and the runs that avoid
some branch. A deterministic machine answers every input; two machines related
by a simulation give the same answers along every input list.
-/

namespace Machine

variable {S T A O : Type*}

/-! ## Reachable states -/

/-- Execute a list of actions; `none` when one of them is not enabled. -/
def run (step : S → A → Option S) : S → List A → Option S
  | s, [] => some s
  | s, a :: as => (step s a).bind fun t ↦ run step t as

/-- One step by an action that `allowed` admits in the state it is taken in. -/
def Moves (step : S → A → Option S) (allowed : S → A → Prop) (s t : S) : Prop :=
  ∃ a, allowed s a ∧ step s a = some t

/-- The states reached from `init` by allowed actions only. -/
def ReachableVia (step : S → A → Option S) (allowed : S → A → Prop) (init s : S) : Prop :=
  Relation.ReflTransGen (Moves step allowed) init s

/-- The states reached from `init` by any actions. -/
def Reachable (step : S → A → Option S) (init s : S) : Prop :=
  ReachableVia step (fun _ _ ↦ True) init s

theorem ReachableVia.refl (step : S → A → Option S) (allowed : S → A → Prop) (init : S) :
    ReachableVia step allowed init init :=
  Relation.ReflTransGen.refl

theorem ReachableVia.step {step : S → A → Option S} {allowed : S → A → Prop} {init s t : S}
    {a : A} (h : ReachableVia step allowed init s) (hallowed : allowed s a)
    (ha : step s a = some t) : ReachableVia step allowed init t :=
  Relation.ReflTransGen.tail h ⟨a, hallowed, ha⟩

/-- A property of the initial state that every allowed step preserves holds in
every state reached. -/
theorem ReachableVia.invariant {step : S → A → Option S} {allowed : S → A → Prop} {init s : S}
    {P : S → Prop} (h : ReachableVia step allowed init s) (hinit : P init)
    (hstep : ∀ s a t, P s → allowed s a → step s a = some t → P t) : P s := by
  induction h with
  | refl => exact hinit
  | tail _ hmove ih =>
      obtain ⟨a, hallowed, hstepped⟩ := hmove
      exact hstep _ a _ ih hallowed hstepped

theorem Reachable.invariant {step : S → A → Option S} {init s : S} {P : S → Prop}
    (h : Reachable step init s) (hinit : P init)
    (hstep : ∀ s a t, P s → step s a = some t → P t) : P s :=
  ReachableVia.invariant h hinit fun s a t hs _ ht ↦ hstep s a t hs ht

theorem Reachable.refl (step : S → A → Option S) (init : S) : Reachable step init init :=
  ReachableVia.refl step _ init

theorem Reachable.step {step : S → A → Option S} {init s t : S} {a : A}
    (h : Reachable step init s) (ha : step s a = some t) : Reachable step init t :=
  ReachableVia.step h trivial ha

theorem reachable_of_run {step : S → A → Option S} {init s : S} {as : List A}
    (h : run step init as = some s) : Reachable step init s := by
  suffices ∀ as r, Reachable step init r → run step r as = some s → Reachable step init s from
    this as init (Reachable.refl step init) h
  intro as
  induction as with
  | nil =>
      intro r hr hrun
      have heq : r = s := by simpa [run] using hrun
      exact heq ▸ hr
  | cons a as ih =>
      intro r hr hrun
      obtain ⟨t, ht, hrest⟩ := Option.bind_eq_some_iff.mp hrun
      exact ih t (hr.step ht) hrest

/-- A run that stops at the first action that is not allowed. -/
def runVia (step : S → A → Option S) (allowed : S → A → Prop) [∀ s a, Decidable (allowed s a)] :
    S → List A → Option S :=
  run fun s a ↦ if allowed s a then step s a else none

theorem reachableVia_of_run {step : S → A → Option S} {allowed : S → A → Prop}
    [∀ s a, Decidable (allowed s a)] {init s : S} {as : List A}
    (h : runVia step allowed init as = some s) : ReachableVia step allowed init s := by
  refine Relation.ReflTransGen.mono (fun r t ⟨a, _, hstep⟩ ↦ ?_) _ _ (reachable_of_run h)
  dsimp only at hstep
  by_cases hallowed : allowed r a
  · rw [if_pos hallowed] at hstep
    exact ⟨a, hallowed, hstep⟩
  · rw [if_neg hallowed] at hstep
    cases hstep

theorem run_concat (step : S → A → Option S) (s : S) (as : List A) (a : A) :
    run step s (as ++ [a]) = (run step s as).bind fun t ↦ step t a := by
  induction as generalizing s with
  | nil => simp [run]
  | cons b as ih =>
      simp only [List.cons_append, run, Option.bind_assoc]
      exact congrArg _ (funext ih)

/-- If a step keeps `P` just when it is allowed, then all states along a run have
`P` just when all its steps are allowed. -/
theorem forall_run_iff {step : S → A → Option S} {Q P : S → Prop} {allowed : S → A → Prop}
    {init : S} (hinit : Q init) (hP : P init)
    (hstep : ∀ s a t, Q s → step s a = some t → Q t)
    (hiff : ∀ s a t, Q s → P s → step s a = some t → (P t ↔ allowed s a))
    (hstuck : ∀ s a, step s a = none → allowed s a) (as : List A) :
    (∀ bs, bs <+: as → ∀ s, run step init bs = some s → P s) ↔
      ∀ bs a, bs ++ [a] <+: as → ∀ s, run step init bs = some s → allowed s a := by
  have hQ {bs : List A} {s : S} (h : run step init bs = some s) : Q s :=
    (reachable_of_run h).invariant hinit hstep
  constructor
  · intro hall bs a hbs s hrun
    have hs := hall bs ((List.prefix_append bs [a]).trans hbs) s hrun
    cases hnext : step s a with
    | none => exact hstuck s a hnext
    | some t =>
        have ht := hall _ hbs t (by rw [run_concat, hrun, Option.bind_some, hnext])
        exact (hiff s a t (hQ hrun) hs hnext).mp ht
  · intro hall bs
    induction bs using List.reverseRecOn with
    | nil =>
        intro _ s hrun
        have heq : init = s := by simpa [run] using hrun
        exact heq ▸ hP
    | append_singleton bs a ih =>
        intro hbs t hrun
        rw [run_concat] at hrun
        obtain ⟨s, hs, hnext⟩ := Option.bind_eq_some_iff.mp hrun
        have hPs := ih ((List.prefix_append bs [a]).trans hbs) s hs
        exact (hiff s a t (hQ hs) hPs hnext).mpr (hall bs a hbs s hs)

/-- If in the states with `P` the good steps are the allowed ones, and these lead to
`P` again, then all steps of a run are good just when all are allowed. -/
theorem forall_steps_iff {step : S → A → Option S} {P : S → Prop} {good allowed : S → A → Prop}
    {init : S} (hinit : P init) (hstep : ∀ s a t, P s → allowed s a → step s a = some t → P t)
    (hiff : ∀ s a, P s → (good s a ↔ allowed s a)) (as : List A) :
    (∀ bs a, bs ++ [a] <+: as → ∀ s, run step init bs = some s → good s a) ↔
      ∀ bs a, bs ++ [a] <+: as → ∀ s, run step init bs = some s → allowed s a := by
  have hP {which : S → A → Prop} (hwhich : ∀ s a, P s → which s a → allowed s a)
      (hall : ∀ bs a, bs ++ [a] <+: as → ∀ s, run step init bs = some s → which s a)
      {bs : List A} (hbs : bs <+: as) {s : S} (hs : run step init bs = some s) : P s := by
    induction bs using List.reverseRecOn generalizing s with
    | nil =>
        have heq : init = s := by simpa [run] using hs
        exact heq ▸ hinit
    | append_singleton bs a ih =>
        rw [run_concat] at hs
        obtain ⟨r, hr, hnext⟩ := Option.bind_eq_some_iff.mp hs
        have hPr := ih ((List.prefix_append bs [a]).trans hbs) hr
        exact hstep r a s hPr (hwhich r a hPr (hall bs a hbs r hr)) hnext
  constructor
  · intro hall bs a hbs s hs
    have hPs := hP (fun s a hs ↦ (hiff s a hs).mp) hall ((List.prefix_append bs [a]).trans hbs) hs
    exact (hiff s a hPs).mp (hall bs a hbs s hs)
  · intro hall bs a hbs s hs
    have hPs := hP (fun _ _ _ h ↦ h) hall ((List.prefix_append bs [a]).trans hbs) hs
    exact (hiff s a hPs).mpr (hall bs a hbs s hs)

/-- If every step lowers a measure, up to what its action costs, then a run is no
longer than the measure of its first state and the costs of its actions. -/
theorem length_run_le {step : S → A → Option S} {μ : S → ℕ} {cost : A → ℕ}
    (hstep : ∀ s a t, step s a = some t → μ t + 1 ≤ μ s + cost a) {s t : S} {as : List A}
    (h : run step s as = some t) : μ t + as.length ≤ μ s + (as.map cost).sum := by
  induction as generalizing s with
  | nil =>
      have heq : s = t := by simpa [run] using h
      rw [heq]
      exact Nat.le_refl _
  | cons a as ih =>
      obtain ⟨r, hr, hrest⟩ := Option.bind_eq_some_iff.mp h
      have hfirst := hstep s a r hr
      have hafter := ih hrest
      rw [List.length_cons, List.map_cons, List.sum_cons]
      omega

/-! ## Machines with outputs -/

/-- The answers a machine gives to a list of inputs. -/
def outputs (f : S → A → O × S) : S → List A → List O
  | _, [] => []
  | s, a :: as => (f s a).1 :: outputs f (f s a).2 as

/-- Related states answer every input alike and stay related. -/
def Simulates (f : S → A → O × S) (g : T → A → O × T) (R : S → T → Prop) : Prop :=
  ∀ s t a, R s t → (f s a).1 = (g t a).1 ∧ R (f s a).2 (g t a).2

theorem Simulates.outputs_eq {f : S → A → O × S} {g : T → A → O × T} {R : S → T → Prop}
    (h : Simulates f g R) {s : S} {t : T} (hR : R s t) (as : List A) :
    outputs f s as = outputs g t as := by
  induction as generalizing s t with
  | nil => rfl
  | cons a as ih =>
      obtain ⟨hout, hnext⟩ := h s t a hR
      simp only [outputs, hout, ih hnext]

end Machine
