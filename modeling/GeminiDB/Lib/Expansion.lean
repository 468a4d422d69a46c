import GeminiDB.Lib.Program
import Mathlib.Logic.Relation

/-!
# Programs whose operations are programs

An operation may itself be implemented by a program over other operations. When every
implementation does what its operation does, every program does the same over both
interfaces. A program that shares its state with others is executed one operation at
a time; what is executed up to its end makes up one run.
-/

namespace Program

universe u u' w w'

variable {Op : Type u} {Res : Op → Type w} {Op' : Type u'} {Res' : Op' → Type w}
  {E E' σ σ' : Type*}

/-- A stream with one more value in front. -/
def cons (x : E) (e : ℕ → E) : ℕ → E
  | 0 => x
  | n + 1 => e n

@[simp] theorem cons_zero (x : E) (e : ℕ → E) : cons x e 0 = x := rfl

@[simp] theorem later_cons (x : E) (e : ℕ → E) : later (cons x e) = e := rfl

theorem cons_forall {P : E → Prop} {x : E} {e : ℕ → E} (hx : P x) (he : ∀ n, P (e n)) :
    ∀ n, P (cons x e n) := by
  intro n
  cases n with
  | zero => exact hx
  | succ n => exact he n

namespace Prog

variable {α β γ : Type w}

theorem bind_ret (p : Prog Op Res α) : (p >>= fun a ↦ ret a) = p := by
  induction p with
  | ret a => rfl
  | call op next ih =>
      rw [call_bind]
      congr 1
      exact funext ih

theorem bind_assoc (p : Prog Op Res α) (f : α → Prog Op Res β) (g : β → Prog Op Res γ) :
    p >>= f >>= g = p >>= fun a ↦ f a >>= g := by
  induction p with
  | ret a => rfl
  | call op next ih =>
      simp only [call_bind]
      congr 1
      exact funext ih

/-- A run uses the environment from its front on. -/
theorem exists_run_env (I : Interface Op Res E σ) (p : Prog Op Res α) (e : ℕ → E) (s : σ) :
    ∃ k, (p.run I e s).env = fun n ↦ e (n + k) := by
  induction p generalizing e s with
  | ret a => exact ⟨0, rfl⟩
  | call op next ih =>
      obtain ⟨k, hk⟩ := ih _ (later e) (I.exec op (e 0) s).2
      refine ⟨k + 1, ?_⟩
      rw [run_call, hk]
      rfl

/-- Replace each operation by its implementation. -/
def expand (f : (op : Op) → Prog Op' Res' (Res op)) : Prog Op Res α → Prog Op' Res' α
  | ret a => ret a
  | call op next => f op >>= fun r ↦ (next r).expand f

section Expand

variable (f : (op : Op) → Prog Op' Res' (Res op))

@[simp] theorem expand_ret (a : α) : (ret a : Prog Op Res α).expand f = ret a := (rfl)

@[simp] theorem expand_call (op : Op) (next : Res op → Prog Op Res α) :
    (call op next).expand f = f op >>= fun r ↦ (next r).expand f := (rfl)

@[simp] theorem expand_bind (p : Prog Op Res α) (g : α → Prog Op Res β) :
    (p >>= g).expand f = p.expand f >>= fun a ↦ (g a).expand f := by
  induction p with
  | ret a => rfl
  | call op next ih =>
      simp only [call_bind, expand_call, bind_assoc]
      congr 1
      exact funext ih

theorem expand_expand {Op'' : Type*} {Res'' : Op'' → Type w}
    (g : (op : Op') → Prog Op'' Res'' (Res' op)) (p : Prog Op Res α) :
    (p.expand f).expand g = p.expand fun op ↦ (f op).expand g := by
  induction p with
  | ret a => rfl
  | call op next ih =>
      simp only [expand_call, expand_bind]
      congr 1
      exact funext ih

theorem All.expand {P : Op → Prop} {Q : Op' → Prop} (hf : ∀ op, P op → (f op).All Q)
    {p : Prog Op Res α} (hp : p.All P) : (p.expand f).All Q := by
  induction p with
  | ret a => trivial
  | call op next ih => exact .bind (hf op hp.1) fun r ↦ ih r (hp.2 r)

end Expand

theorem all_true (p : Prog Op Res α) : p.All fun _ ↦ True := by
  induction p with
  | ret a => exact True.intro
  | call op next ih => exact ⟨True.intro, ih⟩

theorem All.mono {P Q : Op → Prop} {p : Prog Op Res α} (hp : p.All P) (h : ∀ op, P op → Q op) :
    p.All Q := by
  induction p with
  | ret a => trivial
  | call op next ih => exact ⟨h op hp.1, fun r ↦ ih r (hp.2 r)⟩

/-- Whatever the interface answers, the program returns a value with `P`. -/
def Ends (I : Interface Op Res E σ) (P : α → Prop) : Prog Op Res α → Prop
  | ret a => P a
  | call op next => ∀ x s, Ends I P (next (I.exec op x s).1)

theorem Ends.bind {I : Interface Op Res E σ} {Q : α → Prop} {P : β → Prop} {p : Prog Op Res α}
    {g : α → Prog Op Res β} (hp : p.Ends I Q) (hg : ∀ a, Q a → (g a).Ends I P) :
    (p >>= g).Ends I P := by
  induction p with
  | ret a => exact hg a hp
  | call op next ih => exact fun x s ↦ ih _ (hp x s)

theorem ends_true (I : Interface Op Res E σ) (p : Prog Op Res α) :
    p.Ends I fun _ ↦ True := by
  induction p with
  | ret a => exact True.intro
  | call op next ih => exact fun x s ↦ ih _

end Prog

/-! ## Implementations -/

/-- Run on related states, each implementation returns what its operation returns for
some value of the environment, one that `ok` admits if `ok'` admits its own. -/
def Implements (I' : Interface Op' Res' E' σ') (I : Interface Op Res E σ) (R : σ' → σ → Prop)
    (ok' : E' → Prop) (ok : E → Prop) (f : (op : Op) → Prog Op' Res' (Res op)) : Prop :=
  ∀ op e s t, R s t → ∃ x, ((∀ n, ok' (e n)) → ok x) ∧
    ((f op).run I' e s).val = (I.exec op x t).1 ∧
      R ((f op).run I' e s).state (I.exec op x t).2

/-- What holds of the operations holds of the programs. -/
theorem Implements.run {I' : Interface Op' Res' E' σ'} {I : Interface Op Res E σ}
    {R : σ' → σ → Prop} {ok' : E' → Prop} {ok : E → Prop}
    {f : (op : Op) → Prog Op' Res' (Res op)} (h : Implements I' I R ok' ok f) {x₀ : E}
    (hx₀ : ok x₀) {α : Type w} (p : Prog Op Res α) (e : ℕ → E') {s : σ'} {t : σ} (hR : R s t) :
    ∃ x : ℕ → E, ((∀ n, ok' (e n)) → ∀ n, ok (x n)) ∧
      ((p.expand f).run I' e s).val = (p.run I x t).val ∧
        R ((p.expand f).run I' e s).state (p.run I x t).state := by
  induction p generalizing e s t with
  | ret a => exact ⟨fun _ ↦ x₀, fun _ _ ↦ hx₀, rfl, hR⟩
  | call op next ih =>
      obtain ⟨x, hx, hval, hnext⟩ := h op e s t hR
      obtain ⟨k, henv⟩ := (f op).exists_run_env I' e s
      obtain ⟨xs, hxs, hvals, hend⟩ := ih (I.exec op x t).1 (fun n ↦ e (n + k)) hnext
      refine ⟨cons x xs, fun hok ↦ cons_forall (hx hok) (hxs fun n ↦ hok (n + k)), ?_⟩
      rw [Prog.expand_call, Prog.run_bind, henv, hval, Prog.run_call, cons_zero, later_cons]
      exact ⟨hvals, hend⟩

/-! ## Programs under way -/

namespace Prog

variable {α : Type w} (I : Interface Op Res E σ) (ok : E → Prop)

/-- The next operation of a program, in an environment that `ok` admits. -/
inductive Step : Prog Op Res α × σ → Prog Op Res α × σ → Prop
  | exec {op : Op} {next : Res op → Prog Op Res α} {s : σ} (x : E) (hx : ok x) :
      Step (call op next, s) (next (I.exec op x s).1, (I.exec op x s).2)

/-- Some operations of a program. -/
def Steps : Prog Op Res α × σ → Prog Op Res α × σ → Prop :=
  Relation.ReflTransGen (Step I ok)

variable {I ok}

/-- Executed to its end, a program has made one run. -/
theorem Steps.run {x₀ : E} (hx₀ : ok x₀) {c : Prog Op Res α × σ} {a : α} {t : σ}
    (h : Steps I ok c (ret a, t)) : ∃ e : ℕ → E, (∀ n, ok (e n)) ∧
      (c.1.run I e c.2).val = a ∧ (c.1.run I e c.2).state = t := by
  induction h using Relation.ReflTransGen.head_induction_on with
  | refl => exact ⟨fun _ ↦ x₀, fun _ ↦ hx₀, rfl, rfl⟩
  | head hstep _ ih =>
      obtain ⟨e, he, hval, hstate⟩ := ih
      cases hstep with
      | exec x hx => exact ⟨cons x e, cons_forall hx he, hval, hstate⟩

end Prog

end Program
