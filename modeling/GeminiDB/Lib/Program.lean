import Mathlib.Data.Nat.Notation
import Mathlib.Logic.Function.Basic

/-!
# Programs over an interface of operations

A program either returns or performs one operation on a shared state and
continues with the operation's result. What an operation does may depend on an
environment value (a fault, a time stamp), which the program takes from a
stream, one value for each operation. A call is a program that runs inside one
critical section, or returns without entering it.
-/

namespace Program

universe u v w

/-- A program over the operations `Op` whose results are `Res`. -/
inductive Prog (Op : Type u) (Res : Op → Type v) (α : Type w) : Type (max u v w) where
  | ret (a : α)
  | call (op : Op) (next : Res op → Prog Op Res α)

variable {Op : Type u} {Res : Op → Type v} {α β γ : Type w}

namespace Prog

def bind : Prog Op Res α → (α → Prog Op Res β) → Prog Op Res β
  | ret a, f => f a
  | call op next, f => call op fun r ↦ (next r).bind f

instance : Monad (Prog Op Res) where
  pure := ret
  bind := bind

@[simp] theorem pure_eq (a : α) : (pure a : Prog Op Res α) = ret a := rfl

@[simp] theorem ret_bind (a : α) (f : α → Prog Op Res β) : ret a >>= f = f a := rfl

@[simp] theorem call_bind (op : Op) (next : Res op → Prog Op Res α) (f : α → Prog Op Res β) :
    call op next >>= f = call op fun r ↦ next r >>= f := rfl

@[simp] theorem bind_eq (p : Prog Op Res α) (f : α → Prog Op Res β) : p.bind f = p >>= f := rfl

end Prog

/-- What the operations do to a shared state, and what entering and leaving the
critical section does to it. -/
structure Interface (Op : Type u) (Res : Op → Type v) (E : Type*) (σ : Type*) where
  exec : (op : Op) → E → σ → Res op × σ
  enter : σ → σ
  leave : σ → σ

/-- How a run ended: its value, the unused part of the environment stream, and
the shared state. -/
structure Outcome (E σ α : Type*) where
  val : α
  env : ℕ → E
  state : σ

variable {E σ : Type*} (I : Interface Op Res E σ)

/-- The environment stream after its first value was used. -/
def later (e : ℕ → E) : ℕ → E := fun n ↦ e (n + 1)

@[simp] theorem later_const (x : E) : later (fun _ ↦ x) = fun _ ↦ x := rfl

namespace Prog

/-- Run a program alone. -/
def run : Prog Op Res α → (ℕ → E) → σ → Outcome E σ α
  | ret a, e, s => ⟨a, e, s⟩
  | call op next, e, s => (next (I.exec op (e 0) s).1).run (later e) (I.exec op (e 0) s).2

@[simp] theorem run_ret (a : α) (e : ℕ → E) (s : σ) :
    (ret a : Prog Op Res α).run I e s = ⟨a, e, s⟩ := (rfl)

@[simp] theorem run_call (op : Op) (next : Res op → Prog Op Res α) (e : ℕ → E) (s : σ) :
    (call op next).run I e s =
      (next (I.exec op (e 0) s).1).run I (later e) (I.exec op (e 0) s).2 := (rfl)

@[simp] theorem run_bind (p : Prog Op Res α) (f : α → Prog Op Res β) (e : ℕ → E) (s : σ) :
    (p >>= f).run I e s =
      (f (p.run I e s).val).run I (p.run I e s).env (p.run I e s).state := by
  induction p generalizing e s with
  | ret a => rfl
  | call op next ih => simpa only [call_bind, run_call] using ih _ _ _

/-- The operations that a run performs, in order. -/
def ops : Prog Op Res α → (ℕ → E) → σ → List Op
  | ret _, _, _ => []
  | call op next, e, s => op :: (next (I.exec op (e 0) s).1).ops (later e) (I.exec op (e 0) s).2

@[simp] theorem ops_ret (a : α) (e : ℕ → E) (s : σ) :
    (ret a : Prog Op Res α).ops I e s = [] := (rfl)

@[simp] theorem ops_call (op : Op) (next : Res op → Prog Op Res α) (e : ℕ → E) (s : σ) :
    (call op next).ops I e s =
      op :: (next (I.exec op (e 0) s).1).ops I (later e) (I.exec op (e 0) s).2 := (rfl)

theorem ops_bind (p : Prog Op Res α) (f : α → Prog Op Res β) (e : ℕ → E) (s : σ) :
    (p >>= f).ops I e s = p.ops I e s ++
      (f (p.run I e s).val).ops I (p.run I e s).env (p.run I e s).state := by
  induction p generalizing e s with
  | ret a => rfl
  | call op next ih =>
      simp only [call_bind, ops_call, run_call, List.cons_append]
      exact congrArg _ (ih _ _ _)

/-- Every operation that the program may perform satisfies `P`. -/
def All (P : Op → Prop) : Prog Op Res α → Prop
  | ret _ => True
  | call op next => P op ∧ ∀ r, (next r).All P

theorem All.bind {P : Op → Prop} {p : Prog Op Res α} {f : α → Prog Op Res β} (hp : p.All P)
    (hf : ∀ a, (f a).All P) : (p >>= f).All P := by
  induction p with
  | ret a => exact hf a
  | call op next ih => exact ⟨hp.1, fun r ↦ ih r (hp.2 r)⟩

/-- What the operations of a program preserve, the program preserves. -/
theorem All.invariant {P : Op → Prop} {Q : σ → Prop}
    (hexec : ∀ op x s, P op → Q s → Q (I.exec op x s).2) {p : Prog Op Res α} (hp : p.All P)
    (e : ℕ → E) {s : σ} (hs : Q s) : Q (p.run I e s).state := by
  induction p generalizing e s with
  | ret a => exact hs
  | call op next ih => exact ih _ (hp.2 _) (later e) (hexec op (e 0) s hp.1 hs)

/-- In states that its operations cannot tell apart a program returns the same. -/
theorem All.congr {P : Op → Prop} {R : σ → σ → Prop}
    (hexec : ∀ op x s t, P op → R s t →
      (I.exec op x s).1 = (I.exec op x t).1 ∧ R (I.exec op x s).2 (I.exec op x t).2)
    {p : Prog Op Res α} (hp : p.All P) (e : ℕ → E) {s t : σ} (hR : R s t) :
    (p.run I e s).val = (p.run I e t).val ∧ R (p.run I e s).state (p.run I e t).state := by
  induction p generalizing e s t with
  | ret a => exact ⟨rfl, hR⟩
  | call op next ih =>
      obtain ⟨hres, hnext⟩ := hexec op (e 0) s t hp.1 hR
      rw [run_call, run_call, ← hres]
      exact ih _ (hp.2 _) (later e) hnext

end Prog

/-- A call returns at once, or runs a body inside the critical section. -/
inductive Call (Op : Type u) (Res : Op → Type v) (α : Type w) : Type (max u v w) where
  | plain (a : α)
  | guarded (body : Prog Op Res α)

namespace Call

def map (f : α → β) : Call Op Res α → Call Op Res β
  | plain a => plain (f a)
  | guarded body => guarded (body >>= fun a ↦ .ret (f a))

/-- Run a call alone: its result and the state it leaves. -/
def run : Call Op Res α → (ℕ → E) → σ → α × σ
  | plain a, _, s => (a, s)
  | guarded body, e, s =>
      ((body.run I e (I.enter s)).val, I.leave (body.run I e (I.enter s)).state)

@[simp] theorem run_plain (a : α) (e : ℕ → E) (s : σ) :
    (plain a : Call Op Res α).run I e s = (a, s) := (rfl)

@[simp] theorem run_guarded (body : Prog Op Res α) (e : ℕ → E) (s : σ) :
    (guarded body).run I e s =
      ((body.run I e (I.enter s)).val, I.leave (body.run I e (I.enter s)).state) := (rfl)

@[simp] theorem run_map (f : α → β) (c : Call Op Res α) (e : ℕ → E) (s : σ) :
    (c.map f).run I e s = (f (c.run I e s).1, (c.run I e s).2) := by
  cases c <;> simp [map]

/-- Every operation that the body of a call may perform satisfies `P`. -/
def All (P : Op → Prop) : Call Op Res α → Prop
  | plain _ => True
  | guarded body => body.All P

theorem All.map {P : Op → Prop} {c : Call Op Res α} (hc : c.All P) (f : α → β) :
    (c.map f).All P := by
  cases c with
  | plain a => trivial
  | guarded body => exact Prog.All.bind hc fun _ ↦ trivial

end Call

/-- A call together with the environment its operations will meet. -/
structure Task (Op : Type u) (Res : Op → Type v) (E : Type*) (α : Type w) where
  call : Call Op Res α
  env : ℕ → E

/-- Run one task alone. -/
def Task.run (t : Task Op Res E α) (s : σ) : α × σ := t.call.run I t.env s

end Program
