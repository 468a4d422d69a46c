import GeminiDB.Lib.Program
import Mathlib.Logic.Hydra

/-!
# Tasks come to an end

A task waits to begin, or is what is left of its program. Whatever the operations answer,
a task cannot go on for ever, and neither can finitely many of them, in whatever order
they are executed.
-/

namespace Program

open Relation

universe u v w

variable {Op : Type u} {Res : Op → Type v} {α : Type w}

/-- A task is the other one after one step: it has begun, or it has performed an operation. -/
inductive After : Option (Prog Op Res α) → Option (Prog Op Res α) → Prop
  | begin (p : Prog Op Res α) : After (some p) none
  | next (op : Op) (next : Res op → Prog Op Res α) (r : Res op) :
      After (some (next r)) (some (.call op next))

theorem acc_some (p : Prog Op Res α) : Acc After (some p) := by
  induction p with
  | ret a =>
      constructor
      rintro _ ⟨⟩
  | call op next ih =>
      constructor
      rintro _ ⟨⟩
      exact ih _

theorem wellFounded_after :
    WellFounded (After : Option (Prog Op Res α) → Option (Prog Op Res α) → Prop) := by
  constructor
  rintro (_ | p)
  · constructor
    rintro _ ⟨p⟩
    exact acc_some p
  · exact acc_some p

/-- Some task has gone on or has ended. -/
def Less : Multiset (Option (Prog Op Res α)) → Multiset (Option (Prog Op Res α)) → Prop :=
  CutExpand After

theorem wellFounded_less : WellFounded
    (Less : Multiset (Option (Prog Op Res α)) → Multiset (Option (Prog Op Res α)) → Prop) :=
  wellFounded_after.cutExpand

instance : IsWellFounded (Multiset (Option (Prog Op Res α))) Less := ⟨wellFounded_less⟩

theorem less_of_after {t t' : Option (Prog Op Res α)} (h : After t' t)
    (ts : Multiset (Option (Prog Op Res α))) : Less (t' ::ₘ ts) (t ::ₘ ts) :=
  cutExpand_single_add h ts

theorem less_of_end (t : Option (Prog Op Res α)) (ts : Multiset (Option (Prog Op Res α))) :
    Less ts (t ::ₘ ts) := by
  refine ⟨0, t, fun t' h ↦ absurd h (Multiset.notMem_zero t'), ?_⟩
  rw [add_zero, ← Multiset.singleton_add, add_comm]

end Program
