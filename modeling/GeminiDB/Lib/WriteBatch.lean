import Mathlib.Data.List.Induction
import Mathlib.Logic.Function.Basic

/-!
# Batches of edits on a key-value store

A store maps keys to values; a batch is a list of edits applied in order. The
value of a key after a batch is decided by the last edit of that key.
-/

namespace WriteBatch

variable {K V : Type*}

inductive Edit (K V : Type*) where
  | put (key : K) (val : V)
  | delete (key : K)
  deriving DecidableEq

namespace Edit

def key : Edit K V → K
  | put k _ => k
  | delete k => k

/-- What the edited key maps to afterwards. -/
def result : Edit K V → Option V
  | put _ v => some v
  | delete _ => none

/-- The same edit of another key. -/
def mapKey {K' : Type*} (f : K → K') : Edit K V → Edit K' V
  | put k v => put (f k) v
  | delete k => delete (f k)

@[simp] theorem key_mapKey {K' : Type*} (f : K → K') (e : Edit K V) :
    (e.mapKey f).key = f e.key := by
  cases e <;> rfl

@[simp] theorem result_mapKey {K' : Type*} (f : K → K') (e : Edit K V) :
    (e.mapKey f).result = e.result := by
  cases e <;> rfl

@[simp] theorem key_put (k : K) (v : V) : (put k v).key = k := rfl
@[simp] theorem key_delete (k : K) : (delete k : Edit K V).key = k := rfl
@[simp] theorem result_put (k : K) (v : V) : (put k v).result = some v := rfl
@[simp] theorem result_delete (k : K) : (delete k : Edit K V).result = none := rfl

end Edit

variable [DecidableEq K]

/-- Apply a batch, first edit first. -/
def apply (db : K → Option V) : List (Edit K V) → K → Option V
  | [] => db
  | e :: es => apply (Function.update db e.key e.result) es

@[simp] theorem apply_nil (db : K → Option V) : apply db [] = db := rfl

@[simp] theorem apply_cons (db : K → Option V) (e : Edit K V) (es : List (Edit K V)) :
    apply db (e :: es) = apply (Function.update db e.key e.result) es := rfl

theorem apply_append (db : K → Option V) (es fs : List (Edit K V)) :
    apply db (es ++ fs) = apply (apply db es) fs := by
  induction es generalizing db with
  | nil => rfl
  | cons e es ih => exact ih _

/-- A key that no edit names keeps its value. -/
theorem apply_of_forall_ne {db : K → Option V} {es : List (Edit K V)} {k : K}
    (h : ∀ e ∈ es, e.key ≠ k) : apply db es k = db k := by
  induction es generalizing db with
  | nil => rfl
  | cons e es ih =>
      have htail : ∀ f ∈ es, f.key ≠ k := fun f hf ↦ h f (List.mem_cons_of_mem e hf)
      rw [apply_cons, ih htail, Function.update_of_ne (h e List.mem_cons_self).symm]

/-! ## The last edit of a key -/

/-- The last edit of a key in a batch. -/
def lastEdit (k : K) (es : List (Edit K V)) : Option (Edit K V) :=
  es.reverse.find? fun e ↦ e.key = k

theorem lastEdit_concat (k : K) (es : List (Edit K V)) (e : Edit K V) :
    lastEdit k (es ++ [e]) = if e.key = k then some e else lastEdit k es := by
  by_cases h : e.key = k <;> simp [lastEdit, h]

theorem apply_eq_lastEdit (db : K → Option V) (es : List (Edit K V)) (k : K) :
    apply db es k = ((lastEdit k es).elim (db k) Edit.result) := by
  induction es using List.reverseRecOn with
  | nil => rfl
  | append_singleton es e ih =>
      rw [apply_append, lastEdit_concat]
      by_cases h : e.key = k
      · subst h
        simp
      · simp [h, Function.update_of_ne (Ne.symm h), ih]

/-- The value of a key after a batch depends on its value before only. -/
theorem apply_congr {db db' : K → Option V} {k : K} (h : db k = db' k) (es : List (Edit K V)) :
    apply db es k = apply db' es k := by
  rw [apply_eq_lastEdit, apply_eq_lastEdit, h]

theorem lastEdit_isSome {es : List (Edit K V)} {e : Edit K V} (h : e ∈ es) :
    (lastEdit e.key es).isSome := by
  simpa [lastEdit] using ⟨e, h, rfl⟩

theorem lastEdit_mapKey {K' : Type*} [DecidableEq K'] {f : K → K'} (hf : Function.Injective f)
    (k : K) (es : List (Edit K V)) :
    lastEdit (f k) (es.map (Edit.mapKey f)) = (lastEdit k es).map (Edit.mapKey f) := by
  induction es using List.reverseRecOn with
  | nil => rfl
  | append_singleton es e ih =>
      rw [List.map_append, List.map_singleton, lastEdit_concat, lastEdit_concat, ih,
        Edit.key_mapKey]
      by_cases h : e.key = k
      · simp [h]
      · simp [h, hf.ne h]

/-- After a batch every key it names has the value of its last edit. -/
theorem apply_of_mem (db : K → Option V) {es : List (Edit K V)} {e : Edit K V} (h : e ∈ es) :
    apply db es e.key = (lastEdit e.key es).bind Edit.result := by
  obtain ⟨last, hlast⟩ := Option.isSome_iff_exists.mp (lastEdit_isSome h)
  rw [apply_eq_lastEdit, hlast]
  rfl

end WriteBatch
