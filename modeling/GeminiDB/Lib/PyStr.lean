import GeminiDB.Lib.Decimal

/-!
# Byte strings of Python

The methods of a Python 2 `str`, with positions that may be negative or too
large: slices, `find`, `strip` and `int`.
-/

namespace PyStr

open Decimal

variable {α : Type*}

/-- The position a slice bound stands for; negative ones count from the end. -/
def index (s : List α) (i : Int) : ℕ :=
  if i < 0 then (i + s.length).toNat else min i.toNat s.length

/-- `s[a:b]`. -/
def slice (s : List α) (a b : Int) : List α := (s.take (index s b)).drop (index s a)

/-- `s.find(b, start)`. -/
def find [DecidableEq α] (s : List α) (b : α) (start : Int) : Int :=
  if start > s.length then -1
  else match (s.drop (index s start)).idxOf? b with
    | none => -1
    | some k => index s start + k

def isSpace (b : UInt8) : Bool := b == 32 || (9 ≤ b && b ≤ 13)

/-- `s.strip()`. -/
def strip (s : List UInt8) : List UInt8 :=
  ((s.dropWhile isSpace).reverse.dropWhile isSpace).reverse

/-- `int(s)`: digits, perhaps with a sign and blanks around them. -/
def int? (s : List UInt8) : Option Int :=
  let number (ds : List UInt8) : Option ℕ :=
    if ds ≠ [] ∧ ds.all isDigit then some (value ds) else none
  match strip s with
  | 45 :: ds => (number ds).map fun n ↦ -(n : Int)
  | 43 :: ds => (number ds).map Nat.cast
  | ds => (number ds).map Nat.cast

theorem index_length (pre rest : List α) : index (pre ++ rest) pre.length = pre.length := by
  simp [index]

theorem index_add_length (pre a rest : List α) :
    index (pre ++ (a ++ rest)) (pre.length + a.length) = pre.length + a.length := by
  rw [index, if_neg (by omega)]
  simp only [List.length_append]
  omega

theorem slice_mid (pre a rest : List α) :
    slice (pre ++ (a ++ rest)) pre.length (pre.length + a.length) = a := by
  rw [slice, index_length, index_add_length, List.take_length_add_append, List.take_left,
    List.drop_left]

theorem slice_from (pre rest : List α) :
    slice (pre ++ rest) pre.length ((pre ++ rest).length : ℕ) = rest := by
  have := slice_mid pre rest []
  simpa using this

section Find

variable [DecidableEq α]

theorem find_mid {b : α} {a : List α} (h : b ∉ a) (pre rest : List α) :
    find (pre ++ (a ++ b :: rest)) b pre.length = pre.length + a.length := by
  have hidx : (a ++ b :: rest).idxOf? b = some a.length := by
    rw [List.idxOf?_eq_some_iff]
    refine ⟨by simp, by simp, fun j hj heq ↦ h ?_⟩
    rw [List.getElem_append_left hj] at heq
    exact heq ▸ List.getElem_mem hj
  rw [find, if_neg (by simp; omega), index_length, List.drop_left, hidx]

theorem find_none {b : α} {q : List α} (h : b ∉ q) (pre : List α) :
    find (pre ++ q) b pre.length = -1 := by
  have hidx : q.idxOf? b = none := by simpa using h
  rw [find, if_neg (by simp), index_length, List.drop_left, hidx]

end Find

theorem isSpace_of_isDigit {b : UInt8} (h : isDigit b = true) : isSpace b = false := by
  simp only [isDigit, Bool.and_eq_true, decide_eq_true_eq, UInt8.le_iff_toNat_le] at h
  simp only [isSpace, Bool.or_eq_false_iff, Bool.and_eq_false_iff, beq_eq_false_iff_ne,
    decide_eq_false_iff_not, UInt8.le_iff_toNat_le]
  have : (48 : UInt8).toNat = 48 := rfl
  have : (13 : UInt8).toNat = 13 := rfl
  refine ⟨?_, by omega⟩
  rintro rfl
  exact absurd h.1 (by decide)

theorem strip_digits {ds : List UInt8} (h : ∀ b ∈ ds, isDigit b = true) (hne : ds ≠ []) :
    strip (ds ++ [10]) = ds := by
  have hkeep {xs : List UInt8} (hxs : ∀ b ∈ xs, isDigit b = true) (hxne : xs ≠ [])
      (rest : List UInt8) : (xs ++ rest).dropWhile isSpace = xs ++ rest := by
    obtain ⟨b, xs, rfl⟩ := List.exists_cons_of_ne_nil hxne
    rw [List.cons_append, List.dropWhile_cons_of_neg
      (by simp [isSpace_of_isDigit (hxs b List.mem_cons_self)])]
  have hback := hkeep (show ∀ b ∈ ds.reverse, isDigit b = true by simpa using h)
    (by simpa using hne) []
  rw [List.append_nil] at hback
  rw [strip, hkeep h hne, List.reverse_append, List.reverse_singleton, List.singleton_append,
    List.dropWhile_cons_of_pos (by decide), hback, List.reverse_reverse]

theorem int?_digits (n : ℕ) : int? (digits n ++ [10]) = some (n : Int) := by
  have hdigits := @isDigit_of_mem_digits n
  obtain ⟨b, ds, hds⟩ := List.exists_cons_of_ne_nil (digits_ne_nil n)
  have hb : isDigit b = true := hdigits b (by rw [hds]; exact List.mem_cons_self)
  rw [int?, strip_digits hdigits (digits_ne_nil n), hds]
  split
  · next heq =>
    rw [(List.cons.inj heq).1] at hb
    exact absurd hb (by decide)
  · next heq =>
    rw [(List.cons.inj heq).1] at hb
    exact absurd hb (by decide)
  · simp only [← hds]
    rw [if_pos ⟨digits_ne_nil n, by simpa using hdigits⟩, value_digits]
    rfl

end PyStr
