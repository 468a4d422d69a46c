import Mathlib.Data.Nat.Bitwise
import Mathlib.Tactic.Ring

/-!
# Base-256 digits

Numbers as byte lists, least significant byte first. The digits of a number
that fits determine it, a digit's bits are the number's bits, and numbers
are ordered as their digits are, read from the most significant one.
-/

namespace Radix

/-- The first `n` base-256 digits of `x`, least significant first. -/
def leBytes : ℕ → ℕ → List UInt8
  | 0, _ => []
  | n + 1, x => UInt8.ofNat x :: leBytes n (x / 256)

/-- The number whose base-256 digits are given, least significant first. -/
def leNat : List UInt8 → ℕ
  | [] => 0
  | b :: bs => b.toNat + 256 * leNat bs

@[simp] theorem length_leBytes (n x : ℕ) : (leBytes n x).length = n := by
  induction n generalizing x with
  | zero => rfl
  | succ n ih => simp [leBytes, ih]

theorem leNat_leBytes (n x : ℕ) : leNat (leBytes n x) = x % 256 ^ n := by
  induction n generalizing x with
  | zero => simp [leBytes, leNat, Nat.mod_one]
  | succ n ih =>
      have hsplit : x % 256 ^ (n + 1) = x % 256 + 256 * (x / 256 % 256 ^ n) := by
        rw [pow_succ, mul_comm, Nat.mod_mul]
      simp [leBytes, leNat, ih, hsplit]

theorem leNat_leBytes_of_lt {n x : ℕ} (h : x < 256 ^ n) : leNat (leBytes n x) = x := by
  rw [leNat_leBytes, Nat.mod_eq_of_lt h]

theorem getElem_leBytes {n x k : ℕ} (hk : k < (leBytes n x).length) :
    (leBytes n x)[k] = UInt8.ofNat (x / 256 ^ k) := by
  induction n generalizing x k with
  | zero => simp [leBytes] at hk
  | succ n ih =>
      cases k with
      | zero => simp [leBytes]
      | succ k =>
          have hk' : k < (leBytes n (x / 256)).length := by simpa [leBytes] using hk
          simp only [leBytes, List.getElem_cons_succ, ih hk', Nat.div_div_eq_div_mul, pow_succ']

/-- Digits agree when the bits they are made of do. -/
theorem ofNat_div_eq {x y j k : ℕ}
    (h : ∀ i < 8, x.testBit (8 * j + i) = y.testBit (8 * k + i)) :
    UInt8.ofNat (x / 256 ^ j) = UInt8.ofNat (y / 256 ^ k) := by
  have hpow : ∀ n : ℕ, 256 ^ n = 2 ^ (8 * n) := fun n ↦ by rw [pow_mul]; rfl
  apply UInt8.toNat.inj
  apply Nat.eq_of_testBit_eq
  intro i
  simp only [UInt8.toNat_ofNat', hpow, Nat.testBit_mod_two_pow, Nat.testBit_div_two_pow]
  by_cases hi : i < 8
  · simpa [hi, add_comm] using h i hi
  · simp [hi]

/-! ## The order of big-endian digits -/

theorem append_lt_append_left_iff (pre xs ys : List UInt8) :
    pre ++ xs < pre ++ ys ↔ xs < ys := by
  induction pre with
  | nil => rfl
  | cons b pre ih => simp [ih]

/-- In lists of one length the last element decides when all before it agree. -/
theorem concat_lt_concat_iff {xs ys : List UInt8} (hlen : xs.length = ys.length) (a b : UInt8) :
    xs ++ [a] < ys ++ [b] ↔ xs < ys ∨ xs = ys ∧ a < b := by
  induction xs generalizing ys with
  | nil =>
      cases ys with
      | nil => simp [List.cons_lt_cons_iff]
      | cons y ys => simp at hlen
  | cons x xs ih =>
      cases ys with
      | nil => simp at hlen
      | cons y ys =>
          have hrest := ih (by simpa using hlen)
          simp only [List.cons_append, List.cons_lt_cons_iff, hrest, List.cons.injEq]
          tauto

theorem leBytes_inj {n x y : ℕ} (hx : x < 256 ^ n) (hy : y < 256 ^ n) :
    leBytes n x = leBytes n y ↔ x = y := by
  refine ⟨fun h ↦ ?_, fun h ↦ h ▸ rfl⟩
  rw [← leNat_leBytes_of_lt hx, ← leNat_leBytes_of_lt hy, h]

/-- Most significant digit first, the order of the digits is the order of the numbers. -/
theorem reverse_leBytes_lt_iff {n x y : ℕ} (hx : x < 256 ^ n) (hy : y < 256 ^ n) :
    (leBytes n x).reverse < (leBytes n y).reverse ↔ x < y := by
  induction n generalizing x y with
  | zero =>
      have hx0 : x = 0 := by simpa using hx
      have hy0 : y = 0 := by simpa using hy
      simp [leBytes, hx0, hy0]
  | succ n ih =>
      have hx' : x / 256 < 256 ^ n := Nat.div_lt_of_lt_mul (by rwa [← pow_succ'])
      have hy' : y / 256 < 256 ^ n := Nat.div_lt_of_lt_mul (by rwa [← pow_succ'])
      have hlast : UInt8.ofNat x < UInt8.ofNat y ↔ x % 256 < y % 256 := by
        rw [UInt8.lt_iff_toNat_lt, UInt8.toNat_ofNat', UInt8.toNat_ofNat']
      simp only [leBytes, List.reverse_cons]
      rw [concat_lt_concat_iff (by simp), ih hx' hy', List.reverse_inj, leBytes_inj hx' hy', hlast]
      omega

end Radix
