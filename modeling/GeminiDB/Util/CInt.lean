import Mathlib.Tactic.Ring

/-!
# `int` arithmetic

The values of `int` are integers in `[-2^31, 2^31)`; arithmetic and conversions
into `int` wrap around.
-/

namespace GeminiDB

/-- The `int` that a wider integer becomes. -/
@[irreducible] def int32 (x : Int) : Int := (x + 2147483648) % 4294967296 - 2147483648

theorem int32_of_range {x : Int} (hlower : -2147483648 ≤ x) (hupper : x < 2147483648) :
    int32 x = x := by
  unfold int32
  omega

theorem int32_range (x : Int) : -2147483648 ≤ int32 x ∧ int32 x < 2147483648 := by
  unfold int32
  omega

theorem int32_natCast {n : ℕ} (h : n < 2 ^ 31) : int32 n = n :=
  int32_of_range (by omega) (by omega)

theorem int32_add_natCast {m n : ℕ} (h : m + n < 2 ^ 31) : int32 (m + n) = ((m + n : ℕ) : Int) := by
  rw [← int32_natCast h]
  push_cast
  rfl

theorem int32_sub_natCast {m n : ℕ} (hle : n ≤ m) (h : m < 2 ^ 31) :
    int32 (m - n) = ((m - n : ℕ) : Int) := by
  rw [← int32_natCast (show m - n < 2 ^ 31 by omega)]
  congr 1
  omega

end GeminiDB
