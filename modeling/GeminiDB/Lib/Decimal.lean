import Mathlib.Data.List.TakeWhile
import Mathlib.Tactic.Ring

/-!
# Decimal digits as bytes

Numbers are written as ASCII digits, most significant first, and read back from
the longest prefix of digits.
-/

namespace Decimal

def isDigit (b : UInt8) : Bool := 48 ≤ b && b ≤ 57

/-- The decimal digits of a number. -/
def digits (n : ℕ) : List UInt8 := (Nat.toDigits 10 n).map fun c ↦ UInt8.ofNat c.toNat

/-- The number that a list of digits denotes. -/
def value (ds : List UInt8) : ℕ := ds.foldl (fun acc b ↦ 10 * acc + (b.toNat - 48)) 0

theorem value_concat (ds : List UInt8) (b : UInt8) :
    value (ds ++ [b]) = 10 * value ds + (b.toNat - 48) := by
  simp [value]

theorem digits_of_lt {n : ℕ} (h : n < 10) : digits n = [UInt8.ofNat (48 + n)] := by
  rw [digits, Nat.toDigits_of_lt_base h]
  simp [Nat.toNat_digitChar_of_lt_ten h]

theorem digits_of_le {n : ℕ} (h : 10 ≤ n) :
    digits n = digits (n / 10) ++ [UInt8.ofNat (48 + n % 10)] := by
  have hlast : n % 10 < 10 := Nat.mod_lt n (by decide)
  rw [digits, Nat.toDigits_of_base_le (by decide) h]
  simp [digits, Nat.toNat_digitChar_of_lt_ten hlast]

/-- Numbers are built by appending digits. -/
theorem digits_induction {P : ℕ → Prop} (hbase : ∀ n < 10, P n)
    (hstep : ∀ n, 10 ≤ n → P (n / 10) → P n) (n : ℕ) : P n := by
  induction n using Nat.strong_induction_on with
  | _ n ih =>
      by_cases h : n < 10
      · exact hbase n h
      · exact hstep n (by omega) (ih (n / 10) (by omega))

theorem toNat_digit {n : ℕ} (h : n < 10) : (UInt8.ofNat (48 + n)).toNat = 48 + n := by
  rw [UInt8.toNat_ofNat']
  omega

theorem isDigit_ofNat {n : ℕ} (h : n < 10) : isDigit (UInt8.ofNat (48 + n)) = true := by
  simp only [isDigit, Bool.and_eq_true, decide_eq_true_eq, UInt8.le_iff_toNat_le, toNat_digit h]
  exact ⟨by simp, by simp; omega⟩

theorem digits_ne_nil (n : ℕ) : digits n ≠ [] := by
  simp [digits, Nat.toDigits_ne_nil]

theorem isDigit_of_mem_digits {n : ℕ} : ∀ b ∈ digits n, isDigit b = true := by
  induction n using digits_induction with
  | hbase n h => simpa [digits_of_lt h] using isDigit_ofNat h
  | hstep n h ih =>
      intro b hb
      rw [digits_of_le h, List.mem_append, List.mem_singleton] at hb
      rcases hb with hb | rfl
      · exact ih b hb
      · exact isDigit_ofNat (Nat.mod_lt n (by decide))

@[simp] theorem value_digits (n : ℕ) : value (digits n) = n := by
  induction n using digits_induction with
  | hbase n h =>
      rw [digits_of_lt h]
      simp only [value, List.foldl_cons, List.foldl_nil, toNat_digit h]
      omega
  | hstep n h ih =>
      rw [digits_of_le h, value_concat, ih, toNat_digit (Nat.mod_lt n (by decide))]
      omega

theorem length_digits_le {n k : ℕ} (hk : 0 < k) (h : n < 10 ^ k) : (digits n).length ≤ k := by
  rw [digits, List.length_map]
  exact (Nat.length_toDigits_le_iff (by decide) hk).mpr h

theorem lt_length_digits {n k : ℕ} (hk : 0 < k) (h : 10 ^ k ≤ n) : k < (digits n).length := by
  rw [digits, List.length_map]
  exact Nat.lt_of_not_le fun hle ↦
    absurd ((Nat.length_toDigits_le_iff (by decide) hk).mp hle) (Nat.not_lt.mpr h)

/-! ## Numerals -/

/-- A decimal representation of an integer: an optional sign, and digits. -/
inductive Numeral : List UInt8 → Int → Prop
  | plain (ds : List UInt8) (hne : ds ≠ []) (hds : ∀ b ∈ ds, isDigit b = true) :
      Numeral ds (value ds)
  | plus (ds : List UInt8) (hne : ds ≠ []) (hds : ∀ b ∈ ds, isDigit b = true) :
      Numeral (43 :: ds) (value ds)
  | minus (ds : List UInt8) (hne : ds ≠ []) (hds : ∀ b ∈ ds, isDigit b = true) :
      Numeral (45 :: ds) (-value ds)

theorem numeral_nil {v : Int} : ¬Numeral [] v := by
  rintro ⟨⟩
  exact absurd rfl ‹[] ≠ []›

theorem numeral_natCast (n : ℕ) : Numeral (digits n) n := by
  have h := Numeral.plain (digits n) (digits_ne_nil n) isDigit_of_mem_digits
  rwa [value_digits] at h

theorem numeral_neg_natCast (n : ℕ) : Numeral (45 :: digits n) (-n) := by
  have h := Numeral.minus (digits n) (digits_ne_nil n) isDigit_of_mem_digits
  rwa [value_digits] at h

/-- A numeral begins with a digit or a sign. -/
theorem Numeral.cons {s : List UInt8} {v : Int} (h : Numeral s v) :
    ∃ b rest, s = b :: rest ∧ (isDigit b = true ∨ b = 43 ∨ b = 45) := by
  cases h with
  | plain ds hne hds =>
      obtain ⟨b, rest, rfl⟩ := List.exists_cons_of_ne_nil hne
      exact ⟨b, rest, rfl, .inl (hds b List.mem_cons_self)⟩
  | plus ds hne hds => exact ⟨43, ds, rfl, .inr (.inl rfl)⟩
  | minus ds hne hds => exact ⟨45, ds, rfl, .inr (.inr rfl)⟩

end Decimal
