import GeminiDB.Lib.Decimal
import GeminiDB.Util.CInt

/-!
# Byte strings and their conversions (`strings.h`)
-/

namespace GeminiDB

open Decimal

abbrev Bytes := List UInt8

/-- A string literal of the source. -/
def ascii (s : String) : Bytes := s.toList.map fun c ↦ UInt8.ofNat c.toNat

/-- `printf` with `%d` or `PRId64`. -/
def intBytes (n : Int) : Bytes :=
  if n < 0 then 45 :: digits n.natAbs else digits n.natAbs

theorem intBytes_ofNat (n : ℕ) : intBytes n = digits n := by
  simp [intBytes]

def isSpace (b : UInt8) : Bool := b == 32 || (9 ≤ b && b ≤ 13)

/-- `strtol(s, NULL, 10)` for a 64-bit `long`: blanks, a sign, digits, and a
value that stops at the ends of the range. -/
def strtol (s : Bytes) : Int :=
  match s.dropWhile isSpace with
  | 45 :: rest => max (-9223372036854775808) (-(value (rest.takeWhile isDigit) : Int))
  | 43 :: rest => min 9223372036854775807 (value (rest.takeWhile isDigit))
  | rest => min 9223372036854775807 (value (rest.takeWhile isDigit))

/-- `atoi` of glibc: `strtol` cut down to an `int`. -/
def atoi (s : Bytes) : Int := int32 (strtol s)

/-- `strtoull(s, NULL, 10)`: a negative number wraps around, one that is too large
becomes the largest. -/
def strtoull (s : Bytes) : UInt64 :=
  let number (negative : Bool) (rest : Bytes) : UInt64 :=
    let n := value (rest.takeWhile isDigit)
    if 18446744073709551615 < n then 18446744073709551615
    else if negative then -UInt64.ofNat n else UInt64.ofNat n
  match s.dropWhile isSpace with
  | 45 :: rest => number true rest
  | 43 :: rest => number false rest
  | rest => number false rest

/-- The value of `str_to_uint64`, which `Bytes::Uint64` is. A NUL byte ends the
digits as any other byte does. -/
def strToUint64 (str : Bytes) : UInt64 := strtoull str

/-- A string that starts with a digit has neither blanks nor a sign to skip. -/
theorem strtol_of_digit {b : UInt8} (hb : isDigit b = true) (rest : Bytes) :
    strtol (b :: rest) =
      min 9223372036854775807 (value ((b :: rest).takeWhile isDigit) : Int) := by
  simp only [isDigit, Bool.and_eq_true, decide_eq_true_eq] at hb
  have hspace : isSpace b = false := by
    simp only [isSpace, Bool.or_eq_false_iff, Bool.and_eq_false_iff, beq_eq_false_iff_ne]
    refine ⟨fun heq ↦ ?_, .inr ?_⟩
    · subst heq
      exact absurd hb.1 (by decide)
    · simp only [UInt8.le_iff_toNat_le, decide_eq_false_iff_not] at hb ⊢
      have : (48 : UInt8).toNat = 48 := rfl
      have : (13 : UInt8).toNat = 13 := rfl
      omega
  have hminus : b ≠ 45 := by
    rintro rfl
    exact absurd hb.1 (by decide)
  have hplus : b ≠ 43 := by
    rintro rfl
    exact absurd hb.1 (by decide)
  rw [strtol, List.dropWhile_cons_of_neg (by simp [hspace])]
  split
  · next heq => exact absurd (List.cons.inj heq).1 hminus
  · next heq => exact absurd (List.cons.inj heq).1 hplus
  · rfl

end GeminiDB
