import GeminiDB.Util.Strings
import Mathlib.Data.Int.Order.Basic

/-!
# Reading numbers with `errno` (`strings.h`)

The `strtoxx` functions tell how far they read and set `errno` when a number is
out of range. `str_to_int`, `str_to_int64` and `str_to_uint64` overwrite `errno`
by whether the whole string was read.
-/

namespace GeminiDB.Errno

open Decimal

def EINVAL : Int := 22
def ERANGE : Int := 34

/-! ## What the library functions read -/

/-- Length of the sign. -/
def signLength : Bytes → ℕ
  | 45 :: _ => 1
  | 43 :: _ => 1
  | _ => 0

/-- The digits of the number that a string starts with. -/
def digitsRead (s : Bytes) : Bytes :=
  let rest := s.dropWhile isSpace
  (rest.drop (signLength rest)).takeWhile isDigit

/-- `end - start`; without digits nothing is read, not even blanks. -/
def lengthRead (s : Bytes) : ℕ :=
  if digitsRead s = [] then 0
  else (s.takeWhile isSpace).length + signLength (s.dropWhile isSpace) + (digitsRead s).length

/-- The number read, of any size. -/
def numberRead (s : Bytes) : Int :=
  match s.dropWhile isSpace with
  | 45 :: _ => -value (digitsRead s)
  | _ => value (digitsRead s)

/-- `errno` after `strtol` or `strtoll`; `long` has 64 bits. -/
def strtolErrno (errno : Int) (s : Bytes) : Int :=
  if -9223372036854775808 ≤ numberRead s ∧ numberRead s ≤ 9223372036854775807 then errno
  else ERANGE

/-- `errno` after `strtoull`, which takes the absolute value of a negative number. -/
def strtoullErrno (errno : Int) (s : Bytes) : Int :=
  if value (digitsRead s) ≤ 18446744073709551615 then errno else ERANGE

/-! ## The functions of `strings.h` -/

/-- What is left of `errno` once it was compared how far the library function read. A
`std::string` is followed by a NUL, which `end` may point at. -/
def checkRead (str : Bytes) (errno : Int) : Int :=
  if str.getD (lengthRead str) 0 = 0 ∧ lengthRead str = str.length then 0
  else if errno = 0 then EINVAL
  else errno

/-- Result and `errno`. -/
def strToInt (errno : Int) (str : Bytes) : Int × Int :=
  (int32 (strtol str), checkRead str (strtolErrno errno str))

def strToInt64 (errno : Int) (str : Bytes) : Int × Int :=
  (strtol str, checkRead str (strtolErrno errno str))

def strToUint64 (errno : Int) (str : Bytes) : UInt64 × Int :=
  (strtoull str, checkRead str (strtoullErrno errno str))

/-- `snprintf` into a buffer of 21 bytes. -/
def strInt64 (v : Int64) : Bytes := (intBytes v.toInt).take 20

def strUint64 (v : UInt64) : Bytes := (digits v.toNat).take 20

/-! ## How far a number is read -/

theorem signLength_cases (t : Bytes) :
    (∃ ds, t = 45 :: ds) ∨ (∃ ds, t = 43 :: ds) ∨
      signLength t = 0 ∧ ∀ ds, t ≠ 45 :: ds ∧ t ≠ 43 :: ds := by
  unfold signLength
  split
  · next ds => exact .inl ⟨ds, rfl⟩
  · next ds => exact .inr (.inl ⟨ds, rfl⟩)
  · next hminus hplus => exact .inr (.inr ⟨rfl, fun ds ↦ ⟨hminus ds, hplus ds⟩⟩)

theorem isSpace_of_isDigit {b : UInt8} (hb : isDigit b = true) : isSpace b = false := by
  simp only [isDigit, Bool.and_eq_true, decide_eq_true_eq, UInt8.le_iff_toNat_le] at hb
  simp only [isSpace, Bool.or_eq_false_iff, Bool.and_eq_false_iff, beq_eq_false_iff_ne,
    decide_eq_false_iff_not, UInt8.le_iff_toNat_le]
  obtain ⟨hlow, -⟩ := hb
  refine ⟨?_, .inr ?_⟩
  · rintro rfl
    exact absurd hlow (by decide)
  · change 48 ≤ b.toNat at hlow
    change ¬b.toNat ≤ 13
    omega

theorem signLength_of_isDigit {b : UInt8} (hb : isDigit b = true) (rest : Bytes) :
    signLength (b :: rest) = 0 ∧ ∀ ds, b :: rest ≠ 45 :: ds := by
  have hminus : b ≠ 45 := fun heq ↦ absurd (heq ▸ hb) (by decide)
  have hplus : b ≠ 43 := fun heq ↦ absurd (heq ▸ hb) (by decide)
  have hne (ds : Bytes) : b :: rest ≠ 45 :: ds := fun heq ↦ hminus (List.cons.inj heq).1
  rcases signLength_cases (b :: rest) with ⟨ds, heq⟩ | ⟨ds, heq⟩ | ⟨hzero, -⟩
  · exact absurd heq (hne ds)
  · exact absurd (List.cons.inj heq).1 hplus
  · exact ⟨hzero, hne⟩

theorem blanks_of_numeral {w t : Bytes} {v : Int} (hw : ∀ b ∈ w, isSpace b = true)
    (ht : Numeral t v) :
    (w ++ t).takeWhile isSpace = w ∧ (w ++ t).dropWhile isSpace = t := by
  obtain ⟨b, rest, rfl, hb⟩ := ht.cons
  have hblank : isSpace b = false := by
    rcases hb with hb | rfl | rfl
    · exact isSpace_of_isDigit hb
    · decide
    · decide
  rw [List.takeWhile_append_of_pos hw, List.dropWhile_append_of_pos hw,
    List.takeWhile_cons_of_neg (by simp [hblank]), List.dropWhile_cons_of_neg (by simp [hblank])]
  exact ⟨List.append_nil w, rfl⟩

theorem takeWhile_digits {ds : Bytes} (hds : ∀ b ∈ ds, isDigit b = true) :
    ds.takeWhile isDigit = ds := by
  rw [List.takeWhile_eq_self_iff]
  exact hds

theorem read_of_numeral {w t : Bytes} {v : Int} (hw : ∀ b ∈ w, isSpace b = true)
    (ht : Numeral t v) :
    lengthRead (w ++ t) = (w ++ t).length ∧ numberRead (w ++ t) = v ∧
      value (digitsRead (w ++ t)) = v.natAbs := by
  obtain ⟨htake, hdrop⟩ := blanks_of_numeral hw ht
  unfold lengthRead numberRead
  cases ht with
  | plain ds hne hds =>
      obtain ⟨b, rest, rfl⟩ := List.exists_cons_of_ne_nil hne
      obtain ⟨hsign, hminus⟩ := signLength_of_isDigit (hds b List.mem_cons_self) rest
      have hread : digitsRead (w ++ b :: rest) = b :: rest := by
        rw [digitsRead, hdrop, hsign, List.drop_zero, takeWhile_digits hds]
      rw [htake, hdrop, hread, hsign, if_neg hne]
      refine ⟨by rw [List.length_append, Nat.add_zero], ?_, by simp⟩
      split
      · next ds heq => exact absurd heq (hminus ds)
      · rfl
  | plus ds hne hds =>
      have hread : digitsRead (w ++ 43 :: ds) = ds := by
        rw [digitsRead, hdrop]
        exact takeWhile_digits hds
      rw [htake, hdrop, hread, if_neg hne]
      refine ⟨?_, rfl, by simp⟩
      rw [List.length_append, List.length_cons, signLength]
      omega
  | minus ds hne hds =>
      have hread : digitsRead (w ++ 45 :: ds) = ds := by
        rw [digitsRead, hdrop]
        exact takeWhile_digits hds
      rw [htake, hdrop, hread, if_neg hne]
      refine ⟨?_, rfl, by simp⟩
      rw [List.length_append, List.length_cons, signLength]
      omega

/-- The whole string is read when it is empty, or blanks before a numeral. -/
theorem lengthRead_eq_length_iff (s : Bytes) :
    lengthRead s = s.length ↔
      s = [] ∨ ∃ w t v, s = w ++ t ∧ (∀ b ∈ w, isSpace b = true) ∧ Numeral t v := by
  constructor
  · intro hlen
    by_cases hnone : digitsRead s = []
    · rw [lengthRead, if_pos hnone] at hlen
      exact .inl (List.eq_nil_of_length_eq_zero hlen.symm)
    · have hsplit : s.takeWhile isSpace ++ s.dropWhile isSpace = s :=
        List.takeWhile_append_dropWhile
      have hw : ∀ b ∈ s.takeWhile isSpace, isSpace b = true := fun b hb ↦
        List.mem_takeWhile_imp hb
      have hsum := congrArg List.length hsplit
      rw [lengthRead, if_neg hnone] at hlen
      rw [List.length_append] at hsum
      refine .inr ⟨s.takeWhile isSpace, s.dropWhile isSpace, ?_⟩
      revert hlen hnone hsum
      rw [hsplit, digitsRead]
      generalize s.dropWhile isSpace = t
      intro hlen hnone hsum
      have hsuffix (ds : Bytes) (hds : t.drop (signLength t) = ds)
          (hcount : signLength t + ds.length = t.length) :
          ds ≠ [] ∧ ∀ b ∈ ds, isDigit b = true := by
        simp only [hds] at hnone hlen
        have hall : ds.takeWhile isDigit = ds :=
          (List.takeWhile_prefix isDigit).eq_of_length (by omega)
        refine ⟨fun hnil ↦ hnone (by rw [hnil]; rfl), fun b hb ↦ ?_⟩
        rw [← hall] at hb
        exact List.mem_takeWhile_imp hb
      rcases signLength_cases t with ⟨ds, rfl⟩ | ⟨ds, rfl⟩ | ⟨hzero, -⟩
      · obtain ⟨hne, hds⟩ := hsuffix ds rfl (by rw [List.length_cons, signLength]; omega)
        exact ⟨-value ds, rfl, hw, .minus ds hne hds⟩
      · obtain ⟨hne, hds⟩ := hsuffix ds rfl (by rw [List.length_cons, signLength]; omega)
        exact ⟨value ds, rfl, hw, .plus ds hne hds⟩
      · obtain ⟨hne, hds⟩ := hsuffix t (by rw [hzero]; rfl) (by omega)
        exact ⟨value t, rfl, hw, .plain t hne hds⟩
  · rintro (rfl | ⟨w, t, v, rfl, hw, ht⟩)
    · rfl
    · exact (read_of_numeral hw ht).1

theorem checkRead_eq_zero_iff (s : Bytes) (errno : Int) :
    checkRead s errno = 0 ↔
      s = [] ∨ ∃ w t v, s = w ++ t ∧ (∀ b ∈ w, isSpace b = true) ∧ Numeral t v := by
  rw [← lengthRead_eq_length_iff, checkRead]
  split_ifs with hread hzero
  · exact ⟨fun _ ↦ hread.2, fun _ ↦ rfl⟩
  · exact ⟨fun heq ↦ absurd heq (by decide), fun hlen ↦ absurd ⟨by simp [hlen], hlen⟩ hread⟩
  · exact ⟨fun heq ↦ absurd heq hzero, fun hlen ↦ absurd ⟨by simp [hlen], hlen⟩ hread⟩

/-! ## What is returned -/

theorem strtol_eq (s : Bytes) :
    strtol s = max (-9223372036854775808) (min 9223372036854775807 (numberRead s)) := by
  unfold strtol numberRead digitsRead
  generalize s.dropWhile isSpace = t
  rcases signLength_cases t with ⟨ds, rfl⟩ | ⟨ds, rfl⟩ | ⟨hzero, hne⟩
  · change max _ (-(value (ds.takeWhile isDigit) : Int)) =
      max _ (min _ (-(value (ds.takeWhile isDigit) : Int)))
    omega
  · change min _ (value (ds.takeWhile isDigit) : Int) =
      max _ (min _ (value (ds.takeWhile isDigit) : Int))
    omega
  · simp only [hzero, List.drop_zero]
    split
    · next ds => exact absurd rfl (hne ds).1
    · next ds => exact absurd rfl (hne ds).2
    · split
      · next ds _ _ => exact absurd rfl (hne ds).1
      · omega

theorem strtoull_eq {s : Bytes} (hlower : 0 ≤ numberRead s)
    (hupper : numberRead s ≤ 18446744073709551615) :
    ((strtoull s).toNat : Int) = numberRead s := by
  revert hlower hupper
  unfold strtoull numberRead digitsRead
  generalize s.dropWhile isSpace = t
  have hsmall {n : ℕ} (hn : (n : Int) ≤ 18446744073709551615) :
      ((if 18446744073709551615 < n then (18446744073709551615 : UInt64)
        else UInt64.ofNat n).toNat : Int) = n := by
    rw [if_neg (by omega), UInt64.toNat_ofNat', Nat.mod_eq_of_lt (by omega)]
  rcases signLength_cases t with ⟨ds, rfl⟩ | ⟨ds, rfl⟩ | ⟨hzero, hne⟩
  · intro hlower hupper
    change 0 ≤ -(value (ds.takeWhile isDigit) : Int) at hlower
    have hnone : value (ds.takeWhile isDigit) = 0 := by omega
    change ((if 18446744073709551615 < value (ds.takeWhile isDigit) then
      (18446744073709551615 : UInt64)
      else -UInt64.ofNat (value (ds.takeWhile isDigit))).toNat : Int) =
        -(value (ds.takeWhile isDigit) : Int)
    rw [hnone]
    rfl
  · intro hlower hupper
    exact hsmall hupper
  · intro hlower hupper
    simp only [hzero, List.drop_zero] at hlower hupper ⊢
    split
    · next ds => exact absurd rfl (hne ds).1
    · next ds => exact absurd rfl (hne ds).2
    · split at hupper
      · next ds _ _ => exact absurd rfl (hne ds).1
      · exact hsmall hupper

/-! ## Which strings are read faithfully -/

/-- No error just for the numerals in range, and these are read exactly. -/
def Faithful (lo hi : Int) (s : Bytes) (result errno : Int) : Prop :=
  (errno = 0 ↔ ∃ v, Numeral s v ∧ lo ≤ v ∧ v ≤ hi) ∧
    ∀ v, Numeral s v → lo ≤ v → v ≤ hi → result = v

/-- The strings that pass the check without being numerals in range. -/
def Misread (lo hi : Int) (s : Bytes) : Prop :=
  s = [] ∨
    (∃ w t v, s = w ++ t ∧ w ≠ [] ∧ (∀ b ∈ w, isSpace b = true) ∧ Numeral t v) ∨
    ∃ v, Numeral s v ∧ ¬(lo ≤ v ∧ v ≤ hi)

theorem numberRead_of_numeral {s : Bytes} {v : Int} (h : Numeral s v) : numberRead s = v := by
  exact (read_of_numeral (w := []) (by simp) h).2.1

theorem faithful_iff {lo hi : Int} {s : Bytes} {result errno : Int}
    (hresult : ∀ v, Numeral s v → lo ≤ v → v ≤ hi → result = v) :
    Faithful lo hi s result (checkRead s errno) ↔ ¬Misread lo hi s := by
  rw [Faithful, checkRead_eq_zero_iff]
  constructor
  · rintro ⟨hzero, -⟩ (hnil | ⟨w, t, v, heq, hne, hw, ht⟩ | ⟨v, hv, hout⟩)
    · obtain ⟨v, hv, -⟩ := hzero.mp (.inl hnil)
      exact numeral_nil (hnil ▸ hv)
    · obtain ⟨v', hv', -⟩ := hzero.mp (.inr ⟨w, t, v, heq, hw, ht⟩)
      -- the blank cannot begin a numeral
      obtain ⟨b, w', rfl⟩ := List.exists_cons_of_ne_nil hne
      have hblanks := (blanks_of_numeral (w := []) (by simp) hv').2
      rw [List.nil_append, heq, List.dropWhile_append_of_pos hw] at hblanks
      have hshort := congrArg List.length hblanks
      have := (t.dropWhile_suffix isSpace).length_le
      rw [List.length_append, List.length_cons] at hshort
      omega
    · obtain ⟨v', hv', hrange⟩ := hzero.mp (.inr ⟨[], s, v, rfl, by simp, hv⟩)
      rw [← numberRead_of_numeral hv', numberRead_of_numeral hv] at hrange
      exact hout hrange
  · intro hgood
    refine ⟨⟨?_, ?_⟩, hresult⟩
    · rintro (hnil | ⟨w, t, v, rfl, hw, ht⟩)
      · exact absurd (.inl hnil) hgood
      · by_cases hne : w = []
        · subst hne
          by_contra hnone
          exact hgood (.inr (.inr ⟨v, ht, fun hrange ↦ hnone ⟨v, ht, hrange⟩⟩))
        · exact absurd (.inr (.inl ⟨w, t, v, rfl, hne, hw, ht⟩)) hgood
    · rintro ⟨v, hv, -⟩
      exact .inr ⟨[], s, v, rfl, by simp, hv⟩

theorem strToInt_of_numeral {s : Bytes} {v : Int} (h : Numeral s v) (hlower : -2147483648 ≤ v)
    (hupper : v ≤ 2147483647) : int32 (strtol s) = v := by
  rw [strtol_eq, numberRead_of_numeral h, int32_of_range (by omega) (by omega)]
  omega

theorem strToInt64_of_numeral {s : Bytes} {v : Int} (h : Numeral s v)
    (hlower : -9223372036854775808 ≤ v) (hupper : v ≤ 9223372036854775807) : strtol s = v := by
  rw [strtol_eq, numberRead_of_numeral h]
  omega

theorem strToUint64_of_numeral {s : Bytes} {v : Int} (h : Numeral s v) (hlower : 0 ≤ v)
    (hupper : v ≤ 18446744073709551615) : ((strtoull s).toNat : Int) = v := by
  have hread := numberRead_of_numeral h
  rw [strtoull_eq (by omega) (by omega), hread]

/-! ## Written numbers -/

theorem numeral_intBytes (v : Int) : Numeral (intBytes v) v := by
  rw [intBytes]
  split
  · next hneg =>
    have h := numeral_neg_natCast v.natAbs
    rwa [show -(v.natAbs : Int) = v by omega] at h
  · next hneg =>
    have h := numeral_natCast v.natAbs
    rwa [show (v.natAbs : Int) = v by omega] at h

theorem strInt64_eq (v : Int64) : strInt64 v = intBytes v.toInt := by
  have hlower := v.le_toInt
  have hupper := v.toInt_lt
  have hlen := length_digits_le (n := v.toInt.natAbs) (k := 19) (by decide) (by omega)
  rw [strInt64, List.take_of_length_le]
  rw [intBytes]
  split
  · rw [List.length_cons]
    omega
  · omega

theorem strUint64_eq (v : UInt64) : strUint64 v = digits v.toNat := by
  have hlt := v.toNat_lt
  rw [strUint64, List.take_of_length_le (length_digits_le (by decide) (by omega))]

theorem checkRead_of_numeral {s : Bytes} {v : Int} (h : Numeral s v) (errno : Int) :
    checkRead s errno = 0 :=
  (checkRead_eq_zero_iff s errno).mpr (.inr ⟨[], s, v, rfl, by simp, h⟩)

/-- The three functions are faithful just on the strings that are not misread, and read
back what `str` wrote. -/
theorem number_parsing_iff (errno : Int) (s : Bytes) :
    (Faithful (-2147483648) 2147483647 s (strToInt errno s).1 (strToInt errno s).2 ↔
      ¬Misread (-2147483648) 2147483647 s) ∧
    (Faithful (-9223372036854775808) 9223372036854775807 s (strToInt64 errno s).1
        (strToInt64 errno s).2 ↔
      ¬Misread (-9223372036854775808) 9223372036854775807 s) ∧
    (Faithful 0 18446744073709551615 s (strToUint64 errno s).1.toNat (strToUint64 errno s).2 ↔
      ¬Misread 0 18446744073709551615 s) ∧
    (∀ v : Int64, strToInt64 errno (strInt64 v) = (v.toInt, 0)) ∧
    ∀ v : UInt64, strToUint64 errno (strUint64 v) = (v, 0) := by
  refine ⟨faithful_iff fun _ ↦ strToInt_of_numeral, faithful_iff fun _ ↦ strToInt64_of_numeral,
    faithful_iff fun _ ↦ strToUint64_of_numeral, fun v ↦ ?_, fun v ↦ ?_⟩
  · have hlower := v.le_toInt
    have hupper := v.toInt_lt
    rw [strInt64_eq, strToInt64, checkRead_of_numeral (numeral_intBytes _),
      strToInt64_of_numeral (numeral_intBytes _) (by omega) (by omega)]
  · have hlt := v.toNat_lt
    have hvalue := strToUint64_of_numeral (numeral_natCast v.toNat) (by omega) (by omega)
    rw [strUint64_eq, strToUint64, checkRead_of_numeral (numeral_natCast _)]
    rw [UInt64.toNat.inj (Int.natCast_inj.mp hvalue)]

/-- `str_to_int("4294967297")` is 1 without an error. -/
theorem number_out_of_range :
    strToInt 0 (ascii "4294967297") = (1, 0) ∧
      ¬∀ errno s,
          Faithful (-2147483648) 2147483647 s (strToInt errno s).1 (strToInt errno s).2 := by
  have hresult : strToInt 0 (ascii "4294967297") = (1, 0) := by decide +kernel
  refine ⟨hresult, fun hall ↦ ?_⟩
  have hgood := hall 0 (ascii "4294967297")
  rw [hresult] at hgood
  obtain ⟨v, hv, -, hupper⟩ := hgood.1.mp rfl
  rw [← numberRead_of_numeral hv] at hupper
  exact absurd hupper (by decide +kernel)

end GeminiDB.Errno
