import GeminiDB.Util.Strings
import Mathlib.Tactic.IntervalCases

/-!
# Escaping (`strings.h`)

`str_escape` writes a byte string with printable characters, `str_unescape`
reads it back. Both take the size of the string as an `int`.
-/

namespace GeminiDB

/-! ## Writing -/

/-- `hex[d]`. -/
def hexDigit (d : UInt8) : UInt8 := (ascii "0123456789abcdef").getD d.toNat 0

/-- What `str_escape` appends for a byte. A byte from 128 on is a negative `char`, and so
not between `!` and `~`. -/
def escapeByte (c : UInt8) : Bytes :=
  if c = 13 then ascii "\\r"
  else if c = 10 then ascii "\\n"
  else if c = 9 then ascii "\\t"
  else if c = 92 then ascii "\\\\"
  else if c = 32 then [c]
  else if 33 ≤ c ∧ c ≤ 126 then [c]
  else ascii "\\x" ++ [hexDigit (c >>> 4), hexDigit (c &&& 15)]

/-- `str_escape(const char *, int)`. -/
def strEscapeN (s : Bytes) (size : Int) : Bytes := (s.take size.toNat).flatMap escapeByte

/-- `str_escape(const std::string &)`. -/
def strEscape (s : Bytes) : Bytes := strEscapeN s (int32 s.length)

/-! ## Reading -/

/-- A `char` is signed. -/
def charInt (c : UInt8) : Int := if c.toNat < 128 then c.toNat else c.toNat - 256

def hexInt (c : UInt8) : Int :=
  if 48 ≤ charInt c ∧ charInt c ≤ 57 then charInt c - 48 else charInt c - 97 + 10

/-- The byte that a backslash and a letter other than `x` stand for. -/
def unescapeLetter (c : UInt8) : UInt8 :=
  if c = 97 then 7
  else if c = 98 then 8
  else if c = 102 then 12
  else if c = 118 then 11
  else if c = 114 then 13
  else if c = 110 then 10
  else if c = 116 then 9
  else if c = 92 then 92
  else c

/-- The loop of `str_unescape` over the rest of the string. -/
def unescape : Bytes → Bytes
  | [] => []
  | c :: rest =>
      if c ≠ 92 then c :: unescape rest
      else
        match rest with
        | [] => []
        | c2 :: rest =>
            if c2 ≠ 120 then unescapeLetter c2 :: unescape rest
            else
              match rest with
              | c3 :: c4 :: rest => UInt8.ofInt (hexInt c3 * 16 + hexInt c4) :: unescape rest
              | rest => unescape rest

/-- `str_unescape(const char *, int)`. -/
def strUnescapeN (s : Bytes) (size : Int) : Bytes := unescape (s.take size.toNat)

/-- `str_unescape(const std::string &)`. -/
def strUnescape (s : Bytes) : Bytes := strUnescapeN s (int32 s.length)

/-! ## The bytes one at a time -/

/-- Bytes with a letter of their own. -/
def hasLetter (c : UInt8) : Bool := c == 13 || c == 10 || c == 9 || c == 92

/-- Bytes written as two hexadecimal digits. -/
def needsHex (c : UInt8) : Bool := !hasLetter c && !(32 ≤ c && c ≤ 126)

theorem hexDigit_spec : ∀ n < 16, hexInt (hexDigit (UInt8.ofNat n)) = n ∧
    48 ≤ hexDigit (UInt8.ofNat n) ∧ hexDigit (UInt8.ofNat n) ≤ 102 ∧
    hexDigit (UInt8.ofNat n) ≠ 92 := by
  decide

/-- A byte is written as itself, with a letter, or with two digits that denote it. -/
theorem escapeByte_cases (c : UInt8) :
    (hasLetter c = false ∧ needsHex c = false ∧ escapeByte c = [c] ∧ 32 ≤ c ∧ c ≤ 126 ∧ c ≠ 92) ∨
    (∃ l, hasLetter c = true ∧ needsHex c = false ∧ escapeByte c = [92, l] ∧ 92 ≤ l ∧ l ≤ 116 ∧
      unescapeLetter l = c) ∨
    ∃ h l, hasLetter c = false ∧ needsHex c = true ∧ escapeByte c = [92, 120, h, l] ∧
      48 ≤ h ∧ h ≤ 102 ∧ h ≠ 92 ∧ 48 ≤ l ∧ l ≤ 102 ∧
      UInt8.ofInt (hexInt h * 16 + hexInt l) = c := by
  unfold escapeByte
  split_ifs with hr hn ht hback hspace hprint
  · exact .inr (.inl ⟨114, by subst hr; decide⟩)
  · exact .inr (.inl ⟨110, by subst hn; decide⟩)
  · exact .inr (.inl ⟨116, by subst ht; decide⟩)
  · exact .inr (.inl ⟨92, by subst hback; decide⟩)
  · exact .inl (by subst hspace; decide)
  · have hletter : hasLetter c = false := by simp [hasLetter, hr, hn, ht, hback]
    have hlow : 32 ≤ c := UInt8.le_trans (by decide) hprint.1
    exact .inl ⟨hletter, by simp [needsHex, hlow, hprint.2], rfl, hlow, hprint.2, hback⟩
  · have hletter : hasLetter c = false := by simp [hasLetter, hr, hn, ht, hback]
    have hlt := c.toNat_lt
    have hhigh : c >>> 4 = UInt8.ofNat (c.toNat / 16) := by
      apply UInt8.toNat.inj
      simp [Nat.shiftRight_eq_div_pow]
      omega
    have hlow : c &&& 15 = UInt8.ofNat (c.toNat % 16) := by
      apply UInt8.toNat.inj
      simp [Nat.and_two_pow_sub_one_eq_mod c.toNat 4]
      omega
    obtain ⟨hval, h48, h102, hne⟩ := hexDigit_spec (c.toNat / 16) (by omega)
    obtain ⟨lval, l48, l102, -⟩ := hexDigit_spec (c.toNat % 16) (by omega)
    refine .inr (.inr ⟨hexDigit (c >>> 4), hexDigit (c &&& 15), hletter, ?_, rfl, ?_⟩)
    · have hout : ¬(32 ≤ c ∧ c ≤ 126) := by
        rintro ⟨h32, h126⟩
        have hne32 := mt UInt8.toNat.inj hspace
        refine hprint ⟨?_, h126⟩
        rw [UInt8.le_iff_toNat_le] at h32 ⊢
        change 32 ≤ c.toNat at h32
        change ¬c.toNat = 32 at hne32
        change 33 ≤ c.toNat
        omega
      simp only [needsHex, hletter, Bool.not_false, Bool.true_and, Bool.not_eq_true',
        Bool.and_eq_false_iff, decide_eq_false_iff_not]
      exact not_and_or.mp hout
    · rw [hhigh, hlow, hval, lval]
      refine ⟨h48, h102, hne, l48, l102, ?_⟩
      have hsum : ((c.toNat / 16 : ℕ) : Int) * 16 + (c.toNat % 16 : ℕ) = c.toNat := by omega
      have hmod : ((c.toNat : Int) % 2 ^ 8).toNat = c.toNat := by omega
      rw [hsum, UInt8.ofInt, hmod, UInt8.ofNat_toNat]

theorem unescape_cons_ne {c : UInt8} (h : c ≠ 92) (rest : Bytes) :
    unescape (c :: rest) = c :: unescape rest := by
  conv_lhs => rw [unescape.eq_def]
  simp [h]

theorem unescape_letter {l : UInt8} (h : l ≠ 120) (rest : Bytes) :
    unescape (92 :: l :: rest) = unescapeLetter l :: unescape rest := by
  conv_lhs => rw [unescape.eq_def]
  simp [h]

theorem unescape_hex (h l : UInt8) (rest : Bytes) :
    unescape (92 :: 120 :: h :: l :: rest) =
      UInt8.ofInt (hexInt h * 16 + hexInt l) :: unescape rest := by
  conv_lhs => rw [unescape.eq_def]
  simp

/-- No escape sequence is confused with the bytes behind it. -/
theorem unescape_escapeByte_append (c : UInt8) (rest : Bytes) :
    unescape (escapeByte c ++ rest) = c :: unescape rest := by
  rcases escapeByte_cases c with ⟨-, -, heq, -, -, hne⟩ | ⟨l, -, -, heq, -, hle, hl⟩ |
    ⟨h, l, -, -, heq, -, -, -, -, -, hval⟩
  · rw [heq]
    exact unescape_cons_ne hne rest
  · have hne : l ≠ 120 := by
      rintro rfl
      exact absurd hle (by decide)
    rw [heq]
    exact (unescape_letter hne rest).trans (by rw [hl])
  · rw [heq]
    exact (unescape_hex h l rest).trans (by rw [hval])

/-- A sequence that is cut off is not read as the byte it was written for. -/
theorem unescape_take_escapeByte {c : UInt8} {k : ℕ} (hk : k < (escapeByte c).length) :
    unescape ((escapeByte c).take k) = [] ∨
      ∃ h, unescape ((escapeByte c).take k) = [h] ∧ h ≠ c := by
  rcases escapeByte_cases c with ⟨-, -, heq, -⟩ | ⟨l, -, -, heq, -⟩ |
    ⟨h, l, hletter, hhex, heq, h48, h102, hne, -⟩
  · rw [heq, List.length_singleton] at hk
    obtain rfl : k = 0 := by omega
    exact .inl rfl
  · rw [heq] at hk ⊢
    have hlen : k < 2 := hk
    interval_cases k
    · exact .inl rfl
    · exact .inl rfl
  · rw [heq] at hk ⊢
    have hlen : k < 4 := hk
    interval_cases k
    · exact .inl rfl
    · exact .inl rfl
    · exact .inl rfl
    · refine .inr ⟨h, ?_, ?_⟩
      · exact unescape_cons_ne hne []
      · rintro rfl
        have hlow : 32 ≤ h := UInt8.le_trans (by decide) h48
        have hhigh : h ≤ 126 := UInt8.le_trans h102 (by decide)
        simp [needsHex, hlow, hhigh] at hhex

theorem unescape_escape (s : Bytes) : unescape (s.flatMap escapeByte) = s := by
  induction s with
  | nil => rfl
  | cons c s ih => rw [List.flatMap_cons, unescape_escapeByte_append, ih]

/-- Every byte that is missing at the end of the escaped text shows in what is read. -/
theorem unescape_take (s : Bytes) (k : ℕ) :
    (unescape ((s.flatMap escapeByte).take k)).length ≤ s.length ∧
      (unescape ((s.flatMap escapeByte).take k) = s → (s.flatMap escapeByte).length ≤ k) := by
  induction s generalizing k with
  | nil => simp [unescape]
  | cons c s ih =>
      rw [List.flatMap_cons]
      by_cases hk : k < (escapeByte c).length
      · rw [List.take_append_of_le_length hk.le]
        rcases unescape_take_escapeByte hk with hnil | ⟨h, hone, hne⟩
        · rw [hnil]
          exact ⟨by simp, fun heq ↦ by simp at heq⟩
        · rw [hone]
          exact ⟨by simp, fun heq ↦ absurd (List.cons.inj heq).1 hne⟩
      · obtain ⟨j, rfl⟩ := Nat.exists_eq_add_of_le (not_lt.mp hk)
        obtain ⟨hlen, hall⟩ := ih j
        rw [List.take_length_add_append, unescape_escapeByte_append]
        refine ⟨by simpa using hlen, fun heq ↦ ?_⟩
        have hrest := hall (List.cons.inj heq).2
        rw [List.length_append]
        omega

theorem escapeByte_printable (c : UInt8) : ∀ b ∈ escapeByte c, 32 ≤ b ∧ b ≤ 126 := by
  have hrange {b : UInt8} (hlow : 48 ≤ b) (hhigh : b ≤ 116) : 32 ≤ b ∧ b ≤ 126 :=
    ⟨UInt8.le_trans (by decide) hlow, UInt8.le_trans hhigh (by decide)⟩
  rcases escapeByte_cases c with ⟨-, -, heq, h32, h126, -⟩ | ⟨l, -, -, heq, h92, h116, -⟩ |
    ⟨h, l, -, -, heq, h48, h102, -, l48, l102, -⟩
  · simpa [heq] using ⟨h32, h126⟩
  · have hl := hrange (UInt8.le_trans (by decide) h92) h116
    simpa [heq] using hl
  · have hh := hrange h48 (UInt8.le_trans h102 (by decide))
    have hl := hrange l48 (UInt8.le_trans l102 (by decide))
    simpa [heq] using ⟨hh, hl⟩

theorem length_escapeByte (c : UInt8) :
    (escapeByte c).length =
      1 + (if hasLetter c then 1 else 0) + 3 * (if needsHex c then 1 else 0) := by
  rcases escapeByte_cases c with ⟨hletter, hhex, heq, -⟩ | ⟨l, hletter, hhex, heq, -⟩ |
    ⟨h, l, hletter, hhex, heq, -⟩
  · simp [heq, hletter, hhex]
  · simp [heq, hletter, hhex]
  · simp [heq, hletter, hhex]

theorem length_escape (s : Bytes) :
    (s.flatMap escapeByte).length = s.length + s.countP hasLetter + 3 * s.countP needsHex := by
  induction s with
  | nil => rfl
  | cons c s ih =>
      rw [List.flatMap_cons, List.length_append, ih, length_escapeByte, List.length_cons,
        List.countP_cons, List.countP_cons]
      ring

/-! ## The two functions -/

theorem strEscape_of_lt {s : Bytes} (h : s.length < 2 ^ 31) :
    strEscape s = s.flatMap escapeByte := by
  rw [strEscape, strEscapeN, int32_natCast h, Int.toNat_natCast, List.take_length]

/-- Escaping gives printable characters, and is undone by unescaping unless the escaped
text is too long for an `int`. -/
theorem escape_reversible_iff (s : Bytes) :
    (strUnescape (strEscape s) = s ∧ ∀ b ∈ strEscape s, 32 ≤ b ∧ b ≤ 126) ↔
      s.length + s.countP hasLetter + 3 * s.countP needsHex < 2 ^ 31 := by
  rw [← length_escape]
  constructor
  · rintro ⟨hround, -⟩
    by_contra hlong
    -- one of the two sizes does not fit, and is cut down
    by_cases hs : s.length < 2 ^ 31
    · rw [strEscape_of_lt hs, strUnescape, strUnescapeN] at hround
      have hcut := (unescape_take s _).2 hround
      have := int32_range (s.flatMap escapeByte).length
      omega
    · have hcut := int32_range s.length
      have hlen := (unescape_take (s.take (int32 s.length).toNat)
        (int32 (strEscape s).length).toNat).1
      have heq : unescape (((s.take (int32 s.length).toNat).flatMap escapeByte).take
          (int32 (strEscape s).length).toNat) = s := hround
      rw [heq, List.length_take] at hlen
      omega
  · intro hlen
    have hs : s.length < 2 ^ 31 := by
      have := length_escape s
      omega
    rw [strEscape_of_lt hs]
    refine ⟨?_, fun b hb ↦ ?_⟩
    · rw [strUnescape, strUnescapeN, int32_natCast hlen, Int.toNat_natCast, List.take_length,
        unescape_escape]
    · obtain ⟨c, -, hc⟩ := List.mem_flatMap.mp hb
      exact escapeByte_printable c b hc

/-- The size of a string of 2^31 spaces is a negative `int`. -/
theorem escape_not_reversible :
    ¬∀ s : Bytes, strUnescape (strEscape s) = s ∧ ∀ b ∈ strEscape s, 32 ≤ b ∧ b ≤ 126 := by
  intro hall
  have hlong : (List.replicate (2 ^ 31) (32 : UInt8)).length = 2 ^ 31 := List.length_replicate
  generalize List.replicate (2 ^ 31) (32 : UInt8) = s at hlong
  have hsize : (int32 ((2 ^ 31 : ℕ) : Int)).toNat = 0 := by decide +kernel
  have hempty : strEscape s = [] := by
    rw [strEscape, strEscapeN, hlong, hsize, List.take_zero, List.flatMap_nil]
  have hround := (hall s).1
  have hnil : strUnescape [] = [] := by decide +kernel
  rw [hempty, hnil] at hround
  rw [← hround] at hlong
  exact absurd hlong (by decide)

end GeminiDB
