import Mathlib.Order.Defs.Unbundled
import GeminiDB.Data.Keys

/-!
# The order of byte strings (`bytes.h`)

The size of a `Bytes` value is the length of its string. `compare` is the
lexicographic order of unsigned bytes, and puts the item keys of one queue in
the order of their sequence numbers.
-/

namespace GeminiDB

open Radix

/-- `memcmp` of the first `n` bytes. -/
def memcmp : ℕ → Bytes → Bytes → Int
  | n + 1, a :: as, b :: bs => if a = b then memcmp n as bs else (a.toNat : Int) - b.toNat
  | _, _, _ => 0

namespace Bytes

/-- `Bytes::compare`. -/
def compare (x y : Bytes) : Int :=
  let r := memcmp (min x.length y.length) x y
  if r = 0 then
    if x.length < y.length then -1
    else if x.length > y.length then 1
    else r
  else r

/-- `operator==`. -/
def equal (x y : Bytes) : Bool := x.length == y.length && memcmp x.length x y == 0

theorem compare_nil_cons (b : UInt8) (y : Bytes) : compare [] (b :: y) = -1 := by
  simp [compare, memcmp]

theorem compare_cons_nil (a : UInt8) (x : Bytes) : compare (a :: x) [] = 1 := by
  simp [compare, memcmp]

theorem compare_cons_self (a : UInt8) (x y : Bytes) :
    compare (a :: x) (a :: y) = compare x y := by
  simp only [compare, List.length_cons, Nat.add_min_add_right, memcmp, if_true,
    Nat.add_lt_add_iff_right, gt_iff_lt]

theorem compare_cons_ne {a b : UInt8} (h : a ≠ b) (x y : Bytes) :
    compare (a :: x) (b :: y) = (a.toNat : Int) - b.toNat := by
  have hdiff : (a.toNat : Int) - b.toNat ≠ 0 := by
    have := mt UInt8.toNat.inj h
    omega
  simp only [compare, List.length_cons, Nat.add_min_add_right, memcmp, if_neg h, if_neg hdiff]

theorem compare_swap (x y : Bytes) : compare y x = -compare x y := by
  induction x generalizing y with
  | nil =>
      cases y with
      | nil => rfl
      | cons b y => rw [compare_nil_cons, compare_cons_nil, Int.neg_neg]
  | cons a x ih =>
      cases y with
      | nil => rw [compare_nil_cons, compare_cons_nil]
      | cons b y =>
          by_cases hab : a = b
          · rw [hab, compare_cons_self, compare_cons_self, ih]
          · rw [compare_cons_ne hab, compare_cons_ne (Ne.symm hab)]
            ring

/-- `compare` decides the lexicographic order. -/
theorem compare_neg_iff (x y : Bytes) : compare x y < 0 ↔ x < y := by
  induction x generalizing y with
  | nil =>
      cases y with
      | nil => simp [compare, memcmp]
      | cons b y => simp [compare_nil_cons]
  | cons a x ih =>
      cases y with
      | nil => simp [compare_cons_nil]
      | cons b y =>
          rw [List.cons_lt_cons_iff]
          by_cases hab : a = b
          · rw [hab, compare_cons_self, ih]
            simp
          · rw [compare_cons_ne hab, UInt8.lt_iff_toNat_lt]
            have hne : ¬(a = b ∧ x < y) := fun h ↦ hab h.1
            simp only [hne, or_false]
            omega

theorem compare_pos_iff (x y : Bytes) : 0 < compare x y ↔ y < x := by
  rw [← compare_neg_iff, compare_swap x y]
  omega

theorem compare_le_zero_iff (x y : Bytes) : compare x y ≤ 0 ↔ x ≤ y := by
  rw [← List.not_lt, ← compare_pos_iff]
  omega

theorem compare_eq_zero_iff (x y : Bytes) : compare x y = 0 ↔ x = y := by
  constructor
  · intro h
    have hyx : y ≤ x := by
      rw [← compare_le_zero_iff, compare_swap, h]
      decide
    exact List.le_antisymm ((compare_le_zero_iff x y).mp h.le) hyx
  · rintro rfl
    have := compare_swap x x
    omega

theorem equal_iff (x y : Bytes) : equal x y = true ↔ x = y := by
  rw [← compare_eq_zero_iff]
  by_cases hlen : x.length = y.length
  · simp [equal, compare, hlen]
  · have hne : x ≠ y := fun heq ↦ hlen (congrArg List.length heq)
    rw [compare_eq_zero_iff]
    simp [equal, hlen, hne]

end Bytes

theorem encodeQitemKey_lt_iff (name : Bytes) (s t : UInt64) :
    encodeQitemKey name s < encodeQitemKey name t ↔ s < t := by
  have hs : s.toNat < 256 ^ 8 := s.toNat_lt
  have ht : t.toNat < 256 ^ 8 := t.toNat_lt
  simp only [encodeQitemKey, List.cons_lt_cons_iff, UInt8.lt_irrefl, true_and, false_or]
  rw [append_lt_append_left_iff, nativeBytes_bigEndian, nativeBytes_bigEndian,
    UInt64.lt_iff_toNat_lt]
  exact reverse_leBytes_lt_iff hs ht

/-- Item keys sort like sequence numbers, in an order that `operator==` agrees with. -/
theorem qitem_keys_sort_like_seqs :
    (∀ (name : Bytes) (s t : UInt64),
      ((encodeQitemKey name s).compare (encodeQitemKey name t) < 0 ↔ s < t) ∧
      ((encodeQitemKey name s).compare (encodeQitemKey name t) = 0 ↔ s = t) ∧
      ((encodeQitemKey name s).compare (encodeQitemKey name t) > 0 ↔ s > t)) ∧
    (∀ x y : Bytes, x.compare y < 0 ↔ x < y) ∧
    IsLinearOrder Bytes (fun x y ↦ x.compare y ≤ 0) ∧
    ∀ x y : Bytes, x.compare y = 0 ↔ x.equal y = true := by
  refine ⟨fun name s t ↦ ⟨?_, ?_, ?_⟩, Bytes.compare_neg_iff, ?_, fun x y ↦ ?_⟩
  · rw [Bytes.compare_neg_iff, encodeQitemKey_lt_iff]
  · rw [Bytes.compare_eq_zero_iff, encodeQitemKey_inj]
    simp
  · rw [gt_iff_lt, Bytes.compare_pos_iff, encodeQitemKey_lt_iff]
  · simp only [Bytes.compare_le_zero_iff]
    exact
      { refl := List.le_refl
        trans := fun _ _ _ hxy hyz ↦ List.le_trans hxy hyz
        antisymm := fun _ _ hxy hyx ↦ List.le_antisymm hxy hyx
        total := fun x y ↦ List.le_total x y }
  · rw [Bytes.compare_eq_zero_iff, Bytes.equal_iff]

end GeminiDB
