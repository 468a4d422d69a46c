import Mathlib.Data.List.Basic
import Mathlib.Tactic.Ring

/-!
# Flat memory

A memory maps addresses to bytes. `slice` reads a run of bytes, `store` writes
one, `find` looks for a byte from an address upwards.
-/

namespace Memory

variable {α : Type*}

/-- The `n` bytes from address `a` on. -/
def slice (mem : Int → α) : Int → ℕ → List α
  | _, 0 => []
  | a, n + 1 => mem a :: slice mem (a + 1) n

/-- The memory with `bs` written from address `a` on. -/
def store (mem : Int → α) (a : Int) : List α → Int → α
  | [] => mem
  | b :: bs => fun i ↦ if i = a then b else store mem (a + 1) bs i

/-- The first of the `n` addresses from `a` on that holds `b`. -/
def find [DecidableEq α] (mem : Int → α) (b : α) : Int → ℕ → Option Int
  | _, 0 => none
  | a, n + 1 => if mem a = b then some a else find mem b (a + 1) n

@[simp] theorem slice_zero (mem : Int → α) (a : Int) : slice mem a 0 = [] := rfl

@[simp] theorem length_slice (mem : Int → α) (a : Int) (n : ℕ) : (slice mem a n).length = n := by
  induction n generalizing a with
  | zero => rfl
  | succ n ih => simp [slice, ih]

theorem slice_add (mem : Int → α) (a : Int) (m n : ℕ) :
    slice mem a (m + n) = slice mem a m ++ slice mem (a + m) n := by
  induction m generalizing a with
  | zero => simp
  | succ m ih =>
      have haddr : a + ((m + 1 : ℕ) : Int) = a + 1 + m := by push_cast; ring
      rw [Nat.add_right_comm, slice, ih, slice, haddr]
      rfl

theorem slice_take (mem : Int → α) (a : Int) {k n : ℕ} (h : k ≤ n) :
    (slice mem a n).take k = slice mem a k := by
  obtain ⟨m, rfl⟩ := Nat.exists_eq_add_of_le h
  rw [slice_add, List.take_left' (length_slice mem a k)]

theorem slice_drop (mem : Int → α) (a : Int) {k n : ℕ} (h : k ≤ n) :
    (slice mem a n).drop k = slice mem (a + k) (n - k) := by
  obtain ⟨m, rfl⟩ := Nat.exists_eq_add_of_le h
  rw [slice_add, List.drop_left' (length_slice mem a k), Nat.add_sub_cancel_left]

theorem getElem?_slice (mem : Int → α) (a : Int) {k n : ℕ} (h : k < n) :
    (slice mem a n)[k]? = some (mem (a + k)) := by
  obtain ⟨m, rfl⟩ := Nat.exists_eq_add_of_lt h
  rw [Nat.add_assoc, slice_add, List.getElem?_append_right (by simp), length_slice, Nat.sub_self,
    slice]
  rfl

theorem slice_congr {mem mem' : Int → α} {a : Int} {n : ℕ}
    (h : ∀ i, a ≤ i → i < a + n → mem i = mem' i) : slice mem a n = slice mem' a n := by
  induction n generalizing a with
  | zero => rfl
  | succ n ih =>
      rw [slice, slice, h a (by omega) (by omega), ih fun i hlo hhi ↦ h i (by omega) (by omega)]

theorem store_cons (mem : Int → α) (a : Int) (b : α) (bs : List α) (i : Int) :
    store mem a (b :: bs) i = if i = a then b else store mem (a + 1) bs i := rfl

theorem store_of_lt (mem : Int → α) {a i : Int} (h : i < a) (bs : List α) :
    store mem a bs i = mem i := by
  induction bs generalizing a with
  | nil => rfl
  | cons b bs ih => rw [store_cons, if_neg (by omega), ih (by omega)]

theorem store_of_le (mem : Int → α) {a i : Int} (bs : List α) (h : a + bs.length ≤ i) :
    store mem a bs i = mem i := by
  induction bs generalizing a with
  | nil => rfl
  | cons b bs ih =>
      rw [List.length_cons] at h
      rw [store_cons, if_neg (by omega), ih (by omega)]

theorem slice_store (mem : Int → α) (a : Int) (bs : List α) :
    slice (store mem a bs) a bs.length = bs := by
  induction bs generalizing a with
  | nil => rfl
  | cons b bs ih =>
      rw [List.length_cons, slice]
      congr 1
      · simp [store]
      · calc slice (store mem a (b :: bs)) (a + 1) bs.length
            = slice (store mem (a + 1) bs) (a + 1) bs.length :=
              slice_congr fun i hlo _ ↦ by rw [store_cons, if_neg (by omega)]
          _ = bs := ih (a + 1)

/-- A write behind a run of bytes leaves it alone. -/
theorem slice_store_after (mem : Int → α) {a b : Int} {n : ℕ} (h : a + n ≤ b) (bs : List α) :
    slice (store mem b bs) a n = slice mem a n :=
  slice_congr fun i _ hhi ↦ store_of_lt mem (by omega) bs

section Find

variable [DecidableEq α]

/-- Looking for a byte splits the run before its first occurrence. -/
theorem find_eq_some {mem : Int → α} {b : α} {a p : Int} {n : ℕ} (h : find mem b a n = some p) :
    ∃ k : ℕ, k < n ∧ p = a + k ∧ mem p = b ∧ b ∉ slice mem a k := by
  induction n generalizing a with
  | zero => cases h
  | succ n ih =>
      rw [find] at h
      split at h
      · next hb =>
        cases h
        exact ⟨0, by omega, by simp, hb, by simp⟩
      · next hb =>
        obtain ⟨k, hk, hp, hmem, hnot⟩ := ih h
        refine ⟨k + 1, by omega, by push_cast; omega, hmem, ?_⟩
        simpa [slice, hnot] using Ne.symm hb

theorem find_eq_none {mem : Int → α} {b : α} {a : Int} {n : ℕ} (h : find mem b a n = none) :
    b ∉ slice mem a n := by
  induction n generalizing a with
  | zero => simp
  | succ n ih =>
      rw [find] at h
      split at h
      · cases h
      · next hb => simpa [slice, ih h] using Ne.symm hb

end Find

/-! ## Memory that can be read in part

An address outside of the readable part answers `none`, and so does a run of
reads that meets one.
-/

section Guard

/-- The memory with only the addresses in `[lo, hi)` readable. -/
def guarded (mem : Int → α) (lo hi a : Int) : Option α :=
  if lo ≤ a ∧ a < hi then some (mem a) else none

def sliceIn (mem : Int → Option α) : Int → ℕ → Option (List α)
  | _, 0 => some []
  | a, n + 1 => (mem a).bind fun b ↦ (sliceIn mem (a + 1) n).map (b :: ·)

def findIn [DecidableEq α] (mem : Int → Option α) (b : α) : Int → ℕ → Option (Option Int)
  | _, 0 => some none
  | a, n + 1 => (mem a).bind fun c ↦ if c = b then some (some a) else findIn mem b (a + 1) n

theorem guarded_eq (mem : Int → α) {lo hi a : Int} (hlo : lo ≤ a) (hhi : a < hi) :
    guarded mem lo hi a = some (mem a) := if_pos ⟨hlo, hhi⟩

theorem sliceIn_guarded (mem : Int → α) {lo hi a : Int} {n : ℕ} (hlo : lo ≤ a)
    (hhi : a + n ≤ hi) : sliceIn (guarded mem lo hi) a n = some (slice mem a n) := by
  induction n generalizing a with
  | zero => rfl
  | succ n ih =>
      push_cast at hhi
      rw [sliceIn, guarded_eq mem hlo (by omega), Option.bind_some, ih (by omega) (by omega)]
      rfl

theorem findIn_guarded [DecidableEq α] (mem : Int → α) (b : α) {lo hi a : Int} {n : ℕ}
    (hlo : lo ≤ a) (hhi : a + n ≤ hi) :
    findIn (guarded mem lo hi) b a n = some (find mem b a n) := by
  induction n generalizing a with
  | zero => rfl
  | succ n ih =>
      push_cast at hhi
      rw [findIn, guarded_eq mem hlo (by omega), Option.bind_some, ih (by omega) (by omega), find]
      split <;> rfl

/-- A memory of which just the bytes of a list can be read, from address 0 on. -/
def ofList (bs : List α) (a : Int) : Option α := if 0 ≤ a then bs[a.toNat]? else none

theorem ofList_natCast (bs : List α) (k : ℕ) : ofList bs k = bs[k]? := by
  simp [ofList]

theorem sliceIn_ofList (bs : List α) {k n : ℕ} (h : k + n ≤ bs.length) :
    sliceIn (ofList bs) k n = some ((bs.drop k).take n) := by
  induction n generalizing k with
  | zero => simp [sliceIn]
  | succ n ih =>
      have hnext : (k : Int) + 1 = ((k + 1 : ℕ) : Int) := by push_cast; rfl
      have hk : k < bs.length := by omega
      rw [sliceIn, ofList_natCast, List.getElem?_eq_getElem hk, Option.bind_some, hnext,
        ih (by omega), List.drop_eq_getElem_cons hk, List.take_succ_cons]
      rfl

end Guard

end Memory
