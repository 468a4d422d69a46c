import GeminiDB.Lib.Memory
import GeminiDB.Net.Wire

/-!
# Buffers (`bytes.h`, `bytes.cpp`)

A buffer is an allocation of `total` bytes whose live part starts at offset
`data` and has `size` bytes. Offsets and sizes are `int`s and wrap around.
`alloc n` tells whether `realloc` can provide `n` bytes.
-/

namespace GeminiDB

open Memory Decimal

structure Buffer where
  mem : Int → UInt8
  data : Int
  size : Int
  total : Int

namespace Buffer

/-- `Buffer(total)`; the fresh allocation is taken to hold zeros. -/
def new (total : Int) : Buffer := ⟨fun _ ↦ 0, 0, 0, total⟩

def slot (b : Buffer) : Int := b.data + b.size

def space (b : Buffer) : Int := int32 (int32 (b.total - int32 b.data) - b.size)

def incr (num : Int) (b : Buffer) : Buffer := { b with size := int32 (b.size + num) }

def decr (num : Int) (b : Buffer) : Buffer :=
  { b with size := int32 (b.size - num), data := b.data + num }

/-- Move the live bytes to the front once they start in the second half. -/
def nice (b : Buffer) : Buffer :=
  if b.data > b.total.tdiv 2 then
    { b with
      mem := if b.size > 0 then store b.mem 0 (slice b.mem b.data b.size.toNat) else b.mem
      data := 0 }
  else b

/-- The size `grow` asks for. -/
def grown (total : Int) : Int :=
  if total < 8 * 1024 then 8 * 1024
  else if total < 512 * 1024 then int32 (8 * total)
  else int32 (2 * total)

/-- The new total, or -1. -/
def grow (alloc : Int → Bool) (b : Buffer) : Int × Buffer :=
  let n := grown b.total
  -- a negative size becomes a huge `size_t`
  if n < 0 ∨ alloc n = false then (-1, b) else (n, { b with total := n })

/-- `while(size > space()) if(grow() == -1) return -1;`, at most `k` times
around; `false` when it returned. -/
def growUntil (alloc : Int → Bool) (size : Int) : ℕ → Buffer → Bool × Buffer
  | 0, b => (false, b)
  | k + 1, b =>
      if size > b.space then
        let r := b.grow alloc
        if r.1 = -1 then (false, r.2) else growUntil alloc size k r.2
      else (true, b)

/-- More than `growUntil` needs. -/
def rounds : ℕ := 32

/-- `memcpy` of `bs` to the slot. -/
def put (bs : Bytes) (b : Buffer) : Buffer :=
  { b with mem := store b.mem b.slot bs, size := int32 (b.size + bs.length) }

/-- `append(const void *, int)`, which `append(char)` is a case of. -/
def append (alloc : Int → Bool) (bs : Bytes) (b : Buffer) : Int × Buffer :=
  let size := int32 bs.length
  let r := growUntil alloc size rounds b
  if r.1 then (size, r.2.put (bs.take size.toNat)) else (-1, r.2)

def appendRecord (alloc : Int → Bool) (s : Bytes) (b : Buffer) : Int × Buffer :=
  let size := int32 s.length
  let r := growUntil alloc (int32 (int32 (16 + size) + 1)) rounds b
  let record := intBytes size ++ [10] ++ s.take size.toNat ++ [10]
  if r.1 then (int32 record.length, r.2.put record) else (-1, r.2)

/-- The live bytes. -/
def content (b : Buffer) : Bytes := slice b.mem b.data b.size.toNat

/-- The live part lies within the allocation. -/
structure Wf (b : Buffer) : Prop where
  data : 0 ≤ b.data
  size : 0 ≤ b.size
  fits : b.data + b.size ≤ b.total
  pos : 0 < b.total
  total : b.total < 2147483648

variable {b : Buffer}

theorem wf_new {total : Int} (hpos : 0 < total) (hlt : total < 2147483648) : (new total).Wf :=
  ⟨le_rfl, le_rfl, by simpa [new] using hpos.le, hpos, hlt⟩

@[simp] theorem content_new (total : Int) : (new total).content = [] := rfl

theorem Wf.length_content (h : b.Wf) : (b.content.length : Int) = b.size := by
  have := h.size
  simp [content]
  omega

theorem Wf.space_eq (h : b.Wf) : b.space = b.total - b.data - b.size := by
  obtain ⟨hdata, hsize, hfits, hpos, htotal⟩ := h
  rw [space, int32_of_range (x := b.data) (by omega) (by omega),
    int32_of_range (x := b.total - b.data) (by omega) (by omega),
    int32_of_range (by omega) (by omega)]

/-- The bytes that `nice` moves do not overlap the place it moves them to. -/
theorem Wf.nice_disjoint (h : b.Wf) (hhalf : b.data > b.total.tdiv 2) : b.size ≤ b.data := by
  have := h.fits
  have := h.pos
  rw [Int.tdiv_eq_ediv_of_nonneg (by omega)] at hhalf
  omega

theorem Wf.nice (h : b.Wf) : b.nice.Wf := by
  obtain ⟨hdata, hsize, hfits, hpos, htotal⟩ := h
  unfold Buffer.nice
  split
  · exact ⟨le_rfl, hsize, by simp only; omega, hpos, htotal⟩
  · exact ⟨hdata, hsize, hfits, hpos, htotal⟩

@[simp] theorem content_nice (b : Buffer) : b.nice.content = b.content := by
  unfold Buffer.nice
  split
  · simp only [content]
    split
    · exact (congrArg _ (length_slice b.mem b.data b.size.toNat).symm).trans (slice_store _ _ _)
    · next hsize =>
      rw [show b.size.toNat = 0 by omega]
      rfl
  · rfl

theorem Wf.space_nice (h : b.Wf) : b.space ≤ b.nice.space := by
  rw [h.space_eq, h.nice.space_eq]
  have := h.data
  unfold Buffer.nice
  split
  · simp only
    omega
  · exact le_rfl

/-- What `grow` does: nothing, or a larger allocation around the same bytes. -/
theorem Wf.grow (h : b.Wf) (alloc : Int → Bool) :
    b.grow alloc = (-1, b) ∨
      ∃ n, b.grow alloc = (n, { b with total := n }) ∧ b.total < n ∧ n < 2147483648 ∧
        8192 ≤ n ∧ (8192 ≤ b.total → 2 * b.total ≤ n) := by
  obtain ⟨hdata, hsize, hfits, hpos, htotal⟩ := h
  simp only [Buffer.grow]
  split
  · exact .inl rfl
  · next hn =>
    simp only [not_or, not_lt] at hn
    have hpos := hn.1
    refine .inr ⟨_, rfl, ?_⟩
    unfold grown int32 at hpos ⊢
    split_ifs at hpos ⊢ <;> omega

theorem Wf.extend (h : b.Wf) {n : Int} (hle : b.total ≤ n) (hlt : n < 2147483648) :
    { b with total := n : Buffer }.Wf :=
  ⟨h.data, h.size, by simpa using h.fits.trans hle, by simpa using h.pos.trans_le hle, hlt⟩

theorem Wf.grow_content (h : b.Wf) (alloc : Int → Bool) :
    (b.grow alloc).2.Wf ∧ (b.grow alloc).2.content = b.content := by
  rcases h.grow alloc with hgrow | ⟨n, hgrow, hlt, hmax, -⟩
  · rw [hgrow]
    exact ⟨h, rfl⟩
  · rw [hgrow]
    exact ⟨h.extend hlt.le hmax, rfl⟩

theorem Wf.space_grow (h : b.Wf) (alloc : Int → Bool) : b.space ≤ (b.grow alloc).2.space := by
  rcases h.grow alloc with hgrow | ⟨n, hgrow, hlt, hmax, -⟩
  · rw [hgrow]
  · rw [hgrow, h.space_eq, (h.extend hlt.le hmax).space_eq]
    simp only
    omega

/-- `growUntil` keeps the bytes, and makes the room when it succeeds. -/
theorem Wf.growUntil (h : b.Wf) (alloc : Int → Bool) (size : Int) (k : ℕ) :
    ∃ n, (growUntil alloc size k b).2 = { b with total := n } ∧ b.total ≤ n ∧ n < 2147483648 ∧
      ((growUntil alloc size k b).1 = true → size ≤ { b with total := n : Buffer }.space) := by
  induction k generalizing b with
  | zero => exact ⟨b.total, rfl, le_rfl, h.total, fun heq ↦ by cases heq⟩
  | succ k ih =>
      rw [Buffer.growUntil]
      split
      · rcases h.grow alloc with hgrow | ⟨n, hgrow, hle, hlt, hmin, hdouble⟩
        · rw [hgrow]
          exact ⟨b.total, rfl, le_rfl, h.total, fun heq ↦ by cases heq⟩
        · have hpos := h.pos
          rw [hgrow]
          simp only
          rw [if_neg (by omega)]
          obtain ⟨m, heq, hm, hmlt, hspace⟩ := ih (h.extend (n := n) (by omega) hlt)
          exact ⟨m, heq, by simp only at hm; omega, hmlt, hspace⟩
      · next hspace => exact ⟨b.total, rfl, le_rfl, h.total, fun _ ↦ not_lt.mp hspace⟩

/-- From 8192 bytes on every growth at least doubles the allocation. -/
theorem Wf.growUntil_rounds (h : b.Wf) (hmin : 8192 ≤ b.total) (alloc : Int → Bool) (size : Int)
    {k : ℕ} (hk : 2147483648 ≤ b.total * 2 ^ k) (j : ℕ) :
    Buffer.growUntil alloc size (k + j) b = Buffer.growUntil alloc size k b := by
  induction k generalizing b with
  | zero => exact absurd h.total (by simpa using hk)
  | succ k ih =>
      rw [show k + 1 + j = k + j + 1 by omega, Buffer.growUntil, Buffer.growUntil]
      split
      · rcases h.grow alloc with hgrow | ⟨n, hgrow, hlt, hmax, hn, hdouble⟩
        · rw [hgrow]
          rfl
        · rw [hgrow]
          simp only
          rw [if_neg (by omega), if_neg (by omega)]
          apply ih (h.extend hlt.le hmax) hn
          calc (2147483648 : Int) ≤ b.total * 2 ^ (k + 1) := hk
            _ = 2 * b.total * 2 ^ k := by ring
            _ ≤ n * 2 ^ k :=
              Int.mul_le_mul_of_nonneg_right (hdouble hmin) (Int.pow_nonneg (by decide))
      · rfl

/-- The loop of `growUntil` ends before it runs out of rounds. -/
theorem Wf.growUntil_ends (h : b.Wf) (alloc : Int → Bool) (size : Int) (j : ℕ) :
    Buffer.growUntil alloc size (rounds + j) b = Buffer.growUntil alloc size rounds b := by
  rw [rounds, show 32 + j = 31 + j + 1 by omega, Buffer.growUntil, Buffer.growUntil]
  split
  · rcases h.grow alloc with hgrow | ⟨n, hgrow, hlt, hmax, hn, -⟩
    · rw [hgrow]
      rfl
    · rw [hgrow]
      simp only
      rw [if_neg (by omega), if_neg (by omega)]
      exact (h.extend hlt.le hmax).growUntil_rounds hn alloc size (by simp only; omega) j
  · rfl

@[simp] theorem total_put (bs : Bytes) (b : Buffer) : (b.put bs).total = b.total := rfl

theorem Wf.put (h : b.Wf) {bs : Bytes} (hroom : (bs.length : Int) ≤ b.space) :
    (b.put bs).Wf ∧ (b.put bs).content = b.content ++ bs := by
  rw [h.space_eq] at hroom
  obtain ⟨hdata, hsize, hfits, hpos, htotal⟩ := h
  have hnew : int32 (b.size + bs.length) = b.size + bs.length :=
    int32_of_range (by omega) (by omega)
  refine ⟨⟨hdata, by simp only [Buffer.put, hnew]; omega, by simp only [Buffer.put, hnew]; omega,
    hpos, htotal⟩, ?_⟩
  have hlen : (b.size + bs.length).toNat = b.size.toNat + bs.length := by omega
  have hslot : b.slot = b.data + (b.size.toNat : Int) := by rw [slot]; omega
  simp only [Buffer.put, content, hnew, hlen]
  rw [slice_add, hslot, slice_store_after _ le_rfl, slice_store]

theorem Wf.space_put (h : b.Wf) {bs : Bytes} (hroom : (bs.length : Int) ≤ b.space) :
    (b.put bs).space = b.space - bs.length := by
  obtain ⟨hwf, hcontent⟩ := h.put hroom
  have hafter := hwf.length_content
  rw [hcontent, List.length_append, Nat.cast_add, h.length_content] at hafter
  rw [hwf.space_eq, h.space_eq, ← hafter, total_put]
  change b.total - b.data - _ = _
  ring

theorem Wf.decr (h : b.Wf) {n : ℕ} (hn : n ≤ b.content.length) :
    (b.decr n).Wf ∧ (b.decr n).content = b.content.drop n := by
  have hlen := h.length_content
  obtain ⟨hdata, hsize, hfits, hpos, htotal⟩ := h
  have hnew : int32 (b.size - n) = b.size - n := int32_of_range (by omega) (by omega)
  refine ⟨⟨by simp only [Buffer.decr]; omega, by simp only [Buffer.decr, hnew]; omega,
    by simp only [Buffer.decr, hnew]; omega, hpos, htotal⟩, ?_⟩
  obtain ⟨m, hm⟩ : ∃ m, b.size.toNat = n + m := ⟨b.size.toNat - n, by omega⟩
  have hrest : (b.size - n).toNat = m := by omega
  simp only [Buffer.decr, content, hnew, hrest, hm]
  rw [slice_add, List.drop_left' (length_slice _ _ _)]

theorem append_eq (alloc : Int → Bool) {bs : Bytes} (hbs : bs.length < 2 ^ 31) (b : Buffer) :
    b.append alloc bs =
      if (growUntil alloc bs.length rounds b).1 then
        ((bs.length : Int), (growUntil alloc bs.length rounds b).2.put bs)
      else (-1, (growUntil alloc bs.length rounds b).2) := by
  simp only [append, int32_natCast hbs, Int.toNat_natCast, List.take_length]

theorem length_encodeRecord_le {s : Bytes} (hs : s.length + 17 < 2 ^ 31) :
    (encodeRecord s).length ≤ s.length + 17 := by
  have hdigits := length_digits_le (n := s.length) (k := 10) (by decide) (by omega)
  simp [encodeRecord]
  omega

theorem appendRecord_eq (alloc : Int → Bool) {s : Bytes} (hs : s.length + 17 < 2 ^ 31)
    (b : Buffer) :
    b.appendRecord alloc s =
      if (growUntil alloc (s.length + 17) rounds b).1 then
        (((encodeRecord s).length : Int),
          (growUntil alloc (s.length + 17) rounds b).2.put (encodeRecord s))
      else (-1, (growUntil alloc (s.length + 17) rounds b).2) := by
  have hwant : int32 (int32 (16 + (s.length : Int)) + 1) = s.length + 17 := by
    rw [int32_of_range (x := 16 + (s.length : Int)) (by omega) (by omega),
      int32_of_range (by omega) (by omega)]
    ring
  have hrecord : intBytes s.length ++ [10] ++ s ++ [10] = encodeRecord s := by
    rw [intBytes_ofNat]
    simp [encodeRecord]
  have hlen := length_encodeRecord_le hs
  simp only [appendRecord, int32_natCast (show s.length < 2 ^ 31 by omega), hwant,
    Int.toNat_natCast, List.take_length, hrecord]
  rw [int32_natCast (by omega)]

/-- `append` adds the bytes, or fails and leaves the content alone. -/
theorem Wf.append (h : b.Wf) (alloc : Int → Bool) {bs : Bytes} (hbs : bs.length < 2 ^ 31) :
    (b.append alloc bs).2.Wf ∧
      (b.append alloc bs).2.content =
        if (b.append alloc bs).1 = -1 then b.content else b.content ++ bs := by
  obtain ⟨n, heq, hle, hlt, hspace⟩ := h.growUntil alloc bs.length rounds
  have hwf := h.extend hle hlt
  rw [append_eq alloc hbs, heq]
  cases hgrow : (Buffer.growUntil alloc bs.length rounds b).1 with
  | false => exact ⟨hwf, rfl⟩
  | true =>
      simp only [if_true]
      rw [if_neg (by omega)]
      exact hwf.put (hspace hgrow)

/-- `append_record` adds the record, or fails and leaves the content alone. -/
theorem Wf.appendRecord (h : b.Wf) (alloc : Int → Bool) {s : Bytes}
    (hs : s.length + 17 < 2 ^ 31) :
    (b.appendRecord alloc s).2.Wf ∧
      (b.appendRecord alloc s).2.content =
        if (b.appendRecord alloc s).1 = -1 then b.content else b.content ++ encodeRecord s := by
  have hlen := length_encodeRecord_le hs
  obtain ⟨n, heq, hle, hlt, hspace⟩ := h.growUntil alloc (s.length + 17) rounds
  have hwf := h.extend hle hlt
  rw [appendRecord_eq alloc hs, heq]
  cases hgrow : (Buffer.growUntil alloc (s.length + 17) rounds b).1 with
  | false => exact ⟨hwf, rfl⟩
  | true =>
      have hroom := hspace hgrow
      simp only [if_true]
      rw [if_neg (by omega)]
      exact hwf.put (by omega)

end Buffer

end GeminiDB
