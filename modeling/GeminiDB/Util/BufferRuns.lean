import GeminiDB.Lib.Machine
import GeminiDB.Util.Buffer

/-!
# Runs of buffer operations (`bytes.h`, `bytes.cpp`)

Whatever its users do with a buffer, its live part stays within the allocation,
writes stay within the free space, and the growth loops end.
-/

namespace GeminiDB

open Machine Memory

namespace Buffer

/-- The calls on a buffer, with what `realloc` answers in them. -/
inductive Op where
  | incr (num : ℕ)
  | decr (num : ℕ)
  | nice
  | grow (alloc : Int → Bool)
  | append (alloc : Int → Bool) (bs : Bytes)
  | appendRecord (alloc : Int → Bool) (s : Bytes)

/-- A call on a buffer. Bytes are only taken in where there is space and dropped where
there are some, and no chunk exceeds 2^30 bytes. -/
def step (b : Buffer) : Op → Option Buffer
  | .incr num => if num ≤ b.space then some (b.incr num) else none
  | .decr num => if num ≤ b.size then some (b.decr num) else none
  | .nice => some b.nice
  | .grow alloc => some (b.grow alloc).2
  | .append alloc bs => if bs.length ≤ 2 ^ 30 then some (b.append alloc bs).2 else none
  | .appendRecord alloc s => if s.length ≤ 2 ^ 30 then some (b.appendRecord alloc s).2 else none

/-- The run of `while(size > space()) if(grow() == -1) return -1;` from a buffer, and
what it ends with. -/
inductive GrowLoop (alloc : Int → Bool) (size : Int) : Buffer → Bool × Buffer → Prop
  | enough (b : Buffer) (hspace : size ≤ b.space) : GrowLoop alloc size b (true, b)
  | fails (b : Buffer) (hspace : b.space < size) (hgrow : (b.grow alloc).1 = -1) :
      GrowLoop alloc size b (false, (b.grow alloc).2)
  | again (b : Buffer) (r : Bool × Buffer) (hspace : b.space < size)
      (hgrow : (b.grow alloc).1 ≠ -1) (hrest : GrowLoop alloc size (b.grow alloc).2 r) :
      GrowLoop alloc size b r

/-- `after` is `before` with bytes written to its slot, as many as fit. -/
def WritesSlot (before after : Buffer) : Prop :=
  (∃ bs : Bytes, after = before.put bs ∧ bs.length ≤ before.space) ∧
  ∀ i, i < before.slot ∨ before.slot + before.space ≤ i → after.mem i = before.mem i

variable {b : Buffer}

/-! ## Keeping the invariant -/

theorem Wf.incr (h : b.Wf) {num : ℕ} (hnum : num ≤ b.space) : (b.incr num).Wf := by
  rw [h.space_eq] at hnum
  obtain ⟨hdata, hsize, hfits, hpos, htotal⟩ := h
  have hnew : int32 (b.size + num) = b.size + num := int32_of_range (by omega) (by omega)
  exact ⟨hdata, by simp only [Buffer.incr, hnew]; omega, by simp only [Buffer.incr, hnew]; omega,
    hpos, htotal⟩

theorem Wf.step (h : b.Wf) {op : Op} {c : Buffer} (hstep : b.step op = some c) : c.Wf := by
  cases op with
  | incr num =>
      obtain ⟨hnum, heq⟩ := Option.ite_none_right_eq_some.mp hstep
      cases heq
      exact h.incr hnum
  | decr num =>
      obtain ⟨hnum, heq⟩ := Option.ite_none_right_eq_some.mp hstep
      have hlen := h.length_content
      cases heq
      exact (h.decr (by omega)).1
  | nice =>
      cases hstep
      exact h.nice
  | grow alloc =>
      cases hstep
      exact (h.grow_content alloc).1
  | append alloc bs =>
      obtain ⟨hbs, heq⟩ := Option.ite_none_right_eq_some.mp hstep
      cases heq
      exact (h.append alloc (by omega)).1
  | appendRecord alloc s =>
      obtain ⟨hs, heq⟩ := Option.ite_none_right_eq_some.mp hstep
      cases heq
      exact (h.appendRecord alloc (by omega)).1

theorem wf_of_reachable (h : Reachable step (new 8) b) : b.Wf :=
  h.invariant (wf_new (by decide) (by decide)) fun _ _ _ hs ht ↦ hs.step ht

/-! ## Growing -/

theorem grow_failed (alloc : Int → Bool) (b : Buffer) (h : (b.grow alloc).1 = -1) :
    (b.grow alloc).2 = b := by
  unfold Buffer.grow at h ⊢
  simp only at h ⊢
  split_ifs at h ⊢ with hn
  · rfl
  · exact absurd (Or.inl (by omega)) hn

theorem growLoop_succ {alloc : Int → Bool} {size : Int} {k : ℕ}
    (hrest : ∀ n, b.grow alloc = (n, { b with total := n }) → n ≠ -1 →
      GrowLoop alloc size { b with total := n } (growUntil alloc size k { b with total := n })) :
    GrowLoop alloc size b (growUntil alloc size (k + 1) b) := by
  rw [growUntil]
  by_cases hspace : size > b.space
  · rw [if_pos hspace]
    by_cases hfail : (b.grow alloc).1 = -1
    · simp only [hfail, if_true]
      exact .fails b hspace hfail
    · simp only [hfail, if_false]
      refine .again b _ hspace hfail ?_
      have hgrow : b.grow alloc = ((b.grow alloc).1, { b with total := (b.grow alloc).1 }) := by
        unfold Buffer.grow at hfail ⊢
        simp only at hfail ⊢
        split_ifs at hfail ⊢ with hn
        · exact absurd rfl hfail
        · rfl
      rw [hgrow]
      exact hrest _ hgrow hfail
  · rw [if_neg hspace]
    exact .enough b (not_lt.mp hspace)

/-- From 8192 bytes on the allocation at least doubles, so that few rounds are enough. -/
theorem Wf.growLoop_of_rounds (h : b.Wf) (hmin : 8192 ≤ b.total) (alloc : Int → Bool)
    (size : Int) {k : ℕ} (hk : 2147483648 ≤ b.total * 2 ^ k) :
    GrowLoop alloc size b (Buffer.growUntil alloc size k b) := by
  induction k generalizing b with
  | zero => exact absurd h.total (by simpa using hk)
  | succ k ih =>
      apply growLoop_succ
      intro n hn hne
      rcases h.grow alloc with hgrow | ⟨m, hgrow, hlt, hmax, hm, hdouble⟩
      · exact absurd (congrArg Prod.fst (hn.symm.trans hgrow)) hne
      · obtain rfl : n = m := congrArg Prod.fst (hn.symm.trans hgrow)
        apply ih (h.extend hlt.le hmax) hm
        calc (2147483648 : Int) ≤ b.total * 2 ^ (k + 1) := hk
          _ = 2 * b.total * 2 ^ k := by ring
          _ ≤ n * 2 ^ k :=
            Int.mul_le_mul_of_nonneg_right (hdouble hmin) (Int.pow_nonneg (by decide))

/-- The growth loop ends, with what `growUntil` computes. -/
theorem Wf.growLoop (h : b.Wf) (alloc : Int → Bool) (size : Int) :
    GrowLoop alloc size b (Buffer.growUntil alloc size rounds b) := by
  apply growLoop_succ
  intro n hn hne
  rcases h.grow alloc with hgrow | ⟨m, hgrow, hlt, hmax, hm, -⟩
  · exact absurd (congrArg Prod.fst (hn.symm.trans hgrow)) hne
  · obtain rfl : n = m := congrArg Prod.fst (hn.symm.trans hgrow)
    exact (h.extend hlt.le hmax).growLoop_of_rounds hm alloc size (by simp only; omega)

/-! ## Where bytes are written -/

/-- Moving the live bytes to the front writes to the first half only. -/
theorem Wf.mem_nice (h : b.Wf) {i : Int} (hi : b.total.tdiv 2 ≤ i) : b.nice.mem i = b.mem i := by
  have hfits := h.fits
  have hsize := h.size
  unfold Buffer.nice
  split
  · next hhalf =>
    rw [Int.tdiv_eq_ediv_of_nonneg h.pos.le] at hi hhalf
    simp only
    split
    · apply store_of_le b.mem _
      rw [length_slice]
      omega
    · rfl
  · rfl

theorem writesSlot_put {bs : Bytes} (hroom : bs.length ≤ b.space) :
    WritesSlot b (b.put bs) := by
  refine ⟨⟨bs, rfl, hroom⟩, fun i hi ↦ ?_⟩
  rcases hi with hlt | hle
  · exact store_of_lt b.mem hlt bs
  · exact store_of_le b.mem bs (by omega)

/-- What an append of `bs` does that asks for `size` bytes: it fails with nothing written,
or writes to the slot of the grown buffer. -/
def AppendsWithin (alloc : Int → Bool) (size : Int) (b : Buffer) (out : Int × Buffer) : Prop :=
  let r := growUntil alloc size rounds b
  (r.1 = false ∧ out = (-1, r.2)) ∨ (r.1 = true ∧ 0 ≤ out.1 ∧ WritesSlot r.2 out.2)

theorem Wf.appendsWithin (h : b.Wf) {alloc : Int → Bool} {size : Int} {bs : Bytes}
    (hbs : bs.length ≤ size) :
    AppendsWithin alloc size b
      (if (Buffer.growUntil alloc size rounds b).1 then
        ((bs.length : Int), (Buffer.growUntil alloc size rounds b).2.put bs)
      else (-1, (Buffer.growUntil alloc size rounds b).2)) := by
  obtain ⟨n, heq, hle, hlt, hspace⟩ := h.growUntil alloc size rounds
  cases hgrow : (Buffer.growUntil alloc size rounds b).1 with
  | false => exact .inl ⟨hgrow, rfl⟩
  | true =>
      refine .inr ⟨hgrow, by simp, ?_⟩
      simp only [if_true, heq]
      exact writesSlot_put (hbs.trans (hspace hgrow))

/-- The representation invariant of buffers. -/
theorem buffer_representation (h : Reachable step (new 8) b) :
    (0 ≤ b.data ∧ 0 ≤ b.size ∧ b.data + b.size ≤ b.total ∧ b.slot + b.space = b.total) ∧
    (∀ alloc bs, bs.length ≤ 2 ^ 30 →
      AppendsWithin alloc bs.length b (b.append alloc bs)) ∧
    (∀ alloc s, s.length ≤ 2 ^ 30 →
      AppendsWithin alloc (s.length + 17) b (b.appendRecord alloc s)) ∧
    (b.data > b.total.tdiv 2 → b.size ≤ b.data) ∧
    (∀ i, b.total.tdiv 2 ≤ i → b.nice.mem i = b.mem i) ∧
    (∀ alloc, (b.grow alloc).1 = -1 → (b.grow alloc).2 = b) ∧
    ∀ alloc size, GrowLoop alloc size b (growUntil alloc size rounds b) ∧
      ((growUntil alloc size rounds b).1 = true →
        size ≤ (growUntil alloc size rounds b).2.space) ∧
      ∃ n, b.total ≤ n ∧ (growUntil alloc size rounds b).2 = { b with total := n } := by
  have hwf := wf_of_reachable h
  refine ⟨⟨hwf.data, hwf.size, hwf.fits, ?_⟩, fun alloc bs hbs ↦ ?_, fun alloc s hs ↦ ?_,
    hwf.nice_disjoint, fun i ↦ hwf.mem_nice, fun alloc ↦ grow_failed alloc b,
    fun alloc size ↦ ?_⟩
  · rw [hwf.space_eq, slot]
    ring
  · rw [append_eq alloc (by omega)]
    exact hwf.appendsWithin le_rfl
  · have hlen := length_encodeRecord_le (s := s) (by omega)
    rw [appendRecord_eq alloc (by omega)]
    exact hwf.appendsWithin (by omega)
  · obtain ⟨n, heq, hle, -, hspace⟩ := hwf.growUntil alloc size rounds
    exact ⟨hwf.growLoop alloc size, fun hgrow ↦ by rw [heq]; exact hspace hgrow, n, hle, heq⟩

/-- A buffer that took in three bytes, of which two were consumed, fails to grow. -/
theorem buffer_representation_used :
    let b := (((new 8).append (fun _ ↦ true) [1, 2, 3]).2.decr 2)
    Reachable step (new 8) b ∧ b.data = 2 ∧ b.size = 1 ∧ (b.grow fun _ ↦ false).2 = b := by
  have happend : Reachable step (new 8) ((new 8).append (fun _ ↦ true) [1, 2, 3]).2 :=
    (Reachable.refl step (new 8)).step (a := .append (fun _ ↦ true) [1, 2, 3]) rfl
  have hdecr : Reachable step (new 8) (((new 8).append (fun _ ↦ true) [1, 2, 3]).2.decr 2) :=
    happend.step (a := .decr 2) (if_pos (by decide +kernel))
  exact ⟨hdecr, by decide +kernel, by decide +kernel,
    (buffer_representation hdecr).2.2.2.2.2.1 _ (by decide +kernel)⟩

end Buffer

end GeminiDB
