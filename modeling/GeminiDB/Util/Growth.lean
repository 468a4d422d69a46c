import Mathlib.Logic.Relation
import GeminiDB.Util.Buffer

/-!
# Growing a buffer

Which sizes an allocation can be grown to, and that an append succeeds just when
one of them is large enough.
-/

namespace GeminiDB

open Memory

namespace Buffer

/-- A call of `grow` that succeeds. -/
def GrowsTo (alloc : Int → Bool) (total n : Int) : Prop :=
  n = grown total ∧ 0 ≤ n ∧ alloc n = true

/-- Growing reaches a size of at least `need`. -/
def CanHold (alloc : Int → Bool) (total need : Int) : Prop :=
  ∃ n, Relation.ReflTransGen (GrowsTo alloc) total n ∧ need ≤ n

variable {alloc : Int → Bool} {b : Buffer}

theorem GrowsTo.lt {total n : Int} (h : GrowsTo alloc total n) (hpos : 0 < total)
    (hlt : total < 2147483648) : total < n ∧ n < 2147483648 := by
  obtain ⟨rfl, hn, -⟩ := h
  unfold grown int32 at hn ⊢
  split_ifs at hn ⊢ <;> omega

theorem reaches_range {total n : Int} (h : Relation.ReflTransGen (GrowsTo alloc) total n)
    (hpos : 0 < total) (hlt : total < 2147483648) : total ≤ n ∧ n < 2147483648 := by
  induction h with
  | refl => exact ⟨le_rfl, hlt⟩
  | tail _ hstep ih =>
      have := hstep.lt (hpos.trans_le ih.1) ih.2
      exact ⟨ih.1.trans this.1.le, this.2⟩

theorem grow_of_growsTo {n : Int} (h : GrowsTo alloc b.total n) :
    b.grow alloc = (n, { b with total := n }) := by
  obtain ⟨rfl, hn, halloc⟩ := h
  rw [grow, if_neg (by simp [halloc, hn])]

theorem grow_cases (alloc : Int → Bool) (b : Buffer) :
    b.grow alloc = (-1, b) ∨ ∃ n, GrowsTo alloc b.total n ∧
      b.grow alloc = (n, { b with total := n }) := by
  by_cases h : grown b.total < 0 ∨ alloc (grown b.total) = false
  · exact .inl (by rw [grow, if_pos h])
  · simp only [not_or, not_lt, Bool.not_eq_false] at h
    exact .inr ⟨_, ⟨rfl, h⟩, grow_of_growsTo ⟨rfl, h⟩⟩

/-- `growUntil` only grows. -/
theorem growUntil_reaches (alloc : Int → Bool) (size : Int) (k : ℕ) (b : Buffer) :
    Relation.ReflTransGen (GrowsTo alloc) b.total (growUntil alloc size k b).2.total := by
  induction k generalizing b with
  | zero => exact .refl
  | succ k ih =>
      rw [growUntil]
      split
      · rcases grow_cases alloc b with hgrow | ⟨n, hn, hgrow⟩
        · rw [hgrow]
          exact .refl
        · rw [hgrow]
          simp only
          rw [if_neg (by have := hn.2.1; omega)]
          exact .head hn (ih { b with total := n })
      · exact .refl

theorem append_reaches (alloc : Int → Bool) (bs : Bytes) (b : Buffer) :
    Relation.ReflTransGen (GrowsTo alloc) b.total (b.append alloc bs).2.total := by
  have hgrow := growUntil_reaches alloc (int32 bs.length) rounds b
  suffices (b.append alloc bs).2.total = (growUntil alloc (int32 bs.length) rounds b).2.total by
    rwa [this]
  simp only [append]
  generalize growUntil alloc (int32 bs.length) rounds b = r
  obtain ⟨success, output⟩ := r
  cases success with
  | false => rfl
  | true => rw [if_pos rfl, total_put]

theorem appendRecord_reaches (alloc : Int → Bool) (s : Bytes) (b : Buffer) :
    Relation.ReflTransGen (GrowsTo alloc) b.total (b.appendRecord alloc s).2.total := by
  have hgrow := growUntil_reaches alloc (int32 (int32 (16 + int32 s.length) + 1)) rounds b
  suffices (b.appendRecord alloc s).2.total =
      (growUntil alloc (int32 (int32 (16 + int32 s.length) + 1)) rounds b).2.total by
    rwa [this]
  simp only [appendRecord]
  generalize growUntil alloc (int32 (int32 (16 + int32 s.length) + 1)) rounds b = r
  obtain ⟨success, output⟩ := r
  cases success with
  | false => rfl
  | true => rw [if_pos rfl, total_put]

/-- More rounds do not change a success. -/
theorem growUntil_mono {size : Int} {k : ℕ} (h : (growUntil alloc size k b).1 = true) (j : ℕ) :
    growUntil alloc size (k + j) b = growUntil alloc size k b := by
  induction k generalizing b with
  | zero => cases h
  | succ k ih =>
      rw [show k + 1 + j = k + j + 1 by omega]
      rw [growUntil] at h ⊢
      rw [growUntil]
      split
      · next hspace =>
        rw [if_pos hspace] at h
        simp only at h ⊢
        split
        · rfl
        · next hgrow =>
          rw [if_neg hgrow] at h
          exact ih h
      · rfl

theorem Wf.growUntil_of_reaches (h : b.Wf) {size n : Int}
    (hn : Relation.ReflTransGen (GrowsTo alloc) b.total n) (hsize : b.data + b.size + size ≤ n) :
    ∃ k, (Buffer.growUntil alloc size k b).1 = true := by
  suffices ∀ t, Relation.ReflTransGen (GrowsTo alloc) t n → b.total ≤ t → t < 2147483648 →
      ∃ k, (Buffer.growUntil alloc size k { b with total := t }).1 = true from
    this b.total hn le_rfl h.total
  intro t ht
  induction ht using Relation.ReflTransGen.head_induction_on with
  | refl =>
      intro hle hlt
      have hspace := (h.extend hle hlt).space_eq
      simp only at hspace
      refine ⟨1, ?_⟩
      rw [Buffer.growUntil, if_neg (by omega)]
  | head hstep _ ih =>
      intro hle hlt
      have hpos := h.pos
      obtain ⟨hmore, hmax⟩ := hstep.lt (by omega) hlt
      obtain ⟨k, hk⟩ := ih (by omega) hmax
      refine ⟨k + 1, ?_⟩
      rw [Buffer.growUntil]
      split
      · rw [@grow_of_growsTo alloc { b with total := _ } _ hstep]
        simp only
        rw [if_neg (by omega)]
        exact hk
      · rfl

/-- `growUntil` succeeds just when the allocation can be grown far enough. -/
theorem Wf.growUntil_iff (h : b.Wf) (alloc : Int → Bool) (size : Int) :
    (Buffer.growUntil alloc size rounds b).1 = true ↔
      CanHold alloc b.total (b.data + b.size + size) := by
  constructor
  · intro hgrow
    obtain ⟨n, heq, hle, hlt, hspace⟩ := h.growUntil alloc size rounds
    have hreach := growUntil_reaches alloc size rounds b
    have hroom := hspace hgrow
    rw [(h.extend hle hlt).space_eq] at hroom
    rw [heq] at hreach
    exact ⟨n, hreach, by simp only at hroom; omega⟩
  · rintro ⟨n, hn, hsize⟩
    obtain ⟨k, hk⟩ := h.growUntil_of_reaches hn hsize
    rw [← h.growUntil_ends alloc size k, Nat.add_comm, growUntil_mono hk]
    exact hk

/-! ## A series of appends

Each append has its own outcomes of `realloc`. Those that need no more than what is
allocated ask for nothing.
-/

/-- The first append that finds less than it needs in an allocation of `total` bytes. -/
def asker (needs : List Int) (total : Int) : ℕ := needs.findIdx fun need ↦ total < need

/-- A call of `grow` that succeeds, made by the append that asks for it. -/
def SeriesGrows (allocs : ℕ → Int → Bool) (needs : List Int) (total n : Int) : Prop :=
  GrowsTo (allocs (asker needs total)) total n

/-- Growing for one append after the other reaches a size that is enough for all. -/
def CanHoldAll (allocs : ℕ → Int → Bool) (needs : List Int) (total : Int) : Prop :=
  ∃ n, Relation.ReflTransGen (SeriesGrows allocs needs) total n ∧ ∀ need ∈ needs, need ≤ n

variable {allocs : ℕ → Int → Bool} {needs : List Int} {need total n : Int}

theorem asker_cons_lt (h : total < need) : asker (need :: needs) total = 0 := by
  simp [asker, List.findIdx_cons, h]

theorem asker_cons_le (h : need ≤ total) :
    asker (need :: needs) total = asker needs total + 1 := by
  simp [asker, List.findIdx_cons, not_lt.mpr h]

theorem SeriesGrows.anyone (h : SeriesGrows allocs needs total n) :
    GrowsTo (fun _ ↦ true) total n := ⟨h.1, h.2.1, rfl⟩

theorem series_range (h : Relation.ReflTransGen (SeriesGrows allocs needs) total n)
    (hpos : 0 < total) (hlt : total < 2147483648) : total ≤ n ∧ n < 2147483648 :=
  reaches_range (Relation.ReflTransGen.mono (fun _ _ hstep ↦ hstep.anyone) _ _ h) hpos hlt

/-- The growth that one append asks for, which ends as soon as there is enough. -/
def GrowsFor (alloc : Int → Bool) (need total n : Int) : Prop :=
  total < need ∧ GrowsTo alloc total n

theorem CanHold.least (h : CanHold alloc total need) :
    ∃ n, Relation.ReflTransGen (GrowsFor alloc need) total n ∧ need ≤ n := by
  obtain ⟨n, hn, hneed⟩ := h
  induction hn using Relation.ReflTransGen.head_induction_on with
  | refl => exact ⟨n, .refl, hneed⟩
  | @head total m hstep _ ih =>
      by_cases hle : need ≤ total
      · exact ⟨total, .refl, hle⟩
      · obtain ⟨n, hn, hneed⟩ := ih
        exact ⟨n, .head ⟨not_le.mp hle, hstep⟩ hn, hneed⟩

theorem GrowsFor.series (h : GrowsFor (allocs 0) need total n) :
    SeriesGrows allocs (need :: needs) total n := by
  rw [SeriesGrows, asker_cons_lt h.1]
  exact h.2

/-- A series can be held when its first append finds room and the others can be held
from the allocation it leaves. -/
theorem canHoldAll_cons (hpos : 0 < total) (hlt : total < 2147483648)
    (hn : Relation.ReflTransGen (GrowsFor (allocs 0) need) total n) (hneed : need ≤ n) :
    CanHoldAll allocs (need :: needs) total ↔ CanHoldAll (fun i ↦ allocs (i + 1)) needs n := by
  have hfirst : Relation.ReflTransGen (SeriesGrows allocs (need :: needs)) total n :=
    Relation.ReflTransGen.mono (fun _ _ hstep ↦ hstep.series) _ _ hn
  have hrange := series_range hfirst hpos hlt
  -- from `n` on the first append asks for nothing
  have hlater {m k : Int} (hm : n ≤ m) : SeriesGrows allocs (need :: needs) m k ↔
      SeriesGrows (fun i ↦ allocs (i + 1)) needs m k := by
    rw [SeriesGrows, asker_cons_le (hneed.trans hm), SeriesGrows]
  constructor
  · rintro ⟨m, hm, hall⟩
    have hunique : Relator.RightUnique (SeriesGrows allocs (need :: needs)) :=
      fun _ _ _ h h' ↦ h.1.trans h'.1.symm
    rcases Relation.ReflTransGen.total_of_right_unique hunique hfirst hm with hnm | hmn
    · refine ⟨m, ?_, fun r hr ↦ hall r (List.mem_cons_of_mem _ hr)⟩
      clear hm hall
      induction hnm with
      | refl => exact .refl
      | tail hbefore hstep ih =>
          have hle := (series_range hbefore (hpos.trans_le hrange.1) hrange.2).1
          exact ih.tail ((hlater hle).mp hstep)
    · have hm := series_range hm hpos hlt
      have hle := (series_range hmn (hpos.trans_le hm.1) hm.2).1
      exact ⟨n, .refl, fun r hr ↦ (hall r (List.mem_cons_of_mem _ hr)).trans hle⟩
  · rintro ⟨m, hm, hall⟩
    have hsame : Relation.ReflTransGen (SeriesGrows allocs (need :: needs)) n m := by
      clear hall
      induction hm with
      | refl => exact .refl
      | tail hbefore hstep ih =>
          have hle := (series_range hbefore (hpos.trans_le hrange.1) hrange.2).1
          exact ih.tail ((hlater hle).mpr hstep)
    have hend := (series_range hm (hpos.trans_le hrange.1) hrange.2).1
    refine ⟨m, hfirst.trans hsame, fun r hr ↦ ?_⟩
    rcases List.mem_cons.mp hr with rfl | hr
    · exact hneed.trans hend
    · exact hall r hr

/-- The first append of a series that can be held finds room. -/
theorem CanHoldAll.first (h : CanHoldAll allocs (need :: needs) total) :
    CanHold (allocs 0) total need := by
  obtain ⟨n, hn, hall⟩ := h
  induction hn using Relation.ReflTransGen.head_induction_on with
  | refl => exact ⟨n, .refl, hall need List.mem_cons_self⟩
  | @head total m hstep _ ih =>
      by_cases hle : need ≤ total
      · exact ⟨total, .refl, hle⟩
      · obtain ⟨k, hk, hneed⟩ := ih
        rw [SeriesGrows, asker_cons_lt (not_le.mp hle)] at hstep
        exact ⟨k, .head hstep hk, hneed⟩

theorem canHoldAll_nil : CanHoldAll allocs [] total :=
  ⟨total, .refl, fun _ hr ↦ by cases hr⟩

/-- `growUntil` grows no further than it has to. -/
theorem Wf.growUntil_growsFor (h : b.Wf) (alloc : Int → Bool) (size : Int) (k : ℕ) :
    Relation.ReflTransGen (GrowsFor alloc (b.data + b.size + size)) b.total
      (Buffer.growUntil alloc size k b).2.total := by
  induction k generalizing b with
  | zero => exact .refl
  | succ k ih =>
      rw [Buffer.growUntil]
      split
      · next hspace =>
        rcases grow_cases alloc b with hgrow | ⟨n, hn, hgrow⟩
        · rw [hgrow]
          exact .refl
        · have hless := hn.lt h.pos h.total
          rw [h.space_eq] at hspace
          rw [hgrow]
          simp only
          rw [if_neg (by have := hn.2.1; omega)]
          exact .head ⟨by omega, hn⟩ (ih (h.extend hless.1.le hless.2))
      · exact .refl

end Buffer

end GeminiDB
