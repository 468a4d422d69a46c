import GeminiDB.Lib.Machine
import Mathlib.Data.List.GetD
import Mathlib.Logic.Function.Basic
import Mathlib.Order.Nat

/-!
# The events table (`net/fde.h`, `net/fde.cpp`)

`Fdevents` keeps one `Fdevent` object for each descriptor, made when the
descriptor is first seen. The kernel is handed pointers to these objects, so
that the objects live in a heap of their own and the table holds addresses.
-/

namespace GeminiDB

/-- An `int` used as a set of bits. -/
abbrev Flags := BitVec 32

def fdeventNone : Flags := 0
def fdeventIn : Flags := 1
def fdeventOut : Flags := 4
def fdeventErr : Flags := 16

/-! ## Sets of bits -/

namespace Flags

variable {x y z : Flags}

theorem or_and_right : (x ||| y) &&& y = y := by
  rw [BitVec.and_or_distrib_right, BitVec.and_self]
  exact BitVec.eq_of_getElem_eq fun i hi ↦ by simp

theorem or_and_of_disjoint (h : y &&& z = 0) : (x ||| y) &&& z = x &&& z := by
  rw [BitVec.and_or_distrib_right, h]
  simp

theorem and_not_and_right : (x &&& ~~~y) &&& y = 0 := by
  rw [BitVec.and_assoc, BitVec.and_comm (~~~y), BitVec.and_not_self]
  simp

theorem and_not_eq (h : x &&& y = 0) : x &&& ~~~y = x := by
  apply BitVec.eq_of_getElem_eq
  intro i hi
  have hbit := congrArg (fun v : Flags ↦ v[i]) h
  simp only [BitVec.getElem_and] at hbit
  simp only [BitVec.getElem_and, BitVec.getElem_not]
  cases hy : y[i] <;> simp_all

theorem and_not_and_of_disjoint (h : y &&& z = 0) : (x &&& ~~~y) &&& z = x &&& z := by
  rw [BitVec.and_assoc, BitVec.and_comm (~~~y), and_not_eq]
  rwa [BitVec.and_comm]

theorem or_ne_zero (h : y ≠ 0) : x ||| y ≠ 0 := fun hzero ↦
  h (BitVec.or_eq_zero_iff.mp hzero).2

/-- A flag of one bit. -/
def Single (b : Flags) : Prop := ∃ i, i < 32 ∧ b = BitVec.twoPow 32 i

theorem single_in : Single fdeventIn := ⟨0, by decide, by decide⟩

theorem single_out : Single fdeventOut := ⟨2, by decide, by decide⟩

theorem Single.ne_zero {b : Flags} (h : Single b) : b ≠ 0 := by
  obtain ⟨i, hi, rfl⟩ := h
  intro hzero
  have hbit := congrArg (BitVec.getLsbD · i) hzero
  simp [hi] at hbit

theorem and_twoPow_ne_zero {i : ℕ} (hi : i < 32) :
    x &&& BitVec.twoPow 32 i ≠ 0 ↔ x.getLsbD i = true := by
  rw [BitVec.and_twoPow]
  split
  · exact iff_of_true (Single.ne_zero ⟨i, hi, rfl⟩) (by assumption)
  · exact iff_of_false (fun hne ↦ hne rfl) (by assumption)

theorem Single.or {b : Flags} (h : Single b) :
    (x ||| y) &&& b ≠ 0 ↔ x &&& b ≠ 0 ∨ y &&& b ≠ 0 := by
  obtain ⟨i, hi, rfl⟩ := h
  simp only [and_twoPow_ne_zero hi, BitVec.getLsbD_or, Bool.or_eq_true]

theorem Single.or_eq {b : Flags} (h : Single b) (hhas : x &&& b ≠ 0) : x ||| b = x := by
  obtain ⟨i, hi, rfl⟩ := h
  rw [and_twoPow_ne_zero hi] at hhas
  apply BitVec.eq_of_getLsbD_eq
  intro j hj
  rw [BitVec.getLsbD_or, BitVec.getLsbD_twoPow]
  by_cases heq : i = j
  · rw [← heq, hhas, Bool.true_or]
  · simp [heq]

theorem Single.and_not {b : Flags} (h : Single b) :
    (x &&& ~~~y) &&& b ≠ 0 ↔ x &&& b ≠ 0 ∧ ¬ y &&& b ≠ 0 := by
  obtain ⟨i, hi, rfl⟩ := h
  simp only [and_twoPow_ne_zero hi, BitVec.getLsbD_and, BitVec.getLsbD_not, hi]
  simp

end Flags

structure Fdevent where
  fd : ℕ
  /-- subscribed events -/
  sFlags : Flags
  /-- ready events -/
  events : Flags
  dataNum : Int
  dataPtr : ℕ

/-- The vector `events` and the objects it points to; `brk` is the next free address. -/
structure FdeTable where
  heap : ℕ → Fdevent
  brk : ℕ
  events : List ℕ

namespace FdeTable

/-- No object yet; address 0 is `NULL`. -/
def init : FdeTable := ⟨fun _ ↦ ⟨0, fdeventNone, fdeventNone, 0, 0⟩, 1, []⟩

def pushFde (t : FdeTable) : FdeTable where
  heap := Function.update t.heap t.brk ⟨t.events.length, fdeventNone, fdeventNone, 0, 0⟩
  brk := t.brk + 1
  events := t.events ++ [t.brk]

/-- The loop of `get_fde`, with a bound on its rounds. -/
def growFde (fd : ℕ) : ℕ → FdeTable → FdeTable
  | 0, t => t
  | k + 1, t => if t.events.length ≤ fd then growFde fd k t.pushFde else t

def getFde (fd : ℕ) (t : FdeTable) : ℕ × FdeTable :=
  let t' := t.growFde fd (fd + 1)
  (t'.events.getD fd 0, t')

/-- Store an object. -/
def write (p : ℕ) (fde : Fdevent) (t : FdeTable) : FdeTable :=
  { t with heap := Function.update t.heap p fde }

@[simp] theorem events_write (p : ℕ) (fde : Fdevent) (t : FdeTable) :
    (t.write p fde).events = t.events := rfl

@[simp] theorem heap_write_self (p : ℕ) (fde : Fdevent) (t : FdeTable) :
    (t.write p fde).heap p = fde := Function.update_self ..

theorem heap_write_of_ne {p q : ℕ} (h : q ≠ p) (fde : Fdevent) (t : FdeTable) :
    (t.write p fde).heap q = t.heap q := Function.update_of_ne h ..

/-- The object of a descriptor; one that was never seen has no flags and no data. -/
def look (t : FdeTable) (fd : ℕ) : Fdevent :=
  match t.events[fd]? with
  | none => ⟨fd, fdeventNone, fdeventNone, 0, 0⟩
  | some p => t.heap p

def sFlags (t : FdeTable) (fd : ℕ) : Flags := (t.look fd).sFlags

/-- The table leads from a descriptor to the object with its number. -/
structure Wf (t : FdeTable) : Prop where
  fresh : ∀ {fd p : ℕ}, t.events[fd]? = some p → p < t.brk
  own : ∀ {fd p : ℕ}, t.events[fd]? = some p → (t.heap p).fd = fd

variable {t : FdeTable}

theorem wf_init : init.Wf := ⟨fun h ↦ by simp [init] at h, fun h ↦ by simp [init] at h⟩

theorem sFlags_init (fd : ℕ) : init.sFlags fd = 0 := rfl

theorem look_eq {fd p : ℕ} (hp : t.events[fd]? = some p) : t.look fd = t.heap p := by
  rw [look, hp]

theorem sFlags_eq {fd p : ℕ} (hp : t.events[fd]? = some p) : t.sFlags fd = (t.heap p).sFlags :=
  congrArg Fdevent.sFlags (look_eq hp)

/-- A new object disturbs no other one. -/
theorem Wf.pushFde (h : t.Wf) : t.pushFde.Wf ∧ t.pushFde.look = t.look := by
  have hold {fd p : ℕ} (hp : t.events[fd]? = some p) : t.pushFde.heap p = t.heap p :=
    Function.update_of_ne (h.fresh hp).ne _ _
  have hentry {fd p : ℕ} (hp : t.pushFde.events[fd]? = some p) :
      t.events[fd]? = some p ∨ t.events[fd]? = none ∧ fd = t.events.length ∧ p = t.brk := by
    rcases lt_trichotomy fd t.events.length with hlt | rfl | hgt
    · exact .inl (by rwa [FdeTable.pushFde, List.getElem?_append_left hlt] at hp)
    · exact .inr ⟨by simp, rfl, by simpa [FdeTable.pushFde, eq_comm] using hp⟩
    · have hnone : t.pushFde.events[fd]? = none :=
        List.getElem?_eq_none (by simp [FdeTable.pushFde]; omega)
      rw [hnone] at hp
      cases hp
  refine ⟨⟨fun hp ↦ ?_, fun hp ↦ ?_⟩, funext fun fd ↦ ?_⟩
  · rcases hentry hp with hp | ⟨-, -, rfl⟩
    · exact (h.fresh hp).trans (Nat.lt_succ_self _)
    · exact Nat.lt_succ_self _
  · rcases hentry hp with hp | ⟨-, rfl, rfl⟩
    · rw [hold hp]
      exact h.own hp
    · simp [FdeTable.pushFde]
  · rw [look, look]
    cases hp : t.pushFde.events[fd]? with
    | none =>
        have hnone : t.events[fd]? = none := by
          rw [List.getElem?_eq_none_iff] at hp ⊢
          simp [FdeTable.pushFde] at hp
          omega
        rw [hnone]
    | some p =>
        rcases hentry hp with hp | ⟨hnone, rfl, rfl⟩
        · rw [hp]
          exact hold hp
        · rw [hnone]
          simp [FdeTable.pushFde]

theorem Wf.growFde (h : t.Wf) (fd k : ℕ) :
    (t.growFde fd k).Wf ∧ (t.growFde fd k).look = t.look ∧
      t.events <+: (t.growFde fd k).events ∧
        (fd < t.events.length + k → fd < (t.growFde fd k).events.length) := by
  induction k generalizing t with
  | zero => exact ⟨h, rfl, List.prefix_rfl, fun hlt ↦ hlt⟩
  | succ k ih =>
      rw [FdeTable.growFde]
      split
      · obtain ⟨hwf, hlook⟩ := h.pushFde
        obtain ⟨hwf', hlook', hfront, hlength⟩ := ih hwf
        refine ⟨hwf', hlook'.trans hlook, (List.prefix_append _ _).trans hfront, fun hlt ↦ ?_⟩
        apply hlength
        simp [FdeTable.pushFde]
        omega
      · exact ⟨h, rfl, List.prefix_rfl, fun _ ↦ by omega⟩

/-- `get_fde` returns the object of the descriptor and changes none. -/
theorem Wf.getFde (h : t.Wf) (fd : ℕ) :
    (t.getFde fd).2.Wf ∧ (t.getFde fd).2.look = t.look ∧
      t.events <+: (t.getFde fd).2.events ∧
        (t.getFde fd).2.events[fd]? = some (t.getFde fd).1 := by
  obtain ⟨hwf, hlook, hfront, hlength⟩ := h.growFde fd (fd + 1)
  have hlt := hlength (by omega)
  refine ⟨hwf, hlook, hfront, ?_⟩
  rw [FdeTable.getFde, List.getElem?_eq_getElem hlt]
  exact congrArg some (List.getD_eq_getElem _ _ hlt).symm

theorem Wf.heap_getFde (h : t.Wf) (fd : ℕ) :
    (t.getFde fd).2.heap (t.getFde fd).1 = t.look fd ∧ (t.look fd).fd = fd := by
  obtain ⟨hwf, hlook, -, hp⟩ := h.getFde fd
  rw [← hlook, look_eq hp]
  exact ⟨rfl, hwf.own hp⟩

theorem Wf.write (h : t.Wf) {fd p : ℕ} (hp : t.events[fd]? = some p) {fde : Fdevent}
    (hfd : fde.fd = fd) :
    (t.write p fde).Wf ∧ (t.write p fde).look = Function.update t.look fd fde := by
  have hother {fd' q : ℕ} (hq : t.events[fd']? = some q) (hne : fd' ≠ fd) :
      (t.write p fde).heap q = t.heap q := by
    refine heap_write_of_ne (fun heq ↦ hne ?_) fde t
    rw [← h.own hq, ← h.own hp, heq]
  refine ⟨⟨h.fresh, fun {fd' q} hq ↦ ?_⟩, funext fun fd' ↦ ?_⟩
  · by_cases heq : fd' = fd
    · subst heq
      obtain rfl : p = q := Option.some.inj (hp.symm.trans hq)
      rw [heap_write_self, hfd]
    · rw [hother hq heq]
      exact h.own hq
  · by_cases heq : fd' = fd
    · subst heq
      rw [Function.update_self, look, events_write, hp]
      exact heap_write_self p fde t
    · rw [Function.update_of_ne heq, look, look, events_write]
      cases hq : t.events[fd']? with
      | none => rfl
      | some q => exact hother hq heq

theorem sFlags_update {f : ℕ → Fdevent} {fd : ℕ} {fde : Fdevent}
    (h : t.look = Function.update f fd fde) :
    t.sFlags = Function.update (fun i ↦ (f i).sFlags) fd fde.sFlags := by
  apply funext
  intro i
  rw [sFlags, h]
  by_cases heq : i = fd
  · rw [heq, Function.update_self, Function.update_self]
  · rw [Function.update_of_ne heq, Function.update_of_ne heq]

theorem Wf.change (h : t.Wf) {fd : ℕ} {fde : Fdevent} (hfd : fde.fd = fd) :
    ((t.getFde fd).2.write (t.getFde fd).1 fde).Wf ∧
      ((t.getFde fd).2.write (t.getFde fd).1 fde).look = Function.update t.look fd fde ∧
      t.events <+: ((t.getFde fd).2.write (t.getFde fd).1 fde).events := by
  obtain ⟨hwf, hlook, hfront, hp⟩ := h.getFde fd
  obtain ⟨hwf', hlook'⟩ := hwf.write hp hfd
  exact ⟨hwf', hlook ▸ hlook', hfront⟩

end FdeTable

end GeminiDB
