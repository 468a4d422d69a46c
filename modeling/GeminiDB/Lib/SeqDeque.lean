import Mathlib.Data.List.Basic
import Mathlib.Tactic.Linarith

/-!
# Deques with sequence numbers

A double-ended queue whose items carry consecutive sequence numbers. An empty
deque has no position of its own: the next push starts it again at a fixed
number. `get? s` reads the item with sequence number `s`, so that a map from
numbers to items represents the deque exactly when it agrees with `get?`.
-/

/-- The items in order and the sequence number of the first one. -/
structure SeqDeque (α : Type*) where
  first : ℕ
  items : List α
  deriving DecidableEq

namespace SeqDeque

variable {α : Type*}

def empty : SeqDeque α := ⟨0, []⟩

def get? (d : SeqDeque α) (s : ℕ) : Option α :=
  if d.first ≤ s then d.items[s - d.first]? else none

/-- The sequence number of the last item. -/
def last (d : SeqDeque α) : ℕ := d.first + d.items.length - 1

/-- The sequence number the next item gets at the front. -/
def nextFront (init : ℕ) (d : SeqDeque α) : ℕ := if d.items = [] then init else d.first - 1

/-- The sequence number the next item gets at the back. -/
def nextBack (init : ℕ) (d : SeqDeque α) : ℕ :=
  if d.items = [] then init else d.first + d.items.length

def pushFront (init : ℕ) (x : α) (d : SeqDeque α) : SeqDeque α :=
  ⟨d.nextFront init, x :: d.items⟩

def pushBack (init : ℕ) (x : α) (d : SeqDeque α) : SeqDeque α :=
  ⟨if d.items = [] then init else d.first, d.items ++ [x]⟩

def popFront (d : SeqDeque α) : SeqDeque α := ⟨d.first + 1, d.items.tail⟩

def popBack (d : SeqDeque α) : SeqDeque α := ⟨d.first, d.items.dropLast⟩

@[simp] theorem items_empty : (empty : SeqDeque α).items = [] := rfl

@[simp] theorem items_pushFront (init : ℕ) (x : α) (d : SeqDeque α) :
    (d.pushFront init x).items = x :: d.items := rfl

@[simp] theorem items_pushBack (init : ℕ) (x : α) (d : SeqDeque α) :
    (d.pushBack init x).items = d.items ++ [x] := rfl

@[simp] theorem items_popFront (d : SeqDeque α) : d.popFront.items = d.items.tail := rfl

@[simp] theorem items_popBack (d : SeqDeque α) : d.popBack.items = d.items.dropLast := rfl

theorem get?_of_nil {d : SeqDeque α} (h : d.items = []) (s : ℕ) : d.get? s = none := by
  simp [get?, h]

theorem get?_isSome_iff (d : SeqDeque α) (s : ℕ) :
    (d.get? s).isSome ↔ d.first ≤ s ∧ s < d.first + d.items.length := by
  by_cases h : d.first ≤ s
  · simp [get?, h]
    omega
  · simp [get?, h]

theorem get?_first {d : SeqDeque α} : d.get? d.first = d.items.head? := by
  simp [get?, List.head?_eq_getElem?]

theorem get?_last {d : SeqDeque α} (h : d.items ≠ []) : d.get? d.last = d.items.getLast? := by
  have hpos : 0 < d.items.length := List.length_pos_iff.mpr h
  have hle : d.first ≤ d.last := by
    unfold last
    omega
  have hsub : d.last - d.first = d.items.length - 1 := by
    unfold last
    omega
  rw [get?, if_pos hle, hsub, List.getLast?_eq_getElem?]

theorem get?_pushFront {init : ℕ} {d : SeqDeque α} (h : d.items ≠ [] → 0 < d.first) (x : α)
    (s : ℕ) :
    (d.pushFront init x).get? s = if s = d.nextFront init then some x else d.get? s := by
  by_cases hnil : d.items = []
  · rw [get?_of_nil hnil]
    by_cases hs : s = init
    · simp [get?, pushFront, nextFront, hnil, hs]
    · by_cases hle : init ≤ s
      · obtain ⟨k, rfl⟩ := Nat.exists_eq_add_of_lt (lt_of_le_of_ne hle (Ne.symm hs))
        have hsub : init + k + 1 - init = k + 1 := by omega
        simp [get?, pushFront, nextFront, hnil, hs, hle, hsub]
      · simp [get?, pushFront, nextFront, hnil, hs, hle]
  · have hpos := h hnil
    by_cases hs : s = d.first - 1
    · simp [get?, pushFront, nextFront, hnil, hs]
    · by_cases hle : d.first ≤ s
      · have hle' : d.first - 1 ≤ s := by omega
        have hsub : s - (d.first - 1) = (s - d.first) + 1 := by omega
        simp [get?, pushFront, nextFront, hnil, hs, hle, hle', hsub]
      · have hle' : ¬ d.first - 1 ≤ s := by omega
        simp [get?, pushFront, nextFront, hnil, hs, hle, hle']

theorem get?_pushBack {init : ℕ} (d : SeqDeque α) (x : α) (s : ℕ) :
    (d.pushBack init x).get? s = if s = d.nextBack init then some x else d.get? s := by
  by_cases hnil : d.items = []
  · rw [get?_of_nil hnil]
    by_cases hs : s = init
    · simp [get?, pushBack, nextBack, hnil, hs]
    · by_cases hle : init ≤ s
      · obtain ⟨k, rfl⟩ := Nat.exists_eq_add_of_lt (lt_of_le_of_ne hle (Ne.symm hs))
        have hsub : init + k + 1 - init = k + 1 := by omega
        simp [get?, pushBack, nextBack, hnil, hs, hle, hsub]
      · simp [get?, pushBack, nextBack, hnil, hs, hle]
  · by_cases hs : s = d.first + d.items.length
    · simp [get?, pushBack, nextBack, hnil, hs]
    · by_cases hle : d.first ≤ s
      · have hne : s - d.first ≠ d.items.length := by omega
        simp only [get?, pushBack, nextBack, hnil, hs, hle, if_true, if_false,
          List.getElem?_append]
        split
        · rfl
        · rename_i hlt
          have hbig : ¬ s - d.first - d.items.length < 1 := by omega
          simp [List.getElem?_eq_none (by omega : d.items.length ≤ s - d.first)]
          omega
      · simp [get?, pushBack, nextBack, hnil, hs, hle]

theorem get?_popFront (d : SeqDeque α) (s : ℕ) :
    d.popFront.get? s = if s = d.first then none else d.get? s := by
  by_cases hs : s = d.first
  · simp [get?, popFront, hs]
  · by_cases hle : d.first + 1 ≤ s
    · have hle' : d.first ≤ s := by omega
      have hsub : s - d.first = (s - (d.first + 1)) + 1 := by omega
      simp [get?, popFront, hs, hle, hle', hsub]
    · have hle' : ¬ d.first ≤ s := by omega
      simp [get?, popFront, hs, hle, hle']

theorem get?_popBack {d : SeqDeque α} (h : d.items ≠ []) (s : ℕ) :
    d.popBack.get? s = if s = d.last then none else d.get? s := by
  have hpos : 0 < d.items.length := List.length_pos_iff.mpr h
  by_cases hle : d.first ≤ s
  · by_cases hs : s = d.last
    · have hlast : d.last - d.first = d.items.length - 1 := by
        unfold last
        omega
      rw [if_pos hs, hs, get?, if_pos (hs ▸ hle)]
      simp only [popBack]
      rw [hlast]
      simp
    · have hne : s - d.first ≠ d.items.length - 1 := by
        unfold last at hs
        omega
      simp only [get?, popBack, hle, hs, if_true, if_false, List.getElem?_dropLast]
      split
      · rfl
      · rw [List.getElem?_eq_none]
        omega
  · have hs : s ≠ d.last := by
      unfold last
      omega
    simp [get?, popBack, hle, hs]

/-! ## Either end -/

inductive Side where
  | front
  | back
  deriving DecidableEq

/-- The sequence number of the item at an end. -/
def edge (d : SeqDeque α) : Side → ℕ
  | .front => d.first
  | .back => d.last

/-- The sequence number the next item gets at an end. -/
def next (init : ℕ) (d : SeqDeque α) : Side → ℕ
  | .front => d.nextFront init
  | .back => d.nextBack init

def push (init : ℕ) (x : α) (d : SeqDeque α) : Side → SeqDeque α
  | .front => d.pushFront init x
  | .back => d.pushBack init x

def pop (d : SeqDeque α) : Side → SeqDeque α
  | .front => d.popFront
  | .back => d.popBack

def peek (d : SeqDeque α) : Side → Option α
  | .front => d.items.head?
  | .back => d.items.getLast?

theorem get?_edge {d : SeqDeque α} (h : d.items ≠ []) (side : Side) :
    d.get? (d.edge side) = d.peek side := by
  cases side with
  | front => exact get?_first
  | back => exact get?_last h

theorem get?_push {init : ℕ} {d : SeqDeque α} (h : d.items ≠ [] → 0 < d.first) (x : α)
    (side : Side) (s : ℕ) :
    (d.push init x side).get? s = if s = d.next init side then some x else d.get? s := by
  cases side with
  | front => exact get?_pushFront h x s
  | back => exact get?_pushBack d x s

theorem get?_pop {d : SeqDeque α} (h : d.items ≠ []) (side : Side) (s : ℕ) :
    (d.pop side).get? s = if s = d.edge side then none else d.get? s := by
  cases side with
  | front => exact get?_popFront d s
  | back => exact get?_popBack h s

@[simp] theorem length_push (init : ℕ) (x : α) (d : SeqDeque α) (side : Side) :
    (d.push init x side).items.length = d.items.length + 1 := by
  cases side <;> simp [push]

@[simp] theorem length_pop (d : SeqDeque α) (side : Side) :
    (d.pop side).items.length = d.items.length - 1 := by
  cases side <;> simp [pop]

@[simp] theorem push_items_ne_nil (init : ℕ) (x : α) (d : SeqDeque α) (side : Side) :
    (d.push init x side).items ≠ [] := by
  cases side <;> simp [push]

/-- A list as seen from an end. -/
def Side.view : Side → List α → List α
  | .front, xs => xs
  | .back, xs => xs.reverse

@[simp] theorem Side.view_view (side : Side) (xs : List α) : side.view (side.view xs) = xs := by
  cases side <;> simp [Side.view]

@[simp] theorem Side.length_view (side : Side) (xs : List α) :
    (side.view xs).length = xs.length := by
  cases side <;> simp [Side.view]

theorem view_push (init : ℕ) (x : α) (d : SeqDeque α) (side : Side) :
    side.view (d.push init x side).items = x :: side.view d.items := by
  cases side <;> simp [Side.view, push]

theorem view_pop (d : SeqDeque α) (side : Side) :
    side.view (d.pop side).items = (side.view d.items).tail := by
  cases side <;> simp [Side.view, pop]

theorem peek_eq_head? (d : SeqDeque α) (side : Side) : d.peek side = (side.view d.items).head? := by
  cases side <;> simp [Side.view, peek]

/-- The list without its first `n` items from an end. -/
def Side.without (side : Side) (n : ℕ) (xs : List α) : List α := side.view ((side.view xs).drop n)

/-- The list after the items of `new` were added at an end one by one. -/
def Side.extend (side : Side) (new xs : List α) : List α := side.view (new.reverse ++ side.view xs)

theorem Side.length_extend (side : Side) (new xs : List α) :
    (side.extend new xs).length = xs.length + new.length := by
  simp [Side.extend, Nat.add_comm]

theorem Side.without_succ (side : Side) (n : ℕ) (d : SeqDeque α) :
    side.without (n + 1) d.items = side.without n (d.pop side).items := by
  rw [Side.without, Side.without, view_pop, List.drop_tail]

theorem extend_push (init : ℕ) (x : α) (d : SeqDeque α) (side : Side) (new : List α) :
    side.extend new (d.push init x side).items = side.extend (x :: new) d.items := by
  rw [Side.extend, view_push, Side.extend]
  simp

/-- Push several items one after another. -/
def pushAll (init : ℕ) (side : Side) (d : SeqDeque α) (new : List α) : SeqDeque α :=
  new.foldl (fun d x ↦ d.push init x side) d

@[simp] theorem pushAll_nil (init : ℕ) (side : Side) (d : SeqDeque α) :
    d.pushAll init side [] = d := rfl

@[simp] theorem pushAll_cons (init : ℕ) (side : Side) (d : SeqDeque α) (x : α) (new : List α) :
    d.pushAll init side (x :: new) = (d.push init x side).pushAll init side new := rfl

theorem ext_get? {d d' : SeqDeque α} (hlen : d.items.length = d'.items.length)
    (hfirst : d.items ≠ [] → d.first = d'.first)
    (hget : ∀ s, d.first ≤ s → s < d.first + d.items.length → d.get? s = d'.get? s) :
    d.items = d'.items := by
  apply List.ext_getElem? fun k ↦ ?_
  by_cases hk : k < d.items.length
  · have hstart := hfirst (List.length_pos_iff.mp (by omega))
    have := hget (d.first + k) (by omega) (by omega)
    simpa [get?, ← hstart] using this
  · rw [List.getElem?_eq_none (by omega), List.getElem?_eq_none (by omega)]

theorem peek_isSome (d : SeqDeque α) (side : Side) : (d.peek side).isSome ↔ d.items ≠ [] := by
  cases side <;> simp [peek]

theorem items_ne_nil_of_peek {d : SeqDeque α} {side : Side} {x : α} (h : d.peek side = some x) :
    d.items ≠ [] :=
  (d.peek_isSome side).mp (Option.isSome_iff_exists.mpr ⟨x, h⟩)

theorem peek_push (init : ℕ) (d : SeqDeque α) (x : α) (side side' : Side) :
    (d.push init x side').peek side =
      if side' = side ∨ d.items = [] then some x else d.peek side := by
  by_cases hnil : d.items = []
  · cases side <;> cases side' <;> simp [push, pushFront, pushBack, peek, hnil]
  · obtain ⟨y, ys, hitems⟩ := List.exists_cons_of_ne_nil hnil
    cases side <;> cases side' <;>
      simp [push, pushFront, pushBack, peek, hitems, List.getLast?_cons]

theorem pop_items_eq_nil (d : SeqDeque α) (side : Side) :
    (d.pop side).items = [] ↔ d.items.length ≤ 1 := by
  rw [← List.length_eq_zero_iff, length_pop]
  omega

/-- The sequence number the end item of a deque moves to by a pop. -/
def inner (d : SeqDeque α) : Side → ℕ
  | .front => d.first + 1
  | .back => d.last - 1

theorem edge_push {init : ℕ} {d : SeqDeque α} (h : d.items ≠ [] → 0 < d.first) (x : α)
    (side side' : Side) :
    (d.push init x side).edge side' =
      if side' = side ∨ d.items = [] then d.next init side else d.edge side' := by
  by_cases hnil : d.items = []
  · cases side <;> cases side' <;>
      simp [push, pushFront, pushBack, edge, next, nextFront, nextBack, last, hnil]
  · have hpos := h hnil
    have hlen : 0 < d.items.length := List.length_pos_iff.mpr hnil
    cases side <;> cases side' <;>
      simp [push, pushFront, pushBack, edge, next, nextFront, nextBack, last, hnil]
    omega

theorem edge_pop {d : SeqDeque α} (h : 2 ≤ d.items.length) (side side' : Side) :
    (d.pop side).edge side' = if side' = side then d.inner side else d.edge side' := by
  cases side <;> cases side' <;> simp [pop, popFront, popBack, edge, inner, last] <;> omega

/-- All sequence numbers in use lie strictly between two bounds. -/
def Within (lo hi : ℕ) (d : SeqDeque α) : Prop :=
  d.items ≠ [] → ∀ side, lo < d.edge side ∧ d.edge side < hi

theorem Within.length_lt {lo hi : ℕ} {d : SeqDeque α} (h : d.Within lo hi) (hpos : 0 < hi) :
    d.items.length < hi := by
  by_cases hnil : d.items = []
  · simpa [hnil] using hpos
  · have hfront := h hnil .front
    have hback := h hnil .back
    simp only [edge, last] at hfront hback
    omega

theorem Within.push {lo hi init : ℕ} {d : SeqDeque α} (h : d.Within lo hi) (x : α) {side : Side}
    (hlo : lo < d.next init side) (hhi : d.next init side < hi) :
    (d.push init x side).Within lo hi := by
  intro _ side'
  rw [edge_push fun hne ↦ by have := h hne .front; simp only [edge] at this; omega]
  split
  · exact ⟨hlo, hhi⟩
  · next hne => exact h (fun hnil ↦ hne (Or.inr hnil)) side'

theorem Within.pop {lo hi : ℕ} {d : SeqDeque α} (h : d.Within lo hi) (side : Side) :
    (d.pop side).Within lo hi := by
  intro hne side'
  have hlen : 2 ≤ d.items.length := by
    have hpos := List.length_pos_iff.mpr hne
    rw [length_pop] at hpos
    omega
  have hnil : d.items ≠ [] := by
    rintro hnil
    simp [hnil] at hlen
  have hfront := h hnil .front
  have hback := h hnil .back
  rw [edge_pop hlen]
  cases side <;> cases side' <;> simp [edge, inner, last] at * <;> omega

end SeqDeque
