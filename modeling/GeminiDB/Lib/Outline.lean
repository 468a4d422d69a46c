import Mathlib.Data.List.Basic
import Mathlib.Order.Bounds.Basic
import Mathlib.Tactic.Ring

/-!
# Trees read from outlines

An outline lists the nodes of a tree in preorder, each with its level. Reading
it keeps a cursor on the last inner node: a node of level `d` is put below the
cursor's ancestor at depth `d`, a leaf without a level below the cursor itself.
A node's position is the list of child numbers that lead to it from the root.
-/

namespace Outline

variable {α : Type*}

inductive Rose (α : Type*) where
  | node (label : α) (children : List (Rose α))

namespace Rose

def label : Rose α → α
  | node a _ => a

def children : Rose α → List (Rose α)
  | node _ ts => ts

@[simp] theorem label_node (a : α) (ts : List (Rose α)) : (node a ts).label = a := rfl
@[simp] theorem children_node (a : α) (ts : List (Rose α)) : (node a ts).children = ts := rfl

mutual

/-- The nodes of the `m`-th child of the node at `pos`, in preorder. -/
def entries (pos : List ℕ) (m : ℕ) : Rose α → List (List ℕ × α)
  | node a ts => (pos ++ [m], a) :: entriesFrom (pos ++ [m]) 0 ts

/-- The nodes of the children of the node at `pos`, from the `m`-th on. -/
def entriesFrom (pos : List ℕ) (m : ℕ) : List (Rose α) → List (List ℕ × α)
  | [] => []
  | t :: ts => entries pos m t ++ entriesFrom pos (m + 1) ts

end

/-- The nodes below the root in preorder, with their positions. -/
def outline (t : Rose α) : List (List ℕ × α) := entriesFrom [] 0 t.children

theorem entriesFrom_append (pos : List ℕ) (m : ℕ) (ts us : List (Rose α)) :
    entriesFrom pos m (ts ++ us) = entriesFrom pos m ts ++ entriesFrom pos (m + ts.length) us := by
  induction ts generalizing m with
  | nil => rfl
  | cons t ts ih =>
      rw [List.cons_append, entriesFrom, entriesFrom, ih, List.append_assoc, List.length_cons,
        Nat.add_right_comm, Nat.add_assoc]

end Rose

open Rose

/-- A node with the children it has so far, and the nodes above it, the parent first, with
their children before this one. -/
structure Cursor (α : Type*) where
  label : α
  children : List (Rose α)
  above : List (α × List (Rose α))

/-- The tree around a subtree. -/
def plug (t : Rose α) : List (α × List (Rose α)) → Rose α
  | [] => t
  | (a, before) :: above => plug (node a (before ++ [t])) above

namespace Cursor

def start (a : α) : Cursor α := ⟨a, [], []⟩

/-- The whole tree. -/
def root (c : Cursor α) : Rose α := plug (node c.label c.children) c.above

def depth (c : Cursor α) : ℕ := c.above.length

def position (c : Cursor α) : List ℕ := (c.above.map fun frame ↦ frame.2.length).reverse

/-- To the parent, if there is one. -/
def up (c : Cursor α) : Cursor α :=
  match c.above with
  | [] => c
  | (a, before) :: above => ⟨a, before ++ [node c.label c.children], above⟩

def ups : ℕ → Cursor α → Cursor α
  | 0, c => c
  | n + 1, c => ups n c.up

/-- Add a leaf. -/
def add (a : α) (c : Cursor α) : Cursor α := { c with children := c.children ++ [node a []] }

/-- Add a child and go to it. -/
def enter (a : α) (c : Cursor α) : Cursor α := ⟨a, [], (c.label, c.children) :: c.above⟩

variable {c : Cursor α}

@[simp] theorem root_up (c : Cursor α) : c.up.root = c.root := by
  unfold up
  split
  · rfl
  · next a before above habove => rw [root, root, habove, plug]

@[simp] theorem root_ups (n : ℕ) (c : Cursor α) : (c.ups n).root = c.root := by
  induction n generalizing c with
  | zero => rfl
  | succ n ih => rw [ups, ih, root_up]

theorem root_enter (a : α) (c : Cursor α) : (c.enter a).root = (c.add a).root := rfl

@[simp] theorem length_position (c : Cursor α) : c.position.length = c.depth := by
  simp [position, depth]

theorem position_up (c : Cursor α) : c.up.position = c.position.dropLast := by
  unfold up
  split
  · next habove => simp [position, habove]
  · next a before above habove => simp [position, habove]

theorem position_ups (n : ℕ) (c : Cursor α) :
    (c.ups n).position = c.position.take (c.depth - n) := by
  induction n generalizing c with
  | zero => rw [ups, Nat.sub_zero, ← length_position, List.take_length]
  | succ n ih =>
      have hdepth : c.up.depth = c.depth - 1 := by
        rw [← length_position, position_up, List.length_dropLast, length_position]
      rw [ups, ih, position_up, hdepth, List.dropLast_eq_take, List.take_take, length_position]
      congr 1
      omega

theorem depth_ups (n : ℕ) (c : Cursor α) : (c.ups n).depth = c.depth - n := by
  rw [← length_position, position_ups, List.length_take, length_position]
  omega

/-- At the root there is no way up. -/
theorem ups_of_depth_eq_zero (h : c.depth = 0) (n : ℕ) : c.ups n = c := by
  induction n with
  | zero => rfl
  | succ n ih =>
      have hup : c.up = c := by rw [up, List.eq_nil_of_length_eq_zero h]
      rw [ups, hup, ih]

theorem ups_add (m n : ℕ) (c : Cursor α) : c.ups (m + n) = (c.ups m).ups n := by
  induction m generalizing c with
  | zero => rw [Nat.zero_add, ups]
  | succ m ih => rw [Nat.add_right_comm, ups, ih, ups]

/-- Going up by more than the depth ends at the root. -/
theorem ups_eq (n : ℕ) (c : Cursor α) : c.ups n = c.ups (c.depth - (c.depth - n)) := by
  by_cases hn : n ≤ c.depth
  · rw [Nat.sub_sub_self hn]
  · obtain ⟨m, rfl⟩ := Nat.exists_eq_add_of_le (Nat.le_of_not_le hn)
    have hroot : (c.ups c.depth).depth = 0 := by rw [depth_ups, Nat.sub_self]
    rw [ups_add, ups_of_depth_eq_zero hroot, show c.depth - (c.depth - (c.depth + m)) = c.depth by
      omega]

@[simp] theorem position_enter (a : α) (c : Cursor α) :
    (c.enter a).position = c.position ++ [c.children.length] := by
  simp [position, enter]

@[simp] theorem depth_enter (a : α) (c : Cursor α) : (c.enter a).depth = c.depth + 1 := rfl

@[simp] theorem position_add (a : α) (c : Cursor α) : (c.add a).position = c.position := rfl

@[simp] theorem depth_add (a : α) (c : Cursor α) : (c.add a).depth = c.depth := rfl

/-- The cursor's subtree comes last in the preorder. -/
theorem exists_outline_plug (a : α) (above : List (α × List (Rose α))) :
    ∃ pre, ∀ ts, (plug (node a ts) above).outline =
      pre ++ entriesFrom (above.map fun frame ↦ frame.2.length).reverse 0 ts := by
  induction above generalizing a with
  | nil => exact ⟨[], fun ts ↦ rfl⟩
  | cons frame above ih =>
      obtain ⟨b, before⟩ := frame
      obtain ⟨pre, hpre⟩ := ih b
      refine ⟨pre ++ entriesFrom (above.map fun frame ↦ frame.2.length).reverse 0 before ++
        [((above.map fun frame ↦ frame.2.length).reverse ++ [before.length], a)], fun ts ↦ ?_⟩
      rw [plug, hpre, entriesFrom_append]
      simp [entriesFrom, entries]

/-- A new child is the last node. -/
theorem outline_add (a : α) (c : Cursor α) :
    (c.add a).root.outline = c.root.outline ++ [(c.position ++ [c.children.length], a)] := by
  obtain ⟨pre, hpre⟩ := exists_outline_plug c.label c.above
  rw [root, root, add, hpre, hpre, entriesFrom_append]
  simp [entriesFrom, entries, position]

end Cursor

/-! ## Reading an outline -/

/-- A line of an outline. -/
inductive Step (α : Type*) where
  | leaf (a : α)
  | node (level : ℕ) (a : α)

namespace Step

def label : Step α → α
  | leaf a => a
  | node _ a => a

def level : Step α → Option ℕ
  | leaf _ => none
  | node d _ => some d

end Step

def Cursor.apply (c : Cursor α) : Step α → Cursor α
  | .leaf a => c.add a
  | .node d a => (c.ups (c.depth - d)).enter a

def build (c : Cursor α) (steps : List (Step α)) : Cursor α := steps.foldl Cursor.apply c

/-- Below a cursor at depth `n`, no node's level exceeds that of the node before it by
more than one. -/
def Nested : ℕ → List (Step α) → Prop
  | _, [] => True
  | n, .leaf _ :: steps => Nested n steps
  | n, .node d _ :: steps => d ≤ n ∧ Nested (d + 1) steps

def levelAt (steps : List (Step α)) (i : ℕ) : Option ℕ := steps[i]?.bind Step.level

/-- `j` is the nearest node of level `d` before the `i`-th line. -/
def Nearest (steps : List (Step α)) (i d j : ℕ) : Prop :=
  IsGreatest {j | j < i ∧ levelAt steps j = some d} j

/-- The lines of the outline are the nodes of the tree in preorder, and the parent of a node
of level `d + 1` is the nearest node of level `d` before it. -/
structure Reads (steps : List (Step α)) (t : Rose α) : Prop where
  labels : t.outline.map Prod.snd = steps.map Step.label
  node : ∀ i d a, steps[i]? = some (.node d a) →
    ∃ p n, p.length = d ∧ t.outline[i]? = some (p ++ [n], a) ∧
      ∀ m, d = m + 1 → ∃ j b, Nearest steps i m j ∧ t.outline[j]? = some (p, b)

theorem Reads.length {steps : List (Step α)} {t : Rose α} (h : Reads steps t) :
    t.outline.length = steps.length := by
  simpa using congrArg List.length h.labels

/-- The cursor's ancestors are the nearest nodes of their levels. -/
structure Tracks (steps : List (Step α)) (c : Cursor α) : Prop where
  reads : Reads steps c.root
  ancestors : ∀ m < c.depth, ∃ j b, Nearest steps steps.length m j ∧
    c.root.outline[j]? = some (c.position.take (m + 1), b)

section Reading

variable {steps : List (Step α)} {c : Cursor α}

theorem nearest_append {s : Step α} {i d j : ℕ} (hi : i ≤ steps.length) :
    Nearest (steps ++ [s]) i d j ↔ Nearest steps i d j := by
  have hset : {j | j < i ∧ levelAt (steps ++ [s]) j = some d} =
      {j | j < i ∧ levelAt steps j = some d} := by
    ext k
    apply and_congr_right
    intro hk
    rw [levelAt, List.getElem?_append_left (by omega), levelAt]
  rw [Nearest, hset, Nearest]

/-- A line of another level does not come nearer. -/
theorem nearest_succ {s : Step α} {d j : ℕ} (hs : s.level ≠ some d) :
    Nearest (steps ++ [s]) (steps.length + 1) d j ↔ Nearest steps steps.length d j := by
  rw [← nearest_append (s := s) le_rfl]
  have hset : {j | j < steps.length + 1 ∧ levelAt (steps ++ [s]) j = some d} =
      {j | j < steps.length ∧ levelAt (steps ++ [s]) j = some d} := by
    ext k
    simp only [Set.mem_ofPred_eq]
    constructor
    · rintro ⟨hk, hlevel⟩
      refine ⟨Nat.lt_of_le_of_ne (by omega) fun heq ↦ hs ?_, hlevel⟩
      simpa [levelAt, heq] using hlevel
    · rintro ⟨hk, hlevel⟩
      exact ⟨by omega, hlevel⟩
  rw [Nearest, hset, Nearest]

theorem nearest_last {d : ℕ} (a : α) :
    Nearest (steps ++ [.node d a]) (steps.length + 1) d steps.length := by
  refine ⟨⟨by omega, by simp [levelAt, Step.level]⟩, fun k hk ↦ ?_⟩
  have := hk.1
  omega

/-- A line that is added below `p` keeps what was read before. -/
theorem Reads.concat {t t' : Rose α} {s : Step α} {p : List ℕ} {n : ℕ} (h : Reads steps t)
    (houtline : t'.outline = t.outline ++ [(p ++ [n], s.label)])
    (hnode : ∀ d a, s = .node d a → p.length = d ∧
      ∀ m, d = m + 1 → ∃ j b, Nearest steps steps.length m j ∧ t.outline[j]? = some (p, b)) :
    Reads (steps ++ [s]) t' := by
  have hlen := h.length
  have hold {j : ℕ} {q : List ℕ} {b : α} (hj : t.outline[j]? = some (q, b)) :
      t'.outline[j]? = some (q, b) := by
    have hlt := (List.getElem?_eq_some_iff.mp hj).1
    rw [houtline, List.getElem?_append_left hlt, hj]
  refine ⟨?_, fun i d a hi ↦ ?_⟩
  · rw [houtline, List.map_append, List.map_append, h.labels]
    rfl
  · by_cases hlt : i < steps.length
    · rw [List.getElem?_append_left hlt] at hi
      obtain ⟨q, k, hq, hentry, hparent⟩ := h.node i d a hi
      refine ⟨q, k, hq, hold hentry, fun m hm ↦ ?_⟩
      obtain ⟨j, b, hnear, hj⟩ := hparent m hm
      exact ⟨j, b, (nearest_append (by omega)).mpr hnear, hold hj⟩
    · obtain rfl : i = steps.length := by
        have := (List.getElem?_eq_some_iff.mp hi).1
        rw [List.length_append, List.length_singleton] at this
        omega
      obtain rfl : s = .node d a := by simpa using hi
      obtain ⟨hp, hparent⟩ := hnode d a rfl
      refine ⟨p, n, hp, ?_, fun m hm ↦ ?_⟩
      · rw [houtline, ← hlen]
        simp [Step.label]
      · obtain ⟨j, b, hnear, hj⟩ := hparent m hm
        exact ⟨j, b, (nearest_append le_rfl).mpr hnear, hold hj⟩

theorem tracks_start (a : α) : Tracks [] (Cursor.start a) where
  reads := ⟨rfl, fun _ _ _ hi ↦ by cases hi⟩
  ancestors := fun m hm ↦ absurd hm (Nat.not_lt_zero m)

theorem Tracks.leaf (h : Tracks steps c) (a : α) : Tracks (steps ++ [.leaf a]) (c.add a) where
  reads := h.reads.concat (Cursor.outline_add a c) fun _ _ heq ↦ by cases heq
  ancestors := by
    intro m hm
    obtain ⟨j, b, hnear, hj⟩ := h.ancestors m hm
    refine ⟨j, b, ?_, ?_⟩
    · rw [List.length_append, List.length_singleton, nearest_succ (by simp [Step.level])]
      exact hnear
    · have hlt := (List.getElem?_eq_some_iff.mp hj).1
      rw [Cursor.outline_add, List.getElem?_append_left hlt, hj, Cursor.position_add]

theorem Tracks.node (h : Tracks steps c) {d : ℕ} (hd : d ≤ c.depth) (a : α) :
    Tracks (steps ++ [.node d a]) ((c.ups (c.depth - d)).enter a) := by
  have hposition : (c.ups (c.depth - d)).position = c.position.take d := by
    rw [Cursor.position_ups]
    congr 1
    omega
  have hlength : (c.position.take d).length = d := by
    rw [List.length_take, Cursor.length_position]
    omega
  have houtline : ((c.ups (c.depth - d)).enter a).root.outline = c.root.outline ++
      [(c.position.take d ++ [(c.ups (c.depth - d)).children.length], a)] := by
    rw [Cursor.root_enter, Cursor.outline_add, Cursor.root_ups, hposition]
  refine ⟨h.reads.concat houtline fun d' a' heq ↦ ?_, fun m hm ↦ ?_⟩
  · cases heq
    refine ⟨hlength, fun m hm ↦ ?_⟩
    rw [hm]
    exact h.ancestors m (by omega)
  · rw [Cursor.depth_enter, Cursor.depth_ups] at hm
    rw [Cursor.position_enter, hposition, List.length_append, List.length_singleton]
    by_cases hmd : m < d
    · obtain ⟨j, b, hnear, hj⟩ := h.ancestors m (by omega)
      have hlt := (List.getElem?_eq_some_iff.mp hj).1
      refine ⟨j, b, (nearest_succ (by simp [Step.level]; omega)).mpr hnear, ?_⟩
      rw [houtline, List.getElem?_append_left hlt, hj, List.take_append_of_le_length (by omega),
        List.take_take, Nat.min_eq_left (by omega)]
    · obtain rfl : m = d := by omega
      have hall (n : ℕ) : (c.position.take m ++ [n]).take (m + 1) = c.position.take m ++ [n] :=
        List.take_of_length_le (by rw [List.length_append, hlength, List.length_singleton])
      refine ⟨steps.length, a, nearest_last a, ?_⟩
      rw [houtline, List.getElem?_append_right (by rw [h.reads.length]), h.reads.length, hall]
      simp

/-- An outline whose levels are nested is read as the tree it stands for. -/
theorem Tracks.build {done : List (Step α)} (h : Tracks done c) (hnested : Nested c.depth steps) :
    Tracks (done ++ steps) (build c steps) := by
  induction steps generalizing done c with
  | nil => rwa [List.append_nil]
  | cons s steps ih =>
      cases s with
      | leaf a =>
          have hall := ih (h.leaf a) hnested
          rw [List.append_assoc] at hall
          exact hall
      | node d a =>
          obtain ⟨hd, hrest⟩ := hnested
          have hdepth : ((c.ups (c.depth - d)).enter a).depth = d + 1 := by
            rw [Cursor.depth_enter, Cursor.depth_ups]
            omega
          have hall := ih (h.node hd a) (by rwa [hdepth])
          rw [List.append_assoc] at hall
          exact hall

theorem reads_build (a : α) (hnested : Nested 0 steps) :
    Reads steps (Outline.build (Cursor.start a) steps).root := by
  simpa using ((tracks_start a).build hnested).reads

/-- The outline of a tree is unique, when labels tell leaves from nodes with a level. -/
theorem Reads.steps_eq {steps' : List (Step α)} {t : Rose α} {hasLevel : α → Prop}
    (h : Reads steps t) (h' : Reads steps' t)
    (hlevel : ∀ s ∈ steps, s.level.isSome ↔ hasLevel s.label)
    (hlevel' : ∀ s ∈ steps', s.level.isSome ↔ hasLevel s.label) : steps = steps' := by
  apply List.ext_getElem?
  intro i
  have hlabel := congrArg (fun l ↦ l[i]?) (h.labels.symm.trans h'.labels)
  simp only [List.getElem?_map] at hlabel
  cases hs : steps[i]? with
  | none =>
      rw [hs] at hlabel
      exact (Option.map_eq_none_iff.mp hlabel.symm).symm
  | some s =>
      rw [hs] at hlabel
      obtain ⟨s', hs', heq⟩ := Option.map_eq_some_iff.mp hlabel.symm
      have hkind := (hlevel s (List.mem_of_getElem? hs)).trans
        (heq ▸ (hlevel' s' (List.mem_of_getElem? hs')).symm)
      rw [hs']
      cases s with
      | leaf a =>
          cases s' with
          | leaf b => exact congrArg (fun c ↦ some (Step.leaf c)) heq.symm
          | node d b => simp [Step.level] at hkind
      | node d a =>
          cases s' with
          | leaf b => simp [Step.level] at hkind
          | node e b =>
              obtain ⟨p, n, hp, hout, -⟩ := h.node i d a hs
              obtain ⟨q, m, hq, hout', -⟩ := h'.node i e b hs'
              rw [hout] at hout'
              obtain ⟨hpos, rfl⟩ := Prod.mk.inj (Option.some.inj hout')
              obtain ⟨rfl, -⟩ := List.append_inj' hpos rfl
              rw [← hp, ← hq]

end Reading

end Outline
