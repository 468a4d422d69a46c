import GeminiDB.Lib.Outline

/-!
# Trees with keys

Children are looked up by a key in their labels, and the last child with the
key counts. Along paths such a tree is a map: altering the node at a path, with
the nodes that are missing on the way made up, changes no other path, when
missing nodes are read like the ones made up.
-/

namespace KeyTree

open Outline Rose

variable {α κ β : Type*} [DecidableEq κ]

section Children

variable (key : α → κ)

/-- The last child with a key. -/
def child? (k : κ) (t : Rose α) : Option (Rose α) :=
  t.children.reverse.find? fun u ↦ key u.label = k

/-- Alter the last tree with a key; `none` if there is none. -/
def alterLast (k : κ) (f : Rose α → Rose α) : List (Rose α) → Option (List (Rose α))
  | [] => none
  | t :: ts =>
      match alterLast k f ts with
      | some us => some (t :: us)
      | none => if key t.label = k then some (f t :: ts) else none

/-- Alter the last child with a key, or a new child. -/
def alterChild (fresh : κ → α) (k : κ) (f : Rose α → Rose α) (t : Rose α) : Rose α :=
  match alterLast key k f t.children with
  | some ts => node t.label ts
  | none => node t.label (t.children ++ [f (node (fresh k) [])])

/-- The node at a path. -/
def find : List κ → Rose α → Option (Rose α)
  | [], t => some t
  | k :: ks, t => (child? key k t).bind (find ks)

/-- Alter the node at a path. -/
def alter (fresh : κ → α) (f : Rose α → Rose α) : List κ → Rose α → Rose α
  | [], t => f t
  | k :: ks, t => alterChild key fresh k (alter fresh f ks) t

/-- What is read at a path. -/
def readAt (v : α → β) (missing : β) (ks : List κ) (t : Rose α) : β :=
  ((find key ks t).map fun u ↦ v u.label).getD missing

end Children

variable {key : α → κ} {fresh : κ → α} {f : Rose α → Rose α}

/-! ## One level -/

theorem alterLast_eq_none {k : κ} {ts : List (Rose α)} (h : alterLast key k f ts = none) :
    ts.reverse.find? (fun u ↦ key u.label = k) = none := by
  induction ts with
  | nil => rfl
  | cons t ts ih =>
      rw [alterLast] at h
      cases hrest : alterLast key k f ts with
      | some us => simp [hrest] at h
      | none =>
          by_cases ht : key t.label = k
          · simp [hrest, ht] at h
          · rw [List.reverse_cons, List.find?_append, ih hrest]
            simp [ht]

theorem alterLast_eq_some {k : κ} {ts us : List (Rose α)} (hf : ∀ t, key (f t).label = key t.label)
    (h : alterLast key k f ts = some us) :
    (∃ t, ts.reverse.find? (fun u ↦ key u.label = k) = some t ∧
      us.reverse.find? (fun u ↦ key u.label = k) = some (f t)) ∧
    ∀ q, q ≠ k → us.reverse.find? (fun u ↦ key u.label = q) =
      ts.reverse.find? fun u ↦ key u.label = q := by
  induction ts generalizing us with
  | nil => cases h
  | cons t ts ih =>
      rw [alterLast] at h
      cases hrest : alterLast key k f ts with
      | some vs =>
          obtain rfl : t :: vs = us := by simpa [hrest] using h
          obtain ⟨⟨u, hu, hfu⟩, hother⟩ := ih hrest
          refine ⟨⟨u, ?_, ?_⟩, fun q hq ↦ ?_⟩
          · rw [List.reverse_cons, List.find?_append, hu, Option.some_or]
          · rw [List.reverse_cons, List.find?_append, hfu, Option.some_or]
          · rw [List.reverse_cons, List.reverse_cons, List.find?_append, List.find?_append,
              hother q hq]
      | none =>
          have hnone := alterLast_eq_none hrest
          simp only [hrest, Option.ite_none_right_eq_some, Option.some.injEq] at h
          obtain ⟨ht, rfl⟩ := h
          refine ⟨⟨t, ?_, ?_⟩, fun q hq ↦ ?_⟩
          · rw [List.reverse_cons, List.find?_append, hnone]
            simp [ht]
          · rw [List.reverse_cons, List.find?_append, hnone]
            simp [hf, ht]
          · rw [List.reverse_cons, List.reverse_cons, List.find?_append, List.find?_append]
            simp [hf, ht, Ne.symm hq]

theorem label_alterChild (k : κ) (t : Rose α) :
    (alterChild key fresh k f t).label = t.label := by
  unfold alterChild
  split <;> rfl

theorem label_alter (hf : ∀ t, key (f t).label = key t.label) (ks : List κ) (t : Rose α) :
    key (alter key fresh f ks t).label = key t.label := by
  cases ks with
  | nil => exact hf t
  | cons k ks => rw [alter, label_alterChild]

section Alter

variable (hfresh : ∀ k, key (fresh k) = k)

include hfresh

theorem child?_alterChild_self (k : κ) (hf : ∀ t, key (f t).label = key t.label) (t : Rose α) :
    child? key k (alterChild key fresh k f t) =
      some (f ((child? key k t).getD (node (fresh k) []))) := by
  unfold alterChild child?
  cases hts : alterLast key k f t.children with
  | some ts =>
      obtain ⟨⟨u, hu, hfu⟩, -⟩ := alterLast_eq_some hf hts
      rw [hu]
      exact hfu
  | none =>
      rw [alterLast_eq_none hts]
      simp [hf, hfresh]

theorem child?_alterChild_ne {k q : κ} (hq : q ≠ k) (hf : ∀ t, key (f t).label = key t.label)
    (t : Rose α) : child? key q (alterChild key fresh k f t) = child? key q t := by
  unfold alterChild child?
  cases hts : alterLast key k f t.children with
  | some ts => exact (alterLast_eq_some hf hts).2 q hq
  | none => simp [hf, hfresh, Ne.symm hq]

/-! ## Paths -/

/-- The node that was altered, or made up, is found at its path. -/
theorem find_alter_self (hf : ∀ t, key (f t).label = key t.label) (ks : List κ) (t : Rose α) :
    ∃ u, find key ks (alter key fresh f ks t) = some (f u) := by
  induction ks generalizing t with
  | nil => exact ⟨t, rfl⟩
  | cons k ks ih =>
      rw [alter, find, child?_alterChild_self hfresh k (label_alter hf ks), Option.bind_some]
      exact ih _

/-- Altering a label changes what is read at its path only. -/
theorem readAt_alter_ne {v : α → β} {missing : β} (hmissing : ∀ k, v (fresh k) = missing)
    (hf : ∀ t, key (f t).label = key t.label) (hchildren : ∀ t, (f t).children = t.children)
    {ks qs : List κ} (hne : qs ≠ ks) (t : Rose α) :
    readAt key v missing qs (alter key fresh f ks t) = readAt key v missing qs t := by
  induction ks generalizing qs t with
  | nil =>
      cases qs with
      | nil => exact absurd rfl hne
      | cons q qs => rw [readAt, alter, find, child?, hchildren, readAt, find, child?]
  | cons k ks ih =>
      cases qs with
      | nil => rw [readAt, readAt, find, find, alter, Option.map_some, label_alterChild]; rfl
      | cons q qs =>
          by_cases hq : q = k
          · subst hq
            have hrest := ih (t := (child? key q t).getD (node (fresh q) []))
              fun heq ↦ hne (congrArg _ heq)
            rw [readAt, alter, find, child?_alterChild_self hfresh q (label_alter hf ks),
              Option.bind_some]
            apply hrest.trans
            cases hchild : child? key q t with
            | some u => rw [readAt, readAt, find, hchild]; rfl
            | none =>
                rw [readAt, readAt, find, hchild]
                cases qs with
                | nil => exact hmissing q
                | cons p qs => rfl
          · rw [readAt, alter, find, child?_alterChild_ne hfresh hq (label_alter hf ks)]
            rfl

end Alter

end KeyTree
