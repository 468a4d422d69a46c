import GeminiDB.Util.Config

/-!
# What the lines of a configuration stand for

A line is blank, a comment, an entry with its indentation, or not of any of
these forms. `load` acts on lines through this alone, and what it builds is the
tree of an outline.
-/

namespace GeminiDB.Config

open Outline

inductive Item where
  | blank
  | comment (text : Bytes)
  | entry (indent : ℕ) (key val : Bytes)
  | bad
  deriving DecidableEq

/-- What a line with this indentation and this rest stands for if it is no comment. -/
def parseEntry (indent : ℕ) (key : Bytes) : Item :=
  if key.head?.any isSpace then .bad
  else
    match key.dropWhile fun c ↦ !isKvSeperator c with
    | [] => .bad
    | _ :: val => .entry indent (trim (key.takeWhile fun c ↦ !isKvSeperator c)) (trim val)

/-- What a line stands for, its end removed. -/
def parseLine (line : Bytes) : Item :=
  if isEmptyStr line then .blank
  else
    let indent := (line.takeWhile fun c ↦ c == 9).length
    let key := line.drop indent
    if key.head? = some 35 then .comment key.tail else parseEntry indent key

/-- A round of the loop of `load`; `none` when it returns `NULL`. -/
def feed (s : Load) : Item → Option Load
  | .blank => some s
  | .comment text => some { s with cfg := s.cfg.add ⟨ascii "#", text⟩ }
  | .entry indent key val =>
      if indent ≤ s.lastIndent + 1 then
        some ⟨(s.cfg.ups (s.lastIndent + 1 - indent)).enter ⟨key, val⟩, indent⟩
      else none
  | .bad => none

def feedAll (s : Load) : List Item → Option Load
  | [] => some s
  | item :: items => (feed s item).bind fun s ↦ feedAll s items

/-- The line in the buffer. -/
def chop (buf : Bytes) : Bytes := (cStr buf).dropLast

/-- All lines are of some form, and no entry is indented by more than `n` if it is the first
one, or else by more than one more than the entry before it. -/
def Rising : ℕ → List Item → Prop
  | _, [] => True
  | _, .bad :: _ => False
  | n, .entry indent _ _ :: items => indent ≤ n ∧ Rising (indent + 1) items
  | n, _ :: items => Rising n items

instance decidableRising : (n : ℕ) → (items : List Item) → Decidable (Rising n items)
  | _, [] => isTrue trivial
  | _, .bad :: _ => isFalse id
  | n, .entry indent _ _ :: items =>
      have := decidableRising (indent + 1) items
      inferInstanceAs (Decidable (indent ≤ n ∧ Rising (indent + 1) items))
  | n, .blank :: items => decidableRising n items
  | n, .comment _ :: items => decidableRising n items

namespace Item

/-- The node that a line adds. -/
def step? : Item → Option (Step Setting)
  | comment text => some (.leaf ⟨ascii "#", text⟩)
  | entry indent key val => some (.node indent ⟨key, val⟩)
  | _ => none

end Item

def steps (items : List Item) : List (Step Setting) := items.filterMap Item.step?

/-! ## The loop by items -/

/-- The answer of `load` for what the loop ends with. -/
def answer : Option Load → Except Stop Load
  | some s => .ok s
  | none => .error .null

theorem loadEntry_eq (s : Load) (indent : ℕ) (key : Bytes) :
    loadEntry s indent key = answer (feed s (parseEntry indent key)) := by
  unfold loadEntry parseEntry
  by_cases hgt : indent > s.lastIndent + 1
  · rw [if_neg (by omega), if_pos hgt]
    split
    · rfl
    · cases key.dropWhile fun c ↦ !isKvSeperator c with
      | nil => rfl
      | cons sep val =>
          simp only [feed]
          rw [if_neg (by omega)]
          rfl
  · have hparent : (if indent ≤ s.lastIndent then
        (.ok (s.cfg.ups (s.lastIndent + 1 - indent)) : Except Stop (Cursor Setting))
        else if indent > s.lastIndent + 1 then .error .null else .ok s.cfg) =
        .ok (s.cfg.ups (s.lastIndent + 1 - indent)) := by
      by_cases hle : indent ≤ s.lastIndent
      · rw [if_pos hle]
      · rw [if_neg hle, if_neg hgt, show s.lastIndent + 1 - indent = 0 by omega]
        rfl
    rw [hparent]
    simp only
    split
    · rfl
    · cases key.dropWhile fun c ↦ !isKvSeperator c with
      | nil => rfl
      | cons sep val =>
          simp only [feed]
          rw [if_pos (by omega)]
          rfl

theorem loadLine_eq (s : Load) {buf : Bytes} (hbuf : cStr buf ≠ []) :
    loadLine s buf = answer (feed s (parseLine (chop buf))) := by
  rw [loadLine, if_neg hbuf, parseLine, chop]
  by_cases hblank : isEmptyStr (cStr buf).dropLast = true
  · rw [if_pos hblank, if_pos hblank]
    rfl
  · rw [if_neg hblank, if_neg hblank]
    simp only
    split
    · rfl
    · exact loadEntry_eq s _ _

theorem loadLines_eq (s : Load) {bufs : List Bytes} (hbufs : ∀ buf ∈ bufs, cStr buf ≠ []) :
    loadLines s bufs = answer (feedAll s (bufs.map fun buf ↦ parseLine (chop buf))) := by
  induction bufs generalizing s with
  | nil => rfl
  | cons buf bufs ih =>
      rw [loadLines, loadLine_eq s (hbufs buf List.mem_cons_self), List.map_cons, feedAll]
      cases feed s (parseLine (chop buf)) with
      | none => rfl
      | some s => exact ih s fun b hb ↦ hbufs b (List.mem_cons_of_mem buf hb)

/-- A loop that ends well has not met a string of length 0. -/
theorem loadLines_eq_ok {s s' : Load} {bufs : List Bytes} (h : loadLines s bufs = .ok s') :
    (∀ buf ∈ bufs, cStr buf ≠ []) ∧
      feedAll s (bufs.map fun buf ↦ parseLine (chop buf)) = some s' := by
  have hbufs : ∀ buf ∈ bufs, cStr buf ≠ [] := by
    induction bufs generalizing s with
    | nil => simp
    | cons buf bufs ih =>
        rw [loadLines] at h
        intro b hb
        cases hline : loadLine s buf with
        | error e => simp [hline] at h
        | ok r =>
            rw [hline] at h
            rcases List.mem_cons.mp hb with rfl | hb
            · intro hnil
              simp [loadLine, hnil] at hline
            · exact ih h b hb
  refine ⟨hbufs, ?_⟩
  rw [loadLines_eq s hbufs] at h
  cases hfeed : feedAll s (bufs.map fun buf ↦ parseLine (chop buf)) with
  | none =>
      rw [hfeed] at h
      cases h
  | some r =>
      rw [hfeed] at h
      cases h
      rfl

/-- `load` returns a tree when the indentation rises by one at most, where the first entry
may already be indented by one. -/
theorem feedAll_isSome_iff (s : Load) (items : List Item) :
    (feedAll s items).isSome ↔ Rising (s.lastIndent + 1) items := by
  induction items generalizing s with
  | nil => simp [feedAll, Rising]
  | cons item items ih =>
      cases item with
      | blank => exact ih s
      | comment text => exact ih _
      | bad => simp [feedAll, feed, Rising]
      | entry indent key val =>
          rw [feedAll, feed, Rising]
          by_cases hle : indent ≤ s.lastIndent + 1
          · rw [if_pos hle, Option.bind_some, ih]
            simp [hle]
          · rw [if_neg hle]
            simp [hle]

theorem Rising.mono {m n : ℕ} (hmn : m ≤ n) {items : List Item} (h : Rising m items) :
    Rising n items := by
  induction items with
  | nil => trivial
  | cons item items ih =>
      cases item with
      | blank => exact ih h
      | comment text => exact ih h
      | bad => exact h
      | entry indent key val => exact ⟨h.1.trans hmn, h.2⟩

/-! ## The tree -/

/-- The indentation of the last entry tells the depth of `cfg`. -/
def Aligned (s : Load) : Prop :=
  s.cfg.depth = s.lastIndent + 1 ∨ s.cfg.depth = 0 ∧ s.lastIndent = 0

theorem aligned_start : Aligned .start := .inr ⟨rfl, rfl⟩

theorem nested_of_rising {n : ℕ} {items : List Item} (h : Rising n items) :
    Nested n (steps items) := by
  induction items generalizing n with
  | nil => trivial
  | cons item items ih =>
      cases item with
      | blank => exact ih h
      | comment text => exact ih h
      | bad => exact h.elim
      | entry indent key val => exact ⟨h.1, ih h.2⟩

/-- The outline that lines are read as, from the depth of `cfg` and the last indentation. -/
def outlineFrom (depth lastIndent : ℕ) : List Item → List (Step Setting)
  | [] => []
  | .comment text :: items => .leaf ⟨ascii "#", text⟩ :: outlineFrom depth lastIndent items
  | .entry indent key val :: items =>
      .node (depth - (lastIndent + 1 - indent)) ⟨key, val⟩ ::
        outlineFrom (depth - (lastIndent + 1 - indent) + 1) indent items
  | _ :: items => outlineFrom depth lastIndent items

/-- Whatever the indentation, `load` builds the tree of an outline. -/
theorem feedAll_eq_build {s s' : Load} {items : List Item} (h : feedAll s items = some s') :
    Nested s.cfg.depth (outlineFrom s.cfg.depth s.lastIndent items) ∧
      s'.cfg = build s.cfg (outlineFrom s.cfg.depth s.lastIndent items) := by
  induction items generalizing s with
  | nil =>
      cases h
      exact ⟨trivial, rfl⟩
  | cons item items ih =>
      obtain ⟨r, hr, hrest⟩ := Option.bind_eq_some_iff.mp h
      cases item with
      | blank =>
          cases hr
          exact ih hrest
      | comment text =>
          cases hr
          exact ih hrest
      | bad => cases hr
      | entry k key val =>
          obtain ⟨-, heq⟩ := Option.ite_none_right_eq_some.mp hr
          cases heq
          obtain ⟨hnested, hcfg⟩ := ih hrest
          simp only [Cursor.depth_enter, Cursor.depth_ups] at hnested hcfg
          rw [Cursor.ups_eq] at hcfg
          exact ⟨⟨Nat.sub_le _ _, hnested⟩, hcfg⟩

/-- When the first entry is not indented, each entry is put at its own level. -/
theorem feedAll_of_rising {s : Load} (hs : Aligned s) {items : List Item}
    (h : Rising s.cfg.depth items) :
    ∃ s', feedAll s items = some s' ∧ s'.cfg = build s.cfg (steps items) := by
  induction items generalizing s with
  | nil => exact ⟨s, rfl, rfl⟩
  | cons item items ih =>
      cases item with
      | blank => exact ih hs h
      | comment text => exact ih (s := { s with cfg := s.cfg.add ⟨ascii "#", text⟩ }) hs h
      | bad => exact h.elim
      | entry indent key val =>
          obtain ⟨hle, hrest⟩ := h
          have hups : s.cfg.ups (s.lastIndent + 1 - indent) =
              s.cfg.ups (s.cfg.depth - indent) := by
            rcases hs with hdepth | ⟨hdepth, -⟩
            · rw [hdepth]
            · rw [Cursor.ups_of_depth_eq_zero hdepth, Cursor.ups_of_depth_eq_zero hdepth]
          have hnext : ((s.cfg.ups (s.cfg.depth - indent)).enter ⟨key, val⟩).depth =
              indent + 1 := by
            rw [Cursor.depth_enter, Cursor.depth_ups]
            omega
          have hallowed : indent ≤ s.lastIndent + 1 := by
            rcases hs with hdepth | ⟨hdepth, -⟩ <;> omega
          rw [feedAll, feed, if_pos hallowed, Option.bind_some, hups]
          exact ih (s := ⟨(s.cfg.ups (s.cfg.depth - indent)).enter ⟨key, val⟩, indent⟩)
            (.inl hnext) (by rwa [hnext])

end GeminiDB.Config
