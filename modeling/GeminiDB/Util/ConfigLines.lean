import GeminiDB.Util.ConfigPieces

/-!
# Which lines survive the buffer (`config.cpp`)

What `load` would return if every line reached it as a whole, and the texts for
which it does return that, whether or not their last line is terminated.
-/

namespace GeminiDB.Config

open Outline

/-- What the lines of a text stand for. -/
def items (text : Bytes) : List Item := (lines text).map fun l ↦ parseLine (lineText l)

/-- `load` with lines of any length. -/
def loadWhole (text : Bytes) : Except Stop Config :=
  (answer (feedAll .start (items text))).map fun s ↦ s.cfg.root

/-- The lines that change the tree, or end the load. -/
def noted (is : List Item) : List Item := is.filter fun i ↦ i ≠ .blank

/-- In a comment no piece ends between the `#` and the newline, and in an entry only white
space follows the last character of the first piece, which is white space too. A line that
has no proper form is one piece, with its newline. -/
structure Harmless (l : Bytes) : Prop where
  comment : ∀ (k : ℕ) (text : Bytes), lineText l = List.replicate k 9 ++ 35 :: text →
    l.getLast? = some 10 ∧
      ∃ m, (configMaxLine - 1) * m ≤ k ∧ l.length ≤ (configMaxLine - 1) * (m + 1)
  entry : ∀ k key val, IsEntry (lineText l) k key val →
    ∀ c ∈ l.drop (min l.length (configMaxLine - 1) - 1), isSpace c = true
  bad : parseLine (lineText l) = .bad → l.getLast? = some 10 ∧ l.length ≤ configMaxLine - 1

/-- A stretch of a line has no proper form or indentation without its last character and all
from a NUL on, and no stretch up to it starts with NUL. -/
def Rejected (text : Bytes) : Prop :=
  ∃ before, before <+: (lines text).flatMap stretches ∧ (∀ s ∈ before, s.head? ≠ some 0) ∧
    ¬Rising 1 (before.map fun s ↦ parseLine (s.takeWhile fun c ↦ c ≠ 0).dropLast)

/-! ## Blank lines -/

theorem noted_append (is js : List Item) : noted (is ++ js) = noted is ++ noted js :=
  List.filter_append is js

@[simp] theorem noted_blank (is : List Item) : noted (.blank :: is) = noted is := rfl

theorem noted_cons {i : Item} (hi : i ≠ .blank) (is : List Item) :
    noted (i :: is) = i :: noted is :=
  List.filter_cons_of_pos (by simpa using hi)

theorem noted_noted (is : List Item) : noted (noted is) = noted is := by
  rw [noted, noted, List.filter_filter]
  simp only [Bool.and_self]

theorem noted_map (f : Bytes → List Item) (ls : List Bytes) :
    noted (ls.flatMap f) = ls.flatMap fun l ↦ noted (f l) :=
  List.filter_flatMap

theorem feedAll_noted (s : Load) (is : List Item) : feedAll s (noted is) = feedAll s is := by
  induction is generalizing s with
  | nil => rfl
  | cons i is ih =>
      by_cases hi : i = .blank
      · rw [hi, noted_blank, ih, feedAll, feed, Option.bind_some]
      · rw [noted_cons hi, feedAll, feedAll]
        exact congrArg _ (funext ih)

theorem outlineFrom_noted (depth lastIndent : ℕ) (is : List Item) :
    outlineFrom depth lastIndent (noted is) = outlineFrom depth lastIndent is := by
  induction is generalizing depth lastIndent with
  | nil => rfl
  | cons i is ih =>
      cases i with
      | blank => exact ih depth lastIndent
      | bad => exact ih depth lastIndent
      | comment text => exact congrArg (Step.leaf _ :: ·) (ih depth lastIndent)
      | entry k key val => exact congrArg (Step.node _ _ :: ·) (ih _ k)

theorem bad_not_mem_of_rising {n : ℕ} {is : List Item} (h : Rising n is) : .bad ∉ is := by
  induction is generalizing n with
  | nil => simp
  | cons i is ih =>
      cases i with
      | blank => simpa using ih h
      | bad => exact h.elim
      | comment text => simpa using ih h
      | entry k key val => simpa using ih h.2

theorem noted_pieceItems_of_isBlank {text : Bytes} (h : IsBlank text) :
    noted (pieceItems text) = [] := by
  apply List.filter_eq_nil_iff.mpr
  intro i hi
  obtain ⟨piece, hpiece, rfl⟩ := List.mem_map.mp hi
  have hblank : IsBlank (chop piece) := by
    intro c hc
    apply h c
    have hmem : c ∈ (reads text).flatten :=
      List.mem_flatten_of_mem hpiece
        ((List.takeWhile_prefix _).subset (List.dropLast_subset _ hc))
    rwa [reads, fgetsFrom_flatten, List.nil_append] at hmem
  simp [parseLine_blank.mpr hblank]

theorem IsLine.isBlank {l : Bytes} (h : IsLine l) (hblank : IsBlank (lineText l)) :
    IsBlank l := by
  rcases h.lineText_eq with ⟨-, heq⟩ | heq
  · rwa [heq] at hblank
  · rw [heq]
    intro c hc
    rcases List.mem_append.mp hc with hc | hc
    · exact hblank c hc
    · rw [List.mem_singleton.mp hc]
      rfl

/-! ## What `load` would build -/

theorem labels_outlineFrom (depth lastIndent : ℕ) (is : List Item) :
    (outlineFrom depth lastIndent is).map Step.label = (steps is).map Step.label := by
  induction is generalizing depth lastIndent with
  | nil => rfl
  | cons i is ih =>
      cases i with
      | blank => exact ih depth lastIndent
      | bad => exact ih depth lastIndent
      | comment text => exact congrArg (_ :: ·) (ih depth lastIndent)
      | entry k key val => exact congrArg (_ :: ·) (ih _ k)

/-- Each line that is not blank contributes its key and value to one node. -/
theorem labels_loadWhole {text : Bytes} {root : Config} (h : loadWhole text = .ok root) :
    root.outline.map Prod.snd = (steps (items text)).map Step.label := by
  rw [loadWhole] at h
  cases hfeed : feedAll .start (items text) with
  | none =>
      rw [hfeed] at h
      cases h
  | some s =>
      rw [hfeed] at h
      cases h
      obtain ⟨hnested, hcfg⟩ := feedAll_eq_build hfeed
      rw [← labels_outlineFrom Load.start.cfg.depth Load.start.lastIndent]
      exact (congrArg (fun c ↦ (Cursor.root c).outline.map Prod.snd) hcfg).trans
        (reads_build _ hnested).labels

/-! ## Rejected texts -/

theorem feedAll_eq_none_iff (s : Load) (is : List Item) :
    feedAll s is = none ↔ ¬Rising (s.lastIndent + 1) is := by
  rw [← feedAll_isSome_iff, Option.not_isSome_iff_eq_none]

theorem loadLines_eq_null_iff (s : Load) (bufs : List Bytes) :
    loadLines s bufs = .error .null ↔
      ∃ bs, bs <+: bufs ∧ (∀ buf ∈ bs, cStr buf ≠ []) ∧
        feedAll s (bs.map fun buf ↦ parseLine (chop buf)) = none := by
  induction bufs generalizing s with
  | nil =>
      refine iff_of_false (fun h ↦ by cases h) ?_
      rintro ⟨bs, hpre, -, hfeed⟩
      rw [List.prefix_nil.mp hpre] at hfeed
      cases hfeed
  | cons buf bufs ih =>
      have hcons : (∃ bs, bs <+: buf :: bufs ∧ (∀ b ∈ bs, cStr b ≠ []) ∧
          feedAll s (bs.map fun b ↦ parseLine (chop b)) = none) ↔
          cStr buf ≠ [] ∧ ∃ bs, bs <+: bufs ∧ (∀ b ∈ bs, cStr b ≠ []) ∧
            (feed s (parseLine (chop buf))).bind
              (fun s ↦ feedAll s (bs.map fun b ↦ parseLine (chop b))) = none := by
        constructor
        · rintro ⟨bs, hpre, hbs, hfeed⟩
          rcases List.prefix_cons_iff.mp hpre with rfl | ⟨rest, rfl, hrest⟩
          · cases hfeed
          · exact ⟨hbs buf List.mem_cons_self, rest, hrest,
              fun b hb ↦ hbs b (List.mem_cons_of_mem buf hb), hfeed⟩
        · rintro ⟨hbuf, bs, hpre, hbs, hfeed⟩
          refine ⟨buf :: bs, List.cons_prefix_cons.mpr ⟨rfl, hpre⟩, fun b hb ↦ ?_, hfeed⟩
          rcases List.mem_cons.mp hb with rfl | hb
          · exact hbuf
          · exact hbs b hb
      rw [hcons, loadLines]
      by_cases hbuf : cStr buf = []
      · rw [loadLine, if_pos hbuf]
        refine iff_of_false (fun h ↦ by cases h) ?_
        rintro ⟨hne, -⟩
        exact hne hbuf
      · rw [loadLine_eq s hbuf]
        cases feed s (parseLine (chop buf)) with
        | none => exact iff_of_true rfl ⟨hbuf, [], List.nil_prefix, by simp, rfl⟩
        | some r =>
            apply (ih r).trans
            rw [and_iff_right hbuf]
            rfl

theorem cStr_eq_nil_iff {s : Bytes} (hne : s ≠ []) : cStr s = [] ↔ s.head? = some 0 := by
  obtain ⟨c, rest, rfl⟩ := List.exists_cons_of_ne_nil hne
  by_cases hc : c = 0 <;> simp [cStr, hc]

theorem load_eq_null_iff (text : Bytes) : load text = .error .null ↔ Rejected text := by
  have hrejected : Rejected text ↔ loadLines .start (reads text) = .error .null := by
    rw [loadLines_eq_null_iff, Rejected, ← reads_eq_lines]
    refine exists_congr fun bs ↦ and_congr_right fun hpre ↦ ?_
    refine and_congr (forall₂_congr fun s hs ↦ not_congr ?_) (feedAll_eq_none_iff Load.start _).symm
    exact (cStr_eq_nil_iff (ne_nil_of_mem_fgetsFrom (hpre.subset hs))).symm
  rw [hrejected, load]
  cases loadLines .start (reads text) with
  | ok s => exact iff_of_false (fun h ↦ by cases h) (fun h ↦ by cases h)
  | error e => simp [Except.map]

/-! ## Harmless lines -/

theorem Harmless.of_blank {l : Bytes} (h : parseLine (lineText l) = .blank) : Harmless l where
  comment := by
    intro k text hline
    rw [parseLine_comment.mpr ⟨k, hline⟩] at h
    cases h
  entry := by
    intro k key val hentry
    rw [parseLine_of_isEntry hentry] at h
    cases h
  bad := by
    intro hbad
    cases h.symm.trans hbad

theorem Harmless.of_comment {l text : Bytes} {k : ℕ}
    (h : lineText l = List.replicate k 9 ++ 35 :: text) (hlast : l.getLast? = some 10)
    (hlen : l.length ≤ 4095 * (k / 4095 + 1)) : Harmless l where
  comment := by
    intro k' text' h'
    have htab (s : Bytes) : (35 :: s).head? ≠ some 9 := by simp
    have htabs := congrArg (fun s ↦ (s.takeWhile fun c ↦ c == 9).length) (h.symm.trans h')
    simp only [tabs_append (htab _), List.length_replicate] at htabs
    exact ⟨hlast, k / 4095, htabs ▸ Nat.mul_div_le k 4095, hlen⟩
  entry := by
    intro e key val hentry
    have hparse := parseLine_comment.mpr ⟨k, h⟩
    rw [parseLine_of_isEntry hentry] at hparse
    cases hparse
  bad := by
    intro hbad
    cases (parseLine_comment.mpr ⟨k, h⟩).symm.trans hbad

theorem Harmless.of_entry {l key val : Bytes} {k : ℕ} (h : IsEntry (lineText l) k key val)
    (hend : ∀ c ∈ l.drop (min l.length 4095 - 1), isSpace c = true) : Harmless l where
  comment := by
    intro k' text hline
    have hparse := parseLine_of_isEntry h
    rw [parseLine_comment.mpr ⟨k', hline⟩] at hparse
    cases hparse
  entry := fun _ _ _ _ ↦ hend
  bad := by
    intro hbad
    cases (parseLine_of_isEntry h).symm.trans hbad

theorem trim_append_blank {v w : Bytes} (hw : IsBlank w) : trim (v ++ w) = trim v := by
  have hright (s : Bytes) : rtrim (s ++ w) = rtrim s := by
    have hreverse : ∀ c ∈ w.reverse, isSpace c = true := fun c hc ↦ hw c (List.mem_reverse.mp hc)
    rw [rtrim, rtrim, List.rdropWhile, List.reverse_append,
      List.dropWhile_append_of_pos hreverse, ← List.rdropWhile]
  rw [trim, trim, ltrim, ltrim, List.dropWhile_append]
  split
  · next hempty =>
    rw [List.isEmpty_iff.mp hempty, List.dropWhile_eq_nil_iff.mpr hw]
  · exact hright _

/-- White space at the end of an entry does not count. -/
theorem parseLine_of_isEntry_append {x w key val : Bytes} {k : ℕ}
    (h : IsEntry (x ++ w) k key val) (hw : IsBlank w) :
    parseLine x = .entry k (trim key) (trim val) := by
  obtain ⟨sep, hsep, heq, hkey, hhead⟩ := h
  have hnot : ¬IsBlank (sep :: val) := by
    intro hall
    have hspace := hall sep List.mem_cons_self
    rw [(seperator_visible hsep).1] at hspace
    cases hspace
  obtain ⟨v, rfl, rfl⟩ : ∃ v, x = List.replicate k 9 ++ (key ++ sep :: v) ∧ val = v ++ w := by
    rw [← List.append_assoc] at heq
    rcases List.append_eq_append_iff.mp heq with ⟨u, -, hu⟩ | ⟨u, rfl, hu⟩
    · refine absurd (fun c hc ↦ hw c ?_) hnot
      rw [hu]
      exact List.mem_append_right u hc
    · cases u with
      | nil =>
          refine absurd ?_ hnot
          rw [hu]
          exact hw
      | cons b v =>
          obtain ⟨rfl, hval⟩ := List.cons.inj hu
          exact ⟨v, by simp, hval⟩
  rw [trim_append_blank hw]
  exact parseLine_of_isEntry ⟨sep, hsep, rfl, hkey, hhead⟩

theorem noted_pieceItems_tabs {rest : Bytes} (h : IsLine rest) (m j : ℕ) :
    noted (pieceItems (List.replicate (4095 * m + j) 9 ++ rest)) =
      noted (pieceItems (List.replicate j 9 ++ rest)) := by
  have hblank : IsBlank (chop (List.replicate 4095 9)) := by
    intro c hc
    have hmem := (List.takeWhile_prefix _).subset (List.dropLast_subset _ hc)
    rw [List.eq_of_mem_replicate hmem]
    rfl
  have hnone : noted (List.replicate m (parseLine (chop (List.replicate 4095 9)))) = [] := by
    apply List.filter_eq_nil_iff.mpr
    intro i hi
    rw [List.eq_of_mem_replicate hi, parseLine_blank.mpr hblank]
    simp
  rw [pieceItems, reads_tabs h, List.map_append, List.map_replicate, noted_append, hnone,
    List.nil_append, pieceItems]

theorem chop_of_not_mem {piece : Bytes} (h : 0 ∉ piece) : chop piece = piece.dropLast := by
  rw [chop, cStr_of_not_mem h]

theorem noted_of_entry {l key val : Bytes} {k : ℕ} (hl : IsLine l) (hzero : 0 ∉ l)
    (hline : IsEntry (lineText l) k key val)
    (hend : ∀ c ∈ l.drop (min l.length 4095 - 1), isSpace c = true) :
    noted (pieceItems l) = [.entry k (trim key) (trim val)] := by
  have htext : l.take (min l.length 4095 - 1) <+: lineText l := by
    refine List.prefix_of_prefix_length_le (List.take_prefix _ l) (List.takeWhile_prefix _) ?_
    have hlen : l.length ≤ (lineText l).length + 1 := by
      rcases hl.lineText_eq with ⟨-, heq⟩ | heq
      · rw [heq]
        omega
      · conv_lhs => rw [heq, List.length_append, List.length_singleton]
    rw [List.length_take]
    omega
  obtain ⟨w, hw⟩ := htext
  obtain ⟨newline, hnewline⟩ : lineText l <+: l := List.takeWhile_prefix _
  have hdrop : l.drop (min l.length 4095 - 1) = w ++ newline := by
    have hsplit := List.take_append_drop (min l.length 4095 - 1) l
    refine List.append_cancel_left (hsplit.trans ?_)
    rw [← List.append_assoc, hw, hnewline]
  rw [hdrop] at hend
  have hfirst : (l.take 4095).dropLast = l.take (min l.length 4095 - 1) := by
    rw [List.dropLast_eq_take, List.take_take, List.length_take]
    congr 1
    omega
  have hrest : IsBlank (l.drop 4095) := by
    intro c hc
    apply hend c
    rw [← hdrop]
    exact List.drop_subset_drop_left l (by omega) hc
  rw [pieceItems_cons hl, chop_of_not_mem fun hmem ↦ hzero (List.mem_of_mem_take hmem), hfirst,
    parseLine_of_isEntry_append (hw ▸ hline) fun c hc ↦ hend c (List.mem_append_left _ hc),
    noted_cons (by simp), noted_pieceItems_of_isBlank hrest]

theorem noted_of_comment {l text : Bytes} {k m : ℕ} (hl : IsLine l) (hzero : 0 ∉ l)
    (hline : lineText l = List.replicate k 9 ++ 35 :: text) (hlast : l.getLast? = some 10)
    (hk : 4095 * m ≤ k) (hlen : l.length ≤ 4095 * (m + 1)) :
    noted (pieceItems l) = [.comment text] := by
  have heq : l = List.replicate k 9 ++ (35 :: text ++ [10]) := by
    rcases hl.lineText_eq with ⟨hnl, -⟩ | heq
    · exact absurd (List.mem_of_getLast? hlast) hnl
    · rw [hline] at heq
      rw [heq, List.append_assoc]
  have hrest : IsLine (35 :: text ++ [10]) := by
    have hdrop := hl.drop (n := k) (by rw [heq]; simp)
    rwa [heq, List.drop_left' List.length_replicate] at hdrop
  obtain ⟨j, rfl⟩ := Nat.exists_eq_add_of_le hk
  have hshort : (List.replicate j 9 ++ (35 :: text ++ [10])).length ≤ 4095 := by
    rw [heq, List.length_append, List.length_replicate] at hlen
    rw [List.length_append, List.length_replicate]
    omega
  have hnot : 0 ∉ List.replicate j 9 ++ (35 :: text ++ [10]) := by
    rw [heq] at hzero
    simpa using hzero
  have hchop : chop (List.replicate j 9 ++ (35 :: text ++ [10])) =
      List.replicate j 9 ++ 35 :: text := by
    rw [chop_of_not_mem hnot, ← List.append_assoc, List.dropLast_concat]
  rw [heq, noted_pieceItems_tabs hrest, pieceItems_cons (hrest.tabs_append j),
    List.take_of_length_le hshort, List.drop_eq_nil_of_le hshort, hchop,
    parseLine_comment.mpr ⟨j, rfl⟩]
  rfl

theorem pieceItems_of_bad {l : Bytes} (hl : IsLine l) (hzero : 0 ∉ l)
    (hlast : l.getLast? = some 10) (hlen : l.length ≤ 4095) :
    pieceItems l = [parseLine (lineText l)] := by
  have hchop : chop l = lineText l := by
    rcases hl.lineText_eq with ⟨hnl, -⟩ | heq
    · exact absurd (List.mem_of_getLast? hlast) hnl
    · rw [chop_of_not_mem hzero]
      conv_lhs => rw [heq, List.dropLast_concat]
  rw [pieceItems_cons hl, List.take_of_length_le hlen, List.drop_eq_nil_of_le hlen, hchop]
  rfl

theorem Harmless.noted_eq {l : Bytes} (h : Harmless l) (hl : IsLine l) (hzero : 0 ∉ l) :
    noted (pieceItems l) = noted [parseLine (lineText l)] := by
  cases hparse : parseLine (lineText l) with
  | blank =>
      have hblank := hl.isBlank (parseLine_blank.mp hparse)
      exact noted_pieceItems_of_isBlank hblank
  | comment text =>
      obtain ⟨k, hline⟩ := parseLine_comment.mp hparse
      obtain ⟨hlast, m, hk, hlen⟩ := h.comment k text hline
      exact noted_of_comment hl hzero hline hlast hk hlen
  | bad =>
      obtain ⟨hlast, hlen⟩ := h.bad hparse
      rw [pieceItems_of_bad hl hzero hlast hlen, hparse]
  | entry k key' val' =>
      obtain ⟨key, val, hline, rfl, rfl⟩ := isEntry_of_parseLine hparse
      exact noted_of_entry hl hzero hline (h.entry k key val hline)

/-- Lines that are harmless are read as if they were not cut. -/
theorem load_of_harmless {text : Bytes} (hzero : 0 ∉ text) (h : ∀ l ∈ lines text, Harmless l) :
    load text = loadWhole text := by
  have hflatten : (lines text).flatten = text := linesFrom_flatten [] text
  have hnoted : noted (pieceItems text) = noted (items text) := by
    rw [pieceItems_eq_flatMap, noted_map, items, List.map_eq_flatMap, noted_map]
    refine congrArg List.flatten (List.map_congr_left fun l hl ↦ ?_)
    have hzero' : 0 ∉ l := fun hmem ↦ hzero (hflatten ▸ List.mem_flatten_of_mem hl hmem)
    exact (h l hl).noted_eq (isLine_of_mem_lines hl) hzero'
  have hbufs : ∀ buf ∈ reads text, cStr buf ≠ [] := by
    intro buf hbuf
    have hzero' : 0 ∉ buf := by
      intro hmem
      have hall := List.mem_flatten_of_mem hbuf hmem
      rw [reads, fgetsFrom_flatten] at hall
      exact hzero hall
    rw [cStr_of_not_mem hzero']
    exact ne_nil_of_mem_fgetsFrom hbuf
  rw [load, loadLines_eq _ hbufs, ← pieceItems, ← feedAll_noted, hnoted, feedAll_noted, loadWhole]

/-! ## A newline at the end -/

theorem lineText_of_not_mem {l : Bytes} (hnl : 10 ∉ l) :
    lineText l = l ∧ lineText (l ++ [10]) = l := by
  have hall : ∀ c ∈ l, decide (c ≠ 10) = true := by
    intro c hc
    rw [decide_eq_true_eq]
    rintro rfl
    exact hnl hc
  rw [lineText, lineText, List.takeWhile_append_of_pos hall]
  exact ⟨List.takeWhile_eq_self_iff.mpr hall, by simp⟩

theorem Harmless.concat {l : Bytes} (h : Harmless l) (hnl : 10 ∉ l) : Harmless (l ++ [10]) := by
  obtain ⟨hl, hl'⟩ := lineText_of_not_mem hnl
  refine ⟨fun k text hline ↦ ?_, fun k key val hline c hc ↦ ?_, fun hbad ↦ ?_⟩
  · rw [hl', ← hl] at hline
    exact absurd (List.mem_of_getLast? (h.comment k text hline).1) hnl
  · rw [hl', ← hl] at hline
    have hend := h.entry k key val hline
    rw [List.length_append, List.length_singleton, List.drop_append] at hc
    rcases List.mem_append.mp hc with hc | hc
    · exact hend c (List.drop_subset_drop_left l (by omega) hc)
    · rw [List.mem_singleton.mp (List.mem_of_mem_drop hc)]
      rfl
  · rw [hl', ← hl] at hbad
    exact absurd (List.mem_of_getLast? (h.bad hbad).1) hnl

/-- A text of harmless lines is loaded alike with a newline at its end. -/
theorem load_concat_of_harmless {text : Bytes} (hzero : 0 ∉ text)
    (h : ∀ l ∈ lines text, Harmless l) (hlast : text.getLast? ≠ some 10) :
    load text = load (text ++ [10]) := by
  by_cases hne : text = []
  · rw [hne]
    rfl
  · have hnone : 10 ∉ ([] : Bytes) := by simp
    obtain ⟨ls, l, hlines, hlines', hnl⟩ := linesFrom_concat hnone hne hlast
    have hitems : items (text ++ [10]) = items text := by
      obtain ⟨htext, htext'⟩ := lineText_of_not_mem hnl
      rw [items, items, lines, lines, hlines, hlines', List.map_append, List.map_append,
        List.map_singleton, List.map_singleton, htext, htext']
    have hall : ∀ l' ∈ lines (text ++ [10]), Harmless l' := by
      rw [lines, hlines] at h
      rw [lines, hlines']
      intro l' hl'
      rcases List.mem_append.mp hl' with hl' | hl'
      · exact h l' (List.mem_append_left _ hl')
      · rw [List.mem_singleton.mp hl']
        exact (h l (by simp)).concat hnl
    rw [load_of_harmless hzero h, load_of_harmless (by simpa using hzero) hall, loadWhole,
      loadWhole, hitems]

end GeminiDB.Config
