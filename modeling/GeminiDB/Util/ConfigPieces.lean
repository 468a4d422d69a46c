import GeminiDB.Util.ConfigSave

/-!
# Lines and the pieces they are read in (`config.cpp`)

`load` removes the last character of each string that `fgets` reads and parses
what is left as a line. These strings are the pieces of the lines of the text,
each of `CONFIG_MAX_LINE - 1` characters but the last one of a line.
-/

namespace GeminiDB.Config

/-- The lines of a text, after `buf`, with the newlines that end them. -/
def linesFrom (buf : Bytes) : Bytes → List Bytes
  | [] => if buf = [] then [] else [buf]
  | c :: rest =>
      if c = 10 then (buf ++ [c]) :: linesFrom [] rest else linesFrom (buf ++ [c]) rest

def lines (text : Bytes) : List Bytes := linesFrom [] text

/-- A line without its newline. -/
def lineText (l : Bytes) : Bytes := l.takeWhile fun c ↦ c ≠ 10

/-- Not empty, and no newline but at the end. -/
def IsLine (l : Bytes) : Prop := l ≠ [] ∧ 10 ∉ l.dropLast

/-- A line in stretches of `CONFIG_MAX_LINE - 1` characters. -/
def stretches (l : Bytes) : List Bytes :=
  (List.range ((l.length + (configMaxLine - 2)) / (configMaxLine - 1))).map fun m ↦
    (l.drop ((configMaxLine - 1) * m)).take (configMaxLine - 1)

/-- What the strings stand for that a text is read in. -/
def pieceItems (text : Bytes) : List Item := (reads text).map fun buf ↦ parseLine (chop buf)

/-! ## The lines of a text -/

theorem linesFrom_flatten (buf text : Bytes) : (linesFrom buf text).flatten = buf ++ text := by
  induction text generalizing buf with
  | nil =>
      rw [linesFrom]
      split
      · next hbuf => simp [hbuf]
      · simp
  | cons c rest ih =>
      rw [linesFrom]
      split
      · rw [List.flatten_cons, ih, List.nil_append, List.append_assoc, List.singleton_append]
      · rw [ih, List.append_assoc, List.singleton_append]

theorem isLine_of_mem {buf text l : Bytes} (hbuf : 10 ∉ buf) (h : l ∈ linesFrom buf text) :
    IsLine l := by
  induction text generalizing buf with
  | nil =>
      rw [linesFrom] at h
      split at h
      · cases h
      · next hne =>
        obtain rfl := List.mem_singleton.mp h
        exact ⟨hne, fun hmem ↦ hbuf (List.dropLast_subset _ hmem)⟩
  | cons c rest ih =>
      rw [linesFrom] at h
      split at h
      · rcases List.mem_cons.mp h with rfl | h
        · exact ⟨by simp, by rwa [List.dropLast_concat]⟩
        · exact ih (by simp) h
      · next hc =>
        refine ih (fun hmem ↦ ?_) h
        rcases List.mem_append.mp hmem with hmem | hmem
        · exact hbuf hmem
        · exact hc (List.mem_singleton.mp hmem).symm

theorem isLine_of_mem_lines {text l : Bytes} (h : l ∈ lines text) : IsLine l :=
  isLine_of_mem (by simp) h

/-- Either all of a line is text, or all but the newline at its end. -/
theorem IsLine.lineText_eq {l : Bytes} (h : IsLine l) :
    10 ∉ l ∧ lineText l = l ∨ l = lineText l ++ [10] := by
  obtain ⟨init, c, rfl⟩ := List.eq_nil_or_concat' l |>.resolve_left h.1
  have hinit : 10 ∉ init := by simpa using h.2
  have hall : ∀ b ∈ init, decide (b ≠ 10) = true := by
    intro b hb
    simp only [decide_eq_true_eq]
    rintro rfl
    exact hinit hb
  by_cases hc : c = 10
  · refine .inr ?_
    rw [hc, lineText, List.takeWhile_append_of_pos hall]
    simp
  · refine .inl ⟨by simp [hinit, Ne.symm hc], ?_⟩
    rw [lineText, List.takeWhile_append_of_pos hall]
    simp [hc]

theorem IsLine.drop {l : Bytes} (h : IsLine l) {n : ℕ} (hn : n < l.length) :
    IsLine (l.drop n) := by
  have hne : l.drop n ≠ [] := by simpa using hn
  refine ⟨hne, fun hmem ↦ h.2 ?_⟩
  rw [← List.take_append_drop n l, List.dropLast_append_of_ne_nil hne]
  exact List.mem_append_right _ hmem

/-- A newline at the end of a text that lacks it belongs to the last line. -/
theorem linesFrom_concat {buf text : Bytes} (hbuf : 10 ∉ buf) (hne : buf ++ text ≠ [])
    (hlast : (buf ++ text).getLast? ≠ some 10) :
    ∃ ls l, linesFrom buf text = ls ++ [l] ∧ linesFrom buf (text ++ [10]) = ls ++ [l ++ [10]] ∧
      10 ∉ l := by
  induction text generalizing buf with
  | nil =>
      rw [List.append_nil] at hne
      exact ⟨[], buf, by rw [linesFrom, if_neg hne, List.nil_append], by simp [linesFrom], hbuf⟩
  | cons c rest ih =>
      rw [List.cons_append, linesFrom, linesFrom]
      by_cases hc : c = 10
      · rw [if_pos hc, if_pos hc]
        have hrest : rest ≠ [] := by
          rintro rfl
          exact hlast (by simp [hc])
        have hlast' : ([] ++ rest).getLast? ≠ some 10 := by
          rwa [List.getLast?_append, List.getLast?_cons_of_ne_nil hrest, Option.or_of_isSome
            (by simp [hrest])] at hlast
        obtain ⟨ls, l, hl, hl', hnl⟩ := ih (by simp) (by simpa using hrest) hlast'
        exact ⟨(buf ++ [c]) :: ls, l, by rw [hl]; rfl, by rw [hl']; rfl, hnl⟩
      · rw [if_neg hc, if_neg hc]
        apply ih (by simp [hbuf, Ne.symm hc]) (by simp)
        rwa [List.append_assoc, List.singleton_append]

/-! ## The pieces of a line -/

theorem fgetsFrom_flatten (size : ℕ) (buf text : Bytes) :
    (fgetsFrom size buf text).flatten = buf ++ text := by
  induction text generalizing buf with
  | nil =>
      rw [fgetsFrom]
      split
      · next hbuf => simp [hbuf]
      · simp
  | cons c rest ih =>
      rw [fgetsFrom]
      split
      · rw [List.flatten_cons, ih, List.nil_append, List.append_assoc, List.singleton_append]
      · rw [ih, List.append_assoc, List.singleton_append]

theorem ne_nil_of_mem_fgetsFrom {size : ℕ} {buf text piece : Bytes}
    (h : piece ∈ fgetsFrom size buf text) : piece ≠ [] := by
  induction text generalizing buf with
  | nil =>
      rw [fgetsFrom] at h
      split at h
      · cases h
      · next hne => rwa [List.mem_singleton.mp h]
  | cons c rest ih =>
      rw [fgetsFrom] at h
      split at h
      · rcases List.mem_cons.mp h with rfl | h
        · simp
        · exact ih h
      · exact ih h

theorem fgetsFrom_append (size : ℕ) (buf s rest : Bytes) :
    fgetsFrom size buf (s ++ 10 :: rest) =
      fgetsFrom size buf (s ++ [10]) ++ fgetsFrom size [] rest := by
  induction s generalizing buf with
  | nil => simp [fgetsFrom]
  | cons c s ih =>
      rw [List.cons_append, List.cons_append, fgetsFrom, fgetsFrom]
      split
      · rw [ih, List.cons_append]
      · exact ih _

theorem fgetsFrom_eq_flatMap (size : ℕ) (buf text : Bytes) :
    fgetsFrom size [] (buf ++ text) = (linesFrom buf text).flatMap (fgetsFrom size []) := by
  induction text generalizing buf with
  | nil =>
      rw [linesFrom, List.append_nil]
      split
      · next hbuf => simp [hbuf, fgetsFrom]
      · simp
  | cons c rest ih =>
      rw [linesFrom]
      split
      · next hc =>
        rw [hc, fgetsFrom_append, List.flatMap_cons, ← ih, List.nil_append]
      · rw [← ih, List.append_assoc, List.singleton_append]

theorem reads_eq_flatMap (text : Bytes) : reads text = (lines text).flatMap reads :=
  fgetsFrom_eq_flatMap configMaxLine [] text

theorem fgetsFrom_cons {size : ℕ} {buf text : Bytes} (hbuf : buf.length + 1 < size)
    (htext : IsLine text) :
    fgetsFrom size buf text = (buf ++ text.take (size - 1 - buf.length)) ::
      fgetsFrom size [] (text.drop (size - 1 - buf.length)) := by
  obtain ⟨hne, hnl⟩ := htext
  induction text generalizing buf with
  | nil => exact absurd rfl hne
  | cons c rest ih =>
      have hroom : size - 1 - buf.length = (size - 2 - buf.length) + 1 := by omega
      rw [hroom, List.take_succ_cons, List.drop_succ_cons, fgetsFrom]
      by_cases hrest : rest = []
      · subst hrest
        split
        · simp
        · rw [fgetsFrom, if_neg (by simp)]
          simp [fgetsFrom]
      · rw [List.dropLast_cons_of_ne_nil hrest, List.mem_cons, not_or] at hnl
        by_cases hfull : size ≤ buf.length + 2
        · rw [if_pos (.inr hfull), show size - 2 - buf.length = 0 by omega]
          simp
        · have hc : ¬(c = 10 ∨ size ≤ buf.length + 2) := by
            rintro (rfl | hle)
            · exact hnl.1 rfl
            · exact hfull hle
          have hlen : (buf ++ [c]).length = buf.length + 1 := by simp
          rw [if_neg hc, ih (by omega) hrest hnl.2, hlen,
            show size - 1 - (buf.length + 1) = size - 2 - buf.length by omega]
          simp

/-- A line is cut behind `CONFIG_MAX_LINE - 1` characters. -/
theorem reads_cons {l : Bytes} (h : IsLine l) :
    reads l = l.take 4095 :: reads (l.drop 4095) := by
  have hroom : ([] : Bytes).length + 1 < configMaxLine := by decide
  exact fgetsFrom_cons hroom h

theorem stretches_cons {l : Bytes} (hne : l ≠ []) :
    stretches l = l.take 4095 :: stretches (l.drop 4095) := by
  have hpos := List.length_pos_of_ne_nil hne
  have hcount : (l.length + 4094) / 4095 = ((l.drop 4095).length + 4094) / 4095 + 1 := by
    rw [List.length_drop]
    omega
  change (List.range ((l.length + 4094) / 4095)).map _ = _
  rw [hcount, List.range_succ_eq_map, List.map_cons, List.map_map]
  refine congrArg₂ List.cons (by simp [configMaxLine]) (List.map_congr_left fun m _ ↦ ?_)
  rw [Function.comp_apply, List.drop_drop]
  congr 2
  simp only [configMaxLine]
  omega

theorem reads_eq_stretches {l : Bytes} (h : l ≠ [] → IsLine l) : reads l = stretches l := by
  induction hlen : l.length using Nat.strong_induction_on generalizing l with
  | h n ih =>
      by_cases hne : l = []
      · subst hne
        rfl
      · have hpos := List.length_pos_of_ne_nil hne
        have hshorter : (l.drop 4095).length < n := by
          rw [List.length_drop]
          omega
        rw [reads_cons (h hne), stretches_cons hne]
        refine congrArg _ (ih _ hshorter (fun hrest ↦ ?_) rfl)
        exact (h hne).drop (by simpa using hrest)

/-- Each line is read in stretches. -/
theorem reads_eq_lines (text : Bytes) : reads text = (lines text).flatMap stretches := by
  rw [reads_eq_flatMap]
  refine congrArg List.flatten (List.map_congr_left fun l hl ↦ ?_)
  exact reads_eq_stretches fun _ ↦ isLine_of_mem_lines hl

theorem pieceItems_cons {l : Bytes} (h : IsLine l) :
    pieceItems l = parseLine (chop (l.take 4095)) :: pieceItems (l.drop 4095) := by
  rw [pieceItems, reads_cons h, List.map_cons, pieceItems]

theorem pieceItems_eq_flatMap (text : Bytes) :
    pieceItems text = (lines text).flatMap pieceItems := by
  rw [pieceItems, reads_eq_flatMap, List.map_flatMap]
  rfl

theorem IsLine.tabs_append {rest : Bytes} (h : IsLine rest) (k : ℕ) :
    IsLine (List.replicate k 9 ++ rest) := by
  refine ⟨List.append_ne_nil_of_right_ne_nil _ h.1, ?_⟩
  rw [List.dropLast_append_of_ne_nil h.1]
  intro hmem
  rcases List.mem_append.mp hmem with hmem | hmem
  · exact absurd (List.eq_of_mem_replicate hmem) (by decide)
  · exact h.2 hmem

/-- Tabs fill whole pieces. -/
theorem reads_tabs {rest : Bytes} (h : IsLine rest) (m j : ℕ) :
    reads (List.replicate (4095 * m + j) 9 ++ rest) =
      List.replicate m (List.replicate 4095 9) ++ reads (List.replicate j 9 ++ rest) := by
  induction m with
  | zero => simp
  | succ m ih =>
      have hsplit : List.replicate (4095 * (m + 1) + j) (9 : UInt8) ++ rest =
          List.replicate 4095 9 ++ (List.replicate (4095 * m + j) 9 ++ rest) := by
        rw [← List.append_assoc, List.replicate_append_replicate]
        congr 2
        omega
      have hlen : (List.replicate 4095 (9 : UInt8)).length = 4095 := List.length_replicate
      rw [reads_cons (h.tabs_append _), hsplit, List.take_left' hlen, List.drop_left' hlen, ih,
        List.replicate_succ (n := m), List.cons_append]

/-! ## Characters that are lost -/

/-- How many characters are no white space. -/
def visible (s : Bytes) : ℕ := s.countP fun c ↦ !isSpace c

theorem visible_append (s t : Bytes) : visible (s ++ t) = visible s + visible t :=
  List.countP_append

theorem visible_cons {c : UInt8} (hc : isSpace c = false) (s : Bytes) :
    visible (c :: s) = visible s + 1 :=
  List.countP_cons_of_pos (by simp [hc])

theorem visible_eq_zero {s : Bytes} : visible s = 0 ↔ IsBlank s := by
  simp [visible, List.countP_eq_zero, IsBlank]

theorem visible_tabs (k : ℕ) : visible (List.replicate k 9) = 0 :=
  visible_eq_zero.mpr fun c hc ↦ by
    rw [List.eq_of_mem_replicate hc]
    rfl

theorem visible_ltrim (s : Bytes) : visible (ltrim s) = visible s := by
  have hspaces : visible (s.takeWhile isSpace) = 0 :=
    visible_eq_zero.mpr fun c hc ↦ List.mem_takeWhile_imp hc
  conv_rhs => rw [← List.takeWhile_append_dropWhile (p := isSpace) (l := s)]
  rw [visible_append, hspaces, Nat.zero_add, ltrim]

theorem visible_trim (s : Bytes) : visible (trim s) = visible s := by
  have hreverse (t : Bytes) : visible t.reverse = visible t := List.countP_reverse
  rw [trim, rtrim, List.rdropWhile, hreverse, ← ltrim, visible_ltrim, hreverse, visible_ltrim]

theorem visible_chop_le (piece : Bytes) : visible (chop piece) ≤ visible piece :=
  ((List.dropLast_sublist _).trans (List.takeWhile_sublist _)).countP_le

/-- A piece of which only white space is lost. -/
theorem chop_of_visible_eq {piece : Bytes} (hne : piece ≠ [])
    (h : visible (chop piece) = visible piece) :
    0 ∉ piece ∧ ∃ c, isSpace c = true ∧ piece = chop piece ++ [c] := by
  have hzero : 0 ∉ piece := by
    intro hmem
    have hcut : visible (cStr piece) < visible piece := by
      obtain ⟨a, b, rfl⟩ := List.append_of_mem hmem
      have hpre : (cStr (a ++ 0 :: b)) <+: a := by
        rw [cStr, List.takeWhile_append]
        split <;> simp [List.takeWhile_prefix]
      have hle : visible (cStr (a ++ 0 :: b)) ≤ visible a := hpre.sublist.countP_le
      rw [visible_append, visible_cons (by decide)]
      omega
    have hle : visible (chop piece) ≤ visible (cStr piece) :=
      (List.dropLast_sublist _).countP_le
    omega
  refine ⟨hzero, ?_⟩
  obtain ⟨init, c, rfl⟩ := (List.eq_nil_or_concat' piece).resolve_left hne
  have hchop : chop (init ++ [c]) = init := by
    rw [chop, cStr_of_not_mem hzero, List.dropLast_concat]
  rw [hchop, visible_append] at h
  refine ⟨c, visible_eq_zero.mp (by omega : visible [c] = 0) c (by simp), by rw [hchop]⟩

end GeminiDB.Config
