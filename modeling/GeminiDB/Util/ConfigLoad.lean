import GeminiDB.Util.ConfigItems

/-!
# Indentation (`config.h`, `config.cpp`)

Which texts `load` accepts, and the tree it makes of their lines. The text is
given by its lines, without the newlines that end them.
-/

namespace GeminiDB.Config

open Outline

/-! ## The forms of a line -/

def IsBlank (line : Bytes) : Prop := ∀ c ∈ line, isSpace c = true

def IsComment (line : Bytes) : Prop := ∃ k text, line = List.replicate k 9 ++ 35 :: text

/-- `k` tabs, a key that does not start with white space, a separator and a value. -/
def IsEntry (line : Bytes) (k : ℕ) (key val : Bytes) : Prop :=
  ∃ sep, isKvSeperator sep = true ∧ line = List.replicate k 9 ++ (key ++ sep :: val) ∧
    (∀ c ∈ key, isKvSeperator c = false) ∧
    ∀ c, key.head? = some c → isSpace c = false ∧ c ≠ 35

/-- A text of these lines. -/
def fileOf (ls : List Bytes) : Bytes := ls.flatMap fun l ↦ l ++ [10]

/-! ## Which lines have which form -/

theorem tabs_append {rest : Bytes} (h : rest.head? ≠ some 9) (k : ℕ) :
    (List.replicate k 9 ++ rest).takeWhile (fun c ↦ c == 9) = List.replicate k 9 := by
  rw [List.takeWhile_append_of_pos (by simp)]
  cases rest with
  | nil => simp
  | cons c rest =>
      have hc : (c == 9) = false := by simpa using h
      rw [List.takeWhile_cons_of_neg (by simp [hc]), List.append_nil]

theorem tabs_split (line : Bytes) :
    line = List.replicate (line.takeWhile fun c ↦ c == 9).length 9 ++
      line.drop (line.takeWhile fun c ↦ c == 9).length := by
  have htabs : line.takeWhile (fun c ↦ c == 9) =
      List.replicate (line.takeWhile fun c ↦ c == 9).length 9 :=
    List.eq_replicate_of_mem fun c hc ↦ by simpa using List.mem_takeWhile_imp hc
  rw [← htabs]
  exact (List.prefix_iff_eq_append.mp (List.takeWhile_prefix _)).symm

theorem isEmptyStr_iff (line : Bytes) : isEmptyStr line = true ↔ IsBlank line := List.all_eq_true

theorem parseLine_tabs {rest : Bytes} {c : UInt8} (hhead : rest.head? = some c)
    (hc : isSpace c = false) (k : ℕ) :
    parseLine (List.replicate k 9 ++ rest) =
      if c = 35 then .comment rest.tail else parseEntry k rest := by
  have htab : rest.head? ≠ some 9 := by
    rw [hhead]
    rintro heq
    cases heq
    exact absurd hc (by decide)
  have hblank : ¬isEmptyStr (List.replicate k 9 ++ rest) = true := by
    rw [isEmptyStr_iff]
    intro hall
    have hspace := hall c (List.mem_append_right _ (List.mem_of_mem_head? hhead))
    rw [hc] at hspace
    cases hspace
  rw [parseLine, if_neg hblank]
  simp only [tabs_append htab, List.length_replicate, List.drop_left', hhead, Option.some.injEq]

theorem parseLine_blank {line : Bytes} : parseLine line = .blank ↔ IsBlank line := by
  rw [← isEmptyStr_iff, parseLine]
  by_cases hblank : isEmptyStr line = true
  · simp [hblank]
  · rw [if_neg hblank]
    refine iff_of_false (fun heq ↦ ?_) hblank
    simp only [parseEntry] at heq
    split at heq
    · cases heq
    · split at heq
      · cases heq
      · split at heq <;> cases heq

theorem parseLine_comment {line : Bytes} {text : Bytes} :
    parseLine line = .comment text ↔ ∃ k, line = List.replicate k 9 ++ 35 :: text := by
  constructor
  · intro heq
    rw [parseLine] at heq
    split at heq
    · cases heq
    · simp only at heq
      split at heq
      · next hhead =>
        cases heq
        refine ⟨(line.takeWhile fun c ↦ c == 9).length, ?_⟩
        conv_lhs => rw [tabs_split line]
        congr 1
        exact (List.cons_head?_tail hhead).symm
      · rw [parseEntry] at heq
        split at heq
        · cases heq
        · split at heq <;> cases heq
  · rintro ⟨k, rfl⟩
    rw [parseLine_tabs (c := 35) rfl (by decide)]
    rfl

theorem isComment_iff_parseLine {line : Bytes} :
    IsComment line ↔ ∃ text, parseLine line = .comment text := by
  simp only [parseLine_comment]
  exact exists_comm

theorem seperator_visible {sep : UInt8} (h : isKvSeperator sep = true) :
    isSpace sep = false ∧ sep ≠ 35 := by
  rw [isKvSeperator, Bool.or_eq_true, beq_iff_eq, beq_iff_eq] at h
  rcases h with rfl | rfl <;> decide

theorem IsEntry.exists_head {line : Bytes} {k : ℕ} {key val : Bytes} (h : IsEntry line k key val) :
    ∃ c rest, line = List.replicate k 9 ++ c :: rest ∧ isSpace c = false ∧ c ≠ 35 := by
  obtain ⟨sep, hsep, rfl, -, hhead⟩ := h
  cases key with
  | nil => exact ⟨sep, val, rfl, seperator_visible hsep⟩
  | cons c key => exact ⟨c, key ++ sep :: val, rfl, hhead c rfl⟩

theorem parseLine_of_isEntry {line : Bytes} {k : ℕ} {key val : Bytes}
    (h : IsEntry line k key val) : parseLine line = .entry k (trim key) (trim val) := by
  obtain ⟨c, rest, hline, hspace, hhash⟩ := h.exists_head
  obtain ⟨sep, hsep, rfl, hkey, -⟩ := h
  have hrest : key ++ sep :: val = c :: rest := List.append_cancel_left hline
  have hc : (key ++ sep :: val).head? = some c := by rw [hrest, List.head?_cons]
  rw [parseLine_tabs hc hspace, if_neg hhash, parseEntry]
  have hany : ¬(key ++ sep :: val).head?.any isSpace = true := by simp [hc, hspace]
  have hpos : ∀ c ∈ key, (!isKvSeperator c) = true := fun c hc ↦ by simp [hkey c hc]
  rw [if_neg hany, List.dropWhile_append_of_pos hpos, List.takeWhile_append_of_pos hpos,
    List.dropWhile_cons_of_neg (by simp [hsep]), List.takeWhile_cons_of_neg (by simp [hsep]),
    List.append_nil]

theorem isEntry_of_parseLine {line : Bytes} {k : ℕ} {key' val' : Bytes}
    (h : parseLine line = .entry k key' val') :
    ∃ key val, IsEntry line k key val ∧ key' = trim key ∧ val' = trim val := by
  rw [parseLine] at h
  split at h
  · cases h
  · simp only at h
    split at h
    · cases h
    · next hhash =>
      rw [parseEntry] at h
      split at h
      · cases h
      · next hspace =>
        split at h
        · cases h
        · next sep val hdrop =>
          cases h
          generalize hrest : line.drop (line.takeWhile fun c ↦ c == 9).length = rest at *
          refine ⟨rest.takeWhile fun c ↦ !isKvSeperator c, val, ⟨sep, ?_, ?_, ?_, ?_⟩, rfl, rfl⟩
          · have hstop := List.head?_dropWhile_not (fun c ↦ !isKvSeperator c) rest
            rw [hdrop] at hstop
            simpa using hstop
          · conv_lhs => rw [tabs_split line, hrest]
            rw [← hdrop, List.takeWhile_append_dropWhile]
          · intro c hc
            simpa using List.mem_takeWhile_imp hc
          · intro c hc
            have hmem : rest.head? = some c := by
              cases rest with
              | nil => cases hc
              | cons b rest =>
                  rw [List.takeWhile_cons] at hc
                  split at hc
                  · exact hc
                  · cases hc
            rw [hmem] at hspace hhash
            exact ⟨by simpa using hspace, fun heq ↦ hhash (congrArg some heq)⟩

/-! ## Which texts are accepted -/

/-- Some entry lies at indentation `d`, and behind it there is none of smaller indentation. -/
def Reaches (pre : List Bytes) (d : ℕ) : Prop :=
  ∃ before line after, pre = before ++ line :: after ∧ (∃ key val, IsEntry line d key val) ∧
    ∀ l ∈ after, ∀ e key val, IsEntry l e key val → d ≤ e

/-- The line is an entry, and has a line to be the child of unless it is not indented. -/
def Placed (pre : List Bytes) (line : Bytes) : Prop :=
  ∃ k key val, IsEntry line k key val ∧ (k = 0 ∨ Reaches pre (k - 1))

/-- Every line that is not blank and no comment is an entry at a proper indentation. -/
def WellFormed (ls : List Bytes) : Prop :=
  ∀ pre line post, ls = pre ++ line :: post → ¬IsBlank line → ¬IsComment line → Placed pre line

theorem isEntry_iff_parseLine {line : Bytes} {k : ℕ} :
    (∃ key val, IsEntry line k key val) ↔ ∃ key val, parseLine line = .entry k key val := by
  constructor
  · rintro ⟨key, val, h⟩
    exact ⟨_, _, parseLine_of_isEntry h⟩
  · rintro ⟨key, val, h⟩
    obtain ⟨key', val', h', -⟩ := isEntry_of_parseLine h
    exact ⟨key', val', h'⟩

theorem not_reaches_nil (d : ℕ) : ¬Reaches [] d := by
  rintro ⟨before, line, after, heq, -⟩
  exact absurd heq (by simp)

theorem reaches_concat {pre : List Bytes} {line : Bytes} {d : ℕ} :
    Reaches (pre ++ [line]) d ↔
      (∃ key val, IsEntry line d key val) ∨
        (∀ e key val, IsEntry line e key val → d ≤ e) ∧ Reaches pre d := by
  constructor
  · rintro ⟨before, l, after, heq, hentry, hafter⟩
    rcases List.eq_nil_or_concat' after with rfl | ⟨after, x, rfl⟩
    · obtain ⟨-, hl⟩ := List.append_inj' heq rfl
      cases hl
      exact .inl hentry
    · rw [← List.cons_append, ← List.append_assoc] at heq
      obtain ⟨rfl, hx⟩ := List.append_inj' heq rfl
      cases hx
      exact .inr ⟨fun e key val he ↦ hafter line (by simp) e key val he, before, l, after, rfl,
        hentry, fun x hx ↦ hafter x (List.mem_append_left _ hx)⟩
  · rintro (hentry | ⟨hle, before, l, after, rfl, hentry, hafter⟩)
    · exact ⟨pre, line, [], rfl, hentry, fun _ hl ↦ by cases hl⟩
    · refine ⟨before, l, after ++ [line], by simp, hentry, fun x hx ↦ ?_⟩
      rcases List.mem_append.mp hx with hx | hx
      · exact hafter x hx
      · rw [List.mem_singleton.mp hx]
        exact hle

theorem reaches_concat_other {pre : List Bytes} {line : Bytes}
    (hline : ∀ e key val, parseLine line ≠ .entry e key val) (d : ℕ) :
    Reaches (pre ++ [line]) d ↔ Reaches pre d := by
  have hnone (e : ℕ) : ¬∃ key val, IsEntry line e key val := by
    rw [isEntry_iff_parseLine]
    rintro ⟨key, val, h⟩
    exact hline e key val h
  rw [reaches_concat, or_iff_right (hnone d)]
  exact and_iff_right fun e key val h ↦ absurd ⟨key, val, h⟩ (hnone e)

/-- An entry reaches its indentation and the smaller ones that were reached before. -/
theorem reaches_concat_entry {pre : List Bytes} {line key val : Bytes} {e n : ℕ}
    (hline : parseLine line = .entry e key val) (hle : e ≤ n)
    (hpre : ∀ d, Reaches pre d ↔ d < n) (d : ℕ) : Reaches (pre ++ [line]) d ↔ d < e + 1 := by
  have hentry (d : ℕ) : (∃ key val, IsEntry line d key val) ↔ d = e := by
    rw [isEntry_iff_parseLine, hline]
    constructor
    · rintro ⟨key', val', heq⟩
      cases heq
      rfl
    · rintro rfl
      exact ⟨key, val, rfl⟩
  have hall : (∀ e' key val, IsEntry line e' key val → d ≤ e') ↔ d ≤ e := by
    constructor
    · intro hall
      obtain ⟨key', val', h⟩ := (hentry e).mpr rfl
      exact hall e key' val' h
    · intro hd e' key' val' h
      rwa [(hentry e').mp ⟨key', val', h⟩]
  rw [reaches_concat, hentry, hall, hpre]
  omega

/-- Whether the lines behind `pre` are well-formed. -/
def WellFormedAfter (pre ls : List Bytes) : Prop :=
  ∀ mid line post, ls = mid ++ line :: post → ¬IsBlank line → ¬IsComment line →
    Placed (pre ++ mid) line

theorem wellFormedAfter_cons {pre : List Bytes} {line : Bytes} {ls : List Bytes} :
    WellFormedAfter pre (line :: ls) ↔
      (¬IsBlank line → ¬IsComment line → Placed pre line) ∧
        WellFormedAfter (pre ++ [line]) ls := by
  constructor
  · intro hall
    refine ⟨fun hblank hcomment ↦ ?_, fun mid l post heq hblank hcomment ↦ ?_⟩
    · simpa using hall [] line ls rfl hblank hcomment
    · simpa using hall (line :: mid) l post (by rw [heq]; rfl) hblank hcomment
  · rintro ⟨hfirst, hrest⟩ mid l post heq hblank hcomment
    cases mid with
    | nil =>
        cases heq
        simpa using hfirst hblank hcomment
    | cons m mid =>
        obtain ⟨rfl, htail⟩ := List.cons.inj heq
        simpa using hrest mid l post htail hblank hcomment

/-- Behind lines that reach the indentations below `n`. -/
theorem wellFormedAfter_iff {n : ℕ} {pre : List Bytes} (hpre : ∀ d, Reaches pre d ↔ d < n)
    (ls : List Bytes) : WellFormedAfter pre ls ↔ Rising n (ls.map parseLine) := by
  induction ls generalizing n pre with
  | nil => exact iff_of_true (fun mid line post heq ↦ absurd heq (by simp)) trivial
  | cons line ls ih =>
      rw [wellFormedAfter_cons, List.map_cons]
      cases hparse : parseLine line with
      | blank =>
          have hnext (d : ℕ) : Reaches (pre ++ [line]) d ↔ d < n := by
            rw [reaches_concat_other (by simp [hparse]), hpre]
          rw [ih hnext]
          exact and_iff_right fun hblank ↦ absurd (parseLine_blank.mp hparse) hblank
      | comment text =>
          have hnext (d : ℕ) : Reaches (pre ++ [line]) d ↔ d < n := by
            rw [reaches_concat_other (by simp [hparse]), hpre]
          rw [ih hnext]
          exact and_iff_right fun _ hcomment ↦
            absurd (isComment_iff_parseLine.mpr ⟨text, hparse⟩) hcomment
      | bad =>
          have hblank : ¬IsBlank line := by simp [← parseLine_blank, hparse]
          have hcomment : ¬IsComment line := by simp [isComment_iff_parseLine, hparse]
          refine iff_of_false (fun ⟨hfirst, _⟩ ↦ ?_) id
          obtain ⟨k, key, val, hentry, -⟩ := hfirst hblank hcomment
          rw [parseLine_of_isEntry hentry] at hparse
          cases hparse
      | entry e key val =>
          have hblank : ¬IsBlank line := by simp [← parseLine_blank, hparse]
          have hcomment : ¬IsComment line := by simp [isComment_iff_parseLine, hparse]
          have hplaced : Placed pre line ↔ e ≤ n := by
            constructor
            · rintro ⟨k, key', val', hentry, hk⟩
              rw [parseLine_of_isEntry hentry] at hparse
              cases hparse
              rw [hpre] at hk
              omega
            · intro hle
              obtain ⟨key', val', hentry, -⟩ := isEntry_of_parseLine hparse
              refine ⟨e, key', val', hentry, ?_⟩
              rw [hpre]
              omega
          constructor
          · rintro ⟨hfirst, hrest⟩
            have hle := hplaced.mp (hfirst hblank hcomment)
            exact ⟨hle, (ih (reaches_concat_entry hparse hle hpre)).mp hrest⟩
          · rintro ⟨hle, hrest⟩
            exact ⟨fun _ _ ↦ hplaced.mpr hle, (ih (reaches_concat_entry hparse hle hpre)).mpr hrest⟩

theorem wellFormed_iff (ls : List Bytes) : WellFormed ls ↔ Rising 0 (ls.map parseLine) := by
  have hnil (d : ℕ) : Reaches [] d ↔ d < 0 := iff_of_false (not_reaches_nil d) (Nat.not_lt_zero d)
  rw [← wellFormedAfter_iff hnil]
  simp only [WellFormed, WellFormedAfter, List.nil_append]

/-! ## Reading short lines -/

theorem fgetsFrom_line (size : ℕ) {buf line : Bytes} (hline : 10 ∉ line)
    (hlen : buf.length + line.length + 1 < size) (rest : Bytes) :
    fgetsFrom size buf (line ++ 10 :: rest) =
      (buf ++ line ++ [10]) :: fgetsFrom size [] rest := by
  induction line generalizing buf with
  | nil => rw [List.nil_append, fgetsFrom, if_pos (.inl rfl), List.append_nil]
  | cons c line ih =>
      simp only [List.mem_cons, not_or] at hline
      rw [List.length_cons] at hlen
      have hgoes : ¬(c = 10 ∨ size ≤ buf.length + 2) := by
        rintro (rfl | hfull)
        · exact hline.1 rfl
        · omega
      rw [List.cons_append, fgetsFrom, if_neg hgoes,
        ih hline.2 (by rw [List.length_append, List.length_singleton]; omega)]
      simp

theorem reads_fileOf {ls : List Bytes}
    (hls : ∀ l ∈ ls, l.length + 1 < configMaxLine ∧ 10 ∉ l) :
    reads (fileOf ls) = ls.map fun l ↦ l ++ [10] := by
  rw [reads, fileOf]
  induction ls with
  | nil => rfl
  | cons l ls ih =>
      obtain ⟨hlen, hl⟩ := hls l List.mem_cons_self
      rw [List.flatMap_cons, List.append_assoc, List.singleton_append,
        fgetsFrom_line configMaxLine hl (by rw [List.length_nil]; omega), List.map_cons,
        ih fun l' hl' ↦ hls l' (List.mem_cons_of_mem l hl')]
      rfl

theorem cStr_of_not_mem {s : Bytes} (h : 0 ∉ s) : cStr s = s := by
  rw [cStr, List.takeWhile_eq_self_iff]
  intro c hc
  rw [decide_eq_true_eq]
  rintro rfl
  exact h hc

theorem load_fileOf {ls : List Bytes}
    (hls : ∀ l ∈ ls, l.length + 1 < configMaxLine ∧ 10 ∉ l ∧ 0 ∉ l) :
    load (fileOf ls) =
      (answer (feedAll .start (ls.map parseLine))).map fun s ↦ s.cfg.root := by
  have hwhole {l : Bytes} (hl : l ∈ ls) : cStr (l ++ [10]) = l ++ [10] :=
    cStr_of_not_mem (by simp [(hls l hl).2.2])
  have hbufs : ∀ buf ∈ ls.map fun l ↦ l ++ [10], cStr buf ≠ [] := by
    intro buf hbuf
    obtain ⟨l, hl, rfl⟩ := List.mem_map.mp hbuf
    rw [hwhole hl]
    simp
  have hitems : (ls.map fun l ↦ l ++ [10]).map (fun buf ↦ parseLine (chop buf)) =
      ls.map parseLine := by
    rw [List.map_map]
    apply List.map_congr_left
    intro l hl
    rw [Function.comp_apply, chop, hwhole hl, List.dropLast_concat]
  have hshort : ∀ l ∈ ls, l.length + 1 < configMaxLine ∧ 10 ∉ l := fun l hl ↦
    ⟨(hls l hl).1, (hls l hl).2.1⟩
  rw [load, reads_fileOf hshort, loadLines_eq _ hbufs, hitems]

/-! ## The tree of the lines -/

/-- The lines that are not blank. -/
def shown (ls : List Bytes) : List Bytes := ls.filter fun l ↦ !isEmptyStr l

/-- The `j`-th line is an entry at indentation `d`. -/
def EntryAt (ls : List Bytes) (j d : ℕ) : Prop :=
  ∃ line key val, ls[j]? = some line ∧ IsEntry line d key val

/-- The nodes of the tree, in preorder, are the lines that are not blank, in the order of the
file; the parent of an entry is the root, or the nearest entry before it with one tab less. -/
structure MatchesLines (ls : List Bytes) (root : Config) : Prop where
  length : root.outline.length = (shown ls).length
  comment : ∀ (i k : ℕ) (text : Bytes), (shown ls)[i]? = some (List.replicate k 9 ++ 35 :: text) →
    ∃ p, root.outline[i]? = some (p, Setting.mk (ascii "#") text)
  entry : ∀ (i k : ℕ) (line key val : Bytes), (shown ls)[i]? = some line → IsEntry line k key val →
    ∃ p n, root.outline[i]? = some (p ++ [n], Setting.mk (trim key) (trim val)) ∧
      (k = 0 → p = []) ∧
      (0 < k → ∃ j b, IsGreatest {j | j < i ∧ EntryAt (shown ls) j (k - 1)} j ∧
        root.outline[j]? = some (p, b))

/-- Lines that are not bad and not blank are the steps of the outline. -/
theorem steps_map {n : ℕ} {ls : List Bytes} (h : Rising n (ls.map parseLine)) :
    (steps (ls.map parseLine)).map some = (shown ls).map fun l ↦ (parseLine l).step? := by
  induction ls generalizing n with
  | nil => rfl
  | cons l ls ih =>
      have hshown (hl : parseLine l ≠ .blank) : shown (l :: ls) = l :: shown ls := by
        have hne : ¬isEmptyStr l = true := by
          rwa [isEmptyStr_iff, ← parseLine_blank]
        rw [shown, List.filter_cons_of_pos (by simpa using hne), shown]
      cases hparse : parseLine l with
      | blank =>
          have hempty := (isEmptyStr_iff l).mpr (parseLine_blank.mp hparse)
          rw [List.map_cons, hparse] at h
          rw [shown, List.filter_cons_of_neg (by simp [hempty]), List.map_cons, hparse]
          exact ih h
      | comment text =>
          rw [List.map_cons, hparse] at h
          rw [hshown (by simp [hparse]), List.map_cons, List.map_cons, hparse, ← ih h]
          rfl
      | bad =>
          rw [List.map_cons, hparse] at h
          exact h.elim
      | entry k key val =>
          rw [List.map_cons, hparse] at h
          rw [hshown (by simp [hparse]), List.map_cons, List.map_cons, hparse, ← ih h.2]
          rfl

theorem matchesLines_of_reads {n : ℕ} {ls : List Bytes} (h : Rising n (ls.map parseLine))
    {root : Config} (hreads : Reads (steps (ls.map parseLine)) root) : MatchesLines ls root := by
  have hmap := steps_map h
  have hstep (i : ℕ) : (steps (ls.map parseLine))[i]? =
      (shown ls)[i]?.bind fun l ↦ (parseLine l).step? := by
    have hi := congrArg (fun l ↦ l[i]?.join) hmap
    simp only [List.getElem?_map] at hi
    cases hleft : (steps (ls.map parseLine))[i]? <;> cases hright : (shown ls)[i]? <;>
      simp_all
  have hnode {i k : ℕ} {a : Setting} : (steps (ls.map parseLine))[i]? = some (.node k a) ↔
      ∃ line key val, (shown ls)[i]? = some line ∧ IsEntry line k key val ∧
        a = ⟨trim key, trim val⟩ := by
    rw [hstep, Option.bind_eq_some_iff]
    apply exists_congr
    intro line
    constructor
    · rintro ⟨hline, hitem⟩
      cases hparse : parseLine line with
      | entry k' key' val' =>
          rw [hparse] at hitem
          cases hitem
          obtain ⟨key, val, hentry, rfl, rfl⟩ := isEntry_of_parseLine hparse
          exact ⟨key, val, hline, hentry, rfl⟩
      | blank => simp [hparse, Item.step?] at hitem
      | comment text => simp [hparse, Item.step?] at hitem
      | bad => simp [hparse, Item.step?] at hitem
    · rintro ⟨key, val, hline, hentry, rfl⟩
      exact ⟨hline, by rw [parseLine_of_isEntry hentry]; rfl⟩
  have hlevel (j d : ℕ) : levelAt (steps (ls.map parseLine)) j = some d ↔
      EntryAt (shown ls) j d := by
    rw [levelAt, Option.bind_eq_some_iff, EntryAt]
    constructor
    · rintro ⟨step, hj, hd⟩
      cases step with
      | leaf a => cases hd
      | node d' a =>
          cases hd
          obtain ⟨line, key, val, hline, hentry, -⟩ := hnode.mp hj
          exact ⟨line, key, val, hline, hentry⟩
    · rintro ⟨line, key, val, hline, hentry⟩
      exact ⟨_, hnode.mpr ⟨line, key, val, hline, hentry, rfl⟩, rfl⟩
  refine ⟨?_, fun i k text hi ↦ ?_, fun i k line key val hi hentry ↦ ?_⟩
  · rw [hreads.length]
    simpa using congrArg List.length hmap
  · have hleaf : (steps (ls.map parseLine))[i]? = some (.leaf ⟨ascii "#", text⟩) := by
      rw [hstep, hi, Option.bind_some, parseLine_comment.mpr ⟨k, rfl⟩]
      rfl
    have hlabel := congrArg (fun l ↦ l[i]?) hreads.labels
    simp only [List.getElem?_map, hleaf, Option.map_some, Option.map_eq_some_iff] at hlabel
    obtain ⟨⟨p, b⟩, hp, hb⟩ := hlabel
    exact ⟨p, by rw [hp]; exact congrArg (fun b ↦ some (p, b)) hb⟩
  · have hstepi := hnode.mpr ⟨line, key, val, hi, hentry, rfl⟩
    obtain ⟨p, n, hp, hout, hparent⟩ := hreads.node i k _ hstepi
    refine ⟨p, n, hout, fun hk ↦ List.eq_nil_of_length_eq_zero (hp.trans hk), fun hk ↦ ?_⟩
    obtain ⟨j, b, hnear, hj⟩ := hparent (k - 1) (by omega)
    refine ⟨j, b, ?_, hj⟩
    simpa only [Nearest, hlevel] using hnear

/-! ## The indentation of the first entry -/

/-- The first entry is indented by exactly one tab. -/
def StartsIndented (ls : List Bytes) : Prop :=
  ∃ pre line post key val, ls = pre ++ line :: post ∧ IsEntry line 1 key val ∧
    ∀ l ∈ pre, ∀ k key val, ¬IsEntry l k key val

theorem startsIndented_cons_other {line : Bytes} {ls : List Bytes}
    (hline : ∀ k key val, ¬IsEntry line k key val) :
    StartsIndented (line :: ls) ↔ StartsIndented ls := by
  constructor
  · rintro ⟨pre, l, post, key, val, heq, hentry, hpre⟩
    cases pre with
    | nil =>
        cases heq
        exact absurd hentry (hline 1 key val)
    | cons first pre =>
        obtain ⟨rfl, htail⟩ := List.cons.inj heq
        exact ⟨pre, l, post, key, val, htail, hentry,
          fun l' hl' ↦ hpre l' (List.mem_cons_of_mem line hl')⟩
  · rintro ⟨pre, l, post, key, val, rfl, hentry, hpre⟩
    refine ⟨line :: pre, l, post, key, val, rfl, hentry, fun l' hl' ↦ ?_⟩
    rcases List.mem_cons.mp hl' with rfl | hl'
    · exact hline
    · exact hpre l' hl'

theorem startsIndented_cons_entry {line key val : Bytes} {k : ℕ}
    (hline : parseLine line = .entry k key val) (ls : List Bytes) :
    StartsIndented (line :: ls) ↔ k = 1 := by
  obtain ⟨key', val', hentry, -⟩ := isEntry_of_parseLine hline
  constructor
  · rintro ⟨pre, l, post, key, val, heq, hone, hpre⟩
    cases pre with
    | nil =>
        cases heq
        rw [parseLine_of_isEntry hone] at hline
        cases hline
        rfl
    | cons first pre =>
        obtain ⟨rfl, -⟩ := List.cons.inj heq
        exact absurd hentry (hpre line List.mem_cons_self k key' val')
  · rintro rfl
    exact ⟨[], line, ls, key', val', rfl, hentry, fun _ hl ↦ by cases hl⟩

/-- The two bounds for the first entry differ on those that are indented by one. -/
theorem rising_one_iff (ls : List Bytes) :
    Rising 1 (ls.map parseLine) ∧ ¬Rising 0 (ls.map parseLine) ↔
      StartsIndented ls ∧ Rising 1 (ls.map parseLine) := by
  rw [and_comm]
  apply and_congr_left
  intro hrising
  induction ls with
  | nil =>
      refine iff_of_false (fun h ↦ h trivial) ?_
      rintro ⟨pre, l, post, key, val, heq, -⟩
      exact absurd heq (by simp)
  | cons line ls ih =>
      have hother (hne : ∀ k key val, parseLine line ≠ .entry k key val) (k : ℕ)
          (key val : Bytes) : ¬IsEntry line k key val :=
        fun h ↦ hne _ _ _ (parseLine_of_isEntry h)
      rw [List.map_cons] at hrising ⊢
      cases hparse : parseLine line with
      | blank =>
          rw [hparse] at hrising
          rw [startsIndented_cons_other (hother (by simp [hparse]))]
          exact ih hrising
      | comment text =>
          rw [hparse] at hrising
          rw [startsIndented_cons_other (hother (by simp [hparse]))]
          exact ih hrising
      | bad =>
          rw [hparse] at hrising
          exact hrising.elim
      | entry k key val =>
          rw [hparse] at hrising
          obtain ⟨hle, hrest⟩ := hrising
          rw [startsIndented_cons_entry hparse, Rising]
          constructor
          · intro hnot
            by_contra hk
            exact hnot ⟨by omega, hrest⟩
          · rintro rfl ⟨hzero, -⟩
            omega

/-- `load` gives the right tree, and only where there is one, unless the first entry is
indented by one tab and the indentation never rises by more than one. -/
theorem load_indentation_iff {ls : List Bytes}
    (hls : ∀ l ∈ ls, l.length + 1 < configMaxLine ∧ 10 ∉ l ∧ 0 ∉ l) :
    (((∃ root, load (fileOf ls) = .ok root) ↔ WellFormed ls) ∧
        ∀ root, load (fileOf ls) = .ok root → MatchesLines ls root) ↔
      ¬(StartsIndented ls ∧ Rising 1 (ls.map parseLine)) := by
  rw [← rising_one_iff, wellFormed_iff, load_fileOf hls]
  have hsome : (feedAll .start (ls.map parseLine)).isSome ↔ Rising 1 (ls.map parseLine) :=
    feedAll_isSome_iff .start _
  cases hfeed : feedAll .start (ls.map parseLine) with
  | none =>
      have hrising : ¬Rising 1 (ls.map parseLine) := by simpa [hfeed] using hsome
      have hnone (root : Config) :
          (answer none).map (fun s ↦ s.cfg.root) ≠ .ok root := nofun
      refine iff_of_true ⟨iff_of_false (fun ⟨root, h⟩ ↦ hnone root h) ?_, ?_⟩ ?_
      · exact fun h ↦ hrising (h.mono (Nat.zero_le 1))
      · exact fun root h ↦ absurd h (hnone root)
      · exact fun h ↦ hrising h.1
  | some s =>
      have hrising : Rising 1 (ls.map parseLine) := by simpa [hfeed] using hsome
      have hok (root : Config) :
          (answer (some s)).map (fun s ↦ s.cfg.root) = .ok root ↔ s.cfg.root = root :=
        ⟨fun h ↦ Except.ok.inj h, fun h ↦ congrArg Except.ok h⟩
      constructor
      · rintro ⟨hiff, -⟩ ⟨-, hzero⟩
        exact hzero (hiff.mp ⟨s.cfg.root, (hok _).mpr rfl⟩)
      · intro hnot
        have hzero : Rising 0 (ls.map parseLine) := by
          by_contra h
          exact hnot ⟨hrising, h⟩
        refine ⟨iff_of_true ⟨s.cfg.root, (hok _).mpr rfl⟩ hzero, fun root hroot ↦ ?_⟩
        obtain ⟨s', hs', hcfg⟩ := feedAll_of_rising aligned_start hzero
        rw [hfeed] at hs'
        cases hs'
        rw [← (hok root).mp hroot, hcfg]
        exact matchesLines_of_reads hzero (reads_build _ (nested_of_rising hzero))

/-- Entries at three indentations, a comment and a blank line. -/
theorem load_indentation_nested :
    let ls := [ascii "a: b", ascii "\tc = d", ascii "", ascii "# x", ascii "\t\te:", ascii "f=g"]
    ((∃ root, load (fileOf ls) = .ok root) ↔ WellFormed ls) ∧
      ∀ root, load (fileOf ls) = .ok root → MatchesLines ls root := by
  intro ls
  have hls : ∀ l ∈ ls, l.length + 1 < configMaxLine ∧ 10 ∉ l ∧ 0 ∉ l := by decide +kernel
  apply (load_indentation_iff hls).mpr
  intro h
  have hzero : Rising 0 (ls.map parseLine) := by decide +kernel
  exact ((rising_one_iff ls).mpr h).2 hzero

/-- A text whose only entry is indented is accepted. -/
theorem load_accepts_indented :
    ¬∀ ls : List Bytes, (∀ l ∈ ls, l.length + 1 < configMaxLine ∧ 10 ∉ l ∧ 0 ∉ l) →
      ((∃ root, load (fileOf ls) = .ok root) ↔ WellFormed ls) ∧
        ∀ root, load (fileOf ls) = .ok root → MatchesLines ls root := by
  intro hall
  have hiff := (hall [ascii "\ta: b"] (by decide +kernel)).1
  have hload : ∃ root, load (fileOf [ascii "\ta: b"]) = .ok root := ⟨_, rfl⟩
  rw [wellFormed_iff] at hiff
  exact absurd (hiff.mp hload) (by decide +kernel)

end GeminiDB.Config
