import Mathlib.Algebra.Order.BigOperators.Group.List
import GeminiDB.Util.ConfigLines

/-!
# When a text is loaded whole (`config.h`, `config.cpp`)

A tree with as many visible characters as the text has lost none of them, so
that each line was read as one piece and white space.
-/

namespace GeminiDB.Config

open Outline

/-! ## Visible characters of a tree -/

/-- The visible characters that the line of a node has at least. -/
def weight : Step Setting → ℕ
  | .leaf a => visible a.key + visible a.val
  | .node _ a => visible a.key + 1 + visible a.val

theorem visible_of_isEntry {line key val : Bytes} {k : ℕ} (h : IsEntry line k key val) :
    visible line = visible key + 1 + visible val := by
  obtain ⟨sep, hsep, rfl, -, -⟩ := h
  rw [visible_append, visible_append, visible_tabs, visible_cons (seperator_visible hsep).1]
  omega

theorem weight_outlineFrom {ss : List Bytes} (hbad : .bad ∉ ss.map parseLine)
    (depth lastIndent : ℕ) :
    ((outlineFrom depth lastIndent (ss.map parseLine)).map weight).sum =
      (ss.map visible).sum := by
  induction ss generalizing depth lastIndent with
  | nil => rfl
  | cons s ss ih =>
      rw [List.map_cons, List.mem_cons, not_or] at hbad
      have hrest := ih hbad.2
      rw [List.map_cons, List.map_cons, List.sum_cons]
      cases hparse : parseLine s with
      | blank =>
          rw [visible_eq_zero.mpr (parseLine_blank.mp hparse), Nat.zero_add]
          exact hrest depth lastIndent
      | bad => exact absurd hparse.symm hbad.1
      | comment text =>
          obtain ⟨k, rfl⟩ := parseLine_comment.mp hparse
          have hweight : weight (.leaf ⟨ascii "#", text⟩) = 1 + visible text := rfl
          rw [outlineFrom, List.map_cons, List.sum_cons, hrest, hweight, visible_append,
            visible_tabs, visible_cons (by decide)]
          omega
      | entry k key' val' =>
          obtain ⟨key, val, hentry, rfl, rfl⟩ := isEntry_of_parseLine hparse
          rw [outlineFrom, List.map_cons, List.sum_cons, hrest, weight, visible_trim,
            visible_trim, visible_of_isEntry hentry]

theorem isSome_level_iff {depth lastIndent : ℕ} {ss : List Bytes} {st : Step Setting}
    (h : st ∈ outlineFrom depth lastIndent (ss.map parseLine)) :
    st.level.isSome ↔ ¬isComment st.label = true := by
  obtain ⟨item, hitem, hadds⟩ := exists_adds h
  obtain ⟨s, -, rfl⟩ := List.mem_map.mp hitem
  cases hparse : parseLine s with
  | blank =>
      rw [hparse] at hadds
      exact hadds.elim
  | bad =>
      rw [hparse] at hadds
      exact hadds.elim
  | comment text =>
      rw [hparse] at hadds
      cases st with
      | leaf a =>
          obtain rfl : a = ⟨ascii "#", text⟩ := hadds
          exact iff_of_false (by simp [Step.level]) (by simp [isComment, Step.label, ascii])
      | node d a => exact hadds.elim
  | entry k key' val' =>
      rw [hparse] at hadds
      obtain ⟨key, val, ⟨-, -, -, -, hhead⟩, rfl, rfl⟩ := isEntry_of_parseLine hparse
      cases st with
      | leaf a => exact hadds.elim
      | node d a =>
          obtain rfl : a = ⟨trim key, trim val⟩ := hadds
          apply iff_of_true rfl
          rw [Step.label, isComment, beq_iff_eq]
          intro hhash
          exact (hhead 35 (head?_trim (fun c hc ↦ (hhead c hc).1) hhash)).2 rfl

theorem pieceItems_eq_map (text : Bytes) :
    pieceItems text = ((reads text).map chop).map parseLine := by
  rw [List.map_map]
  rfl

theorem items_eq_map (text : Bytes) :
    items text = ((lines text).map lineText).map parseLine := by
  rw [List.map_map]
  rfl

/-- The pieces of a text that is loaded as it would be whole, and its lines, are read as the
same outline. -/
theorem outline_eq_of_load {text : Bytes} (h : load text = loadWhole text)
    (hrising : Rising 1 (items text)) :
    .bad ∉ pieceItems text ∧ outlineFrom 0 0 (pieceItems text) = outlineFrom 0 0 (items text) := by
  obtain ⟨s, hs⟩ := Option.isSome_iff_exists.mp
    ((feedAll_isSome_iff Load.start (items text)).mpr hrising)
  rw [load, loadWhole, hs] at h
  cases hlines : loadLines .start (reads text) with
  | error e =>
      rw [hlines] at h
      cases h
  | ok r =>
      rw [hlines] at h
      have hroot : r.cfg.root = s.cfg.root := Except.ok.inj h
      obtain ⟨-, hr⟩ := loadLines_eq_ok hlines
      refine ⟨bad_not_mem_of_rising (n := 1) ?_, ?_⟩
      · exact (feedAll_isSome_iff Load.start _).mp (Option.isSome_iff_exists.mpr ⟨r, hr⟩)
      · obtain ⟨hnested, hcfg⟩ := feedAll_eq_build hr
        obtain ⟨hnested', hcfg'⟩ := feedAll_eq_build hs
        have hpieces : Reads (outlineFrom 0 0 (pieceItems text)) s.cfg.root := by
          rw [← hroot, hcfg]
          exact reads_build _ hnested
        have hlines : Reads (outlineFrom 0 0 (items text)) s.cfg.root := by
          rw [hcfg']
          exact reads_build _ hnested'
        refine @Reads.steps_eq _ _ _ _ (fun a ↦ ¬isComment a = true) hpieces hlines ?_ ?_
        · rw [pieceItems_eq_map]
          exact fun st ↦ isSome_level_iff
        · rw [items_eq_map]
          exact fun st ↦ isSome_level_iff

theorem visible_lineText {l : Bytes} (h : IsLine l) : visible (lineText l) = visible l := by
  rcases h.lineText_eq with ⟨-, heq⟩ | heq
  · rw [heq]
  · conv_rhs => rw [heq, visible_append]
    rfl

theorem visible_flatten (ls : List Bytes) : visible ls.flatten = (ls.map visible).sum :=
  List.countP_flatten

/-- No piece loses a visible character. -/
def Kept (text : Bytes) : Prop := ∀ piece ∈ reads text, visible (chop piece) = visible piece

theorem kept_of_outline_eq {text : Bytes} (hbad : .bad ∉ pieceItems text)
    (hrising : Rising 1 (items text))
    (houtline : outlineFrom 0 0 (pieceItems text) = outlineFrom 0 0 (items text)) :
    Kept text := by
  have hlines : ((lines text).map fun l ↦ visible (lineText l)) = (lines text).map visible :=
    List.map_congr_left fun l hl ↦ visible_lineText (isLine_of_mem_lines hl)
  have hsum : ((reads text).map fun piece ↦ visible (chop piece)).sum =
      ((reads text).map visible).sum := by
    have hpieces := weight_outlineFrom (pieceItems_eq_map text ▸ hbad) 0 0
    have hwhole := weight_outlineFrom (items_eq_map text ▸ bad_not_mem_of_rising hrising) 0 0
    rw [← pieceItems_eq_map, houtline, List.map_map] at hpieces
    rw [← items_eq_map, List.map_map] at hwhole
    calc ((reads text).map fun piece ↦ visible (chop piece)).sum
        = ((lines text).map fun l ↦ visible (lineText l)).sum := hpieces.symm.trans hwhole
      _ = ((lines text).map visible).sum := by rw [hlines]
      _ = ((reads text).map visible).sum := by
          rw [← visible_flatten, ← visible_flatten, lines, reads, linesFrom_flatten,
            fgetsFrom_flatten]
  intro piece hpiece
  by_contra hne
  have hlt := List.sum_lt_sum (fun piece ↦ visible (chop piece)) visible
    (fun piece _ ↦ visible_chop_le piece)
    ⟨piece, hpiece, Nat.lt_of_le_of_ne (visible_chop_le piece) hne⟩
  omega

/-! ## Lines that keep their visible characters -/

theorem Kept.isBlank {text : Bytes} (h : Kept text) (hnone : noted (pieceItems text) = []) :
    IsBlank text := by
  have hpieces : ∀ n ∈ (reads text).map visible, n = 0 := by
    intro n hn
    obtain ⟨piece, hpiece, rfl⟩ := List.mem_map.mp hn
    have hitem := List.filter_eq_nil_iff.mp hnone _ (List.mem_map_of_mem hpiece)
    rw [← h piece hpiece, visible_eq_zero, ← parseLine_blank]
    simpa using hitem
  have hflatten : (reads text).flatten = text := fgetsFrom_flatten _ [] text
  rw [← visible_eq_zero, ← hflatten, visible_flatten]
  exact List.sum_eq_zero hpieces

theorem Kept.drop {l : Bytes} (h : Kept l) (hl : IsLine l) : Kept (l.drop 4095) := by
  intro piece hpiece
  apply h piece
  rw [reads_cons hl]
  exact List.mem_cons_of_mem _ hpiece

theorem Kept.tabs {rest : Bytes} {m j : ℕ} (hrest : IsLine rest)
    (h : Kept (List.replicate (4095 * m + j) 9 ++ rest)) : Kept (List.replicate j 9 ++ rest) := by
  intro piece hpiece
  apply h piece
  rw [reads_tabs hrest]
  exact List.mem_append_right _ hpiece

/-- The first piece with a visible character ends in white space. -/
theorem Kept.first_piece {rest : Bytes} {c : UInt8} {j : ℕ} (hj : j < 4095)
    (h : Kept (List.replicate j 9 ++ c :: rest)) (hl : IsLine (List.replicate j 9 ++ c :: rest))
    (hc : isSpace c = false) :
    ∃ text last, isSpace last = true ∧
      (List.replicate j 9 ++ c :: rest).take 4095 = List.replicate j 9 ++ c :: text ++ [last] ∧
      chop ((List.replicate j 9 ++ c :: rest).take 4095) = List.replicate j 9 ++ c :: text := by
  have htake : (List.replicate j 9 ++ c :: rest).take 4095 =
      List.replicate j 9 ++ c :: rest.take (4094 - j) := by
    rw [List.take_append, List.length_replicate, List.take_of_length_le (by simp; omega),
      show 4095 - j = (4094 - j) + 1 by omega, List.take_succ_cons]
  have hmem : (List.replicate j 9 ++ c :: rest).take 4095 ∈
      reads (List.replicate j 9 ++ c :: rest) := by
    rw [reads_cons hl]
    exact List.mem_cons_self
  obtain ⟨-, last, hlast, hpiece⟩ := chop_of_visible_eq (by rw [htake]; simp) (h _ hmem)
  rcases List.eq_nil_or_concat' (rest.take (4094 - j)) with hnil | ⟨text, last', htext⟩
  · rw [htake, hnil] at hpiece
    obtain ⟨-, heq⟩ := List.append_inj' hpiece rfl
    cases heq
    rw [hc] at hlast
    cases hlast
  · have hall : (List.replicate j 9 ++ c :: rest).take 4095 =
        List.replicate j 9 ++ c :: text ++ [last'] := by
      rw [htake, htext]
      simp
    obtain ⟨hchop, heq⟩ := List.append_inj' (hall.symm.trans hpiece) rfl
    cases heq
    exact ⟨text, last, hlast, hall, hchop.symm⟩

theorem IsLine.eq_tabs_cons {l rest : Bytes} {c : UInt8} {k : ℕ} (h : IsLine l)
    (hline : lineText l = List.replicate k 9 ++ c :: rest) :
    ∃ rest', (rest' = rest ∨ rest' = rest ++ [10]) ∧ l = List.replicate k 9 ++ c :: rest' ∧
      IsLine (c :: rest') := by
  have hdrop : IsLine (l.drop k) := by
    apply h.drop
    have hle : (lineText l).length ≤ l.length := (List.takeWhile_prefix _).length_le
    rw [hline, List.length_append, List.length_replicate, List.length_cons] at hle
    omega
  rcases h.lineText_eq with ⟨-, heq⟩ | heq
  · rw [hline] at heq
    rw [← heq, List.drop_left' List.length_replicate] at hdrop
    exact ⟨rest, .inl rfl, heq.symm, hdrop⟩
  · rw [hline, List.append_assoc, List.cons_append] at heq
    rw [heq, List.drop_left' List.length_replicate] at hdrop
    exact ⟨rest ++ [10], .inr rfl, heq, hdrop⟩

theorem Kept.noted_eq {rest : Bytes} {c : UInt8} {k : ℕ} (hl : IsLine (c :: rest))
    (h : Kept (List.replicate k 9 ++ c :: rest)) (hc : isSpace c = false) :
    ∃ text last, isSpace last = true ∧
      (List.replicate (k % 4095) 9 ++ c :: rest).take 4095 =
        List.replicate (k % 4095) 9 ++ c :: text ++ [last] ∧
      Kept ((List.replicate (k % 4095) 9 ++ c :: rest).drop 4095) ∧
      noted (pieceItems (List.replicate k 9 ++ c :: rest)) =
        noted (parseLine (List.replicate (k % 4095) 9 ++ c :: text) ::
          pieceItems ((List.replicate (k % 4095) 9 ++ c :: rest).drop 4095)) := by
  have hk : List.replicate k (9 : UInt8) = List.replicate (4095 * (k / 4095) + k % 4095) 9 := by
    rw [Nat.div_add_mod]
  rw [hk] at h ⊢
  have hkept := h.tabs hl
  have hline := hl.tabs_append (k % 4095)
  obtain ⟨text, last, hlast, htake, hchop⟩ :=
    hkept.first_piece (Nat.mod_lt k (by decide)) hline hc
  refine ⟨text, last, hlast, htake, hkept.drop hline, ?_⟩
  rw [noted_pieceItems_tabs hl, pieceItems_cons hline, hchop]

theorem Kept.harmless_of_comment {l text : Bytes} (h : Kept l) (hl : IsLine l)
    (hparse : parseLine (lineText l) = .comment text) :
    ∃ text' is, noted (pieceItems l) = .comment text' :: noted is ∧
      (text' = text → Harmless l) := by
  obtain ⟨k, hline⟩ := parseLine_comment.mp hparse
  obtain ⟨rest, hrest, rfl, hl'⟩ := hl.eq_tabs_cons hline
  obtain ⟨text', last, -, htake, -, hnoted⟩ := h.noted_eq hl' (by decide)
  rw [parseLine_comment.mpr ⟨_, rfl⟩, noted_cons (by simp)] at hnoted
  refine ⟨text', _, hnoted, ?_⟩
  rintro rfl
  have hlen := congrArg List.length htake
  simp only [List.length_take, List.length_append, List.length_cons, List.length_nil,
    List.length_replicate] at hlen
  -- the piece is longer than the comment, so that it has the newline
  rcases hrest with rfl | rfl
  · omega
  · refine Harmless.of_comment hline ?_ ?_
    · rw [← List.cons_append, ← List.append_assoc, List.getLast?_concat]
    · simp only [List.length_append, List.length_cons, List.length_nil, List.length_replicate]
      omega

theorem drop_of_take_eq {l x : Bytes} {last : UInt8} {n : ℕ} (h : l.take n = x ++ [last]) :
    l.drop (min l.length n - 1) = last :: l.drop n := by
  have hlen : min n l.length = x.length + 1 := by
    rw [← List.length_take, h]
    exact List.length_append
  rw [Nat.min_comm, hlen, Nat.add_sub_cancel]
  conv_lhs => rw [← List.take_append_drop n l, h, List.append_assoc]
  exact List.drop_left' rfl

theorem parseEntry_cases (indent : ℕ) (s : Bytes) :
    parseEntry indent s = .bad ∨ ∃ key val, parseEntry indent s = .entry indent key val := by
  rw [parseEntry]
  split
  · exact .inl rfl
  · split
    · exact .inl rfl
    · exact .inr ⟨_, _, rfl⟩

theorem Kept.harmless_of_entry {l key val : Bytes} {k : ℕ} (h : Kept l) (hl : IsLine l)
    (hparse : parseLine (lineText l) = .entry k key val) (hbad : .bad ∉ pieceItems l) :
    ∃ key' val' is, noted (pieceItems l) = .entry (k % 4095) key' val' :: noted is ∧
      (k % 4095 = k → noted is = [] → Harmless l) := by
  obtain ⟨key₀, val₀, hline, -, -⟩ := isEntry_of_parseLine hparse
  obtain ⟨c, rest, heq, hspace, hhash⟩ := hline.exists_head
  obtain ⟨rest', -, rfl, hrest⟩ := hl.eq_tabs_cons heq
  obtain ⟨text, last, hlast, htake, hkept, hnoted⟩ := h.noted_eq hrest hspace
  have hhead : (c :: text).head? = some c := rfl
  rw [parseLine_tabs hhead hspace, if_neg hhash] at hnoted
  rcases parseEntry_cases (k % 4095) (c :: text) with hitem | ⟨key', val', hitem⟩
  · rw [hitem, noted_cons (by simp)] at hnoted
    have hmem : .bad ∈ noted (pieceItems (List.replicate k 9 ++ c :: rest')) := by
      rw [hnoted]
      exact List.mem_cons_self
    exact absurd (List.mem_of_mem_filter hmem) hbad
  · rw [hitem, noted_cons (by simp)] at hnoted
    refine ⟨key', val', _, hnoted, fun hk hnone ↦ ?_⟩
    rw [hk] at htake hkept hnone
    have hblank := hkept.isBlank hnone
    apply Harmless.of_entry hline
    rw [drop_of_take_eq htake]
    intro b hb
    rcases List.mem_cons.mp hb with rfl | hb
    · exact hlast
    · exact hblank b hb

/-! ## Lines that are read as one item -/

theorem length_outlineFrom {is : List Item} (hbad : .bad ∉ is) (depth lastIndent : ℕ) :
    (outlineFrom depth lastIndent is).length = (noted is).length := by
  induction is generalizing depth lastIndent with
  | nil => rfl
  | cons i is ih =>
      rw [List.mem_cons, not_or] at hbad
      cases i with
      | blank => exact ih hbad.2 depth lastIndent
      | bad => exact absurd rfl hbad.1
      | comment text => exact congrArg (· + 1) (ih hbad.2 depth lastIndent)
      | entry k key val => exact congrArg (· + 1) (ih hbad.2 _ k)

/-- No line is lost. -/
theorem length_noted_le {ls : List Bytes} (hls : ∀ l ∈ ls, IsLine l ∧ Kept l) :
    (noted (ls.map fun l ↦ parseLine (lineText l))).length ≤
      (noted (ls.flatMap pieceItems)).length := by
  induction ls with
  | nil => exact le_rfl
  | cons l ls ih =>
      have hrest := ih fun l' hl' ↦ hls l' (List.mem_cons_of_mem l hl')
      rw [List.map_cons, List.flatMap_cons, noted_append, List.length_append]
      by_cases hblank : parseLine (lineText l) = .blank
      · rw [hblank, noted_blank]
        omega
      · have hsome : 0 < (noted (pieceItems l)).length := by
          rw [List.length_pos_iff]
          intro hnone
          have hall := (hls l List.mem_cons_self).2.isBlank hnone
          exact hblank (parseLine_blank.mpr fun c hc ↦
            hall c ((List.takeWhile_prefix _).subset hc))
        rw [noted_cons hblank, List.length_cons]
        omega

/-- Outlines that agree, of lines none of which is lost, have nothing in front. -/
theorem outline_tail {depth lastIndent : ℕ} {is pieces whole : List Item}
    (hbad : .bad ∉ noted is) (hpieces : .bad ∉ pieces) (hwhole : .bad ∉ whole)
    (hle : (noted whole).length ≤ (noted pieces).length)
    (h : outlineFrom depth lastIndent (noted is ++ noted pieces) =
      outlineFrom depth lastIndent whole) :
    noted is = [] ∧ outlineFrom depth lastIndent pieces = outlineFrom depth lastIndent whole := by
  have hall : .bad ∉ noted is ++ noted pieces := by
    rw [List.mem_append, not_or]
    exact ⟨hbad, fun hmem ↦ hpieces (List.mem_of_mem_filter hmem)⟩
  have hlen := congrArg List.length h
  rw [length_outlineFrom hall, length_outlineFrom hwhole, noted_append, noted_noted, noted_noted,
    List.length_append] at hlen
  have hnil : noted is = [] := List.eq_nil_of_length_eq_zero (by omega)
  rw [hnil, List.nil_append, outlineFrom_noted] at h
  exact ⟨hnil, h⟩

/-- If no line is lost and the outlines agree, each line was read as one item. -/
theorem harmless_of_outline_eq {depth lastIndent : ℕ}
    (hdepth : depth = lastIndent ∨ depth = lastIndent + 1) {ls : List Bytes}
    (hls : ∀ l ∈ ls, IsLine l ∧ Kept l) (hbad : .bad ∉ ls.flatMap pieceItems)
    (hrising : Rising (lastIndent + 1) (ls.map fun l ↦ parseLine (lineText l)))
    (houtline : outlineFrom depth lastIndent (ls.flatMap pieceItems) =
      outlineFrom depth lastIndent (ls.map fun l ↦ parseLine (lineText l))) :
    ∀ l ∈ ls, Harmless l := by
  induction ls generalizing depth lastIndent with
  | nil => simp
  | cons l ls ih =>
      obtain ⟨hl, hkept⟩ := hls l List.mem_cons_self
      have hls' : ∀ l' ∈ ls, IsLine l' ∧ Kept l' :=
        fun l' hl' ↦ hls l' (List.mem_cons_of_mem l hl')
      rw [List.flatMap_cons, List.mem_append, not_or] at hbad
      have hle := length_noted_le hls'
      have hwhole := bad_not_mem_of_rising hrising
      rw [List.map_cons] at hrising houtline hwhole
      rw [List.flatMap_cons, ← outlineFrom_noted, noted_append] at houtline
      have hfront {i : Item} {is : List Item} (hnoted : noted (pieceItems l) = i :: noted is) :
          .bad ∉ noted is := by
        intro hmem
        have hmem' : .bad ∈ noted (pieceItems l) := by
          rw [hnoted]
          exact List.mem_cons_of_mem i hmem
        exact hbad.1 (List.mem_of_mem_filter hmem')
      have hwhole' := fun hmem ↦ hwhole (List.mem_cons_of_mem _ hmem)
      rw [List.forall_mem_cons]
      cases hparse : parseLine (lineText l) with
      | blank =>
          have hblank := hl.isBlank (parseLine_blank.mp hparse)
          rw [hparse] at houtline hrising
          rw [noted_pieceItems_of_isBlank hblank, List.nil_append, outlineFrom_noted] at houtline
          exact ⟨Harmless.of_blank hparse, ih hdepth hls' hbad.2 hrising houtline⟩
      | bad =>
          rw [hparse] at hrising
          exact hrising.elim
      | comment text =>
          obtain ⟨text', is, hnoted, hharmless⟩ := hkept.harmless_of_comment hl hparse
          rw [hparse] at houtline hrising
          rw [hnoted] at houtline
          obtain ⟨hhead, htail⟩ := List.cons.inj houtline
          obtain ⟨-, hrest⟩ := outline_tail (hfront hnoted) hbad.2 hwhole' hle htail
          refine ⟨hharmless ?_, ih hdepth hls' hbad.2 hrising hrest⟩
          cases hhead
          rfl
      | entry k key val =>
          obtain ⟨key', val', is, hnoted, hharmless⟩ := hkept.harmless_of_entry hl hparse hbad.1
          rw [hparse] at houtline hrising
          rw [hnoted] at houtline
          obtain ⟨hhead, htail⟩ := List.cons.inj houtline
          have hlevel : depth - (lastIndent + 1 - k % 4095) = depth - (lastIndent + 1 - k) :=
            (Step.node.inj hhead).1
          have hk : k % 4095 = k := by
            have hle := hrising.1
            omega
          rw [hk] at htail
          obtain ⟨hnone, hrest⟩ := outline_tail (hfront hnoted) hbad.2 hwhole' hle htail
          refine ⟨hharmless hk hnone, ih ?_ hls' hbad.2 hrising.2 hrest⟩
          have hle := hrising.1
          omega

theorem harmless_of_load {text : Bytes} (h : load text = loadWhole text)
    (hrising : Rising 1 (items text)) : 0 ∉ text ∧ ∀ l ∈ lines text, Harmless l := by
  obtain ⟨hbad, houtline⟩ := outline_eq_of_load h hrising
  have hkept := kept_of_outline_eq hbad hrising houtline
  have hflatten : (reads text).flatten = text := fgetsFrom_flatten _ [] text
  constructor
  · intro hmem
    rw [← hflatten] at hmem
    obtain ⟨piece, hpiece, hzero⟩ := List.mem_flatten.mp hmem
    exact (chop_of_visible_eq (ne_nil_of_mem_fgetsFrom hpiece) (hkept piece hpiece)).1 hzero
  · rw [pieceItems_eq_flatMap] at hbad houtline
    refine harmless_of_outline_eq (.inl rfl) (fun l hl ↦ ?_) hbad hrising houtline
    refine ⟨isLine_of_mem_lines hl, fun piece hpiece ↦ hkept piece ?_⟩
    rw [reads_eq_flatMap]
    exact List.mem_flatMap.mpr ⟨l, hl, hpiece⟩

/-- Which texts are loaded as if lines had any length, and alike with a newline at the end;
and that each line which is not blank then has one node, with its key and value. -/
theorem load_whole_iff (text : Bytes) :
    ((0 ∉ text → text.getLast? ≠ some 10 → load text = load (text ++ [10])) ∧
        load text = loadWhole text ↔
      0 ∉ text ∧ (∀ l ∈ lines text, Harmless l) ∨
        ¬Rising 1 (items text) ∧ Rejected text ∧
          (0 ∉ text → text.getLast? ≠ some 10 → Rejected (text ++ [10]))) ∧
      ∀ root, loadWhole text = .ok root →
        root.outline.map Prod.snd = (steps (items text)).map Step.label := by
  refine ⟨⟨fun hload ↦ ?_, fun hcond ↦ ?_⟩, fun root ↦ labels_loadWhole⟩
  · obtain ⟨hconcat, hwhole⟩ := hload
    by_cases hrising : Rising 1 (items text)
    · exact .inl (harmless_of_load hwhole hrising)
    · have hnull : load text = .error .null := by
        rw [hwhole, loadWhole, (feedAll_eq_none_iff Load.start _).mpr hrising]
        rfl
      refine .inr ⟨hrising, (load_eq_null_iff text).mp hnull, fun hzero hlast ↦ ?_⟩
      rw [← load_eq_null_iff, ← hconcat hzero hlast]
      exact hnull
  · rcases hcond with ⟨hzero, hharmless⟩ | ⟨hrising, hrejected, hconcat⟩
    · exact ⟨fun _ hlast ↦ load_concat_of_harmless hzero hharmless hlast,
        load_of_harmless hzero hharmless⟩
    · have hnull := (load_eq_null_iff text).mpr hrejected
      refine ⟨fun hzero hlast ↦ ?_, ?_⟩
      · rw [hnull, (load_eq_null_iff (text ++ [10])).mpr (hconcat hzero hlast)]
      · rw [hnull, loadWhole, (feedAll_eq_none_iff Load.start _).mpr hrising]
        rfl

/-- The last digit of a port is lost. -/
theorem load_unterminated :
    ¬((0 ∉ ascii "port: 8888" → (ascii "port: 8888").getLast? ≠ some 10 →
        load (ascii "port: 8888") = load (ascii "port: 8888" ++ [10])) ∧
      load (ascii "port: 8888") = loadWhole (ascii "port: 8888")) := by
  rintro ⟨-, hwhole⟩
  have hsaved := congrArg (fun r ↦ (r.toOption.map save)) hwhole
  revert hsaved
  decide +kernel

end GeminiDB.Config
