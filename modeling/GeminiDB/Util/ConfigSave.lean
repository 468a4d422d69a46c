import GeminiDB.Util.ConfigLoad

/-!
# Saving a configuration (`config.cpp`)

`save` writes the tree as an outline with the depths of the nodes, whatever the
indentation was that it was read from, and what it writes is read as the same
tree.
-/

namespace GeminiDB.Config

open Outline Rose

/-! ## What is in a loaded tree -/

/-- Characters that a line in the buffer does not have. -/
def Clean (s : Bytes) : Prop := 10 ∉ s ∧ 0 ∉ s

/-- A key and a value as `load` leaves them. -/
structure GoodEntry (a : Setting) : Prop where
  key : Clean a.key
  val : Clean a.val
  trimKey : trim a.key = a.key
  trimVal : trim a.val = a.val
  noSeperator : ∀ c ∈ a.key, isKvSeperator c = false
  head : ∀ c, a.key.head? = some c → isSpace c = false ∧ c ≠ 35

def GoodStep : Step Setting → Prop
  | .leaf a => a.key = ascii "#" ∧ Clean a.val
  | .node _ a => GoodEntry a

theorem Clean.of_subset {s t : Bytes} (h : Clean t) (hsub : ∀ c ∈ s, c ∈ t) : Clean s :=
  ⟨fun hs ↦ h.1 (hsub 10 hs), fun hs ↦ h.2 (hsub 0 hs)⟩

theorem rtrim_isPrefix (s : Bytes) : rtrim s <+: s := List.rdropWhile_prefix isSpace s

theorem mem_of_mem_trim {s : Bytes} {c : UInt8} (h : c ∈ trim s) : c ∈ s :=
  (List.dropWhile_suffix isSpace).subset ((rtrim_isPrefix _).subset h)

theorem ltrim_trim (s : Bytes) : ltrim (trim s) = trim s := by
  have hhead : ∀ c, (ltrim s).head? = some c → isSpace c = false := by
    intro c hc
    have hstop := List.head?_dropWhile_not isSpace s
    rw [ltrim] at hc
    rw [hc] at hstop
    simpa using hstop
  cases htrim : trim s with
  | nil => rfl
  | cons c rest =>
      have hpre := rtrim_isPrefix (ltrim s)
      rw [← trim, htrim] at hpre
      obtain ⟨tail, htail⟩ := hpre
      have hc := hhead c (by rw [← htail]; rfl)
      rw [ltrim, List.dropWhile_cons_of_neg (by simp [hc])]

theorem trim_trim (s : Bytes) : trim (trim s) = trim s := by
  rw [trim, ltrim_trim, trim]
  exact List.rdropWhile_idempotent isSpace (ltrim s)

theorem head?_trim {s : Bytes} (hs : ∀ c, s.head? = some c → isSpace c = false) {c : UInt8}
    (hc : (trim s).head? = some c) : s.head? = some c := by
  have hltrim : ltrim s = s := by
    cases s with
    | nil => rfl
    | cons b rest => rw [ltrim, List.dropWhile_cons_of_neg (by simp [hs b rfl])]
  rw [trim, hltrim] at hc
  obtain ⟨tail, htail⟩ := rtrim_isPrefix s
  rw [← htail, List.head?_append_of_ne_nil]
  · exact hc
  · rintro hnil
    rw [hnil] at hc
    cases hc

theorem goodEntry_of_isEntry {line key val : Bytes} {k : ℕ} (hline : Clean line)
    (h : IsEntry line k key val) : GoodEntry ⟨trim key, trim val⟩ := by
  obtain ⟨sep, -, rfl, hkey, hhead⟩ := h
  exact
    { key := hline.of_subset fun c hc ↦ by simp [mem_of_mem_trim hc]
      val := hline.of_subset fun c hc ↦ by simp [mem_of_mem_trim hc]
      trimKey := trim_trim key
      trimVal := trim_trim val
      noSeperator := fun c hc ↦ hkey c (mem_of_mem_trim hc)
      head := fun c hc ↦ hhead c (head?_trim (fun b hb ↦ (hhead b hb).1) hc) }

/-- Newlines come last in what `fgets` reads. -/
theorem fgetsFrom_newline {size : ℕ} {buf text piece : Bytes} (hbuf : 10 ∉ buf)
    (h : piece ∈ fgetsFrom size buf text) : 10 ∉ piece.dropLast := by
  induction text generalizing buf with
  | nil =>
      rw [fgetsFrom] at h
      split at h
      · cases h
      · rw [List.mem_singleton.mp h]
        exact fun hmem ↦ hbuf (List.dropLast_subset _ hmem)
  | cons c rest ih =>
      rw [fgetsFrom] at h
      split at h
      · rcases List.mem_cons.mp h with rfl | h
        · rwa [List.dropLast_concat]
        · exact ih (by simp) h
      · next hgoes =>
        refine ih (fun hmem ↦ ?_) h
        rcases List.mem_append.mp hmem with hmem | hmem
        · exact hbuf hmem
        · exact hgoes (.inl (List.mem_singleton.mp hmem).symm)

theorem clean_chop {text piece : Bytes} (h : piece ∈ reads text) : Clean (chop piece) := by
  have hzero : 0 ∉ cStr piece := by
    intro hmem
    have hne := List.mem_takeWhile_imp (p := fun c ↦ decide (c ≠ 0)) hmem
    simp at hne
  refine ⟨fun hmem ↦ ?_, fun hmem ↦ hzero (List.dropLast_subset _ hmem)⟩
  have hnewline := fgetsFrom_newline (by simp) h
  obtain ⟨tail, htail⟩ := List.takeWhile_prefix (l := piece) fun c ↦ decide (c ≠ 0)
  rw [← htail] at hnewline
  by_cases hnil : tail = []
  · rw [hnil, List.append_nil] at hnewline
    exact hnewline hmem
  · rw [List.dropLast_append_of_ne_nil hnil] at hnewline
    exact hnewline (List.mem_append_left _ (List.dropLast_subset _ hmem))

/-! ## The outline that was read -/

/-- What a line adds to the tree. -/
def Adds : Item → Step Setting → Prop
  | .comment text, .leaf a => a = ⟨ascii "#", text⟩
  | .entry _ key val, .node _ a => a = ⟨key, val⟩
  | _, _ => False

theorem exists_adds {depth lastIndent : ℕ} {items : List Item} {st : Step Setting}
    (h : st ∈ outlineFrom depth lastIndent items) : ∃ item ∈ items, Adds item st := by
  induction items generalizing depth lastIndent with
  | nil => cases h
  | cons item items ih =>
      have hlater {n m : ℕ} (hst : st ∈ outlineFrom n m items) :
          ∃ i ∈ item :: items, Adds i st := by
        obtain ⟨i, hi, hadd⟩ := ih hst
        exact ⟨i, List.mem_cons_of_mem item hi, hadd⟩
      cases item with
      | blank => exact hlater h
      | bad => exact hlater h
      | comment text =>
          rcases List.mem_cons.mp h with rfl | hst
          · exact ⟨_, List.mem_cons_self, rfl⟩
          · exact hlater hst
      | entry k key val =>
          rcases List.mem_cons.mp h with rfl | hst
          · exact ⟨_, List.mem_cons_self, rfl⟩
          · exact hlater hst

theorem goodStep_of_adds {line : Bytes} (hline : Clean line) {st : Step Setting}
    (h : Adds (parseLine line) st) : GoodStep st := by
  cases hparse : parseLine line with
  | blank =>
      rw [hparse] at h
      exact h.elim
  | bad =>
      rw [hparse] at h
      exact h.elim
  | comment text =>
      rw [hparse] at h
      obtain ⟨k, rfl⟩ := parseLine_comment.mp hparse
      cases st with
      | leaf a =>
          obtain rfl : a = ⟨ascii "#", text⟩ := h
          exact ⟨rfl, hline.of_subset fun c hc ↦ by simp [hc]⟩
      | node d a => exact h.elim
  | entry k key' val' =>
      rw [hparse] at h
      obtain ⟨key, val, hentry, rfl, rfl⟩ := isEntry_of_parseLine hparse
      cases st with
      | leaf a => exact h.elim
      | node d a =>
          obtain rfl : a = ⟨trim key, trim val⟩ := h
          exact goodEntry_of_isEntry hline hentry

theorem outline_of_load {text : Bytes} {root : Config} (h : load text = .ok root) :
    ∃ sts, Nested 0 sts ∧ root = (build Load.start.cfg sts).root ∧ ∀ st ∈ sts, GoodStep st := by
  rw [load] at h
  cases hlines : loadLines .start (reads text) with
  | error e =>
      rw [hlines] at h
      cases h
  | ok s =>
      rw [hlines] at h
      cases h
      obtain ⟨-, hfeed⟩ := loadLines_eq_ok hlines
      obtain ⟨hnested, hcfg⟩ := feedAll_eq_build hfeed
      refine ⟨_, hnested, congrArg Cursor.root hcfg, fun st hst ↦ ?_⟩
      obtain ⟨item, hitem, hadd⟩ := exists_adds hst
      obtain ⟨piece, hpiece, rfl⟩ := List.mem_map.mp hitem
      exact goodStep_of_adds (clean_chop hpiece) hadd

/-! ## What is written -/

/-- The line of a node. -/
def lineOf (e : List ℕ × Setting) : Bytes :=
  List.replicate (e.1.length - 1) 9 ++
    if isComment e.2 then ascii "#" ++ e.2.val else e.2.key ++ ascii ": " ++ e.2.val

theorem lineOf_newline (e : List ℕ × Setting) :
    lineOf e ++ [10] = List.replicate (e.1.length - 1) 9 ++ nodeLine e.2 := by
  rw [lineOf, nodeLine]
  split <;> simp

mutual

theorem saveNode_eq (pos : List ℕ) (m : ℕ) : (t : Config) →
    saveNode pos.length t = fileOf ((entries pos m t).map lineOf)
  | .node a cs => by
      rw [saveNode, entries, List.map_cons, fileOf, List.flatMap_cons, lineOf_newline,
        ← fileOf, ← saveChildren_eq (pos ++ [m]) 0 cs]
      simp

theorem saveChildren_eq (pos : List ℕ) (m : ℕ) : (cs : List Config) →
    saveChildren pos.length cs = fileOf ((entriesFrom pos m cs).map lineOf)
  | [] => rfl
  | c :: cs => by
      rw [saveChildren, entriesFrom, List.map_append, fileOf, List.flatMap_append, ← fileOf,
        ← fileOf, ← saveNode_eq pos m c, ← saveChildren_eq pos (m + 1) cs]

end

/-- `save` writes the nodes in preorder. -/
theorem save_eq (root : Config) : save root = fileOf (root.outline.map lineOf) :=
  saveChildren_eq [] 0 root.children

/-! ## Reading what was written -/

/-- The line that `save` writes for a step of the outline is read as that step. -/
def itemOf : Step Setting → Item
  | .leaf a => .comment a.val
  | .node d a => .entry d a.key a.val

theorem parseLine_leaf {a : Setting} (ha : a.key = ascii "#") (p : List ℕ) :
    parseLine (lineOf (p, a)) = .comment a.val := by
  have hcomment : isComment a = true := by
    rw [isComment, ha]
    rfl
  rw [parseLine_comment]
  exact ⟨p.length - 1, by rw [lineOf, if_pos hcomment]; rfl⟩

theorem parseLine_node {a : Setting} (ha : GoodEntry a) (p : List ℕ) (n : ℕ) :
    parseLine (lineOf (p ++ [n], a)) = .entry p.length a.key a.val := by
  have hcomment : ¬isComment a = true := by
    rw [isComment, beq_iff_eq]
    exact fun hhead ↦ (ha.head 35 hhead).2 rfl
  have hentry : IsEntry (lineOf (p ++ [n], a)) p.length a.key (32 :: a.val) := by
    refine ⟨58, by decide, ?_, ha.noSeperator, ha.head⟩
    rw [lineOf, if_neg hcomment, List.length_append, List.length_singleton, Nat.add_sub_cancel,
      List.append_assoc]
    rfl
  have htrim : trim (32 :: a.val) = trim a.val := by
    rw [trim, ltrim, List.dropWhile_cons_of_pos (by decide), ← ltrim, ← trim]
  rw [parseLine_of_isEntry hentry, ha.trimKey, htrim, ha.trimVal]

theorem clean_lineOf {st : Step Setting} (hst : GoodStep st) (p : List ℕ) :
    Clean (lineOf (p, st.label)) := by
  have htabs {s : Bytes} (hs : Clean s) : Clean (List.replicate (p.length - 1) 9 ++ s) :=
    ⟨by simp [hs.1], by simp [hs.2]⟩
  have hhash : Clean (ascii "#") := ⟨by decide, by decide⟩
  have hcolon : Clean (ascii ": ") := ⟨by decide, by decide⟩
  have happend {s t : Bytes} (hs : Clean s) (ht : Clean t) : Clean (s ++ t) :=
    ⟨by simp [hs.1, ht.1], by simp [hs.2, ht.2]⟩
  rw [lineOf]
  apply htabs
  cases st with
  | leaf a =>
      have hkey : isComment (Step.leaf a).label = true := by
        rw [Step.label, isComment, hst.1]
        rfl
      rw [if_pos hkey]
      exact happend hhash hst.2
  | node d a =>
      have ha : GoodEntry a := hst
      by_cases hcomment : isComment (Step.node d a).label = true
      · rw [if_pos hcomment]
        exact happend hhash ha.val
      · rw [if_neg hcomment]
        exact happend (happend ha.key hcolon) ha.val

theorem items_of_reads {sts : List (Step Setting)} {root : Config} (hreads : Reads sts root)
    (hgood : ∀ st ∈ sts, GoodStep st) :
    (root.outline.map lineOf).map parseLine = sts.map itemOf := by
  apply List.ext_getElem?
  intro i
  have hlabel := congrArg (fun l ↦ l[i]?) hreads.labels
  simp only [List.getElem?_map] at hlabel ⊢
  cases hst : sts[i]? with
  | none =>
      rw [hst] at hlabel
      rw [Option.map_eq_none_iff.mp hlabel]
      rfl
  | some st =>
      have hmem := hgood st (List.mem_of_getElem? hst)
      cases st with
      | leaf a =>
          rw [hst] at hlabel
          obtain ⟨⟨p, b⟩, hout, rfl⟩ := Option.map_eq_some_iff.mp hlabel
          rw [hout]
          exact congrArg some (parseLine_leaf hmem.1 p)
      | node d a =>
          obtain ⟨p, n, rfl, hout, -⟩ := hreads.node i d a hst
          rw [hout]
          exact congrArg some (parseLine_node hmem p n)

theorem rising_of_nested {n : ℕ} {sts : List (Step Setting)} (h : Nested n sts) :
    Rising n (sts.map itemOf) := by
  induction sts generalizing n with
  | nil => trivial
  | cons st sts ih =>
      cases st with
      | leaf a => exact ih h
      | node d a => exact ⟨h.1, ih h.2⟩

theorem steps_itemOf {sts : List (Step Setting)} (hgood : ∀ st ∈ sts, GoodStep st) :
    steps (sts.map itemOf) = sts := by
  induction sts with
  | nil => rfl
  | cons st sts ih =>
      have hrest := ih fun st' hst' ↦ hgood st' (List.mem_cons_of_mem st hst')
      have hst := hgood st List.mem_cons_self
      cases st with
      | leaf a =>
          obtain ⟨key, val⟩ := a
          obtain ⟨rfl, -⟩ := hst
          exact congrArg (Step.leaf _ :: ·) hrest
      | node d a => exact congrArg (Step.node d a :: ·) hrest

/-- No NUL, and never `CONFIG_MAX_LINE - 1` characters without a newline. -/
def ShortLines (text : Bytes) : Prop :=
  0 ∉ text ∧ ∀ l, l <:+: text → 10 ∉ l → l.length < configMaxLine - 1

theorem infix_fileOf {ls : List Bytes} {l : Bytes} (h : l ∈ ls) : l <:+: fileOf ls := by
  obtain ⟨before, after, rfl⟩ := List.append_of_mem h
  exact ⟨fileOf before, 10 :: fileOf after, by simp [fileOf]⟩

/-- What was loaded is loaded again from what it is saved as, so that saving it once more
changes nothing. -/
theorem load_save {text : Bytes} {root : Config} (h : load text = .ok root)
    (hsaved : ShortLines (save root)) :
    load (save root) = .ok root ∧ (load (save root)).map save = .ok (save root) := by
  obtain ⟨sts, hnested, hroot, hgood⟩ := outline_of_load h
  have hreads : Reads sts root := hroot ▸ reads_build _ hnested
  have hclean : ∀ l ∈ root.outline.map lineOf, Clean l := by
    intro l hl
    obtain ⟨⟨p, a⟩, he, rfl⟩ := List.mem_map.mp hl
    have hmem : a ∈ sts.map Step.label := hreads.labels ▸ List.mem_map_of_mem he
    obtain ⟨st, hst, rfl⟩ := List.mem_map.mp hmem
    exact clean_lineOf (hgood st hst) p
  have hlines : ∀ l ∈ root.outline.map lineOf,
      l.length + 1 < configMaxLine ∧ 10 ∉ l ∧ 0 ∉ l := by
    intro l hl
    have hshort := hsaved.2 l (save_eq root ▸ infix_fileOf hl) (hclean l hl).1
    exact ⟨by omega, hclean l hl⟩
  have hload : load (save root) = .ok root := by
    obtain ⟨s', hfeed, hcfg⟩ := feedAll_of_rising aligned_start (rising_of_nested hnested)
    rw [save_eq, load_fileOf hlines, items_of_reads hreads hgood, hfeed]
    rw [steps_itemOf hgood] at hcfg
    exact congrArg Except.ok ((congrArg Cursor.root hcfg).trans hroot.symm)
  exact ⟨hload, by rw [hload]; rfl⟩

/-- A text with an indented first line, two separators and a comment that is not indented. -/
theorem load_save_indented :
    ∃ root, load (ascii "\ta = b \n\t\tc:d\n# x\n\nz :\n") = .ok root ∧
      save root = ascii "a: b\n\tc: d\n\t\t# x\nz: \n" ∧ load (save root) = .ok root := by
  obtain ⟨root, hload, hsave⟩ :
      ∃ root, load (ascii "\ta = b \n\t\tc:d\n# x\n\nz :\n") = .ok root ∧
        save root = ascii "a: b\n\tc: d\n\t\t# x\nz: \n" := ⟨_, rfl, by decide +kernel⟩
  have hshort : ShortLines (save root) := by
    rw [hsave]
    refine ⟨by decide, fun l hl _ ↦ ?_⟩
    have hlen := hl.length_le
    exact lt_of_le_of_lt hlen (by decide)
  exact ⟨root, hload, hsave, (load_save hload hshort).1⟩

end GeminiDB.Config
