import GeminiDB.Lib.KeyTree
import GeminiDB.Util.Config

/-!
# Paths in a configuration (`config.cpp`)

`get` and `build_key_path` cut a path at `.` and `/` into the same components,
so that setting a value is altering a keyed tree at a path.
-/

namespace GeminiDB.Config

open Outline KeyTree

/-- A path cut at its separators. -/
def components (path : Bytes) : List Bytes := path.splitOnP fun c ↦ c == 46 || c == 47

theorem modifyHead_components (f : Bytes) (c : UInt8) (path : Bytes) :
    (components (c :: path)).modifyHead (f ++ ·) =
      if c = 46 ∨ c = 47 then f :: components path
      else (components path).modifyHead (f ++ [c] ++ ·) := by
  rw [components, List.splitOnP_cons_eq_if_modifyHead]
  by_cases hc : c = 46 ∨ c = 47
  · have hsep : (c == 46 || c == 47) = true := by simpa using hc
    rw [if_pos hc, if_pos hsep]
    simp [components]
  · have hsep : ¬(c == 46 || c == 47) = true := by simpa using hc
    rw [if_neg hc, if_neg hsep, List.modifyHead_modifyHead]
    congr 1
    ext1 rest
    simp

/-- The node that `add_child` makes of a key alone. -/
def added (key : Bytes) : Setting := ⟨key, []⟩

theorem key_added (key : Bytes) : (added key).key = key := rfl

theorem find_cons (f : Bytes) (fs : List Bytes) (c : Config) :
    find Setting.key (f :: fs) c = (findChild f c).bind (find Setting.key fs) := rfl

theorem modifyHead_nil_append (fs : List Bytes) : fs.modifyHead ([] ++ ·) = fs := by
  cases fs <;> rfl

/-- The loop of `get` goes along the components. -/
theorem getFrom_eq (conf : Option Config) (f path : Bytes) :
    getFrom conf f path =
      conf.bind (find Setting.key ((components path).modifyHead (f ++ ·))) := by
  induction path generalizing conf f with
  | nil =>
      rw [getFrom, components, List.splitOnP_nil, List.modifyHead_cons, List.append_nil]
      congr 1
      ext1 c
      rw [find_cons]
      cases findChild f c <;> rfl
  | cons c path ih =>
      rw [getFrom, modifyHead_components]
      by_cases hc : c = 46 ∨ c = 47
      · rw [if_pos hc, if_pos hc, ih, modifyHead_nil_append, Option.bind_assoc]
        congr 1
      · rw [if_neg hc, if_neg hc, ih]

theorem onLastChild_eq (key : Bytes) (f : Config → Config) (cs : List Config) :
    onLastChild key f cs = alterLast Setting.key key f cs := by
  induction cs with
  | nil => rfl
  | cons c cs ih =>
      rw [onLastChild, alterLast, ih]
      cases alterLast Setting.key key f cs <;> rfl

theorem onChild_eq (key : Bytes) (f : Config → Config) (conf : Config) :
    onChild key f conf = alterChild Setting.key (added) key f conf := by
  rw [onChild, alterChild, onLastChild_eq]
  cases alterLast Setting.key key f conf.children <;> rfl

/-- The loop of `build_key_path` goes along the same components. -/
theorem buildFrom_eq (f : Config → Config) (field path : Bytes) (conf : Config) :
    buildFrom f field path conf =
      alter Setting.key (added) f ((components path).modifyHead (field ++ ·)) conf := by
  induction path generalizing field conf with
  | nil =>
      rw [buildFrom, onChild_eq, components, List.splitOnP_nil, List.modifyHead_cons,
        List.append_nil]
      rfl
  | cons c path ih =>
      rw [buildFrom, modifyHead_components]
      by_cases hc : c = 46 ∨ c = 47
      · have hrest : buildFrom f [] path =
            alter Setting.key (added) f (components path) :=
          funext fun c ↦ by rw [ih, modifyHead_nil_append]
        rw [if_pos hc, if_pos hc, onChild_eq, hrest]
        rfl
      · rw [if_neg hc, if_neg hc, ih]

theorem pathBuf_of_lt {path : Bytes} (h : (cStr path).length < configMaxLine) :
    pathBuf path = cStr path :=
  List.take_of_length_le (Nat.le_sub_one_of_lt h)

theorem get_eq {path : Bytes} (h : (cStr path).length < configMaxLine) (conf : Config) :
    get path conf = find Setting.key (components (cStr path)) conf := by
  rw [get, pathBuf_of_lt h, getFrom_eq, modifyHead_nil_append]
  rfl

theorem set_eq {key : Bytes} (h : (cStr key).length < configMaxLine) (val : Bytes)
    (conf : Config) :
    set key val conf = alter Setting.key (added) (setVal (cStr val))
      (components (cStr key)) conf := by
  rw [set, pathBuf_of_lt h, buildFrom_eq, modifyHead_nil_append]

theorem key_setVal (val : Bytes) (t : Config) : (setVal val t).label.key = t.label.key := by
  cases t
  rfl

theorem children_setVal (val : Bytes) (t : Config) : (setVal val t).children = t.children := by
  cases t
  rfl

/-! ## What is read -/

/-- Missing nodes and new ones both read as the empty value. -/
theorem getStr_eq {path : Bytes} (h : (cStr path).length < configMaxLine) (conf : Config) :
    getStr path conf =
      readAt Setting.key (fun c ↦ cStr c.val) [] (components (cStr path)) conf := by
  rw [getStr, get_eq h, readAt]
  cases find Setting.key (components (cStr path)) conf <;> rfl

theorem getNum_eq {path : Bytes} (h : (cStr path).length < configMaxLine) (conf : Config) :
    getNum path conf =
      readAt Setting.key (fun c ↦ atoi (cStr c.val)) 0 (components (cStr path)) conf := by
  rw [getNum, get_eq h, readAt]
  cases find Setting.key (components (cStr path)) conf <;> rfl

theorem getInt64_eq {path : Bytes} (h : (cStr path).length < configMaxLine) (conf : Config) :
    getInt64 path conf =
      readAt Setting.key (fun c ↦ strtol c.val) 0 (components (cStr path)) conf := by
  rw [getInt64, get_eq h, readAt]
  cases find Setting.key (components (cStr path)) conf <;> rfl

theorem cStr_cStr (s : Bytes) : cStr (cStr s) = cStr s := by
  rw [cStr, List.takeWhile_eq_self_iff]
  intro c hc
  have hne : decide (c ≠ 0) = true := List.mem_takeWhile_imp (p := fun c ↦ decide (c ≠ 0)) hc
  exact hne

theorem readAt_set_ne {β : Type} {v : Setting → β} {missing : β}
    (hmissing : ∀ k, v (added k) = missing) {key path : Bytes}
    (hkey : (cStr key).length < configMaxLine)
    (hne : components (cStr path) ≠ components (cStr key)) (val : Bytes) (conf : Config) :
    readAt Setting.key v missing (components (cStr path)) (set key val conf) =
      readAt Setting.key v missing (components (cStr path)) conf := by
  rw [set_eq hkey]
  exact readAt_alter_ne key_added hmissing (key_setVal _) (children_setVal _) hne conf

/-- After `set` the value is read at its path, and all others are read as before. -/
theorem set_then_get {key : Bytes} (hkey : (cStr key).length < configMaxLine) (val : Bytes)
    (conf : Config) :
    getStr key (set key val conf) = cStr val ∧
    ∀ path, (cStr path).length < configMaxLine →
      components (cStr path) ≠ components (cStr key) →
        getStr path (set key val conf) = getStr path conf ∧
        getNum path (set key val conf) = getNum path conf ∧
        getInt64 path (set key val conf) = getInt64 path conf := by
  have hatoi : atoi (cStr []) = 0 := by decide +kernel
  refine ⟨?_, fun path hpath hne ↦ ⟨?_, ?_, ?_⟩⟩
  · obtain ⟨c, hc⟩ := find_alter_self key_added (key_setVal (cStr val))
      (components (cStr key)) conf
    rw [getStr_eq hkey, set_eq hkey, readAt, hc]
    cases c
    exact cStr_cStr val
  · rw [getStr_eq hpath, getStr_eq hpath, readAt_set_ne (fun _ ↦ rfl) hkey hne]
  · rw [getNum_eq hpath, getNum_eq hpath]
    exact readAt_set_ne (fun _ ↦ hatoi) hkey hne val conf
  · rw [getInt64_eq hpath, getInt64_eq hpath]
    exact readAt_set_ne (fun _ ↦ rfl) hkey hne val conf

/-- A new path below a key that occurs twice. -/
theorem set_then_get_twice :
    let a : Config := .node ⟨ascii "a", ascii "1"⟩ []
    let conf : Config := .node ⟨ascii "root", []⟩ [a, .node ⟨ascii "#", ascii " a"⟩ [], a]
    getStr (ascii "a/b..c") (set (ascii "a/b..c") (ascii "x") conf) = ascii "x" ∧
      getNum (ascii "a") (set (ascii "a/b..c") (ascii "x") conf) = 1 := by
  intro a conf
  have hkey : (cStr (ascii "a/b..c")).length < configMaxLine := by decide
  have hlaw := set_then_get hkey (ascii "x") conf
  exact ⟨hlaw.1, (hlaw.2 (ascii "a") (by decide) (by decide)).2.1.trans (by decide +kernel)⟩

end GeminiDB.Config
