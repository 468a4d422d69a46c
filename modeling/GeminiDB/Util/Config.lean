import Mathlib.Data.List.DropRight
import GeminiDB.Lib.Outline
import GeminiDB.Util.Strings

/-!
# Configuration files (`config.h`, `config.cpp`)

A configuration is a tree of keys with values; comments are nodes with the key
`#`. The file is read line by line into a buffer of `CONFIG_MAX_LINE` bytes,
with a pointer `cfg` to the last key of the tree that is being built.
-/

namespace GeminiDB

open Outline

/-! ## Strings (`strings.h`) -/

/-- The string that a `char *` to these bytes denotes. -/
def cStr (s : Bytes) : Bytes := s.takeWhile fun c ↦ c ≠ 0

def isEmptyStr (str : Bytes) : Bool := str.all isSpace

def ltrim (str : Bytes) : Bytes := str.dropWhile isSpace

def rtrim (str : Bytes) : Bytes := str.rdropWhile isSpace

def trim (str : Bytes) : Bytes := rtrim (ltrim str)

/-! ## The tree -/

/-- Key and value of a node; the parent and the depth follow from its place in the tree. -/
structure Setting where
  key : Bytes
  val : Bytes
  deriving DecidableEq

abbrev Config := Rose Setting

namespace Config

def configMaxLine : ℕ := 4096

def isComment (c : Setting) : Bool := c.key.head? == some 35

def isKvSeperator (ch : UInt8) : Bool := ch == 61 || ch == 58

/-! ## Reading -/

/-- What successive calls of `fgets(buf, size, fp)` read from a text, after `buf`. -/
def fgetsFrom (size : ℕ) (buf : Bytes) : Bytes → List Bytes
  | [] => if buf = [] then [] else [buf]
  | c :: rest =>
      if c = 10 ∨ size ≤ buf.length + 2 then (buf ++ [c]) :: fgetsFrom size [] rest
      else fgetsFrom size (buf ++ [c]) rest

/-- The contents of `buf` in the rounds of the loop of `load`. -/
def reads (text : Bytes) : List Bytes := fgetsFrom configMaxLine [] text

/-- Why a load ends early. -/
inductive Stop where
  /-- `load` returns `NULL`. -/
  | null
  /-- A write before the start of `buf`. -/
  | outOfBounds
  deriving DecidableEq

/-- The variables of the loop. -/
structure Load where
  cfg : Cursor Setting
  lastIndent : ℕ

def Load.start : Load := ⟨Cursor.start ⟨ascii "root", []⟩, 0⟩

/-- The rest of a round once the line is known not to be a comment. -/
def loadEntry (s : Load) (indent : ℕ) (key : Bytes) : Except Stop Load :=
  -- the loop from indent to last_indent stays at the root once it is there
  let parent : Except Stop (Cursor Setting) :=
    if indent ≤ s.lastIndent then .ok (s.cfg.ups (s.lastIndent + 1 - indent))
    else if indent > s.lastIndent + 1 then .error .null
    else .ok s.cfg
  match parent with
  | .error e => .error e
  | .ok cfg =>
      if key.head?.any isSpace then .error .null
      else
        match key.dropWhile fun c ↦ !isKvSeperator c with
        | [] => .error .null
        | _ :: val =>
            .ok ⟨cfg.enter ⟨trim (key.takeWhile fun c ↦ !isKvSeperator c), trim val⟩, indent⟩

/-- One round of the loop of `load`. -/
def loadLine (s : Load) (buf : Bytes) : Except Stop Load :=
  -- buf[strlen(buf) - 1] = '\0'
  if cStr buf = [] then .error .outOfBounds
  else
    let line := (cStr buf).dropLast
    if isEmptyStr line then .ok s
    else
      let indent := (line.takeWhile fun c ↦ c == 9).length
      let key := line.drop indent
      if key.head? = some 35 then .ok { s with cfg := s.cfg.add ⟨ascii "#", key.tail⟩ }
      else loadEntry s indent key

/-- The loop of `load` over the strings it reads. -/
def loadLines (s : Load) : List Bytes → Except Stop Load
  | [] => .ok s
  | buf :: bufs =>
      match loadLine s buf with
      | .ok s => loadLines s bufs
      | .error e => .error e

/-- `load` of a file with this text. -/
def load (text : Bytes) : Except Stop Config :=
  (loadLines .start (reads text)).map fun s ↦ s.cfg.root

/-! ## Writing -/

/-- The line that `save` writes for a node, without its indentation. -/
def nodeLine (c : Setting) : Bytes :=
  if isComment c then ascii "#" ++ c.val ++ [10] else c.key ++ ascii ": " ++ c.val ++ [10]

mutual

/-- What `save` writes for a child of a node at this depth. -/
def saveNode (depth : ℕ) : Config → Bytes
  | .node c cs => List.replicate depth 9 ++ nodeLine c ++ saveChildren (depth + 1) cs

def saveChildren (depth : ℕ) : List Config → Bytes
  | [] => []
  | c :: cs => saveNode depth c ++ saveChildren depth cs

end

/-- `save` of a whole tree. -/
def save (root : Config) : Bytes := saveChildren 0 root.children

/-! ## Looking up and setting -/

/-- `c->val = val`. -/
def setVal (val : Bytes) : Config → Config
  | .node c cs => .node { c with val := val } cs

def findChild (key : Bytes) (conf : Config) : Option Config :=
  conf.children.reverse.find? fun c ↦ c.label.key = key

/-- The path in the buffer of `get` and `build_key_path`. -/
def pathBuf (key : Bytes) : Bytes := (cStr key).take (configMaxLine - 1)

/-- The loop of `get` from a field that was read in part. -/
def getFrom (conf : Option Config) (f : Bytes) : Bytes → Option Config
  | [] => conf.bind (findChild f)
  | c :: path =>
      if c = 46 ∨ c = 47 then getFrom (conf.bind (findChild f)) [] path
      else getFrom conf (f ++ [c]) path

def get (key : Bytes) (conf : Config) : Option Config := getFrom (some conf) [] (pathBuf key)

/-- `str`, the C string of a value. -/
def str (c : Config) : Bytes := cStr c.label.val

def num (c : Config) : Int := atoi (cStr c.label.val)

def getNum (key : Bytes) (conf : Config) : Int :=
  match conf.get key with
  | none => 0
  | some c => c.num

def getInt64 (key : Bytes) (conf : Config) : Int :=
  match conf.get key with
  | none => 0
  | some c => strtol c.label.val

def getStr (key : Bytes) (conf : Config) : Bytes :=
  match conf.get key with
  | none => []
  | some c => c.str

/-- Do `f` to the last child with a key. -/
def onLastChild (key : Bytes) (f : Config → Config) : List Config → Option (List Config)
  | [] => none
  | c :: cs =>
      match onLastChild key f cs with
      | some ds => some (c :: ds)
      | none => if c.label.key = key then some (f c :: cs) else none

/-- Do `f` to the child that `find_child` finds or else `add_child` adds. -/
def onChild (key : Bytes) (f : Config → Config) (conf : Config) : Config :=
  match onLastChild key f conf.children with
  | some cs => .node conf.label cs
  | none => .node conf.label (conf.children ++ [f (.node ⟨key, []⟩ [])])

/-- The loop of `build_key_path` from a field that was read in part, with `f` done to the
node it returns. -/
def buildFrom (f : Config → Config) (field : Bytes) : Bytes → Config → Config
  | [], conf => onChild field f conf
  | c :: path, conf =>
      if c = 46 ∨ c = 47 then onChild field (buildFrom f [] path) conf
      else buildFrom f (field ++ [c]) path conf

def set (key val : Bytes) (conf : Config) : Config :=
  buildFrom (setVal (cStr val)) [] (pathBuf key) conf

end Config

end GeminiDB
