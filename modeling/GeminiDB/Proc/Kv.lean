import GeminiDB.Data.Kv
import GeminiDB.Net.Resp

/-!
# Key-value handlers (`proc_kv.cpp`)

A reply that starts with `ok` promises the client that its whole request was
applied, any other reply that nothing was. `proc_del` and `proc_multi_del` keep
the promise. `proc_set` takes the 0 that `set` returns for an empty key for a
success, and `proc_multi_set` hands `reply_int` the status 0 whatever
`multi_set` returned.
-/

namespace GeminiDB

open Program WriteBatch

/-- `CHECK_NUM_PARAMS(n)` in front of a handler. -/
def checkNumParams (n : ℕ) (req : Request) (body : DbCall Response) : DbCall Response :=
  if req.length < n then .plain [ascii "client_error", ascii "wrong number of arguments"] else body

def Request.arg (req : Request) (i : ℕ) : Bytes := req.getD i []

def procSet (req : Request) : DbCall Response :=
  checkNumParams 3 req <| (set (req.arg 1) (req.arg 2)).map fun ret ↦
    if ret = -1 then [ascii "error"] else [ascii "ok", ascii "1"]

def procMultiSet (req : Request) : DbCall Response :=
  if req.length < 3 ∨ req.length % 2 ≠ 1 then .plain [ascii "client_error"]
  else (multiSet req 1).map fun ret ↦ Response.replyInt [] 0 ret

def procMultiDel (req : Request) : DbCall Response :=
  checkNumParams 2 req <| (multiDel req 1).map fun ret ↦
    if ret = -1 then [ascii "error"] else Response.replyInt [] 0 ret

def procDel (req : Request) : DbCall Response :=
  checkNumParams 2 req <| (del (req.arg 1)).map fun ret ↦
    if ret = -1 then [ascii "error"] else [ascii "ok", ascii "1"]

def procGet (req : Request) : Db Response :=
  if req.length < 2 then return [ascii "client_error", ascii "wrong number of arguments"]
  else do
    let (ret, val) ← get (req.arg 1) []
    return Response.replyGet [] ret val

/-! ## What a request asks for -/

inductive KvCommand where
  | set
  | multiSet
  | multiDel
  | del
  deriving DecidableEq

namespace KvCommand

def handler : KvCommand → Request → DbCall Response
  | set => procSet
  | multiSet => procMultiSet
  | multiDel => procMultiDel
  | del => procDel

/-- The request passes the handler's check of the number of arguments. -/
def Accepts : KvCommand → Request → Prop
  | set, req => 3 ≤ req.length
  | multiSet, req => 3 ≤ req.length ∧ req.length % 2 = 1
  | multiDel, req => 2 ≤ req.length
  | del, req => 2 ≤ req.length

/-- The edits the request names, in its order. -/
def requested : KvCommand → Request → List (Edit Bytes Bytes)
  | set, req => [.put (req.arg 1) (req.arg 2)]
  | multiSet, req => (pairs (req.drop 1)).map fun p ↦ .put p.1 p.2
  | multiDel, req => (req.drop 1).map .delete
  | del, req => [.delete (req.arg 1)]

end KvCommand

/-- The reply to `get` of a key with the given value. -/
def getReply : Option Bytes → Response
  | some val => [ascii "ok", val]
  | none => [ascii "not_found"]

section Replies

variable {ι : Type} (i : ι)

/-- A `get` of every key named by the edits answers with the key's last edit. -/
def Applied (q : BinlogQueue ι) (es : List (Edit Bytes Bytes)) : Prop :=
  ∀ e ∈ es, ((procGet [ascii "get", e.key]).run binlogs (env i fun _ ↦ false) q).val =
    getReply ((lastEdit e.key es).bind Edit.result)

/-- What the first element of the reply promises. -/
def Acknowledged (cmd : KvCommand) (req : Request) (fails : ℕ → Bool) (q : BinlogQueue ι) : Prop :=
  let r := (cmd.handler req).run binlogs (env i fails) q
  if r.1.head? = some (ascii "ok") then Applied i r.2 (cmd.requested req) else r.2.db = q.db

theorem getReply_inj {a b : Option Bytes} : getReply a = getReply b ↔ a = b := by
  cases a <;> cases b <;> simp [getReply]

theorem run_procGet (key : Bytes) (q : BinlogQueue ι) :
    ((procGet [ascii "get", key]).run binlogs (env i fun _ ↦ false) q).val =
      getReply (q.db (encodeKvKey key)) := by
  cases h : q.db (encodeKvKey key) with
  | none => simp [procGet, run_get, Request.arg, lookup_of_none h, Response.replyGet, getReply]
  | some val => simp [procGet, run_get, Request.arg, lookup_of_some h, Response.replyGet, getReply]

theorem applied_iff (q : BinlogQueue ι) (es : List (Edit Bytes Bytes)) :
    Applied i q es ↔ ∀ e ∈ es, q.db (encodeKvKey e.key) = (lastEdit e.key es).bind Edit.result := by
  simp only [Applied, run_procGet, getReply_inj]

/-- The store answers for every key named by the edits with the key's last edit. -/
def Holds (db : Store) (es : List (Edit Bytes Bytes)) : Prop :=
  ∀ e ∈ es, db (encodeKvKey e.key) = (lastEdit e.key es).bind Edit.result

/-- What the first element of a reply promises about the store. -/
def Keeps (db : Store) (es : List (Edit Bytes Bytes)) (r : Response × Store) : Prop :=
  if r.1.head? = some (ascii "ok") then Holds r.2 es else r.2 = db

theorem acknowledged_iff_keeps (cmd : KvCommand) (req : Request) (fails : ℕ → Bool)
    (q : BinlogQueue ι) : Acknowledged i cmd req fails q ↔ Keeps q.db (cmd.requested req)
      (effect ((cmd.handler req).run binlogs (env i fails) q)) := by
  simp only [Acknowledged, applied_iff]
  rfl

end Replies

/-! ## Which replies keep their promise -/

/-- A committed batch of the requested edits holds. -/
theorem holds_apply (db : Store) (es : List (Edit Bytes Bytes)) :
    Holds (apply db (es.map (Edit.mapKey encodeKvKey))) es := by
  intro e he
  have hinj : Function.Injective encodeKvKey := fun _ _ ↦ encodeKvKey_inj.mp
  have hlast := apply_of_mem db (List.mem_map_of_mem (f := Edit.mapKey encodeKvKey) he)
  rw [Edit.key_mapKey, lastEdit_mapKey hinj] at hlast
  rw [hlast]
  cases lastEdit e.key es <;> simp

theorem putEdits_eq (kvs : List (Bytes × Bytes)) :
    putEdits kvs = (kvs.map fun p ↦ Edit.put p.1 p.2).map (Edit.mapKey encodeKvKey) := by
  simp [putEdits, Edit.mapKey, Function.comp_def]

theorem deleteEdits_eq (keys : List Bytes) :
    deleteEdits keys = (keys.map Edit.delete).map (Edit.mapKey encodeKvKey) := by
  simp [deleteEdits, Edit.mapKey, Function.comp_def]

theorem keeps_of_ok {db db' : Store} {es : List (Edit Bytes Bytes)} (rest : Response) :
    Keeps db es (ascii "ok" :: rest, db') ↔ Holds db' es := by
  simp [Keeps]

theorem keeps_error (db : Store) (es : List (Edit Bytes Bytes)) :
    Keeps db es ([ascii "error"], db) := by
  have hne : ascii "error" ≠ ascii "ok" := by decide
  simp [Keeps, hne]

/-- When the reply tells the truth: a `set` names a key, and a `multi_set` names
only keys and its commit succeeds, unless the store already was as requested. -/
def Truthful (cmd : KvCommand) (req : Request) (fails : ℕ → Bool) (db : Store) : Prop :=
  match cmd with
  | .set => req.arg 1 ≠ [] ∨ Holds db (cmd.requested req)
  | .multiSet =>
      ((∀ e ∈ cmd.requested req, e.key ≠ []) ∧ fails (cmd.requested req).length = false) ∨
        Holds db (cmd.requested req)
  | .multiDel => True
  | .del => True

theorem keeps_set (db : Store) (key val : Bytes) (fails : Bool) :
    Keeps db [.put key val] ((setResult db key val fails).map
      (fun ret ↦ if ret = -1 then [ascii "error"] else [ascii "ok", ascii "1"]) id) ↔
        key ≠ [] ∨ Holds db [.put key val] := by
  by_cases hkey : key = []
  · simp [setResult, hkey, keeps_of_ok]
  · cases fails with
    | true => simp [setResult, hkey, kvCommit, keeps_error]
    | false =>
        have hholds := holds_apply db [.put key val]
        simpa [setResult, hkey, kvCommit, putEdits, Edit.mapKey, keeps_of_ok] using hholds

theorem keeps_del (db : Store) (key : Bytes) (fails : Bool) :
    Keeps db [.delete key] ((delResult db key fails).map
      (fun ret ↦ if ret = -1 then [ascii "error"] else [ascii "ok", ascii "1"]) id) := by
  cases fails with
  | true => simp [delResult, kvCommit, keeps_error]
  | false =>
      have hholds := holds_apply db [.delete key]
      simpa [delResult, kvCommit, deleteEdits, Edit.mapKey, keeps_of_ok] using hholds

theorem keeps_multiSet (db : Store) (kvs : List Bytes) (fails : Bool) :
    Keeps db ((pairs (kvs.drop 1)).map fun p ↦ .put p.1 p.2)
        ((multiSetResult db kvs 1 fails).map (fun ret ↦ Response.replyInt [] 0 ret) id) ↔
      ((∀ p ∈ pairs (kvs.drop 1), p.1 ≠ []) ∧ fails = false) ∨
        Holds db ((pairs (kvs.drop 1)).map fun p ↦ .put p.1 p.2) := by
  obtain ⟨kvs', hkvs⟩ : ∃ kvs', pairs (kvs.drop 1) = kvs' := ⟨_, rfl⟩
  have hok : ∀ ret db', Keeps db (kvs'.map fun p ↦ .put p.1 p.2)
      (Response.replyInt [] 0 ret, db') ↔ Holds db' (kvs'.map fun p ↦ .put p.1 p.2) :=
    fun ret db' ↦ keeps_of_ok [intBytes ret]
  rw [multiSetResult, hkvs]
  by_cases hkeys : (kvs'.all fun p ↦ !p.1.isEmpty) = true
  · have hall : ∀ p ∈ kvs', p.1 ≠ [] := by simpa using hkeys
    have hholds := holds_apply db (kvs'.map fun p ↦ .put p.1 p.2)
    rw [← putEdits_eq] at hholds
    rw [if_pos hkeys]
    cases fails with
    | true => simpa [kvCommit] using hok (-1) db
    | false => simpa [kvCommit, hok, hholds] using Or.inl hall
  · have hsome : ¬ ∀ p ∈ kvs', p.1 ≠ [] := by simpa using hkeys
    rw [if_neg hkeys, Prod.map_apply, hok]
    simp only [hsome, false_and, false_or, id]

theorem keeps_multiDel (db : Store) {keys : List Bytes} (hlen : keys.length < 2 ^ 31)
    (hne : 2 ≤ keys.length) (fails : Bool) :
    Keeps db ((keys.drop 1).map .delete) ((multiDelResult db keys 1 fails).map
      (fun ret ↦ if ret = -1 then [ascii "error"] else Response.replyInt [] 0 ret) id) := by
  cases fails with
  | true => simp [multiDelResult, kvCommit, keeps_error]
  | false =>
      have hret : int32 ((keys.length - 1 : ℕ) : Int) ≠ -1 := by
        rw [int32_of_range (by omega) (by omega)]
        omega
      have hholds := holds_apply db ((keys.drop 1).map .delete)
      rw [← deleteEdits_eq] at hholds
      simpa [multiDelResult, kvCommit, hret, Response.replyInt, keeps_of_ok] using hholds

theorem checkNumParams_of_le {n : ℕ} {req : Request} (h : n ≤ req.length)
    (body : DbCall Response) : checkNumParams n req body = body :=
  if_neg (Nat.not_lt.mpr h)

/-- For every request that passes its argument check, every store and every
outcome of the commit, the reply keeps its promise exactly when it is truthful. -/
theorem acknowledged_iff_truthful {ι : Type} (i : ι) (cmd : KvCommand) (req : Request)
    (haccepts : cmd.Accepts req) (hlen : req.length < 2 ^ 31) (fails : ℕ → Bool)
    (q : BinlogQueue ι) :
    Acknowledged i cmd req fails q ↔ Truthful cmd req fails q.db := by
  rw [acknowledged_iff_keeps]
  cases cmd with
  | set =>
      rw [KvCommand.handler, procSet, checkNumParams_of_le haccepts, effect_map, set_effect]
      exact keeps_set q.db (req.arg 1) (req.arg 2) (fails 1)
  | multiSet =>
      have hcheck : ¬ (req.length < 3 ∨ req.length % 2 ≠ 1) := by
        have := haccepts.1
        have := haccepts.2
        omega
      rw [KvCommand.handler, procMultiSet, if_neg hcheck, effect_map, multiSet_effect,
        KvCommand.requested, keeps_multiSet]
      simp only [Truthful, KvCommand.requested, List.forall_mem_map, List.length_map, Edit.key_put]
  | multiDel =>
      rw [KvCommand.handler, procMultiDel, checkNumParams_of_le haccepts, effect_map,
        multiDel_effect]
      exact iff_of_true (keeps_multiDel q.db hlen haccepts _) trivial
  | del =>
      rw [KvCommand.handler, procDel, checkNumParams_of_le haccepts, effect_map, del_effect]
      exact iff_of_true (keeps_del q.db (req.arg 1) (fails 1)) trivial

/-- A `multi_set` of two keys whose commit, the third access, succeeds. -/
theorem acknowledged_iff_truthful_pair :
    Acknowledged () .multiSet [ascii "multi_set", ascii "a", ascii "1", ascii "b", ascii "2"]
      (fun n ↦ n == 5) BinlogQueue.empty :=
  (acknowledged_iff_truthful () .multiSet
    [ascii "multi_set", ascii "a", ascii "1", ascii "b", ascii "2"]
    ⟨by decide, by decide⟩ (by decide) (fun n ↦ n == 5) BinlogQueue.empty).mpr (.inl (by decide))

/-- `set "" x` on an empty store answers `ok`, and so does `multi_set a 1` whose
commit fails; neither is applied. -/
theorem acknowledged_but_not_applied :
    ¬ Acknowledged () .set [ascii "set", [], ascii "x"] (fun _ ↦ false) BinlogQueue.empty ∧
      ¬ Acknowledged () .multiSet [ascii "multi_set", ascii "a", ascii "1"] (fun _ ↦ true)
        BinlogQueue.empty := by
  constructor
  · rw [acknowledged_iff_keeps, Keeps, if_pos (by decide)]
    exact fun hholds ↦ absurd (hholds _ List.mem_cons_self) (by decide)
  · rw [acknowledged_iff_keeps, Keeps, if_pos (by decide)]
    exact fun hholds ↦ absurd (hholds _ List.mem_cons_self) (by decide)

end GeminiDB
