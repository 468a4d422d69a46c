import GeminiDB.Data.Keys
import GeminiDB.Util.CInt

/-!
# Key-value calls (`t_kv.cpp`)
-/

namespace GeminiDB

open Program WriteBatch

/-- The keys and values that `it += 2` visits. An odd list would make the code
read past `end()`; `proc_multi_set` refuses those, and here the odd key is
dropped. -/
def pairs : List Bytes → List (Bytes × Bytes)
  | key :: val :: rest => (key, val) :: pairs rest
  | _ => []

/-- The loop of `multi_set`; `false` when an empty key made it return. -/
def multiSetLoop : List (Bytes × Bytes) → Db Bool
  | [] => return true
  | (key, val) :: rest =>
      if key.isEmpty then return false
      else do
        binlogsPut (encodeKvKey key) val
        multiSetLoop rest

def multiSet (kvs : List Bytes) (offset : ℕ) : DbCall Int := transaction do
  if ← multiSetLoop (pairs (kvs.drop offset)) then
    if ← binlogsCommit then
      return int32 ((kvs.length - offset : ℕ) / 2 : ℕ)
    else return -1
  else return 0

/-- The loop of `multi_del`. -/
def multiDelLoop : List Bytes → Db Unit
  | [] => return ()
  | key :: rest => do
      binlogsDelete (encodeKvKey key)
      multiDelLoop rest

def multiDel (keys : List Bytes) (offset : ℕ) : DbCall Int := transaction do
  multiDelLoop (keys.drop offset)
  if ← binlogsCommit then
    return int32 (keys.length - offset : ℕ)
  else return -1

/-- An empty key is refused before the transaction is opened. -/
def set (key val : Bytes) : DbCall Int :=
  if key.isEmpty then .plain 0
  else transaction do
    binlogsPut (encodeKvKey key) val
    if ← binlogsCommit then return 1 else return -1

def del (key : Bytes) : DbCall Int := transaction do
  binlogsDelete (encodeKvKey key)
  if ← binlogsCommit then return 1 else return -1

/-- The result of `get`, and what `*val` holds afterwards. -/
def get (key val : Bytes) : Db (Int × Bytes) := do
  match ← ldbGet (encodeKvKey key) with
  | .notFound => return (0, val)
  | .error => return (-1, val)
  | .ok found => return (1, found)

/-! ## What a call does to the committed store -/

/-- What `multi_set` queues. -/
def putEdits (kvs : List (Bytes × Bytes)) : List (Edit Bytes Bytes) :=
  kvs.map fun p ↦ .put (encodeKvKey p.1) p.2

/-- What `multi_del` queues. -/
def deleteEdits (keys : List Bytes) : List (Edit Bytes Bytes) :=
  keys.map fun key ↦ .delete (encodeKvKey key)

/-- The end of a call: `ok` when the commit succeeds. -/
def kvCommit (db : Store) (ok : Int) (edits : List (Edit Bytes Bytes)) (fails : Bool) :
    Int × Store :=
  if fails then (-1, db) else (ok, apply db edits)

def multiSetResult (db : Store) (kvs : List Bytes) (offset : ℕ) (fails : Bool) : Int × Store :=
  if (pairs (kvs.drop offset)).all fun p ↦ !p.1.isEmpty then
    kvCommit db (int32 ((kvs.length - offset : ℕ) / 2 : ℕ)) (putEdits (pairs (kvs.drop offset)))
      fails
  else (0, db)

def multiDelResult (db : Store) (keys : List Bytes) (offset : ℕ) (fails : Bool) : Int × Store :=
  kvCommit db (int32 (keys.length - offset : ℕ)) (deleteEdits (keys.drop offset)) fails

def setResult (db : Store) (key val : Bytes) (fails : Bool) : Int × Store :=
  if key.isEmpty then (0, db) else kvCommit db 1 (putEdits [(key, val)]) fails

def delResult (db : Store) (key : Bytes) (fails : Bool) : Int × Store :=
  kvCommit db 1 (deleteEdits [key]) fails

section Run

variable {ι : Type} (i : ι) (fails : ℕ → Bool) (q : BinlogQueue ι)

/-- Up to the first empty key every pair is queued. -/
theorem run_multiSetLoop (kvs : List (Bytes × Bytes)) :
    ∃ n es, (multiSetLoop kvs).run binlogs (env i fails) q =
        ⟨kvs.all fun p ↦ !p.1.isEmpty, env i (fun k ↦ fails (k + n)), q.queueAll i es⟩ ∧
      ((kvs.all fun p ↦ !p.1.isEmpty) → n = kvs.length ∧ es = putEdits kvs) := by
  induction kvs generalizing fails q with
  | nil => exact ⟨0, [], by simp [multiSetLoop], by simp [putEdits]⟩
  | cons p kvs ih =>
      obtain ⟨key, val⟩ := p
      by_cases hkey : key.isEmpty = true
      · exact ⟨0, [], by simp [multiSetLoop, hkey], by simp [hkey]⟩
      · obtain ⟨n, es, hrun, hall⟩ := ih (later fails) (q.queue i (.put (encodeKvKey key) val))
        refine ⟨n + 1, .put (encodeKvKey key) val :: es, ?_, fun h ↦ ?_⟩
        · simp [multiSetLoop, hkey, hrun, q.queueAll_queue, later, Nat.add_assoc]
        · obtain ⟨hn, htail⟩ := hall (by simpa [hkey] using h)
          simp [putEdits, hn, htail]

theorem run_multiDelLoop (keys : List Bytes) :
    (multiDelLoop keys).run binlogs (env i fails) q =
      ⟨(), env i (fun k ↦ fails (k + keys.length)), q.queueAll i (deleteEdits keys)⟩ := by
  induction keys generalizing fails q with
  | nil => simp [multiDelLoop, deleteEdits]
  | cons key keys ih =>
      simp [multiDelLoop, ih, q.queueAll_queue, deleteEdits, later, Nat.add_assoc]

/-- The commit is the access after one `Put` for each pair. -/
theorem multiSet_effect (kvs : List Bytes) (offset : ℕ) :
    effect ((multiSet kvs offset).run binlogs (env i fails) q) =
      multiSetResult q.db kvs offset (fails (pairs (kvs.drop offset)).length) := by
  obtain ⟨n, es, hrun, hall⟩ := run_multiSetLoop i fails q.begin (pairs (kvs.drop offset))
  by_cases hkeys : ((pairs (kvs.drop offset)).all fun p ↦ !p.1.isEmpty) = true
  · obtain ⟨hn, hes⟩ := hall hkeys
    rw [hkeys, hn] at hrun
    by_cases hfail : fails (pairs (kvs.drop offset)).length = true <;>
      simp [effect, multiSet, multiSetResult, hrun, hkeys, hes, kvCommit, hfail,
        BinlogQueue.commit]
  · rw [Bool.not_eq_true] at hkeys
    rw [hkeys] at hrun
    simp [effect, multiSet, multiSetResult, hrun, hkeys]

theorem multiDel_effect (keys : List Bytes) (offset : ℕ) :
    effect ((multiDel keys offset).run binlogs (env i fails) q) =
      multiDelResult q.db keys offset (fails (keys.drop offset).length) := by
  have hrun := run_multiDelLoop i fails q.begin (keys.drop offset)
  rw [List.length_drop] at hrun ⊢
  by_cases hfail : fails (keys.length - offset) = true <;>
    simp [effect, multiDel, multiDelResult, hrun, kvCommit, hfail, BinlogQueue.commit]

theorem set_effect (key val : Bytes) :
    effect ((set key val).run binlogs (env i fails) q) = setResult q.db key val (fails 1) := by
  by_cases hkey : key.isEmpty = true
  · simp [effect, set, setResult, hkey]
  · by_cases hfail : fails 1 = true <;>
      simp [effect, set, setResult, hkey, kvCommit, hfail, later, BinlogQueue.commit, putEdits]

theorem del_effect (key : Bytes) :
    effect ((del key).run binlogs (env i fails) q) = delResult q.db key (fails 1) := by
  by_cases hfail : fails 1 = true <;>
    simp [effect, del, delResult, kvCommit, hfail, later, BinlogQueue.commit, deleteEdits]

theorem run_get (key val : Bytes) :
    (get key val).run binlogs (env i fails) q =
      ⟨match lookup q.db (encodeKvKey key) (fails 0) with
        | .notFound => (0, val)
        | .error => (-1, val)
        | .ok found => (1, found), env i (later fails), q⟩ := by
  simp only [get, Prog.run_bind, run_ldbGet]
  cases lookup q.db (encodeKvKey key) (fails 0) <;> simp

end Run

theorem putEdits_key {kvs : List (Bytes × Bytes)} {e : Edit Bytes Bytes} (he : e ∈ putEdits kvs) :
    ∃ key, e.key = encodeKvKey key := by
  obtain ⟨p, _, rfl⟩ := List.mem_map.mp he
  exact ⟨p.1, rfl⟩

theorem deleteEdits_key {keys : List Bytes} {e : Edit Bytes Bytes} (he : e ∈ deleteEdits keys) :
    ∃ key, e.key = encodeKvKey key := by
  obtain ⟨key, _, rfl⟩ := List.mem_map.mp he
  exact ⟨key, rfl⟩

end GeminiDB
