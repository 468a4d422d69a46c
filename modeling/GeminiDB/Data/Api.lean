import GeminiDB.Data.Frame
import GeminiDB.Lib.Critical

/-!
# The interface of the database (`geminidb.h`)

A handler sees the database through the functions of `GEMINIDB`. For the threads of
the server each of them is a sequence of accesses to leveldb and to the write batch,
with the lock of the batch around it when it is a mutating one.
-/

namespace GeminiDB

open Program

/-- What a thread executes: accesses, and what the constructor and the destructor of a
`Transaction` do. -/
abbrev Body := Prog (LockOp DbOp) (LockOp.Result DbOp.Result)

/-- The accesses of all threads; one fails when its environment says so. -/
abbrev storeOps : Interface (LockOp DbOp) (LockOp.Result DbOp.Result) (Unit × Bool)
    (BinlogQueue Unit) := Interface.withLock binlogs

/-- The functions that handlers call; `item` is what the caller's string holds
beforehand. -/
inductive ApiCall where
  | get (key : Bytes)
  | qsize (name : Bytes)
  | qfront (name item : Bytes)
  | qback (name item : Bytes)
  | mutate (m : Mutation)

/-- A function of the database returns a status and leaves something in a string. -/
abbrev Api := Prog ApiCall fun _ ↦ Int × Bytes

def ApiCall.body : ApiCall → Body (Int × Bytes)
  | .get key => (GeminiDB.get key []).free
  | .qsize name => Prog.free (GeminiDB.qsize name >>= fun size ↦ .ret (size.toInt, []))
  | .qfront name item => (GeminiDB.qfront name item).free
  | .qback name item => (GeminiDB.qback name item).free
  | .mutate m => m.call.locked

/-- The access does not fail. -/
def Works (x : Unit × Bool) : Prop := x.2 = false

/-- The access reads. -/
def IsRead : LockOp DbOp → Prop
  | .op (.get _) => True
  | _ => False

/-- A read leaves everything as it is. -/
theorem IsRead.state {op : LockOp DbOp} (h : IsRead op) (x : Unit × Bool) (q : BinlogQueue Unit) :
    (storeOps.exec op x q).2 = q := by
  cases op with
  | op o =>
      cases o with
      | get key => rfl
      | _ => exact h.elim
  | _ => exact h.elim

/-- The functions without a lock. -/
def ApiCall.Reads : ApiCall → Prop
  | .mutate _ => False
  | _ => True

/-- These only read. -/
theorem ApiCall.Reads.body {c : ApiCall} (h : c.Reads) : c.body.All IsRead := by
  have hget (name : Bytes) : ∀ key, OwnedBy name key → (DbOp.get key).ReadsWithin fun _ ↦ True :=
    fun _ _ ↦ trivial
  have hreads (o : DbOp) (ho : o.ReadsWithin fun _ ↦ True) : IsRead (.op o) := by
    cases o with
    | get key => trivial
    | _ => exact ho.elim
  cases c with
  | get key =>
      apply Prog.All.free hreads
      refine .bind ⟨trivial, fun _ ↦ trivial⟩ fun r ↦ ?_
      cases r <;> trivial
  | qsize name =>
      exact Prog.All.free hreads (.bind (all_qsize name (hget name)) fun _ ↦ trivial)
  | qfront name item => exact Prog.All.free hreads (all_qpeek name (hget name) item qfrontSeq)
  | qback name item => exact Prog.All.free hreads (all_qpeek name (hget name) item qbackSeq)
  | mutate m => exact h.elim

end GeminiDB
