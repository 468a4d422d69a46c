import GeminiDB.Lib.Program
import GeminiDB.Lib.WriteBatch
import GeminiDB.Util.Strings

/-!
# The write batch shared by all mutating calls (`binlog.h`, `binlog.cpp`)

`BinlogQueue` holds the database handle, two sequence fields and one
`leveldb::WriteBatch`. leveldb is taken at its documented word: `Get` reads the
last committed value of a key, `Write` applies a batch in order and atomically,
and either may fail, a failed `Write` applying nothing.

Every batch entry carries the call that queued it, and the committed batches
are logged; no operation reads the tags or the log.
-/

namespace GeminiDB

open Program WriteBatch

/-- The committed content of the database. -/
abbrev Store := Bytes → Option Bytes

/-- The status of `DB::Get`, with the value it stores on success. -/
inductive GetResult where
  | ok (val : Bytes)
  | notFound
  | error
  deriving DecidableEq

/-- `db->Get(leveldb::ReadOptions(), key, &val)`. -/
def lookup (db : Store) (key : Bytes) (fails : Bool) : GetResult :=
  if fails then .error
  else match db key with
    | some val => .ok val
    | none => .notFound

theorem lookup_of_some {db : Store} {key val : Bytes} (h : db key = some val) :
    lookup db key false = .ok val := by
  simp [lookup, h]

theorem lookup_of_none {db : Store} {key : Bytes} (h : db key = none) :
    lookup db key false = .notFound := by
  simp [lookup, h]

/-- The operations a call performs on the database and the batch. -/
inductive DbOp where
  | get (key : Bytes)
  | put (key val : Bytes)
  | delete (key : Bytes)
  | commit

/-- `commit` answers whether the status is `ok`. -/
abbrev DbOp.Result : DbOp → Type
  | .get _ => GetResult
  | .put _ _ => Unit
  | .delete _ => Unit
  | .commit => Bool

abbrev Db := Prog DbOp DbOp.Result

abbrev DbCall := Call DbOp DbOp.Result

/-- `Transaction trans(binlogs)` as the first statement of a function: the lock
and `begin()` before the body, `rollback()` and the unlock on every way out. -/
def transaction {α : Type} (body : Db α) : DbCall α := .guarded body

def ldbGet (key : Bytes) : Db GetResult := .call (.get key) .ret

def binlogsPut (key val : Bytes) : Db Unit := .call (.put key val) .ret

def binlogsDelete (key : Bytes) : Db Unit := .call (.delete key) .ret

def binlogsCommit : Db Bool := .call .commit .ret

/-- A batch entry, tagged with the call that queued it. -/
abbrev Entry (ι : Type) := ι × Edit Bytes Bytes

structure BinlogQueue (ι : Type) where
  db : Store
  lastSeq : UInt64
  tranSeq : UInt64
  batch : List (Entry ι)
  commits : List (ι × List (Entry ι))

namespace BinlogQueue

variable {ι : Type}

/-- A freshly opened, empty database. -/
def empty : BinlogQueue ι := ⟨fun _ ↦ none, 0, 0, [], []⟩

def begin (q : BinlogQueue ι) : BinlogQueue ι := { q with tranSeq := q.lastSeq, batch := [] }

def rollback (q : BinlogQueue ι) : BinlogQueue ι := { q with tranSeq := 0 }

def commit (i : ι) (fails : Bool) (q : BinlogQueue ι) : Bool × BinlogQueue ι :=
  if fails then (false, q)
  else (true, { q with
    db := apply q.db (q.batch.map Prod.snd)
    lastSeq := q.tranSeq
    tranSeq := 0
    commits := q.commits ++ [(i, q.batch)] })

def queue (i : ι) (e : Edit Bytes Bytes) (q : BinlogQueue ι) : BinlogQueue ι :=
  { q with batch := q.batch ++ [(i, e)] }

/-- Queue several edits. -/
def queueAll (i : ι) (es : List (Edit Bytes Bytes)) (q : BinlogQueue ι) : BinlogQueue ι :=
  { q with batch := q.batch ++ es.map (Prod.mk i) }

@[simp] theorem begin_db (q : BinlogQueue ι) : q.begin.db = q.db := rfl
@[simp] theorem begin_batch (q : BinlogQueue ι) : q.begin.batch = [] := rfl
@[simp] theorem begin_commits (q : BinlogQueue ι) : q.begin.commits = q.commits := rfl
@[simp] theorem rollback_db (q : BinlogQueue ι) : q.rollback.db = q.db := rfl
@[simp] theorem rollback_commits (q : BinlogQueue ι) : q.rollback.commits = q.commits := rfl
@[simp] theorem queue_db (i : ι) (e : Edit Bytes Bytes) (q : BinlogQueue ι) :
    (q.queue i e).db = q.db := rfl
@[simp] theorem queue_batch (i : ι) (e : Edit Bytes Bytes) (q : BinlogQueue ι) :
    (q.queue i e).batch = q.batch ++ [(i, e)] := rfl
@[simp] theorem queue_commits (i : ι) (e : Edit Bytes Bytes) (q : BinlogQueue ι) :
    (q.queue i e).commits = q.commits := rfl
@[simp] theorem queueAll_db (i : ι) (es : List (Edit Bytes Bytes)) (q : BinlogQueue ι) :
    (q.queueAll i es).db = q.db := rfl
@[simp] theorem queueAll_batch (i : ι) (es : List (Edit Bytes Bytes)) (q : BinlogQueue ι) :
    (q.queueAll i es).batch = q.batch ++ es.map (Prod.mk i) := rfl

theorem queueAll_queue (i : ι) (e : Edit Bytes Bytes) (es : List (Edit Bytes Bytes))
    (q : BinlogQueue ι) : (q.queue i e).queueAll i es = q.queueAll i (e :: es) := by
  simp [queueAll, queue]

@[simp] theorem queueAll_nil (i : ι) (q : BinlogQueue ι) : q.queueAll i [] = q := by
  simp [queueAll]

end BinlogQueue

/-- One operation of call `i`, whose access to leveldb fails when `fails` says
so (`put` and `delete` only touch memory). -/
def exec {ι : Type} : (op : DbOp) → ι × Bool → BinlogQueue ι → op.Result × BinlogQueue ι
  | .get key, (_, fails), q => (lookup q.db key fails, q)
  | .put key val, (i, _), q => ((), q.queue i (.put key val))
  | .delete key, (i, _), q => ((), q.queue i (.delete key))
  | .commit, (i, fails), q => q.commit i fails

def binlogs {ι : Type} : Interface DbOp DbOp.Result (ι × Bool) (BinlogQueue ι) where
  exec := exec
  enter := BinlogQueue.begin
  leave := BinlogQueue.rollback

/-- The environment of call `i`: its `n`-th operation meets `fails n`. -/
def env {ι : Type} (i : ι) (fails : ℕ → Bool) : ℕ → ι × Bool := fun n ↦ (i, fails n)

@[simp] theorem env_apply {ι : Type} (i : ι) (fails : ℕ → Bool) (n : ℕ) :
    env i fails n = (i, fails n) := rfl

@[simp] theorem later_env {ι : Type} (i : ι) (fails : ℕ → Bool) :
    later (env i fails) = env i (later fails) := rfl

section Run

variable {ι : Type} (i : ι) (fails : ℕ → Bool) (q : BinlogQueue ι)

@[simp] theorem run_ldbGet (key : Bytes) : (ldbGet key).run binlogs (env i fails) q =
    ⟨lookup q.db key (fails 0), env i (later fails), q⟩ := (rfl)

@[simp] theorem run_binlogsPut (key val : Bytes) :
    (binlogsPut key val).run binlogs (env i fails) q =
      ⟨(), env i (later fails), q.queue i (.put key val)⟩ := (rfl)

@[simp] theorem run_binlogsDelete (key : Bytes) :
    (binlogsDelete key).run binlogs (env i fails) q =
      ⟨(), env i (later fails), q.queue i (.delete key)⟩ := (rfl)

@[simp] theorem run_binlogsCommit : binlogsCommit.run binlogs (env i fails) q =
    ⟨(q.commit i (fails 0)).1, env i (later fails), (q.commit i (fails 0)).2⟩ := (rfl)

@[simp] theorem run_transaction {α : Type} (body : Db α) :
    (transaction body).run binlogs (env i fails) q =
      ((body.run binlogs (env i fails) q.begin).val,
        (body.run binlogs (env i fails) q.begin).state.rollback) := (rfl)

end Run

/-- The value of a run and the committed store it leaves. -/
def committed {ι α : Type} (r : Outcome (ι × Bool) (BinlogQueue ι) α) : α × Store :=
  (r.val, r.state.db)

/-- The result of a call and the committed store it leaves. -/
def effect {ι α : Type} (r : α × BinlogQueue ι) : α × Store := (r.1, r.2.db)

theorem effect_map {ι α β : Type} (c : DbCall α) (f : α → β) (i : ι) (fails : ℕ → Bool)
    (q : BinlogQueue ι) : effect ((c.map f).run binlogs (env i fails) q) =
      (effect (c.run binlogs (env i fails) q)).map f id := by
  simp [effect]

/-! ## Who wrote what -/

/-- Every entry of the current batch was queued by call `i`. -/
def BatchOf {ι : Type} (i : ι) (q : BinlogQueue ι) : Prop := ∀ entry ∈ q.batch, entry.1 = i

/-- The commits `q` has beyond those of `p` are commits of call `i`, of batches
that call `i` alone queued. -/
def CommitsOf {ι : Type} (i : ι) (p q : BinlogQueue ι) : Prop :=
  ∃ new, q.commits = p.commits ++ new ∧ ∀ c ∈ new, c.1 = i ∧ ∀ entry ∈ c.2, entry.1 = i

theorem CommitsOf.refl {ι : Type} (i : ι) (q : BinlogQueue ι) : CommitsOf i q q :=
  ⟨[], by simp, by simp⟩

theorem CommitsOf.trans {ι : Type} {i : ι} {p q r : BinlogQueue ι} (h₁ : CommitsOf i p q)
    (h₂ : CommitsOf i q r) : CommitsOf i p r := by
  obtain ⟨new₁, heq₁, hnew₁⟩ := h₁
  obtain ⟨new₂, heq₂, hnew₂⟩ := h₂
  refine ⟨new₁ ++ new₂, by simp [heq₁, heq₂], fun c hc ↦ ?_⟩
  rcases List.mem_append.mp hc with hc | hc
  · exact hnew₁ c hc
  · exact hnew₂ c hc

theorem exec_batchOf {ι : Type} {i : ι} {q : BinlogQueue ι} (fails : Bool) (op : DbOp)
    (h : BatchOf i q) : BatchOf i (exec op (i, fails) q).2 ∧
      CommitsOf i q (exec op (i, fails) q).2 := by
  cases op with
  | get key => exact ⟨h, .refl i q⟩
  | put key val =>
      refine ⟨fun entry hentry ↦ ?_, .refl i q⟩
      rcases List.mem_append.mp hentry with hold | hnew
      · exact h entry hold
      · simp_all
  | delete key =>
      refine ⟨fun entry hentry ↦ ?_, .refl i q⟩
      rcases List.mem_append.mp hentry with hold | hnew
      · exact h entry hold
      · simp_all
  | commit =>
      cases fails with
      | true => exact ⟨h, .refl i q⟩
      | false => exact ⟨h, [(i, q.batch)], rfl, by simpa [BatchOf] using h⟩

theorem run_batchOf {ι : Type} {i : ι} {α : Type} (p : Db α) (fails : ℕ → Bool)
    (q : BinlogQueue ι) (h : BatchOf i q) :
    CommitsOf i q (p.run binlogs (env i fails) q).state := by
  induction p generalizing fails q with
  | ret a => exact .refl i q
  | call op next ih =>
      obtain ⟨hbatch, hcommits⟩ := exec_batchOf (fails 0) op h
      exact hcommits.trans (ih _ (later fails) _ hbatch)

/-- A call commits nothing but what it queued itself: `begin()` clears what an
earlier call left in the batch. -/
theorem call_commitsOf {ι : Type} {α : Type} (c : DbCall α) (i : ι) (fails : ℕ → Bool)
    (q : BinlogQueue ι) : CommitsOf i q (c.run binlogs (env i fails) q).2 := by
  cases c with
  | plain a => exact .refl i q
  | guarded body =>
      exact run_batchOf body fails q.begin (by simp [BatchOf])

end GeminiDB
