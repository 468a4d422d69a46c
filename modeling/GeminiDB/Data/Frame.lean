import GeminiDB.Data.QueueShape

/-!
# Keys and queues do not interfere

Every call reads and writes only the keys of the queue, or of the plain keys, it
is given. As the key encodings are injective and disjoint, no call changes what
the calls on another queue or another key return.
-/

namespace GeminiDB

open Program WriteBatch SeqDeque

/-- The operation accesses no key outside `K`. -/
def DbOp.Within (K : Bytes → Prop) : DbOp → Prop
  | .get key => K key
  | .put key _ => K key
  | .delete key => K key
  | .commit => True

variable {ι : Type} {K : Bytes → Prop}

/-! ## What a call leaves alone -/

/-- `q` has the content of `db` outside `K`, and so has what its batch will write. -/
structure ChangesWithin (K : Bytes → Prop) (db : Store) (q : BinlogQueue ι) : Prop where
  outside : ∀ key, ¬ K key → q.db key = db key
  batch : ∀ entry ∈ q.batch, K entry.2.key

theorem ChangesWithin.exec {db : Store} {op : DbOp} {x : ι × Bool} {q : BinlogQueue ι}
    (hop : op.Within K) (h : ChangesWithin K db q) : ChangesWithin K db (exec op x q).2 := by
  have hqueue (i : ι) (e : Edit Bytes Bytes) (he : K e.key) : ChangesWithin K db (q.queue i e) := by
    refine ⟨h.outside, fun entry hentry ↦ ?_⟩
    rcases List.mem_append.mp hentry with hold | hnew
    · exact h.batch entry hold
    · rw [List.mem_singleton.mp hnew]
      exact he
  cases op with
  | get key => exact h
  | put key val => exact hqueue x.1 (.put key val) hop
  | delete key => exact hqueue x.1 (.delete key) hop
  | commit =>
      obtain ⟨i, fails⟩ := x
      cases fails with
      | true => exact h
      | false =>
          refine ⟨fun key hkey ↦ ?_, h.batch⟩
          refine (apply_of_forall_ne fun e he heq ↦ ?_).trans (h.outside key hkey)
          obtain ⟨entry, hentry, rfl⟩ := List.mem_map.mp he
          exact hkey (heq ▸ h.batch entry hentry)

/-- A call changes no key outside those it accesses. -/
theorem run_changesWithin {α : Type} {c : DbCall α} (hc : c.All (DbOp.Within K)) (i : ι)
    (fails : ℕ → Bool) (q : BinlogQueue ι) {key : Bytes} (hkey : ¬ K key) :
    (c.run binlogs (env i fails) q).2.db key = q.db key := by
  cases c with
  | plain a => rfl
  | guarded body =>
      have hrun := Prog.All.invariant binlogs (Q := ChangesWithin K q.db)
        (fun _ _ _ hop hs ↦ hs.exec hop) hc (env i fails) (s := q.begin)
        ⟨fun _ _ ↦ rfl, by simp⟩
      exact hrun.outside key hkey

/-! ## What a call depends on -/

/-- `q` and `r` agree on `K` and on what their batches will write. -/
structure Agree (K : Bytes → Prop) (q r : BinlogQueue ι) : Prop where
  on : ∀ key, K key → q.db key = r.db key
  batch : q.batch.map Prod.snd = r.batch.map Prod.snd

theorem Agree.exec {op : DbOp} {x : ι × Bool} {q r : BinlogQueue ι} (hop : op.Within K)
    (h : Agree K q r) :
    (exec op x q).1 = (exec op x r).1 ∧ Agree K (exec op x q).2 (exec op x r).2 := by
  cases op with
  | get key => exact ⟨by simp [GeminiDB.exec, lookup, h.on key hop], h⟩
  | put key val => exact ⟨rfl, h.on, by simp [GeminiDB.exec, h.batch]⟩
  | delete key => exact ⟨rfl, h.on, by simp [GeminiDB.exec, h.batch]⟩
  | commit =>
      obtain ⟨i, fails⟩ := x
      cases fails with
      | true => exact ⟨rfl, h⟩
      | false =>
          refine ⟨rfl, fun key hkey ↦ ?_, h.batch⟩
          simp only [GeminiDB.exec, BinlogQueue.commit, Bool.false_eq_true, if_false, h.batch]
          exact apply_congr (h.on key hkey) _

/-- Calls that access `K` only return the same where the stores agree on `K`. -/
theorem run_agree {α : Type} {c : DbCall α} (hc : c.All (DbOp.Within K)) (i : ι)
    (fails : ℕ → Bool) {q r : BinlogQueue ι} (h : ∀ key, K key → q.db key = r.db key) :
    (c.run binlogs (env i fails) q).1 = (c.run binlogs (env i fails) r).1 ∧
      ∀ key, K key → (c.run binlogs (env i fails) q).2.db key =
        (c.run binlogs (env i fails) r).2.db key := by
  cases c with
  | plain a => exact ⟨rfl, h⟩
  | guarded body =>
      obtain ⟨hval, hagree⟩ := Prog.All.congr binlogs (R := Agree K)
        (fun _ _ _ _ hop hst ↦ hst.exec hop) hc (env i fails) (s := q.begin) (t := r.begin)
        ⟨h, rfl⟩
      exact ⟨hval, hagree.on⟩

/-- The operation reads a key in `K`. -/
def DbOp.ReadsWithin (K : Bytes → Prop) : DbOp → Prop
  | .get key => K key
  | _ => False

/-- The same for a reader outside a transaction; it changes nothing. -/
theorem run_reads_agree {α : Type} {p : Db α} (hp : p.All (DbOp.ReadsWithin K)) (i : ι)
    (fails : ℕ → Bool) {q r : BinlogQueue ι} (h : ∀ key, K key → q.db key = r.db key) :
    (p.run binlogs (env i fails) q).val = (p.run binlogs (env i fails) r).val ∧
      ∀ key, K key → (p.run binlogs (env i fails) q).state.db key =
        (p.run binlogs (env i fails) r).state.db key := by
  refine Prog.All.congr binlogs (R := fun q r ↦ ∀ key, K key → q.db key = r.db key)
    (fun op x s t hop hst ↦ ?_) hp _ h
  cases op with
  | get key => exact ⟨by simp [binlogs, GeminiDB.exec, lookup, hst key hop], hst⟩
  | put key val => exact hop.elim
  | delete key => exact hop.elim
  | commit => exact hop.elim

/-! ## The keys of each call -/

section Queue

variable (name : Bytes)

section Reads

variable {P : DbOp → Prop} (hP : ∀ key, OwnedBy name key → P (.get key))

include hP

theorem all_qgetBySeq (seq : UInt64) (val : Bytes) : (qgetBySeq name seq val).All P := by
  refine .bind ⟨hP _ (.inr ⟨seq, rfl⟩), fun r ↦ trivial⟩ fun r ↦ ?_
  cases r <;> trivial

theorem all_qgetUint64 (seq : UInt64) : (qgetUint64 name seq).All P := by
  refine .bind (all_qgetBySeq name hP seq []) fun r ↦ ?_
  split
  split
  · split <;> trivial
  · trivial

theorem all_qsize : (qsize name).All P := by
  refine .bind ⟨hP _ (.inl rfl), fun r ↦ trivial⟩ fun r ↦ ?_
  cases r with
  | ok val =>
      simp only
      split <;> trivial
  | notFound => trivial
  | error => trivial

theorem all_qpeek (item : Bytes) (seq : UInt64) : (qpeek name item seq).All P := by
  refine .bind (all_qgetUint64 name hP seq) fun r ↦ ?_
  split
  split
  · trivial
  · split
    · trivial
    · exact all_qgetBySeq name hP _ item

end Reads

theorem all_qsetOne (seq : UInt64) (item : Bytes) :
    (qsetOne name seq item).All (DbOp.Within (OwnedBy name)) :=
  ⟨.inr ⟨seq, rfl⟩, fun _ ↦ trivial⟩

theorem all_qdelOne (seq : UInt64) : (qdelOne name seq).All (DbOp.Within (OwnedBy name)) :=
  ⟨.inr ⟨seq, rfl⟩, fun _ ↦ trivial⟩

theorem all_incrQsize (incr : Int64) :
    (incrQsize name incr).All (DbOp.Within (OwnedBy name)) := by
  refine .bind (all_qsize name fun _ hkey ↦ hkey) fun size ↦ ?_
  split
  · trivial
  · dsimp only
    split
    · refine .bind ⟨.inl rfl, fun _ ↦ trivial⟩ fun _ ↦ ?_
      refine .bind (all_qdelOne name _) fun _ ↦ ?_
      exact .bind (all_qdelOne name _) fun _ ↦ trivial
    · exact .bind ⟨.inl rfl, fun _ ↦ trivial⟩ fun _ ↦ trivial

theorem all_pushItem (item : Bytes) (seq : UInt64) :
    (pushItem name item seq).All (DbOp.Within (OwnedBy name)) := by
  refine .bind (all_qsetOne name seq item) fun _ ↦ ?_
  refine .bind (all_incrQsize name 1) fun size ↦ ?_
  split
  · trivial
  · refine .bind ⟨trivial, fun _ ↦ trivial⟩ fun ok ↦ ?_
    split <;> trivial

theorem all_qpush (item : Bytes) (seq : UInt64) :
    (qpush name item seq).All (DbOp.Within (OwnedBy name)) := by
  have hend (g : Int × UInt64) : Prog.All (DbOp.Within (OwnedBy name))
      (if pushSeq seq g ≤ qitemMinSeq ∨ pushSeq seq g ≥ qitemMaxSeq then return -1
        else pushItem name item (pushSeq seq g)) := by
    split
    · trivial
    · exact all_pushItem name item _
  rw [qpush_eq]
  apply Prog.All.bind (all_qgetUint64 name (fun _ hkey ↦ hkey) seq)
  intro g
  dsimp only
  by_cases herr : g.1 = -1
  · rw [if_pos herr]
    trivial
  · rw [if_neg herr]
    by_cases hnew : g.1 = 0
    · rw [if_pos hnew]
      refine .bind (all_qsetOne name _ _) fun _ ↦ ?_
      exact .bind (all_qsetOne name _ _) fun _ ↦ hend g
    · rw [if_neg hnew]
      exact .bind (all_qsetOne name _ _) fun _ ↦ hend g

theorem all_popItem (side seq : UInt64) (found : Bytes) :
    (popItem name side seq found).All (DbOp.Within (OwnedBy name)) := by
  have hend : Prog.All (DbOp.Within (OwnedBy name)) (do
      if ← binlogsCommit then return ((1 : Int), found)
      return (-1, found)) := by
    refine .bind ⟨trivial, fun _ ↦ trivial⟩ fun ok ↦ ?_
    split <;> trivial
  refine .bind (all_qdelOne name seq) fun _ ↦ ?_
  refine .bind (all_incrQsize name (-1)) fun size ↦ ?_
  split
  · trivial
  · dsimp only
    split
    · exact .bind (all_qsetOne name _ _) fun _ ↦ hend
    · exact hend

theorem all_qpop (item : Bytes) (seq : UInt64) :
    (qpop name item seq).All (DbOp.Within (OwnedBy name)) := by
  rw [qpop_eq]
  apply Prog.All.bind (all_qgetUint64 name (fun _ hkey ↦ hkey) seq)
  intro g
  split
  · trivial
  · split
    · trivial
    · refine .bind (all_qgetBySeq name (fun _ hkey ↦ hkey) _ item) fun r ↦ ?_
      split
      · trivial
      · split
        · trivial
        · exact all_popItem name seq _ _

end Queue

/-- The plain keys that a call may write. -/
def Mutation.keys : Mutation → List Bytes
  | .set key _ => [key]
  | .del key => [key]
  | .multiSet kvs offset => (pairs (kvs.drop offset)).map Prod.fst
  | .multiDel keys offset => keys.drop offset
  | _ => []

/-- The queue that a call is about. -/
def Mutation.queue : Mutation → Option Bytes
  | .qpushFront name _ => some name
  | .qpushBack name _ => some name
  | .qpopFront name _ => some name
  | .qpopBack name _ => some name
  | _ => none

def Mutation.Touches (m : Mutation) (key : Bytes) : Prop :=
  (∃ k ∈ m.keys, key = encodeKvKey k) ∨ ∃ name, m.queue = some name ∧ OwnedBy name key

theorem Prog.All.mono {K L : Bytes → Prop} (hKL : ∀ key, K key → L key) {α : Type} {p : Db α}
    (hp : p.All (DbOp.Within K)) : p.All (DbOp.Within L) := by
  induction p with
  | ret a => trivial
  | call op next ih =>
      refine ⟨?_, fun r ↦ ih r (hp.2 r)⟩
      cases op with
      | get key => exact hKL key hp.1
      | put key val => exact hKL key hp.1
      | delete key => exact hKL key hp.1
      | commit => trivial

theorem Call.All.mono {K L : Bytes → Prop} (hKL : ∀ key, K key → L key) {α : Type} {c : DbCall α}
    (hc : c.All (DbOp.Within K)) : c.All (DbOp.Within L) := by
  cases c with
  | plain a => trivial
  | guarded body => exact Prog.All.mono hKL hc

theorem all_multiSetLoop {kvs : List (Bytes × Bytes)} (h : ∀ p ∈ kvs, K (encodeKvKey p.1)) :
    (multiSetLoop kvs).All (DbOp.Within K) := by
  induction kvs with
  | nil => trivial
  | cons p kvs ih =>
      rw [multiSetLoop]
      split
      · trivial
      · exact .bind ⟨h p List.mem_cons_self, fun _ ↦ trivial⟩ fun _ ↦
          ih fun q hq ↦ h q (List.mem_cons_of_mem p hq)

theorem all_multiDelLoop {keys : List Bytes} (h : ∀ key ∈ keys, K (encodeKvKey key)) :
    (multiDelLoop keys).All (DbOp.Within K) := by
  induction keys with
  | nil => trivial
  | cons key keys ih =>
      exact .bind ⟨h key List.mem_cons_self, fun _ ↦ trivial⟩ fun _ ↦
        ih fun k hk ↦ h k (List.mem_cons_of_mem key hk)

theorem all_commit {α : Type} (ok failed : α) :
    Prog.All (DbOp.Within K) (do
      if ← binlogsCommit then return ok else return failed : Db α) := by
  refine .bind ⟨trivial, fun _ ↦ trivial⟩ fun done ↦ ?_
  split <;> trivial

/-- A call accesses its own keys and its own queue only. -/
theorem Mutation.all_touches (m : Mutation) : m.call.All (DbOp.Within m.Touches) := by
  have hqueue {name : Bytes} (hm : m.queue = some name) {α : Type} {c : DbCall α}
      (hc : c.All (DbOp.Within (OwnedBy name))) : c.All (DbOp.Within m.Touches) :=
    Call.All.mono (fun key hkey ↦ .inr ⟨name, hm, hkey⟩) hc
  cases m with
  | set key val =>
      rw [Mutation.call]
      refine Call.All.map ?_ _
      unfold GeminiDB.set
      split
      · trivial
      · exact Prog.All.bind ⟨.inl ⟨key, by simp [Mutation.keys], rfl⟩, fun _ ↦ trivial⟩ fun _ ↦
          all_commit 1 (-1)
  | del key =>
      rw [Mutation.call]
      refine Call.All.map ?_ _
      exact Prog.All.bind ⟨.inl ⟨key, by simp [Mutation.keys], rfl⟩, fun _ ↦ trivial⟩ fun _ ↦
        all_commit 1 (-1)
  | multiSet kvs offset =>
      rw [Mutation.call]
      refine Call.All.map ?_ _
      refine Prog.All.bind (all_multiSetLoop fun p hp ↦ .inl ⟨p.1, ?_, rfl⟩) fun done ↦ ?_
      · exact List.mem_map_of_mem hp
      · split
        · exact all_commit _ (-1)
        · trivial
  | multiDel keys offset =>
      rw [Mutation.call]
      refine Call.All.map ?_ _
      exact Prog.All.bind (all_multiDelLoop fun key hkey ↦ .inl ⟨key, hkey, rfl⟩) fun _ ↦
        all_commit _ (-1)
  | qpushFront name item => exact Call.All.map (hqueue rfl (all_qpush name item qfrontSeq)) _
  | qpushBack name item => exact Call.All.map (hqueue rfl (all_qpush name item qbackSeq)) _
  | qpopFront name item => exact hqueue rfl (all_qpop name item qfrontSeq)
  | qpopBack name item => exact hqueue rfl (all_qpop name item qbackSeq)

theorem Mutation.run_untouched (m : Mutation) (i : ι) (fails : ℕ → Bool) (q : BinlogQueue ι)
    {key : Bytes} (hkey : ¬ m.Touches key) : (m.run i fails q).2.db key = q.db key :=
  run_changesWithin m.all_touches i fails q hkey

theorem Mutation.not_touches_kv {m : Mutation} {key : Bytes} (hkey : key ∉ m.keys) :
    ¬ m.Touches (encodeKvKey key) := by
  rintro (⟨k, hk, heq⟩ | ⟨name, -, heq | ⟨seq, heq⟩⟩)
  · exact hkey (encodeKvKey_inj.mp heq ▸ hk)
  · exact encodeKvKey_ne_qsize _ _ heq
  · exact encodeKvKey_ne_qitem _ _ _ heq

theorem Mutation.not_touches_queue {m : Mutation} {name key : Bytes} (hname : m.queue ≠ some name)
    (hkey : OwnedBy name key) : ¬ m.Touches key := by
  rintro (⟨k, -, rfl⟩ | ⟨other, hother, howned⟩)
  · rcases hkey with heq | ⟨seq, heq⟩
    · exact encodeKvKey_ne_qsize _ _ heq
    · exact encodeKvKey_ne_qitem _ _ _ heq
  · exact not_ownedBy_of_ne howned (fun heq ↦ hname (hother.trans (congrArg some heq))) hkey

/-! ## Calls on one queue -/

def QueueCall.name : QueueCall → Bytes
  | .qpushFront name _ => name
  | .qpushBack name _ => name
  | .qpopFront name _ => name
  | .qpopBack name _ => name
  | .qsize name => name
  | .qfront name _ => name
  | .qback name _ => name

/-- A call on a queue answers the same where the stores agree on the queue. -/
theorem QueueCall.run_agree (c : QueueCall) (i : ι) (fails : ℕ → Bool) {q r : BinlogQueue ι}
    (h : ∀ key, OwnedBy c.name key → q.db key = r.db key) :
    (c.run i fails q).1 = (c.run i fails r).1 ∧
      ∀ key, OwnedBy c.name key → (c.run i fails q).2.db key = (c.run i fails r).2.db key := by
  cases c with
  | qpushFront name item =>
      exact GeminiDB.run_agree (Call.All.map (all_qpush name item qfrontSeq) _) i fails h
  | qpushBack name item =>
      exact GeminiDB.run_agree (Call.All.map (all_qpush name item qbackSeq) _) i fails h
  | qpopFront name item => exact GeminiDB.run_agree (all_qpop name item qfrontSeq) i fails h
  | qpopBack name item => exact GeminiDB.run_agree (all_qpop name item qbackSeq) i fails h
  | qsize name =>
      obtain ⟨hval, hdb⟩ := run_reads_agree (all_qsize name fun _ hkey ↦ hkey) i fails h
      exact ⟨by simp only [run, hval], hdb⟩
  | qfront name item =>
      exact run_reads_agree (all_qpeek name (fun _ hkey ↦ hkey) item qfrontSeq) i fails h
  | qback name item =>
      exact run_reads_agree (all_qpeek name (fun _ hkey ↦ hkey) item qbackSeq) i fails h

/-- The answers of any calls on one queue depend on its keys only. -/
theorem queueCalls_agree (i : ι) {name : Bytes} {calls : List (QueueCall × (ℕ → Bool))}
    (hname : ∀ c ∈ calls, c.1.name = name) {q r : BinlogQueue ι}
    (h : ∀ key, OwnedBy name key → q.db key = r.db key) :
    Machine.outputs (fun q (c : QueueCall × (ℕ → Bool)) ↦ c.1.run i c.2 q) q calls =
      Machine.outputs (fun q (c : QueueCall × (ℕ → Bool)) ↦ c.1.run i c.2 q) r calls := by
  induction calls generalizing q r with
  | nil => rfl
  | cons c calls ih =>
      obtain rfl : c.1.name = name := hname c List.mem_cons_self
      obtain ⟨hval, hnext⟩ := c.1.run_agree i c.2 h
      rw [Machine.outputs, Machine.outputs, hval,
        ih (fun d hd ↦ hname d (List.mem_cons_of_mem c hd)) hnext]

/-! ## Frames -/

/-- The encodings are injective and no two of them meet. -/
def KeysApart : Prop :=
  Function.Injective encodeKvKey ∧ Function.Injective encodeQsizeKey ∧
    Function.Injective2 encodeQitemKey ∧ (∀ key name, encodeKvKey key ≠ encodeQsizeKey name) ∧
    (∀ key name seq, encodeKvKey key ≠ encodeQitemKey name seq) ∧
    ∀ other name seq, encodeQsizeKey other ≠ encodeQitemKey name seq

theorem keysApart : KeysApart :=
  ⟨fun _ _ ↦ encodeKvKey_inj.mp, fun _ _ ↦ encodeQsizeKey_inj.mp,
    fun _ _ _ _ ↦ encodeQitemKey_inj.mp, encodeKvKey_ne_qsize, encodeKvKey_ne_qitem,
    encodeQsizeKey_ne_qitem⟩

/-- An item of a queue is not stored under an end pointer, of any queue. -/
theorem Spans.item_ne_end {db : Store} {name : Bytes} {f b seq : UInt64} (h : Spans db name f b)
    (hlo : f ≤ seq) (other : Bytes) (side : Side) :
    encodeQitemKey name seq ≠ encodeQitemKey other (endSeq side) := by
  obtain ⟨-, -, ⟨hmin, -, -⟩, -⟩ := h
  intro heq
  have hseq := (encodeQitemKey_inj.mp heq).2
  have hlt : qitemMinSeq < endSeq side := hseq ▸ UInt64.lt_of_lt_of_le hmin hlo
  revert hlt
  cases side <;> decide

/-- In a reachable store, a call leaves all other keys and all other queues alone. -/
theorem keys_and_queues_apart {q : BinlogQueue ι}
    (h : Machine.Reachable mutate BinlogQueue.empty q) (m : Mutation) (i : ι)
    (fails : ℕ → Bool) :
    KeysApart ∧
      (∀ name, Drained q.db name ∨ ∃ f b, Spans q.db name f b ∧
        ∀ seq, f ≤ seq → seq ≤ b → ∀ other side,
          encodeQitemKey name seq ≠ encodeQitemKey other (endSeq side)) ∧
      (∀ key, key ∉ m.keys → ∀ j fails' val,
        ((get key val).run binlogs (env j fails') (m.run i fails q).2).val =
          ((get key val).run binlogs (env j fails') q).val) ∧
      ∀ name, m.queue ≠ some name →
        (∀ key, OwnedBy name key → (m.run i fails q).2.db key = q.db key) ∧
          ∀ j (calls : List (QueueCall × (ℕ → Bool))), (∀ c ∈ calls, c.1.name = name) →
            Machine.outputs (fun q c ↦ c.1.run j c.2 q) (m.run i fails q).2 calls =
              Machine.outputs (fun q c ↦ c.1.run j c.2 q) q calls := by
  refine ⟨keysApart, fun name ↦ ?_, fun key hkey j fails' val ↦ ?_, fun name hname ↦ ?_⟩
  · obtain ⟨ds, hrep⟩ := queues_of_reachable h
    by_cases hnil : (ds name).items = []
    · exact .inl ((hrep name).drained hnil)
    · have hspans := (hrep name).spans hnil
      exact .inr ⟨_, _, hspans, fun seq hlo _ other side ↦ hspans.item_ne_end hlo other side⟩
  · have hdb := m.run_untouched i fails q (m.not_touches_kv hkey)
    rw [run_get, run_get]
    simp only [lookup, hdb]
  · have hdb (key : Bytes) (hkey : OwnedBy name key) :
        (m.run i fails q).2.db key = q.db key :=
      m.run_untouched i fails q (m.not_touches_queue hname hkey)
    exact ⟨hdb, fun j calls hcalls ↦ queueCalls_agree j hcalls hdb⟩

/-- A plain key that spells an item key does not touch the item. -/
theorem keys_and_queues_apart_pushed :
    ∃ q : BinlogQueue ℕ, (q.db (encodeQitemKey [97] qitemSeqInit)).isSome ∧
      ((Mutation.set (encodeQitemKey [97] qitemSeqInit) [49]).run 1 (fun _ ↦ false) q).2.db
          (encodeQitemKey [97] qitemSeqInit) = q.db (encodeQitemKey [97] qitemSeqInit) := by
  have hrun : Machine.run mutate (BinlogQueue.empty (ι := ℕ))
      [(0, .qpushBack [97] [49], fun _ ↦ false)] = some _ := rfl
  exact ⟨_, by decide, ((keys_and_queues_apart (Machine.reachable_of_run hrun)
    (.set (encodeQitemKey [97] qitemSeqInit) [49]) 1 fun _ ↦ false).2.2.2 [97] (by decide)).1 _
      (.inr ⟨_, rfl⟩)⟩

end GeminiDB
