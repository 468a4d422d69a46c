import GeminiDB.Data.Kv

/-!
# Batched and single key-value calls

`multi_set` and `multi_del` queue all of their edits in one batch. They leave the
store as `set` and `del` do, called for one element after another.
-/

namespace GeminiDB

open Program WriteBatch

section Run

variable {ι : Type} (i : ι)

/-- `set` for each pair, from left to right. -/
def setEach (kvs : List (Bytes × Bytes)) (q : BinlogQueue ι) : BinlogQueue ι :=
  kvs.foldl (fun q p ↦ ((set p.1 p.2).run binlogs (env i fun _ ↦ false) q).2) q

/-- `del` for each key, from left to right. -/
def delEach (keys : List Bytes) (q : BinlogQueue ι) : BinlogQueue ι :=
  keys.foldl (fun q key ↦ ((del key).run binlogs (env i fun _ ↦ false) q).2) q

/-- The argument list of the pairs. -/
def flatten (kvs : List (Bytes × Bytes)) : List Bytes := kvs.flatMap fun p ↦ [p.1, p.2]

theorem pairs_flatten (kvs : List (Bytes × Bytes)) : pairs (flatten kvs) = kvs := by
  induction kvs with
  | nil => rfl
  | cons p kvs ih => exact congrArg (p :: ·) ih

theorem length_flatten (kvs : List (Bytes × Bytes)) : (flatten kvs).length = 2 * kvs.length := by
  induction kvs with
  | nil => rfl
  | cons p kvs ih =>
      rw [List.length_cons, Nat.mul_succ, ← ih]
      rfl

theorem setEach_db {kvs : List (Bytes × Bytes)} (hkeys : ∀ p ∈ kvs, p.1 ≠ [])
    (q : BinlogQueue ι) : (setEach i kvs q).db = apply q.db (putEdits kvs) := by
  induction kvs generalizing q with
  | nil => rfl
  | cons p kvs ih =>
      have hset := congrArg Prod.snd (set_effect i (fun _ ↦ false) q p.1 p.2)
      have hkey : p.1.isEmpty = false := by simpa using hkeys p List.mem_cons_self
      rw [setResult, hkey] at hset
      calc (setEach i (p :: kvs) q).db
          = apply ((set p.1 p.2).run binlogs (env i fun _ ↦ false) q).2.db (putEdits kvs) :=
            ih (fun p' hp' ↦ hkeys p' (List.mem_cons_of_mem p hp')) _
        _ = apply (apply q.db (putEdits [p])) (putEdits kvs) := congrArg (apply · _) hset
        _ = apply q.db (putEdits (p :: kvs)) := (apply_append _ _ _).symm

theorem delEach_db (keys : List Bytes) (q : BinlogQueue ι) :
    (delEach i keys q).db = apply q.db (deleteEdits keys) := by
  induction keys generalizing q with
  | nil => rfl
  | cons key keys ih =>
      have hdel := congrArg Prod.snd (del_effect i (fun _ ↦ false) q key)
      calc (delEach i (key :: keys) q).db
          = apply ((del key).run binlogs (env i fun _ ↦ false) q).2.db (deleteEdits keys) := ih _
        _ = apply (apply q.db (deleteEdits [key])) (deleteEdits keys) :=
            congrArg (apply · _) hdel
        _ = apply q.db (deleteEdits (key :: keys)) := (apply_append _ _ _).symm

/-- The store after `multi_set` is that of single sets, or unchanged when a key is
empty; after `multi_del` it is that of single deletions. Both return the number
of elements as an `int`. -/
theorem batches_agree (q : BinlogQueue ι) (before : List Bytes) (kvs : List (Bytes × Bytes))
    (keys : List Bytes) :
    let s := (multiSet (before ++ flatten kvs) before.length).run binlogs (env i fun _ ↦ false) q
    let d := (multiDel (before ++ keys) before.length).run binlogs (env i fun _ ↦ false) q
    ((∀ p ∈ kvs, p.1 ≠ []) → s.2.db = (setEach i kvs q).db ∧ s.1 = int32 kvs.length ∧
        (kvs.length < 2 ^ 31 → s.1 = kvs.length)) ∧
      ((∃ p ∈ kvs, p.1 = []) → s.2.db = q.db) ∧
      d.2.db = (delEach i keys q).db ∧ d.1 = int32 keys.length ∧
        (keys.length < 2 ^ 31 → d.1 = keys.length) := by
  intro s d
  have hset := multiSet_effect i (fun _ ↦ false) q (before ++ flatten kvs) before.length
  have hdel := multiDel_effect i (fun _ ↦ false) q (before ++ keys) before.length
  have hpairs : pairs ((before ++ flatten kvs).drop before.length) = kvs := by
    rw [List.drop_left, pairs_flatten]
  have hcount : ((before ++ flatten kvs).length - before.length) / 2 = kvs.length := by
    rw [List.length_append, length_flatten]
    omega
  have hkeys : (before ++ keys).length - before.length = keys.length := by
    rw [List.length_append]
    omega
  rw [multiSetResult, hpairs, hcount] at hset
  rw [multiDelResult, hkeys, List.drop_left] at hdel
  obtain ⟨hret, hdb⟩ := Prod.mk.inj hdel
  refine ⟨fun hall ↦ ?_, ?_, ?_, hret, fun hlt ↦ ?_⟩
  · have hgood : (kvs.all fun p ↦ !p.1.isEmpty) = true := by simpa using hall
    rw [if_pos hgood] at hset
    obtain ⟨hret, hdb⟩ := Prod.mk.inj hset
    exact ⟨hdb.trans (setEach_db i hall q).symm, hret, fun hlt ↦ hret.trans (int32_natCast hlt)⟩
  · rintro ⟨p, hp, hnil⟩
    have hbad : ¬ (kvs.all fun p ↦ !p.1.isEmpty) = true := fun hall ↦ by
      simpa [hnil] using List.all_eq_true.mp hall p hp
    rw [if_neg hbad] at hset
    exact congrArg Prod.snd hset
  · exact hdb.trans (delEach_db i keys q).symm
  · exact hret.trans (int32_natCast hlt)

end Run

/-- A key that occurs twice, and a batch with an empty key behind a good one. -/
theorem batches_agree_twice :
    ((multiSet ([[109]] ++ flatten [([97], [49]), ([97], [50])]) 1).run binlogs
        (env () fun _ ↦ false) BinlogQueue.empty).2.db =
      (setEach () [([97], [49]), ([97], [50])] BinlogQueue.empty).db ∧
    ((multiSet ([[109]] ++ flatten [([97], [49]), ([], [50])]) 1).run binlogs
        (env () fun _ ↦ false) BinlogQueue.empty).2.db =
      (BinlogQueue.empty : BinlogQueue Unit).db :=
  ⟨((batches_agree () BinlogQueue.empty [[109]] [([97], [49]), ([97], [50])] []).1
      (by decide)).1,
    (batches_agree () BinlogQueue.empty [[109]] [([97], [49]), ([], [50])] []).2.1 (by decide)⟩

end GeminiDB
