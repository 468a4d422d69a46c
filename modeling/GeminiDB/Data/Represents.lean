import GeminiDB.Data.Database

/-!
# The store of the database

A store represents a database when its keys are exactly the slots that the database
fills. Each mutating call keeps that, whether it fails or not, and it is visible from
the moment of its commit. So what threads do with accesses and locks, they do moment by
moment with the database.
-/

namespace GeminiDB

open Program WriteBatch SeqDeque

/-- The store holds what the database has in its slots, and nothing else. -/
structure Represents (db : Store) (d : Database) : Prop where
  slots : ∀ slot : Slot, db slot.encode = d.read slot
  only : ∀ key, (∀ slot : Slot, slot.encode ≠ key) → db key = none

theorem represents_iff {db : Store} {d : Database} :
    Represents db d ↔ (∀ key, db (encodeKvKey key) = d.kv key) ∧ RepAll db d.queues ∧
      ∀ key, (∀ slot : Slot, slot.encode ≠ key) → db key = none := by
  constructor
  · intro h
    refine ⟨fun key ↦ h.slots (.kv key), fun name ↦ ?_, h.only⟩
    refine ⟨d.within name, h.slots (.qsize name), fun side ↦ ?_, fun s hs ↦ ?_⟩
    · exact (h.slots (.qitem name (endSeq side))).trans (d.read_endSeq name side)
    · refine (h.slots (.qitem name s)).trans ?_
      exact (if_neg (hs .front)).trans (if_neg (hs .back))
  · rintro ⟨hkv, hqueues, honly⟩
    refine ⟨fun slot ↦ ?_, honly⟩
    cases slot with
    | kv key => exact hkv key
    | qsize name => exact (hqueues name).size
    | qitem name seq =>
        rw [Database.read]
        split
        · next hfront => exact hfront ▸ (hqueues name).edge .front
        · next hfront =>
          split
          · next hback => exact hback ▸ (hqueues name).edge .back
          · next hback =>
            refine (hqueues name).item seq fun side ↦ ?_
            cases side with
            | front => exact hfront
            | back => exact hback

theorem represents_empty : Represents (fun _ ↦ none) Database.empty :=
  represents_iff.mpr ⟨fun _ ↦ rfl, repAll_empty, fun _ _ ↦ rfl⟩

/-! ## Mutating calls -/

/-- A mutating call fails and changes nothing, or does what it does without failures. -/
theorem Mutation.outcome_cases (m : Mutation) (db : Store) (f₀ f₁ f₂ f₃ : Bool) :
    ((m.outcome db f₀ f₁ f₂ f₃).1.1 = -1 ∧ (m.outcome db f₀ f₁ f₂ f₃).2 = db) ∨
      m.outcome db f₀ f₁ f₂ f₃ = m.outcome db false false false false := by
  have hkv (ok : Int) (es : List (Edit Bytes Bytes)) :
      kvCommit db ok es f₀ = (-1, db) ∨ kvCommit db ok es f₀ = kvCommit db ok es false := by
    cases f₀ with
    | true => exact .inl rfl
    | false => exact .inr rfl
  have herr : (-1 : Int64).toInt = -1 := by decide
  cases m with
  | set key val =>
      rw [outcome, outcome, setResult, setResult]
      split
      · exact .inr rfl
      · rcases hkv 1 (putEdits [(key, val)]) with h | h
        · exact .inl (by rw [h]; exact ⟨rfl, rfl⟩)
        · exact .inr (by rw [h])
  | del key =>
      rcases hkv 1 (deleteEdits [key]) with h | h
      · exact .inl (by rw [outcome, delResult, h]; exact ⟨rfl, rfl⟩)
      · exact .inr (by rw [outcome, outcome, delResult, delResult, h])
  | multiSet kvs offset =>
      rw [outcome, outcome, multiSetResult, multiSetResult]
      split
      · rcases hkv _ (putEdits (pairs (kvs.drop offset))) with h | h
        · exact .inl (by rw [h]; exact ⟨rfl, rfl⟩)
        · exact .inr (by rw [h])
      · exact .inr rfl
  | multiDel keys offset =>
      rcases hkv _ (deleteEdits (keys.drop offset)) with h | h
      · exact .inl (by rw [outcome, multiDelResult, h]; exact ⟨rfl, rfl⟩)
      · exact .inr (by rw [outcome, outcome, multiDelResult, multiDelResult, h])
  | qpushFront name item =>
      rcases pushResult_of_failures db name item qfrontSeq f₀ f₁ f₂ with h | h
      · exact .inl (by rw [outcome, h]; exact ⟨herr, rfl⟩)
      · exact .inr (by rw [outcome, outcome, h])
  | qpushBack name item =>
      rcases pushResult_of_failures db name item qbackSeq f₀ f₁ f₂ with h | h
      · exact .inl (by rw [outcome, h]; exact ⟨herr, rfl⟩)
      · exact .inr (by rw [outcome, outcome, h])
  | qpopFront name item => exact popResult_of_failures db name item qfrontSeq f₀ f₁ f₂ f₃
  | qpopBack name item => exact popResult_of_failures db name item qbackSeq f₀ f₁ f₂ f₃

/-- The failures that decide the outcome are among those that the accesses meet. -/
theorem Mutation.run_faults (m : Mutation) (fails : ℕ → Bool) (q : BinlogQueue Unit) :
    ∃ f₀ f₁ f₂ f₃,
      ((∀ n, fails n = false) → (f₀ = false ∧ f₁ = false ∧ f₂ = false ∧ f₃ = false)) ∧
        effect (m.run () fails q) = m.outcome q.db f₀ f₁ f₂ f₃ := by
  cases m with
  | set key val =>
      exact ⟨_, false, false, false, fun h ↦ ⟨h 1, rfl, rfl, rfl⟩, by
        rw [run, call, effect_map, set_effect, outcome]⟩
  | del key =>
      exact ⟨_, false, false, false, fun h ↦ ⟨h 1, rfl, rfl, rfl⟩, by
        rw [run, call, effect_map, del_effect, outcome]⟩
  | multiSet kvs offset =>
      exact ⟨_, false, false, false, fun h ↦ ⟨h _, rfl, rfl, rfl⟩, by
        rw [run, call, effect_map, multiSet_effect, outcome]⟩
  | multiDel keys offset =>
      exact ⟨_, false, false, false, fun h ↦ ⟨h _, rfl, rfl, rfl⟩, by
        rw [run, call, effect_map, multiDel_effect, outcome]⟩
  | qpushFront name item =>
      obtain ⟨n₀, n₁, n₂, heffect⟩ := qpush_effect () fails q name item qfrontSeq
      exact ⟨_, _, _, false, fun h ↦ ⟨h n₀, h n₁, h n₂, rfl⟩, by
        rw [run, call, effect_map, GeminiDB.qpushFront, heffect, outcome]⟩
  | qpushBack name item =>
      obtain ⟨n₀, n₁, n₂, heffect⟩ := qpush_effect () fails q name item qbackSeq
      exact ⟨_, _, _, false, fun h ↦ ⟨h n₀, h n₁, h n₂, rfl⟩, by
        rw [run, call, effect_map, GeminiDB.qpushBack, heffect, outcome]⟩
  | qpopFront name item =>
      obtain ⟨n₀, n₁, n₂, n₃, heffect⟩ := qpop_effect () fails q name item qfrontSeq
      exact ⟨_, _, _, _, fun h ↦ ⟨h n₀, h n₁, h n₂, h n₃⟩, heffect⟩
  | qpopBack name item =>
      obtain ⟨n₀, n₁, n₂, n₃, heffect⟩ := qpop_effect () fails q name item qbackSeq
      exact ⟨_, _, _, _, fun h ↦ ⟨h n₀, h n₁, h n₂, h n₃⟩, heffect⟩

theorem Mutation.outcome_untouched (m : Mutation) (q : BinlogQueue Unit) {key : Bytes}
    (hkey : ¬ m.Touches key) : (m.outcome q.db false false false false).2 key = q.db key := by
  obtain ⟨f₀, f₁, f₂, f₃, hnone, heffect⟩ := m.run_faults (fun _ ↦ false) q
  obtain ⟨rfl, rfl, rfl, rfl⟩ := hnone fun _ ↦ rfl
  rw [← heffect]
  exact m.run_untouched () _ q hkey

theorem Mutation.Touches.slot {m : Mutation} {key : Bytes} (h : m.Touches key) :
    ∃ slot : Slot, slot.encode = key := by
  rcases h with ⟨k, -, rfl⟩ | ⟨name, -, rfl | ⟨seq, rfl⟩⟩
  · exact ⟨.kv k, rfl⟩
  · exact ⟨.qsize name, rfl⟩
  · exact ⟨.qitem name seq, rfl⟩

section Represents

variable {db : Store} {d : Database}

/-- Edits of encoded keys are edits of plain keys. -/
theorem Represents.apply_kv (h : Represents db d) (es : List (Edit Bytes Bytes)) (key : Bytes) :
    apply db (es.map (Edit.mapKey encodeKvKey)) (encodeKvKey key) = apply d.kv es key := by
  have hinj : Function.Injective encodeKvKey := fun _ _ ↦ encodeKvKey_inj.mp
  have hkey : db (encodeKvKey key) = d.kv key := h.slots (.kv key)
  rw [apply_eq_lastEdit, apply_eq_lastEdit, lastEdit_mapKey hinj, hkey]
  cases lastEdit key es with
  | none => rfl
  | some e => exact e.result_mapKey encodeKvKey

/-- Edits of plain keys. -/
theorem Represents.edit (h : Represents db d) (es : List (Edit Bytes Bytes)) :
    Represents (apply db (es.map (Edit.mapKey encodeKvKey))) (d.edit es) := by
  obtain ⟨-, hqueues, honly⟩ := represents_iff.mp h
  refine represents_iff.mpr ⟨h.apply_kv es, hqueues.apply_kv fun e he ↦ ?_, fun key hkey ↦ ?_⟩
  · obtain ⟨e', -, rfl⟩ := List.mem_map.mp he
    exact ⟨e'.key, e'.key_mapKey encodeKvKey⟩
  · refine (apply_of_forall_ne fun e he heq ↦ ?_).trans (honly key hkey)
    obtain ⟨e', -, rfl⟩ := List.mem_map.mp he
    rw [e'.key_mapKey encodeKvKey] at heq
    exact hkey (.kv e'.key) heq

/-- A mutating call that does not fail does to the store what it does to the database. -/
theorem Represents.mutate {q : BinlogQueue Unit} (h : Represents q.db d) (m : Mutation) :
    (m.outcome q.db false false false false).1 = (d.mutate m).1 ∧
      Represents (m.outcome q.db false false false false).2 (d.mutate m).2 := by
  obtain ⟨hkv, hqueues, honly⟩ := represents_iff.mp h
  have hput (kvs : List (Bytes × Bytes)) :=
    putEdits_eq kvs ▸ h.edit (kvs.map fun p : Bytes × Bytes ↦ Edit.put p.1 p.2)
  have hdelete (keys : List Bytes) := deleteEdits_eq keys ▸ h.edit (keys.map Edit.delete)
  have hqueue {m : Mutation} {d' : Database} (hkeys : m.keys = []) (hsame : d'.kv = d.kv)
      (hrep : RepAll (m.outcome q.db false false false false).2 d'.queues) :
      Represents (m.outcome q.db false false false false).2 d' := by
    refine represents_iff.mpr ⟨fun key ↦ ?_, hrep, fun key hkey ↦ ?_⟩
    · have hnot : ¬ m.Touches (encodeKvKey key) :=
        Mutation.not_touches_kv (by rw [hkeys]; exact List.not_mem_nil)
      rw [m.outcome_untouched q hnot, hkv, hsame]
    · rw [m.outcome_untouched q fun ht ↦ ?_, honly key hkey]
      obtain ⟨slot, hslot⟩ := ht.slot
      exact hkey slot hslot
  cases m with
  | set key val =>
      rw [Mutation.outcome, setResult, Database.mutate]
      split
      · exact ⟨rfl, h⟩
      · exact ⟨rfl, hput [(key, val)]⟩
  | del key => exact ⟨rfl, hdelete [key]⟩
  | multiSet kvs offset =>
      rw [Mutation.outcome, multiSetResult, Database.mutate]
      split
      · exact ⟨rfl, hput _⟩
      · exact ⟨rfl, h⟩
  | multiDel keys offset => exact ⟨rfl, hdelete _⟩
  | qpushFront name item =>
      obtain ⟨hval, hrep⟩ := hqueues.push name item .front
      exact ⟨Prod.ext hval (d.queues.push_item name item .front).symm,
        hqueue (m := .qpushFront name item) rfl rfl hrep⟩
  | qpushBack name item =>
      obtain ⟨hval, hrep⟩ := hqueues.push name item .back
      exact ⟨Prod.ext hval (d.queues.push_item name item .back).symm,
        hqueue (m := .qpushBack name item) rfl rfl hrep⟩
  | qpopFront name item =>
      obtain ⟨hval, hrep⟩ := hqueues.pop name item .front
      exact ⟨hval, hqueue (m := .qpopFront name item) rfl rfl hrep⟩
  | qpopBack name item =>
      obtain ⟨hval, hrep⟩ := hqueues.pop name item .back
      exact ⟨hval, hqueue (m := .qpopBack name item) rfl rfl hrep⟩

end Represents

/-! ## One moment -/

/-- The batch is nothing that a reader sees. -/
def Shows (q : BinlogQueue Unit) (d : Database) : Prop := Represents q.db d

/-- The operations that only the thread itself notices. -/
abbrev Unseen (o : DbOp) : Prop := Quiet (binlogs (ι := Unit)) Shows o

theorem unseen_get (key : Bytes) : Unseen (.get key) := fun _ _ _ h ↦ h

theorem unseen_put (key val : Bytes) : Unseen (.put key val) := fun _ _ _ h ↦ h

theorem unseen_delete (key : Bytes) : Unseen (.delete key) := fun _ _ _ h ↦ h

theorem unseen_qsetOne (name : Bytes) (seq : UInt64) (item : Bytes) :
    (qsetOne name seq item).All Unseen :=
  ⟨unseen_put _ _, fun _ ↦ trivial⟩

theorem unseen_qdelOne (name : Bytes) (seq : UInt64) : (qdelOne name seq).All Unseen :=
  ⟨unseen_delete _, fun _ ↦ trivial⟩

theorem unseen_incrQsize (name : Bytes) (incr : Int64) : (incrQsize name incr).All Unseen := by
  refine .bind (all_qsize name fun _ _ ↦ unseen_get _) fun size ↦ ?_
  split
  · trivial
  · dsimp only
    split
    · refine .bind ⟨unseen_delete _, fun _ ↦ trivial⟩ fun _ ↦ ?_
      refine .bind (unseen_qdelOne name _) fun _ ↦ ?_
      exact .bind (unseen_qdelOne name _) fun _ ↦ trivial
    · exact .bind ⟨unseen_put _ _, fun _ ↦ trivial⟩ fun _ ↦ trivial

/-- The end of a call is its commit. -/
theorem once_commit {α : Type} (ok failed : α) :
    Once binlogs Shows (do if ← binlogsCommit then return ok else return failed : Db α) := by
  right
  intro r
  cases r with
  | true => exact ⟨ok, rfl⟩
  | false => exact ⟨failed, rfl⟩

theorem once_multiSetLoop {α : Type} (kvs : List (Bytes × Bytes)) {f : Bool → Db α}
    (hf : ∀ done, Once binlogs Shows (f done)) : Once binlogs Shows (multiSetLoop kvs >>= f) := by
  refine Once.bind ?_ hf
  induction kvs with
  | nil => trivial
  | cons p kvs ih =>
      rw [multiSetLoop]
      split
      · trivial
      · exact .bind ⟨unseen_put _ _, fun _ ↦ trivial⟩ fun _ ↦ ih

theorem once_multiDelLoop {α : Type} (keys : List Bytes) {f : Unit → Db α}
    (hf : Once binlogs Shows (f ())) : Once binlogs Shows (multiDelLoop keys >>= f) := by
  refine Once.bind ?_ fun _ ↦ hf
  induction keys with
  | nil => trivial
  | cons key keys ih => exact .bind ⟨unseen_delete _, fun _ ↦ trivial⟩ fun _ ↦ ih

theorem once_pushItem (name item : Bytes) (seq : UInt64) :
    Once binlogs Shows (pushItem name item seq) := by
  refine Once.bind (unseen_qsetOne name seq item) fun _ ↦ ?_
  refine Once.bind (unseen_incrQsize name 1) fun size ↦ ?_
  split
  · trivial
  · exact once_commit size (-1)

/-- A push commits at its end, if at all. -/
theorem once_qpush (name item : Bytes) (seq : UInt64) :
    ∃ body, qpush name item seq = .guarded body ∧ Once binlogs Shows body := by
  have hend (g : Int × UInt64) : Once binlogs Shows
      (if pushSeq seq g ≤ qitemMinSeq ∨ pushSeq seq g ≥ qitemMaxSeq then return -1
        else pushItem name item (pushSeq seq g)) := by
    split
    · trivial
    · exact once_pushItem name item _
  refine ⟨_, qpush_eq name item seq, ?_⟩
  apply Once.bind (all_qgetUint64 name (fun _ _ ↦ unseen_get _) seq)
  intro g
  dsimp only
  by_cases herr : g.1 = -1
  · rw [if_pos herr]
    trivial
  · rw [if_neg herr]
    by_cases hnew : g.1 = 0
    · rw [if_pos hnew]
      refine Once.bind (unseen_qsetOne name _ _) fun _ ↦ ?_
      exact Once.bind (unseen_qsetOne name _ _) fun _ ↦ hend g
    · rw [if_neg hnew]
      exact Once.bind (unseen_qsetOne name _ _) fun _ ↦ hend g

theorem once_popItem (name : Bytes) (side seq : UInt64) (found : Bytes) :
    Once binlogs Shows (popItem name side seq found) := by
  refine Once.bind (unseen_qdelOne name seq) fun _ ↦ ?_
  refine Once.bind (unseen_incrQsize name (-1)) fun size ↦ ?_
  split
  · trivial
  · dsimp only
    split
    · exact Once.bind (unseen_qsetOne name _ _) fun _ ↦ once_commit _ _
    · exact once_commit _ _

theorem once_qpop (name item : Bytes) (seq : UInt64) :
    ∃ body, qpop name item seq = .guarded body ∧ Once binlogs Shows body := by
  refine ⟨_, qpop_eq name item seq, ?_⟩
  apply Once.bind (all_qgetUint64 name (fun _ _ ↦ unseen_get _) seq)
  intro g
  split
  · trivial
  · split
    · trivial
    · refine Once.bind (all_qgetBySeq name (fun _ _ ↦ unseen_get _) _ item) fun r ↦ ?_
      split
      · trivial
      · split
        · trivial
        · exact once_popItem name seq _ _

/-- A mutating call without a transaction does nothing, any other one commits at its
end, if at all. -/
theorem Mutation.once (m : Mutation) :
    (∃ a, m.call = .plain a ∧ ∀ d : Database, (d.mutate m).2 = d) ∨
      ∃ body, m.call = .guarded body ∧ Once binlogs Shows body := by
  have hmap {α : Type} {c : DbCall α} (f : α → Int × Bytes) (hcall : m.call = c.map f)
      (h : ∃ body, c = .guarded body ∧ Once binlogs Shows body) :
      ∃ body, m.call = .guarded body ∧ Once binlogs Shows body := by
    obtain ⟨body, rfl, hbody⟩ := h
    exact ⟨_, hcall, hbody.map f⟩
  cases m with
  | set key val =>
      by_cases hkey : key.isEmpty = true
      · refine .inl ⟨(0, []), ?_, fun d ↦ ?_⟩
        · rw [Mutation.call, GeminiDB.set, if_pos hkey]
          rfl
        · rw [Database.mutate, if_pos hkey]
      · refine .inr (hmap _ rfl ⟨_, if_neg hkey, ?_⟩)
        exact .inl ⟨unseen_put _ _, fun _ ↦ once_commit 1 (-1)⟩
  | del key =>
      refine .inr (hmap _ rfl ⟨_, rfl, ?_⟩)
      exact .inl ⟨unseen_delete _, fun _ ↦ once_commit 1 (-1)⟩
  | multiSet kvs offset =>
      refine .inr (hmap _ rfl ⟨_, rfl, once_multiSetLoop _ fun done ↦ ?_⟩)
      cases done with
      | true => exact once_commit _ (-1)
      | false => trivial
  | multiDel keys offset =>
      exact .inr (hmap _ rfl ⟨_, rfl, once_multiDelLoop _ (once_commit _ (-1))⟩)
  | qpushFront name item => exact .inr (hmap _ rfl (once_qpush name item qfrontSeq))
  | qpushBack name item => exact .inr (hmap _ rfl (once_qpush name item qbackSeq))
  | qpopFront name item => exact .inr (once_qpop name item qfrontSeq)
  | qpopBack name item => exact .inr (once_qpop name item qbackSeq)

/-! ## Threads and moments -/

/-- The environments of a run in which nothing fails, or of any run. -/
def Admits (strict : Bool) (x : Unit × Bool) : Prop := strict = true → Works x

def AdmitsMoment (strict : Bool) (x : Option Bytes) : Prop := strict = true → x = none

/-- Run alone, the accesses behind a moment do what the moment does. -/
theorem moments_implemented (strict : Bool) :
    Implements storeOps Database.moments Shows (Admits strict) (AdmitsMoment strict)
      Moment.body := by
  intro o e q d h
  cases o with
  | read slot =>
      have hslot := h.slots slot
      refine ⟨if (e 0).2 then some [] else none, fun hok hstrict ↦ ?_, ?_, h⟩
      · rw [hok 0 hstrict]
        rfl
      · change lookup q.db slot.encode (e 0).2 = _
        cases hfails : (e 0).2 with
        | true => rfl
        | false =>
            cases hval : d.read slot with
            | none => simp [lookup_of_none (hslot.trans hval), Database.moments, hval]
            | some val => simp [lookup_of_some (hslot.trans hval), Database.moments, hval]
  | mutate m =>
      obtain ⟨e', hkeep, hrun⟩ := m.call.run_locked binlogs e q
      obtain ⟨f₀, f₁, f₂, f₃, hnone, heffect⟩ := m.run_faults (fun n ↦ (e' n).2) q
      have hres : effect (m.run () (fun n ↦ (e' n).2) q) =
          ((m.call.locked.run storeOps e q).val, (m.call.locked.run storeOps e q).state.db) :=
        congrArg effect hrun
      rw [hres] at heffect
      have hval : (m.call.locked.run storeOps e q).val = (m.outcome q.db f₀ f₁ f₂ f₃).1 :=
        congrArg Prod.fst heffect
      have hdb : (m.call.locked.run storeOps e q).state.db = (m.outcome q.db f₀ f₁ f₂ f₃).2 :=
        congrArg Prod.snd heffect
      simp only [Moment.body, Shows]
      rw [hval, hdb]
      have hdone := h.mutate m
      rcases m.outcome_cases q.db f₀ f₁ f₂ f₃ with ⟨herr, hsame⟩ | hsucceeds
      · by_cases hall : f₀ = false ∧ f₁ = false ∧ f₂ = false ∧ f₃ = false
        · obtain ⟨rfl, rfl, rfl, rfl⟩ := hall
          exact ⟨none, fun _ _ ↦ rfl, hdone⟩
        · refine ⟨some (m.outcome q.db f₀ f₁ f₂ f₃).1.2, fun hok hstrict ↦ ?_, Prod.ext herr rfl,
            ?_⟩
          · exact absurd (hnone (hkeep Works fun n ↦ hok n hstrict)) hall
          · rw [hsame]
            exact h
      · rw [hsucceeds]
        exact ⟨none, fun _ _ ↦ rfl, hdone⟩

/-- The functions of the database are as good as indivisible. -/
theorem moments_sound (strict : Bool) :
    Sound binlogs Database.moments Shows (Admits strict) (AdmitsMoment strict) Moment.body where
  implements := moments_implemented strict
  sectioned := by
    intro o
    cases o with
    | read slot => exact ⟨fun _ _ ↦ rfl, fun v ↦ ⟨v, rfl⟩, fun _ _ ↦ rfl⟩
    | mutate m =>
        rw [Moment.body]
        rcases m.once with ⟨a, hcall, hsame⟩ | ⟨body, hcall, hbody⟩
        · rw [hcall]
          intro x d
          cases x with
          | none => exact hsame d
          | some junk => rfl
        · rw [hcall]
          exact hbody.inside
  enter := fun h ↦ h
  leave := Iff.rfl
  env := ⟨((), false), fun _ ↦ rfl⟩

end GeminiDB
