import GeminiDB.Data.Mutation
import GeminiDB.Data.QueueRep
import GeminiDB.Lib.Machine
import Mathlib.Logic.Basic

/-!
# Queues as deques

The seven queue calls, answered one after another by leveldb, are compared with
the same calls on an abstract family of deques. The shape of the store is then
shown to survive every mutating call, whatever fails on the way.
-/

namespace GeminiDB

open Program WriteBatch SeqDeque

/-! ## The abstract queues -/

/-- One deque for each name. -/
abbrev Deques := Bytes → SeqDeque Bytes

namespace Deques

/-- The new length, or -1 when the next sequence number is out of range. -/
def push (ds : Deques) (name item : Bytes) (side : Side) : (Int × Bytes) × Deques :=
  let seq := (ds name).next qitemSeqInit.toNat side
  if seq ≤ qitemMinSeq.toNat ∨ qitemMaxSeq.toNat ≤ seq then ((-1, []), ds)
  else (((ds name).items.length + 1, []),
    Function.update ds name ((ds name).push qitemSeqInit.toNat item side))

/-- 1 and the end item, which is removed, or 0 for an empty queue. -/
def pop (ds : Deques) (name item : Bytes) (side : Side) : (Int × Bytes) × Deques :=
  match (ds name).peek side with
  | none => ((0, item), ds)
  | some found => ((1, found), Function.update ds name ((ds name).pop side))

/-- 1 and the end item, or 0 for an empty queue. -/
def peek (ds : Deques) (name item : Bytes) (side : Side) : Int × Bytes :=
  match (ds name).peek side with
  | none => (0, item)
  | some found => (1, found)

end Deques

/-- The queue calls; `item` of a read is what the caller's string holds beforehand. -/
inductive QueueCall where
  | qpushFront (name item : Bytes)
  | qpushBack (name item : Bytes)
  | qpopFront (name item : Bytes)
  | qpopBack (name item : Bytes)
  | qsize (name : Bytes)
  | qfront (name item : Bytes)
  | qback (name item : Bytes)

namespace QueueCall

/-- The answer of the store: the return value and the output string. -/
def run {ι : Type} (i : ι) (fails : ℕ → Bool) (q : BinlogQueue ι) :
    QueueCall → (Int × Bytes) × BinlogQueue ι
  | qpushFront name item => (Mutation.qpushFront name item).run i fails q
  | qpushBack name item => (Mutation.qpushBack name item).run i fails q
  | qpopFront name item => (Mutation.qpopFront name item).run i fails q
  | qpopBack name item => (Mutation.qpopBack name item).run i fails q
  | qsize name =>
      let r := (GeminiDB.qsize name).run binlogs (env i fails) q
      ((r.val.toInt, []), r.state)
  | qfront name item =>
      let r := (GeminiDB.qfront name item).run binlogs (env i fails) q
      (r.val, r.state)
  | qback name item =>
      let r := (GeminiDB.qback name item).run binlogs (env i fails) q
      (r.val, r.state)

/-- The answer of the abstract queues. -/
def spec (ds : Deques) : QueueCall → (Int × Bytes) × Deques
  | qpushFront name item => ds.push name item .front
  | qpushBack name item => ds.push name item .back
  | qpopFront name item => ds.pop name item .front
  | qpopBack name item => ds.pop name item .back
  | qsize name => (((ds name).items.length, []), ds)
  | qfront name item => (ds.peek name item .front, ds)
  | qback name item => (ds.peek name item .back, ds)

end QueueCall

theorem Deques.push_item (ds : Deques) (name item : Bytes) (side : Side) :
    (ds.push name item side).1.2 = [] := by
  simp only [Deques.push]
  split <;> rfl

/-! ## Representation of all queues -/

def RepAll (db : Store) (ds : Deques) : Prop := ∀ name, Rep db name (ds name)

theorem repAll_empty : RepAll (fun _ ↦ none) fun _ ↦ SeqDeque.empty := rep_empty

theorem RepAll.update {db : Store} {ds : Deques} (h : RepAll db ds) {name : Bytes}
    {d : SeqDeque Bytes} {es : List (Edit Bytes Bytes)} (hrep : Rep (apply db es) name d)
    (hes : ∀ e ∈ es, OwnedBy name e.key) :
    RepAll (apply db es) (Function.update ds name d) := by
  intro other
  by_cases heq : other = name
  · subst heq
    simpa using hrep
  · rw [Function.update_of_ne heq]
    exact (h other).apply fun e he ↦ not_ownedBy_of_ne (hes e he) (Ne.symm heq)

theorem RepAll.push {db : Store} {ds : Deques} (h : RepAll db ds) (name item : Bytes)
    (side : Side) :
    (pushResult db name item (endSeq side) false false false).1.toInt =
        (ds.push name item side).1.1 ∧
      RepAll (pushResult db name item (endSeq side) false false false).2
        (ds.push name item side).2 := by
  rw [(h name).pushResult_eq, Deques.push]
  split
  · have herr : (-1 : Int64).toInt = -1 := by decide
    exact ⟨herr, h⟩
  · next hrange =>
    obtain ⟨hlo, hhi⟩ := not_or.mp hrange
    have hrep := (h name).push item side (lt_of_not_ge hlo) (lt_of_not_ge hhi)
    have hlen := hrep.length_lt
    rw [length_push] at hlen
    exact ⟨by rw [Int64.toInt_ofNat_of_lt hlen]; rfl, h.update hrep fun e ↦ pushEdits_owned⟩

theorem RepAll.pop {db : Store} {ds : Deques} (h : RepAll db ds) (name item : Bytes)
    (side : Side) :
    (popResult db name item (endSeq side) false false false false).1 =
        (ds.pop name item side).1 ∧
      RepAll (popResult db name item (endSeq side) false false false false).2
        (ds.pop name item side).2 := by
  rw [(h name).popResult_eq, Deques.pop]
  cases hpeek : (ds name).peek side with
  | none => exact ⟨rfl, h⟩
  | some found =>
      have hne := items_ne_nil_of_peek hpeek
      exact ⟨rfl, h.update ((h name).pop side hne) fun e ↦ popEdits_owned⟩

section Run

variable {ι : Type} (i : ι) {q : BinlogQueue ι} {ds : Deques}

theorem RepAll.run_qpeek (h : RepAll q.db ds) (name item : Bytes) (side : Side) :
    let r := (qpeek name item (endSeq side)).run binlogs (env i fun _ ↦ false) q
    r.val = ds.peek name item side ∧ RepAll r.state.db ds := by
  have hread := (h name).readEnd side
  by_cases hnil : (ds name).items = []
  · have hpeek : (ds name).peek side = none := by cases side <;> simp [peek, hnil]
    simpa [qpeek, hread, hnil, Deques.peek, hpeek] using h
  · obtain ⟨found, hfound⟩ :=
      Option.isSome_iff_exists.mp (((ds name).peek_isSome side).mpr hnil)
    have hitem := lookup_of_some (((h name).lookup_edge hnil side).trans hfound)
    simpa [qpeek, hread, hnil, Deques.peek, hfound, hitem] using h

theorem RepAll.run_qsize (h : RepAll q.db ds) (name : Bytes) :
    let r := (qsize name).run binlogs (env i fun _ ↦ false) q
    r.val.toInt = (ds name).items.length ∧ RepAll r.state.db ds := by
  rw [GeminiDB.run_qsize, (h name).readSize]
  exact ⟨Int64.toInt_ofNat_of_lt (h name).length_lt, h⟩

theorem RepAll.run_push (h : RepAll q.db ds) (name item : Bytes) (side : Side) :
    let r := ((qpush name item (endSeq side)).map fun size ↦ (size.toInt, ([] : Bytes))).run
      binlogs (env i fun _ ↦ false) q
    r.1 = (ds.push name item side).1 ∧ RepAll r.2.db (ds.push name item side).2 := by
  obtain ⟨_, _, _, heffect⟩ := qpush_effect i (fun _ ↦ false) q name item (endSeq side)
  have hpush := h.push name item side
  rw [← heffect] at hpush
  rw [Call.run_map]
  exact ⟨Prod.ext hpush.1 (ds.push_item name item side).symm, hpush.2⟩

theorem RepAll.run_pop (h : RepAll q.db ds) (name item : Bytes) (side : Side) :
    let r := (qpop name item (endSeq side)).run binlogs (env i fun _ ↦ false) q
    r.1 = (ds.pop name item side).1 ∧ RepAll r.2.db (ds.pop name item side).2 := by
  obtain ⟨_, _, _, _, heffect⟩ := qpop_effect i (fun _ ↦ false) q name item (endSeq side)
  have hpop := h.pop name item side
  rw [← heffect] at hpop
  exact hpop

end Run

/-! ## Refinement -/

theorem queueCall_simulates {ι : Type} (i : ι) :
    Machine.Simulates (fun (q : BinlogQueue ι) (c : QueueCall) ↦ c.run i (fun _ ↦ false) q)
      (fun ds c ↦ c.spec ds) fun q ds ↦ RepAll q.db ds := by
  intro q ds c h
  cases c with
  | qpushFront name item => exact h.run_push i name item .front
  | qpushBack name item => exact h.run_push i name item .back
  | qpopFront name item => exact h.run_pop i name item .front
  | qpopBack name item => exact h.run_pop i name item .back
  | qsize name =>
      obtain ⟨hval, hrep⟩ := h.run_qsize i name
      exact ⟨Prod.ext hval rfl, hrep⟩
  | qfront name item => exact h.run_qpeek i name item .front
  | qback name item => exact h.run_qpeek i name item .back

/-- From an empty store, the queue calls answer as deques do. -/
theorem queues_refine_deques {ι : Type} (i : ι) (calls : List QueueCall) :
    Machine.outputs (fun (q : BinlogQueue ι) (c : QueueCall) ↦ c.run i (fun _ ↦ false) q)
        BinlogQueue.empty calls =
      Machine.outputs (fun ds c ↦ c.spec ds) (fun _ ↦ SeqDeque.empty) calls :=
  (queueCall_simulates i).outputs_eq repAll_empty calls

end GeminiDB
