import GeminiDB.Data.Queue

/-!
# What a queue call does to the committed store

Each call is summed up by one function of the committed store and of the
failures its accesses to leveldb meet. All later results about queues start
from these summaries and never run the calls again.
-/

namespace GeminiDB

open Program WriteBatch

/-- What `qget_uint64` makes of a `Get`. -/
def readUint64 : GetResult → Int × UInt64
  | .ok val => if val.length = 8 then (1, ofNativeBytes val) else (-1, 0)
  | .notFound => (0, 0)
  | .error => (-1, 0)

/-- What `qsize` makes of a `Get`. -/
def readSize : GetResult → Int64
  | .ok val => if val.length = 8 then (ofNativeBytes val).toInt64 else -1
  | .notFound => 0
  | .error => -1

/-- What `incr_qsize` queues for the new size. -/
def sizeEdits (name : Bytes) (size : Int64) : List (Edit Bytes Bytes) :=
  if size ≤ 0 then
    [.delete (encodeQsizeKey name), .delete (encodeQitemKey name qfrontSeq),
      .delete (encodeQitemKey name qbackSeq)]
  else [.put (encodeQsizeKey name) (nativeBytes size.toUInt64)]

/-- The sequence number a push uses, from what it read at its end. -/
def pushSeq (side : UInt64) (g : Int × UInt64) : UInt64 :=
  if g.1 = 0 then qitemSeqInit else g.2 + (if side = qfrontSeq then -1 else 1)

/-- What a push queues for the end pointers: both of them for a new queue. -/
def endEdits (name : Bytes) (side : UInt64) (g : Int × UInt64) : List (Edit Bytes Bytes) :=
  if g.1 = 0 then
    [.put (encodeQitemKey name qfrontSeq) (nativeBytes (pushSeq side g)),
      .put (encodeQitemKey name qbackSeq) (nativeBytes (pushSeq side g))]
  else [.put (encodeQitemKey name side) (nativeBytes (pushSeq side g))]

/-- What a push queues. -/
def pushEdits (name item : Bytes) (side : UInt64) (g : Int × UInt64) (size : Int64) :
    List (Edit Bytes Bytes) :=
  endEdits name side g ++ .put (encodeQitemKey name (pushSeq side g)) item :: sizeEdits name size

/-- The end of a push: the new size when it is neither an error nor mistaken for
one and the commit succeeds. -/
def pushCommit (db : Store) (size : Int64) (edits : Int64 → List (Edit Bytes Bytes))
    (fails : Bool) : Int64 × Store :=
  if size = -1 ∨ size + 1 = -1 ∨ fails then (-1, db)
  else (size + 1, apply db (edits (size + 1)))

/-- The result and the committed store after a push whose reads of the end
pointer and of the size and whose commit fail as told. -/
def pushResult (db : Store) (name item : Bytes) (side : UInt64) (f₀ f₁ f₂ : Bool) :
    Int64 × Store :=
  let g := readUint64 (lookup db (encodeQitemKey name side) f₀)
  let seq := pushSeq side g
  if g.1 = -1 ∨ seq ≤ qitemMinSeq ∨ seq ≥ qitemMaxSeq then (-1, db)
  else pushCommit db (readSize (lookup db (encodeQsizeKey name) f₁)) (pushEdits name item side g) f₂

/-- What a pop of item `seq` queues. -/
def popEdits (name : Bytes) (side seq : UInt64) (size : Int64) : List (Edit Bytes Bytes) :=
  .delete (encodeQitemKey name seq) :: sizeEdits name size ++
    if size > 0 then
      [.put (encodeQitemKey name side)
        (nativeBytes (seq + (if side = qfrontSeq then 1 else -1)))]
    else []

/-- The end of a pop of `found`. -/
def popCommit (db : Store) (found : Bytes) (size : Int64)
    (edits : Int64 → List (Edit Bytes Bytes)) (fails : Bool) : (Int × Bytes) × Store :=
  if size = -1 ∨ size + -1 = -1 ∨ fails then ((-1, found), db)
  else ((1, found), apply db (edits (size + -1)))

/-- The result and the committed store after a pop whose reads of the end
pointer, of the item and of the size and whose commit fail as told. -/
def popResult (db : Store) (name item : Bytes) (side : UInt64) (f₀ f₁ f₂ f₃ : Bool) :
    (Int × Bytes) × Store :=
  let g := readUint64 (lookup db (encodeQitemKey name side) f₀)
  if g.1 = -1 then ((-1, item), db)
  else if g.1 = 0 then ((0, item), db)
  else match lookup db (encodeQitemKey name g.2) f₁ with
    | .notFound => ((0, item), db)
    | .error => ((-1, item), db)
    | .ok found =>
        popCommit db found (readSize (lookup db (encodeQsizeKey name) f₂)) (popEdits name side g.2)
          f₃

section Run

variable {ι : Type} (i : ι) (fails : ℕ → Bool) (q : BinlogQueue ι)

@[simp] theorem run_qgetUint64 (name : Bytes) (seq : UInt64) :
    (qgetUint64 name seq).run binlogs (env i fails) q =
      ⟨readUint64 (lookup q.db (encodeQitemKey name seq) (fails 0)), env i (later fails), q⟩ := by
  simp only [qgetUint64, qgetBySeq, Prog.run_bind, run_ldbGet]
  cases lookup q.db (encodeQitemKey name seq) (fails 0) with
  | notFound => simp [readUint64]
  | error => simp [readUint64]
  | ok val => by_cases hlen : val.length = 8 <;> simp [readUint64, hlen]

@[simp] theorem run_qsize (name : Bytes) :
    (qsize name).run binlogs (env i fails) q =
      ⟨readSize (lookup q.db (encodeQsizeKey name) (fails 0)), env i (later fails), q⟩ := by
  simp only [qsize, Prog.run_bind, run_ldbGet]
  cases lookup q.db (encodeQsizeKey name) (fails 0) with
  | notFound => simp [readSize]
  | error => simp [readSize]
  | ok val => by_cases hlen : val.length = 8 <;> simp [readSize, hlen]

@[simp] theorem run_qsetOne (name : Bytes) (seq : UInt64) (item : Bytes) :
    (qsetOne name seq item).run binlogs (env i fails) q =
      ⟨0, env i (later fails), q.queue i (.put (encodeQitemKey name seq) item)⟩ := (rfl)

@[simp] theorem run_qdelOne (name : Bytes) (seq : UInt64) :
    (qdelOne name seq).run binlogs (env i fails) q =
      ⟨0, env i (later fails), q.queue i (.delete (encodeQitemKey name seq))⟩ := (rfl)

theorem run_incrQsize_of_error (name : Bytes) (incr : Int64)
    (h : readSize (lookup q.db (encodeQsizeKey name) (fails 0)) = -1) :
    (incrQsize name incr).run binlogs (env i fails) q = ⟨-1, env i (later fails), q⟩ := by
  simp [incrQsize, h]

/-- How many accesses `incr_qsize` makes for a new size. -/
def sizeAccesses (new : Int64) : ℕ := if new ≤ 0 then 4 else 2

theorem run_incrQsize (name : Bytes) (incr : Int64) {size new : Int64}
    (h : readSize (lookup q.db (encodeQsizeKey name) (fails 0)) = size) (hok : size ≠ -1)
    (hnew : size + incr = new) :
    (incrQsize name incr).run binlogs (env i fails) q =
      ⟨new, env i (fun k ↦ fails (k + sizeAccesses new)), q.queueAll i (sizeEdits name new)⟩ := by
  subst hnew
  by_cases hpos : size + incr ≤ 0
  · simp [incrQsize, h, hok, hpos, BinlogQueue.queueAll, sizeEdits, BinlogQueue.queue,
      sizeAccesses]
    rfl
  · simp [incrQsize, h, hok, hpos, BinlogQueue.queueAll, sizeEdits, BinlogQueue.queue,
      sizeAccesses]
    rfl

/-- `_qpush` from the item on. -/
def pushItem (name item : Bytes) (seq : UInt64) : Db Int64 := do
  let _ ← qsetOne name seq item
  let size ← incrQsize name 1
  if size = -1 then return -1
  if ← binlogsCommit then return size
  return -1

/-- `_qpush` in three parts: the end pointers, the range check, the item. -/
theorem qpush_eq (name item : Bytes) (side : UInt64) :
    qpush name item side = transaction (do
      let g ← qgetUint64 name side
      if g.1 = -1 then return -1
      if g.1 = 0 then
        let _ ← qsetOne name qfrontSeq (nativeBytes qitemSeqInit)
        let _ ← qsetOne name qbackSeq (nativeBytes qitemSeqInit)
      else
        let _ ← qsetOne name side (nativeBytes (pushSeq side g))
      if pushSeq side g ≤ qitemMinSeq ∨ pushSeq side g ≥ qitemMaxSeq then return -1
      pushItem name item (pushSeq side g)) := by
  unfold qpush
  congr 2
  funext g
  by_cases hnew : g.1 = 0
  · have hseq : pushSeq side g = qitemSeqInit := by simp [pushSeq, hnew]
    rw [hseq]
    simp [hnew, pushItem, qsetOne, binlogsPut]
  · have hseq : pushSeq side g = g.2 + (if side = qfrontSeq then -1 else 1) := by
      simp [pushSeq, hnew]
    rw [hseq]
    simp [hnew, pushItem, qsetOne, binlogsPut]

/-- The item, the read of the size and what `incr_qsize` queues precede the commit. -/
theorem run_pushItem (name item : Bytes) (seq : UInt64) (es : List (Edit Bytes Bytes))
    (edits : Int64 → List (Edit Bytes Bytes)) (hq : q.batch = es.map (Prod.mk i))
    (hedits : ∀ size, edits size =
      es ++ .put (encodeQitemKey name seq) item :: sizeEdits name size) {size : Int64}
    (hsize : readSize (lookup q.db (encodeQsizeKey name) (fails 1)) = size) :
    committed ((pushItem name item seq).run binlogs (env i fails) q) =
      pushCommit q.db size edits (fails (1 + sizeAccesses (size + 1))) := by
  by_cases herr : size = -1
  · have hrun := run_incrQsize_of_error i (later fails)
      (q.queue i (.put (encodeQitemKey name seq) item)) name 1 (hsize.trans herr)
    simp [pushItem, hrun, herr, committed, pushCommit]
  · have hrun := run_incrQsize i (later fails)
      (q.queue i (.put (encodeQitemKey name seq) item)) name 1 hsize herr rfl
    rw [Nat.add_comm 1]
    by_cases hneg : size + 1 = -1
    · simp [pushItem, hrun, hneg, committed, pushCommit]
    · by_cases hfail : fails (sizeAccesses (size + 1) + 1) = true <;>
        simp [pushItem, hrun, herr, hneg, hfail, later, committed, BinlogQueue.commit, hq,
          hedits, pushCommit]

/-- How many accesses a push makes before it queues the item. -/
def endAccesses (g : Int × UInt64) : ℕ := if g.1 = 0 then 3 else 2

theorem qpush_effect_at (name item : Bytes) (side : UInt64) {g : Int × UInt64} {size : Int64}
    (hg : readUint64 (lookup q.db (encodeQitemKey name side) (fails 0)) = g)
    (hsize : readSize (lookup q.db (encodeQsizeKey name) (fails (endAccesses g + 1))) = size) :
    effect ((qpush name item side).run binlogs (env i fails) q) =
      pushResult q.db name item side (fails 0) (fails (endAccesses g + 1))
        (fails (endAccesses g + 1 + sizeAccesses (size + 1))) := by
  by_cases herr : g.1 = -1
  · simp [effect, qpush_eq, pushResult, hg, herr]
  · by_cases hrange : pushSeq side g ≤ qitemMinSeq ∨ qitemMaxSeq ≤ pushSeq side g
    · have hnew : g.1 ≠ 0 := by
        intro hnew
        revert hrange
        simp [pushSeq, hnew]
        decide
      rcases hrange with hlow | hhigh
      · simp [effect, qpush_eq, pushResult, hg, hnew, herr, hlow]
      · simp [effect, qpush_eq, pushResult, hg, hnew, herr, hhigh]
    · obtain ⟨hlow, hhigh⟩ := not_or.mp hrange
      by_cases hnew : g.1 = 0
      · have hseq : pushSeq side g = qitemSeqInit := by simp [pushSeq, hnew]
        have hends : endAccesses g = 3 := if_pos hnew
        rw [hends] at hsize
        have htail := run_pushItem i (later (later (later fails)))
          ((q.begin.queue i (.put (encodeQitemKey name qfrontSeq) (nativeBytes qitemSeqInit))).queue
            i (.put (encodeQitemKey name qbackSeq) (nativeBytes qitemSeqInit)))
          name item qitemSeqInit (endEdits name side g) (pushEdits name item side g)
          (by simp [endEdits, hnew, hseq]) (fun size ↦ by rw [pushEdits, hseq]) hsize
        rw [hseq] at hlow hhigh
        have hlast : 1 + sizeAccesses (size + 1) + 3 = 3 + 1 + sizeAccesses (size + 1) := by omega
        simpa [effect, qpush_eq, pushResult, hg, hnew, hseq, hlow, hhigh, committed, later, hends,
          hsize, hlast] using htail
      · have hends : endAccesses g = 2 := if_neg hnew
        rw [hends] at hsize
        have htail := run_pushItem i (later (later fails))
          (q.begin.queue i (.put (encodeQitemKey name side) (nativeBytes (pushSeq side g))))
          name item (pushSeq side g) (endEdits name side g) (pushEdits name item side g)
          (by simp [endEdits, hnew]) (fun size ↦ rfl) hsize
        have hlast : 1 + sizeAccesses (size + 1) + 2 = 2 + 1 + sizeAccesses (size + 1) := by omega
        simpa [effect, qpush_eq, pushResult, hg, hnew, hlow, hhigh, herr, committed, later, hends,
          hsize, hlast] using htail

theorem qpush_effect (name item : Bytes) (side : UInt64) :
    ∃ n₀ n₁ n₂, effect ((qpush name item side).run binlogs (env i fails) q) =
      pushResult q.db name item side (fails n₀) (fails n₁) (fails n₂) :=
  ⟨_, _, _, qpush_effect_at i fails q name item side rfl rfl⟩

/-- `_qpop` from the item on. -/
def popItem (name : Bytes) (side seq : UInt64) (found : Bytes) : Db (Int × Bytes) := do
  let _ ← qdelOne name seq
  let size ← incrQsize name (-1)
  if size = -1 then return (-1, found)
  if size > 0 then
    let _ ← qsetOne name side (nativeBytes (seq + (if side = qfrontSeq then 1 else -1)))
  if ← binlogsCommit then return (1, found)
  return (-1, found)

theorem qpop_eq (name item : Bytes) (side : UInt64) :
    qpop name item side = transaction (do
      let g ← qgetUint64 name side
      if g.1 = -1 then return (-1, item)
      if g.1 = 0 then return (0, item)
      let r ← qgetBySeq name g.2 item
      if r.1 = -1 then return (-1, r.2)
      if r.1 = 0 then return (0, r.2)
      popItem name side g.2 r.2) := by
  unfold qpop
  congr 2

@[simp] theorem run_qgetBySeq (name : Bytes) (seq : UInt64) (val : Bytes) :
    (qgetBySeq name seq val).run binlogs (env i fails) q =
      ⟨match lookup q.db (encodeQitemKey name seq) (fails 0) with
        | .notFound => (0, val)
        | .error => (-1, val)
        | .ok found => (1, found), env i (later fails), q⟩ := by
  simp only [qgetBySeq, Prog.run_bind, run_ldbGet]
  cases lookup q.db (encodeQitemKey name seq) (fails 0) <;> simp

theorem run_popItem (name found : Bytes) (side seq : UInt64) (hq : q.batch = []) :
    ∃ n m, committed ((popItem name side seq found).run binlogs (env i fails) q) =
      popCommit q.db found (readSize (lookup q.db (encodeQsizeKey name) (fails n)))
        (popEdits name side seq) (fails m) := by
  obtain ⟨size, hsize⟩ : ∃ size, readSize (lookup q.db (encodeQsizeKey name) (fails 1)) = size :=
    ⟨_, rfl⟩
  by_cases herr : size = -1
  · have hrun := run_incrQsize_of_error i (later fails)
      (q.queue i (.delete (encodeQitemKey name seq))) name (-1) (hsize.trans herr)
    exact ⟨1, 0, by simp [popItem, hrun, hsize, herr, committed, popCommit]⟩
  · obtain ⟨new, hnew⟩ : ∃ new, size + -1 = new := ⟨_, rfl⟩
    have hrun := run_incrQsize i (later fails)
      (q.queue i (.delete (encodeQitemKey name seq))) name (-1) hsize herr hnew
    by_cases hneg : new = -1
    · exact ⟨1, 0, by simp [popItem, hrun, hsize, hnew, hneg, committed, popCommit]⟩
    · by_cases hpos : 0 < new
      · refine ⟨1, 1 + sizeAccesses new + 1, ?_⟩
        by_cases hfail : fails (1 + sizeAccesses new + 1) = true <;>
          simp [popItem, hrun, hsize, herr, hnew, hneg, hfail, hpos, later, committed,
            BinlogQueue.commit, hq, popEdits, popCommit]
      · refine ⟨1, sizeAccesses new + 1, ?_⟩
        by_cases hfail : fails (sizeAccesses new + 1) = true <;>
          simp [popItem, hrun, hsize, herr, hnew, hneg, hfail, hpos, later, committed,
            BinlogQueue.commit, hq, popEdits, popCommit]

theorem qpop_effect (name item : Bytes) (side : UInt64) :
    ∃ n₀ n₁ n₂ n₃, effect ((qpop name item side).run binlogs (env i fails) q) =
      popResult q.db name item side (fails n₀) (fails n₁) (fails n₂) (fails n₃) := by
  obtain ⟨g, hg⟩ : ∃ g, readUint64 (lookup q.db (encodeQitemKey name side) (fails 0)) = g :=
    ⟨_, rfl⟩
  by_cases herr : g.1 = -1
  · exact ⟨0, 0, 0, 0, by simp [effect, qpop_eq, popResult, hg, herr]⟩
  · by_cases hnil : g.1 = 0
    · exact ⟨0, 0, 0, 0, by simp [effect, qpop_eq, popResult, hg, hnil]⟩
    · cases hitem : lookup q.db (encodeQitemKey name g.2) (fails 1) with
      | notFound =>
          exact ⟨0, 1, 0, 0, by simp [effect, qpop_eq, popResult, hg, herr, hnil, later, hitem]⟩
      | error =>
          refine ⟨0, 1, 0, 0, ?_⟩
          simp [effect, qpop_eq, popResult, hg, herr, hnil, later, hitem]
      | ok found =>
          obtain ⟨n, m, htail⟩ :=
            run_popItem i (later (later fails)) q.begin name found side g.2 rfl
          refine ⟨0, 1, n + 1 + 1, m + 1 + 1, ?_⟩
          simpa [effect, qpop_eq, popResult, hg, herr, hnil, later, hitem, committed] using htail

end Run

end GeminiDB
