import GeminiDB.Data.Keys

/-!
# Queue calls (`t_queue.cpp`)

A queue keeps the sequence numbers of its first and last item under the keys
`(name, 2)` and `(name, 3)`, its length under the size key, and item `s` under
`(name, s)`. Statuses are the source's: 1 found, 0 not found, -1 error.
-/

namespace GeminiDB

open Program

/-- The status, and what `*val` holds afterwards. -/
def qgetBySeq (name : Bytes) (seq : UInt64) (val : Bytes) : Db (Int × Bytes) := do
  match ← ldbGet (encodeQitemKey name seq) with
  | .notFound => return (0, val)
  | .error => return (-1, val)
  | .ok found => return (1, found)

/-- The status, and what `*ret` holds afterwards. -/
def qgetUint64 (name : Bytes) (seq : UInt64) : Db (Int × UInt64) := do
  let (s, val) ← qgetBySeq name seq []
  if s = 1 then
    if val.length ≠ 8 then return (-1, 0)
    return (s, ofNativeBytes val)
  return (s, 0)

def qdelOne (name : Bytes) (seq : UInt64) : Db Int := do
  binlogsDelete (encodeQitemKey name seq)
  return 0

def qsetOne (name : Bytes) (seq : UInt64) (item : Bytes) : Db Int := do
  binlogsPut (encodeQitemKey name seq) item
  return 0

def qsize (name : Bytes) : Db Int64 := do
  match ← ldbGet (encodeQsizeKey name) with
  | .notFound => return 0
  | .error => return -1
  | .ok val =>
      if val.length ≠ 8 then return -1
      return (ofNativeBytes val).toInt64

def incrQsize (name : Bytes) (incr : Int64) : Db Int64 := do
  let mut size ← qsize name
  if size = -1 then return -1
  size := size + incr
  if size ≤ 0 then
    binlogsDelete (encodeQsizeKey name)
    let _ ← qdelOne name qfrontSeq
    let _ ← qdelOne name qbackSeq
  else
    binlogsPut (encodeQsizeKey name) (nativeBytes size.toUInt64)
  return size

/-- The common body of `qfront` and `qback`. -/
def qpeek (name item : Bytes) (frontOrBackSeq : UInt64) : Db (Int × Bytes) := do
  let (ret, seq) ← qgetUint64 name frontOrBackSeq
  if ret = -1 then return (-1, item)
  if ret = 0 then return (0, item)
  qgetBySeq name seq item

def qfront (name item : Bytes) : Db (Int × Bytes) := qpeek name item qfrontSeq

def qback (name item : Bytes) : Db (Int × Bytes) := qpeek name item qbackSeq

/-- `_qpush`; the new size, or -1. -/
def qpush (name item : Bytes) (frontOrBackSeq : UInt64) : DbCall Int64 := transaction do
  let mut (ret, seq) ← qgetUint64 name frontOrBackSeq
  if ret = -1 then return -1
  -- update front and/or back
  if ret = 0 then
    seq := qitemSeqInit
    ret ← qsetOne name qfrontSeq (nativeBytes seq)
    if ret = -1 then return -1
    ret ← qsetOne name qbackSeq (nativeBytes seq)
  else
    seq := seq + (if frontOrBackSeq = qfrontSeq then -1 else 1)
    ret ← qsetOne name frontOrBackSeq (nativeBytes seq)
  if ret = -1 then return -1
  if seq ≤ qitemMinSeq ∨ seq ≥ qitemMaxSeq then return -1
  -- prepend/append item
  ret ← qsetOne name seq item
  if ret = -1 then return -1
  -- update size
  let size ← incrQsize name 1
  if size = -1 then return -1
  if ← binlogsCommit then return size
  return -1

def qpushFront (name item : Bytes) : DbCall Int64 := qpush name item qfrontSeq

def qpushBack (name item : Bytes) : DbCall Int64 := qpush name item qbackSeq

/-- `_qpop`; 0 for an empty queue, 1 for a popped item, -1 for an error, and
what `*item` holds afterwards. -/
def qpop (name item : Bytes) (frontOrBackSeq : UInt64) : DbCall (Int × Bytes) := transaction do
  let mut (ret, seq) ← qgetUint64 name frontOrBackSeq
  if ret = -1 then return (-1, item)
  if ret = 0 then return (0, item)
  let mut found := item
  (ret, found) ← qgetBySeq name seq item
  if ret = -1 then return (-1, found)
  if ret = 0 then return (0, found)
  -- delete item
  ret ← qdelOne name seq
  if ret = -1 then return (-1, found)
  -- update size
  let size ← incrQsize name (-1)
  if size = -1 then return (-1, found)
  -- update front
  if size > 0 then
    seq := seq + (if frontOrBackSeq = qfrontSeq then 1 else -1)
    ret ← qsetOne name frontOrBackSeq (nativeBytes seq)
    if ret = -1 then return (-1, found)
  if ← binlogsCommit then return (1, found)
  return (-1, found)

def qpopFront (name item : Bytes) : DbCall (Int × Bytes) := qpop name item qfrontSeq

def qpopBack (name item : Bytes) : DbCall (Int × Bytes) := qpop name item qbackSeq

end GeminiDB
