import GeminiDB.Data.Binlog
import GeminiDB.Lib.Radix
import Mathlib.Tactic.IntervalCases

/-!
# Key encodings (`const.h`, `t_kv.h`, `t_queue.h`, `strings.h`)

The item key puts one length byte before the name, which wraps at 256, and a
byte-swapped sequence number behind it. The encodings are injective all the
same: the length of the whole key determines the length of the name.
-/

namespace GeminiDB

open Radix

/-- `DataType`, as far as the store uses it. -/
def DataType.kv : UInt8 := 107
def DataType.queue : UInt8 := 113
def DataType.qsize : UInt8 := 81

def qfrontSeq : UInt64 := 2
def qbackSeq : UInt64 := 3
def qitemMinSeq : UInt64 := 10000
def qitemMaxSeq : UInt64 := 9223372036854775807
def qitemSeqInit : UInt64 := qitemMaxSeq / 2

/-- The eight bytes of a `uint64_t` in memory, least significant first. -/
def nativeBytes (v : UInt64) : Bytes := leBytes 8 v.toNat

/-- `*(uint64_t *)val.data()`. -/
def ofNativeBytes (val : Bytes) : UInt64 := UInt64.ofNat (leNat val)

@[simp] theorem length_nativeBytes (v : UInt64) : (nativeBytes v).length = 8 :=
  length_leBytes 8 _

@[simp] theorem ofNativeBytes_nativeBytes (v : UInt64) : ofNativeBytes (nativeBytes v) = v := by
  have hlt : v.toNat < 256 ^ 8 := v.toNat_lt
  simp [ofNativeBytes, nativeBytes, leNat_leBytes_of_lt hlt]

theorem nativeBytes_inj {v w : UInt64} : nativeBytes v = nativeBytes w ↔ v = w :=
  ⟨fun h ↦ by simpa using congrArg ofNativeBytes h, fun h ↦ h ▸ rfl⟩

/-- `big_endian(uint32_t)`. -/
def bigEndian32 (v : UInt32) : UInt32 :=
  (v >>> 24) ||| ((v >>> 8) &&& (0xff00 : UInt32)) ||| ((v <<< 8) &&& (0xff0000 : UInt32)) |||
    (v <<< 24)

/-- `big_endian(uint64_t)`. -/
def bigEndian (v : UInt64) : UInt64 :=
  let h : UInt32 := (v >>> 32).toUInt32
  let l : UInt32 := (v &&& (0xffffffff : UInt64)).toUInt32
  (bigEndian32 h).toUInt64 ||| ((bigEndian32 l).toUInt64 <<< 32)

theorem bigEndian32_bit (v : UInt32) {i : ℕ} (hi : i < 32) :
    (bigEndian32 v).toBitVec.getLsbD i = v.toBitVec.getLsbD (8 * (3 - i / 8) + i % 8) := by
  simp only [bigEndian32, UInt32.toBitVec_or, UInt32.toBitVec_and, UInt32.toBitVec_shiftLeft,
    UInt32.toBitVec_shiftRight, BitVec.getLsbD_or, BitVec.getLsbD_and]
  interval_cases i <;> simp

theorem bigEndian_bit (v : UInt64) {i : ℕ} (hi : i < 64) :
    (bigEndian v).toBitVec.getLsbD i = v.toBitVec.getLsbD (8 * (7 - i / 8) + i % 8) := by
  have hmask : ∀ k, ∀ hk : k < 32, (4294967295#32)[k] = true := fun k hk ↦
    BitVec.getElem_allOnes k hk
  by_cases hlow : i < 32
  · have hbit := bigEndian32_bit (v >>> 32).toUInt32 hlow
    have hidx : 32 + (8 * (3 - i / 8) + i % 8) = 8 * (7 - i / 8) + i % 8 := by omega
    have hlt : 8 * (3 - i / 8) + i % 8 < 32 := by omega
    simpa [bigEndian, hlow, hi, hlt, hidx] using hbit
  · have hbit := bigEndian32_bit (v &&& (0xffffffff : UInt64)).toUInt32 (i := i - 32) (by omega)
    have hidx : 8 * (3 - (i - 32) / 8) + (i - 32) % 8 = 8 * (7 - i / 8) + i % 8 := by omega
    have hlt : 8 * (7 - i / 8) + i % 8 < 32 := by omega
    have hhigh : (bigEndian32 (v >>> 32).toUInt32).toBitVec.getLsbD i = false :=
      BitVec.getLsbD_of_ge _ _ (by omega)
    simpa [bigEndian, hlow, hi, hhigh, hidx, hlt, hmask] using hbit

/-- Swapping the bytes of a number reverses its bytes in memory. -/
theorem nativeBytes_bigEndian (v : UInt64) :
    nativeBytes (bigEndian v) = (nativeBytes v).reverse := by
  apply List.ext_getElem
  · simp
  · intro k hk hk'
    have hk8 : k < 8 := by simpa using hk
    simp only [List.getElem_reverse, nativeBytes, getElem_leBytes, length_leBytes]
    apply ofNat_div_eq
    intro j hj
    have hbit := bigEndian_bit v (i := 8 * k + j) (by omega)
    have hidx : 8 * (7 - (8 * k + j) / 8) + (8 * k + j) % 8 = 8 * (8 - 1 - k) + j := by omega
    rw [hidx] at hbit
    exact hbit

theorem bigEndian_inj {s t : UInt64} : bigEndian s = bigEndian t ↔ s = t := by
  rw [← nativeBytes_inj, nativeBytes_bigEndian, nativeBytes_bigEndian, List.reverse_inj,
    nativeBytes_inj]

def encodeKvKey (key : Bytes) : Bytes := DataType.kv :: key

def encodeQsizeKey (name : Bytes) : Bytes := DataType.qsize :: name

def encodeQitemKey (name : Bytes) (seq : UInt64) : Bytes :=
  DataType.queue :: UInt8.ofNat name.length :: (name ++ nativeBytes (bigEndian seq))

@[simp] theorem encodeKvKey_inj {k l : Bytes} : encodeKvKey k = encodeKvKey l ↔ k = l := by
  simp [encodeKvKey]

@[simp] theorem encodeQsizeKey_inj {n m : Bytes} :
    encodeQsizeKey n = encodeQsizeKey m ↔ n = m := by
  simp [encodeQsizeKey]

@[simp] theorem encodeQitemKey_inj {n m : Bytes} {s t : UInt64} :
    encodeQitemKey n s = encodeQitemKey m t ↔ n = m ∧ s = t := by
  refine ⟨fun h ↦ ?_, fun ⟨hn, hs⟩ ↦ by rw [hn, hs]⟩
  have htail : n ++ nativeBytes (bigEndian s) = m ++ nativeBytes (bigEndian t) := by
    simp only [encodeQitemKey, List.cons.injEq] at h
    exact h.2.2
  -- both sequence numbers take eight bytes, so the names end at the same place
  obtain ⟨hname, hseq⟩ := List.append_inj' htail (by simp)
  exact ⟨hname, bigEndian_inj.mp (nativeBytes_inj.mp hseq)⟩

@[simp] theorem encodeKvKey_ne_qsize (k n : Bytes) : encodeKvKey k ≠ encodeQsizeKey n := by
  simp [encodeKvKey, encodeQsizeKey, DataType.kv, DataType.qsize]

@[simp] theorem encodeKvKey_ne_qitem (k n : Bytes) (s : UInt64) :
    encodeKvKey k ≠ encodeQitemKey n s := by
  simp [encodeKvKey, encodeQitemKey, DataType.kv, DataType.queue]

@[simp] theorem encodeQsizeKey_ne_qitem (m n : Bytes) (s : UInt64) :
    encodeQsizeKey m ≠ encodeQitemKey n s := by
  simp [encodeQsizeKey, encodeQitemKey, DataType.qsize, DataType.queue]

@[simp] theorem encodeQitemKey_ne_qsize (n m : Bytes) (s : UInt64) :
    encodeQitemKey n s ≠ encodeQsizeKey m :=
  (encodeQsizeKey_ne_qitem m n s).symm

end GeminiDB
