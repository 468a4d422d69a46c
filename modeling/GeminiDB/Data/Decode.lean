import GeminiDB.Data.Keys
import GeminiDB.Lib.Memory

/-!
# Decoding item keys (`bytes.h`, `t_queue.h`)

The decoder reads through a memory of which only the slice can be read; `none`
says that it has read beyond. It takes the length of the name from the one byte
that `encode_qitem_key` has for it, and so gives a name back just when its length
fits into that byte.
-/

namespace GeminiDB

open Memory

structure Decoder where
  p : Int
  size : Int

namespace Decoder

def skip (n : Int) (d : Decoder) : Int × Decoder :=
  if d.size < n then (-1, d) else (n, ⟨d.p + n, d.size - n⟩)

/-- `size_t(size)`. -/
def sizeT (d : Decoder) : Int := d.size % 18446744073709551616

/-- The status and what `*ret` holds afterwards. -/
def readUint64 (mem : Int → Option UInt8) (ret : UInt64) (d : Decoder) :
    Option (Int × UInt64 × Decoder) :=
  if d.sizeT < 8 then some (-1, ret, d)
  else (sliceIn mem d.p 8).map fun val ↦ (8, ofNativeBytes val, ⟨d.p + 8, d.size - 8⟩)

/-- A length byte and as many bytes; the status and what `*ret` holds afterwards. -/
def read8Data (mem : Int → Option UInt8) (ret : Bytes) (d : Decoder) :
    Option (Int × Bytes × Decoder) :=
  if d.size < 1 then some (-1, ret, d)
  else (mem d.p).bind fun b ↦
    let len : Int := b.toNat
    let d : Decoder := ⟨d.p + 1, d.size - 1⟩
    if d.size < len then some (-1, ret, d)
    else (sliceIn mem d.p len.toNat).map fun data ↦
      (1 + len, data, ⟨d.p + len, d.size - len⟩)

end Decoder

/-- The status, and what `*name` and `*seq` hold afterwards. -/
def decodeQitemKey (slice name : Bytes) (seq : UInt64) : Option (Int × Bytes × UInt64) :=
  let mem := ofList slice
  let skipped := Decoder.skip 1 ⟨0, int32 slice.length⟩
  if skipped.1 = -1 then some (-1, name, seq)
  else (skipped.2.read8Data mem name).bind fun r ↦
    if r.1 = -1 then some (-1, r.2.1, seq)
    else (r.2.2.readUint64 mem seq).map fun t ↦
      if t.1 = -1 then (-1, r.2.1, t.2.1) else (0, r.2.1, bigEndian t.2.1)

namespace Decoder

variable {slice : Bytes} {d : Decoder}

/-- The bytes that the decoder still has lie within the slice. -/
structure Within (slice : Bytes) (d : Decoder) : Prop where
  pos : 0 ≤ d.p
  size : 0 ≤ d.size
  fits : d.p + d.size ≤ slice.length

theorem Within.sliceIn (h : d.Within slice) {n : ℕ} (hn : (n : Int) ≤ d.size) :
    Memory.sliceIn (ofList slice) d.p n = some ((slice.drop d.p.toNat).take n) := by
  have hp := Int.toNat_of_nonneg h.pos
  have hfits := h.fits
  rw [← hp, sliceIn_ofList slice (by omega), hp]

theorem Within.advance (h : d.Within slice) {n : Int} (hn : 0 ≤ n) (hle : n ≤ d.size) :
    (⟨d.p + n, d.size - n⟩ : Decoder).Within slice := by
  have hpos := h.pos
  have hfits := h.fits
  exact ⟨by simp only; omega, by simp only; omega, by simp only; omega⟩

/-- `read_uint64` stays within the slice. -/
theorem Within.readUint64 (h : d.Within slice) (ret : UInt64) :
    (d.readUint64 (ofList slice) ret).isSome := by
  have hsize := h.size
  rw [Decoder.readUint64]
  split
  · rfl
  · next hlong =>
    have hroom : 8 ≤ d.size := by
      rw [sizeT] at hlong
      omega
    rw [h.sliceIn (n := 8) hroom]
    rfl

/-- `read_8_data` stays within the slice, and so does what is left to read. -/
theorem Within.read8Data (h : d.Within slice) (ret : Bytes) :
    ∃ r, d.read8Data (ofList slice) ret = some r ∧ r.2.2.Within slice ∧
      (r.1 ≠ -1 → r.2.1.length ≤ 255) := by
  have hpos := h.pos
  have hfits := h.fits
  rw [Decoder.read8Data]
  split
  · exact ⟨_, rfl, h, fun hne ↦ absurd rfl hne⟩
  · next hsize =>
    have hlt : d.p.toNat < slice.length := by omega
    have hnext := h.advance (n := 1) Int.one_nonneg (by omega)
    have hbyte : ofList slice d.p = some slice[d.p.toNat] := by
      rw [ofList, if_pos hpos, List.getElem?_eq_getElem hlt]
    rw [hbyte, Option.bind_some]
    generalize slice[d.p.toNat] = b
    generalize (⟨d.p + 1, d.size - 1⟩ : Decoder) = d' at hnext
    have hb : b.toNat < 256 := b.toNat_lt
    by_cases hlen : d'.size < (b.toNat : Int)
    · rw [if_pos hlen]
      exact ⟨_, rfl, hnext, fun hne ↦ absurd rfl hne⟩
    · rw [if_neg hlen, Int.toNat_natCast, hnext.sliceIn (not_lt.mp hlen)]
      refine ⟨_, rfl, hnext.advance (by omega) (not_lt.mp hlen), fun _ ↦ ?_⟩
      simp only [List.length_take]
      omega

theorem within_skip (slice : Bytes) (h : ¬ int32 slice.length < 1) :
    (⟨0 + 1, int32 slice.length - 1⟩ : Decoder).Within slice := by
  have hrange : int32 slice.length ≤ slice.length := by
    unfold int32
    omega
  exact ⟨by simp only; omega, by simp only; omega, by simp only; omega⟩

end Decoder

/-- The decoder never reads beyond the slice, and a name that it accepts is no longer
than a length byte can say. -/
theorem decodeQitemKey_result (slice name : Bytes) (seq : UInt64) :
    ∃ r, decodeQitemKey slice name seq = some r ∧ (r.1 = 0 → r.2.1.length ≤ 255) := by
  rw [decodeQitemKey, Decoder.skip]
  by_cases hsize : int32 slice.length < 1
  · rw [if_pos hsize]
    exact ⟨_, rfl, fun heq ↦ by simp at heq⟩
  · obtain ⟨r, hread, hr, hlen⟩ := (Decoder.within_skip slice hsize).read8Data name
    rw [if_neg hsize]
    simp only [hread, Option.bind_some]
    split
    · next hskip => exact absurd hskip (by decide)
    · split
      · exact ⟨_, rfl, fun heq ↦ by simp at heq⟩
      · next hne =>
        obtain ⟨t, ht⟩ := Option.isSome_iff_exists.mp (hr.readUint64 seq)
        rw [ht, Option.map_some]
        refine ⟨_, rfl, fun heq ↦ ?_⟩
        split at heq
        · simp at heq
        · next hdone =>
          rw [if_neg hdone]
          exact hlen hne

theorem bigEndian_bigEndian (v : UInt64) : bigEndian (bigEndian v) = v := by
  rw [← nativeBytes_inj, nativeBytes_bigEndian, nativeBytes_bigEndian, List.reverse_reverse]

/-- A name whose length fits into a byte comes back with its sequence number. -/
theorem decodeQitemKey_encode {name : Bytes} (h : name.length ≤ 255) (seq : UInt64)
    (name₀ : Bytes) (seq₀ : UInt64) :
    decodeQitemKey (encodeQitemKey name seq) name₀ seq₀ = some (0, name, seq) := by
  have hlen : (encodeQitemKey name seq).length = name.length + 10 := by
    simp [encodeQitemKey]
  have hbyte : (UInt8.ofNat name.length).toNat = name.length := by
    rw [UInt8.toNat_ofNat']
    omega
  have hkind : ofList (encodeQitemKey name seq) 1 = some (UInt8.ofNat name.length) := rfl
  have hname : sliceIn (ofList (encodeQitemKey name seq)) 2 name.length = some name := by
    have hslice := sliceIn_ofList (encodeQitemKey name seq) (k := 2) (n := name.length)
      (by omega)
    simpa [encodeQitemKey] using hslice
  have hseq : sliceIn (ofList (encodeQitemKey name seq)) (2 + name.length) 8 =
      some (nativeBytes (bigEndian seq)) := by
    have hslice := sliceIn_ofList (encodeQitemKey name seq) (k := 2 + name.length) (n := 8)
      (by omega)
    have hdrop : (encodeQitemKey name seq).drop (2 + name.length) =
        nativeBytes (bigEndian seq) := by
      rw [encodeQitemKey, Nat.add_comm, List.drop_succ_cons, List.drop_succ_cons, List.drop_left]
    rw [hdrop, List.take_of_length_le (by simp)] at hslice
    exact_mod_cast hslice
  have hread : (⟨1, (name.length : Int) + 9⟩ : Decoder).read8Data
      (ofList (encodeQitemKey name seq)) name₀ =
        some (1 + (name.length : Int), name, ⟨2 + name.length, 8⟩) := by
    rw [Decoder.read8Data, if_neg (by simp only; omega), hkind, Option.bind_some, hbyte]
    simp only
    rw [if_neg (by omega), Int.toNat_natCast, show (1 : Int) + 1 = 2 from rfl, hname]
    simp only [Option.map_some, Option.some.injEq, Prod.mk.injEq, Decoder.mk.injEq, true_and]
    omega
  have hlast : (⟨2 + name.length, 8⟩ : Decoder).readUint64 (ofList (encodeQitemKey name seq))
      seq₀ = some (8, bigEndian seq, ⟨2 + name.length + 8, 0⟩) := by
    rw [Decoder.readUint64, if_neg (by simp [Decoder.sizeT]), hseq, Option.map_some,
      ofNativeBytes_nativeBytes]
    rfl
  have hskip : Decoder.skip 1 ⟨0, (name.length : Int) + 10⟩ =
      (1, ⟨1, (name.length : Int) + 9⟩) := by
    rw [Decoder.skip, if_neg (by simp only; omega)]
    simp only [Prod.mk.injEq, Decoder.mk.injEq, true_and]
    omega
  have hsize : int32 ((name.length + 10 : ℕ) : Int) = (name.length : Int) + 10 := by
    rw [int32_natCast (by omega)]
    push_cast
    rfl
  have hstatus : ¬ (1 + (name.length : Int)) = -1 := by omega
  simp only [decodeQitemKey, hlen, hsize, hskip, hread, Option.bind_some, hstatus, if_false, hlast,
    Option.map_some]
  rw [bigEndian_bigEndian]
  rfl

/-- A name and its sequence number come back just when the length of the name fits
into a byte; the decoder never reads beyond what it is given. -/
theorem decode_qitem_key_iff (name : Bytes) (seq : UInt64) (slice name₀ : Bytes) (seq₀ : UInt64) :
    (decodeQitemKey (encodeQitemKey name seq) name₀ seq₀ = some (0, name, seq) ∧
        decodeQitemKey slice name₀ seq₀ ≠ none) ↔ name.length ≤ 255 := by
  have hsafe : decodeQitemKey slice name₀ seq₀ ≠ none := by
    obtain ⟨r, hr, -⟩ := decodeQitemKey_result slice name₀ seq₀
    simp [hr]
  constructor
  · rintro ⟨hdecode, -⟩
    obtain ⟨r, hr, hlen⟩ := decodeQitemKey_result (encodeQitemKey name seq) name₀ seq₀
    obtain rfl := Option.some.inj (hr.symm.trans hdecode)
    exact hlen rfl
  · exact fun hlen ↦ ⟨decodeQitemKey_encode hlen seq name₀ seq₀, hsafe⟩

/-- A name of 256 bytes does not come back. -/
theorem not_decode_qitem_key :
    decodeQitemKey (encodeQitemKey (List.replicate 256 97) 10001) [] 0 ≠
      some (0, List.replicate 256 97, 10001) := by
  intro hdecode
  obtain ⟨r, hr, hlen⟩ :=
    decodeQitemKey_result (encodeQitemKey (List.replicate 256 97) 10001) [] 0
  obtain rfl := Option.some.inj (hr.symm.trans hdecode)
  have hshort : (List.replicate 256 (97 : UInt8)).length ≤ 255 := hlen rfl
  rw [List.length_replicate] at hshort
  omega

end GeminiDB
