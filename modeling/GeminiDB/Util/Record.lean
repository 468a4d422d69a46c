import GeminiDB.Net.Bounds

/-!
# Records in a buffer (`Buffer::read_record`)

`read_record` shortens the live part of the buffer but does not move its start,
so that a second call meets the first record again. Its sums of lengths are
`int`s: a header near the largest one makes it look beyond the live bytes.
-/

namespace GeminiDB

open Memory Decimal Scanner

namespace Buffer

/-- `read_record` from the first byte behind the body on: the status, what `*s` is
set to, and the new size. -/
def readBody (mem : Int → Option UInt8) (body headLen bodyLen size : Int) :
    Option (Int × Option BytesRef × Int) :=
  let p := body + bodyLen
  let len := int32 (headLen + bodyLen)
  if size ≥ int32 (len + 1) then
    (mem p).bind fun c ↦
      if c = 10 then some (1, some ⟨body, bodyLen⟩, int32 (size - int32 (len + 1)))
      else if c = 13 then
        if size ≥ int32 (len + 2) then
          (mem (p + 1)).bind fun c ↦
            if c = 10 then some (1, some ⟨body, bodyLen⟩, int32 (size - int32 (len + 2)))
            else some (-1, none, size)
        else some (0, none, size)
      else some (-1, none, size)
  else some (0, none, size)

/-- `read_record` on `size` bytes from `head` on. -/
def readRecordIn (mem : Int → Option UInt8) (head size : Int) :
    Option (Int × Option BytesRef × Int) :=
  (findIn mem 10 head size.toNat).bind fun
    | none => some (0, none, size)
    | some newline =>
        let body := newline + 1
        let headLen := int32 (body - head)
        (mem head).bind fun b ↦
          if b < 48 ∨ b > 57 then some (-1, none, size)
          else if int32 (headLen + 1) > 20 then some (-1, none, size)
          else (Link.headStrIn mem head (headLen - 1)).bind fun headStr ↦
            let bodyLen := atoi headStr
            if bodyLen < 0 then some (-1, none, size) else readBody mem body headLen bodyLen size

/-- The live bytes and no others. -/
def live (b : Buffer) : Int → Option UInt8 := guarded b.mem b.data (b.data + b.size)

/-- `none` when a byte outside of the live part is read, or one beyond `head_str`
written. -/
def readRecord (b : Buffer) : Option (Int × Option BytesRef × Buffer) :=
  (readRecordIn b.live b.data b.size).map fun r ↦ (r.1, r.2.1, { b with size := r.2.2 })

variable {b : Buffer}

/-- The call in terms of the first line of the content. -/
theorem Wf.readRecord_eq (h : b.Wf) :
    b.readRecord = match splitLine b.content with
      | none => some (0, none, b)
      | some (line, _) =>
          if isDigit (line.headD 0) = false then some (-1, none, b)
          else if 2 ^ 31 ≤ line.length + 2 then none
          else if 20 < line.length + 2 ∨ atoi line < 0 then some (-1, none, b)
          else (readBody b.live (b.data + ((line.length + 1 : ℕ) : Int))
            ((line.length + 1 : ℕ) : Int) (atoi line) b.size).map fun r ↦
              (r.1, r.2.1, { b with size := r.2.2 }) := by
  have hlo := h.size
  have hfits := h.fits
  have hdata := h.data
  have htotal := h.total
  obtain ⟨n, hn⟩ : ∃ n, b.size.toNat = n := ⟨_, rfl⟩
  have hread (k : Int) (hk : 0 ≤ k) (hkn : k < n) :
      b.live (b.data + k) = some (b.mem (b.data + k)) :=
    guarded_eq b.mem (by omega) (by omega)
  have hfind : findIn b.live 10 b.data n = some (find b.mem 10 b.data n) :=
    findIn_guarded b.mem 10 le_rfl (by omega)
  rw [readRecord, readRecordIn, content, hn, hfind]
  cases hline : find b.mem 10 b.data n with
  | none =>
      rw [splitLine_eq_none (find_eq_none hline)]
      rfl
  | some newline =>
      obtain ⟨j, hj, rfl, hend, hnot⟩ := find_eq_some hline
      have hhead : int32 (b.data + j + 1 - b.data) = ((j + 1 : ℕ) : Int) := by
        rw [← int32_natCast (show j + 1 < 2 ^ 31 by omega)]
        congr 1
        push_cast
        ring
      have hfirst := hread 0 le_rfl (by omega)
      rw [Int.add_zero] at hfirst
      simp only [Link.splitLine_slice hj hend hnot, Option.bind_some, hfirst, hhead, length_slice]
      have hdigit : isDigit ((slice b.mem b.data j).headD 0) = false ↔
          b.mem b.data < 48 ∨ b.mem b.data > 57 := by
        rcases Nat.eq_zero_or_pos j with rfl | hpos
        · rw [Nat.cast_zero, Int.add_zero] at hend
          rw [hend]
          exact iff_of_true rfl (.inl (by decide))
        · exact Link.isDigit_head b.mem b.data hpos
      rw [if_congr hdigit rfl rfl]
      by_cases hchar : b.mem b.data < 48 ∨ b.mem b.data > 57
      · rw [if_pos hchar, if_pos hchar]
        rfl
      · rw [if_neg hchar, if_neg hchar]
        by_cases hbig : 2 ^ 31 ≤ j + 2
        · have hwrap : ¬ int32 (((j + 1 : ℕ) : Int) + 1) > 20 := by
            unfold int32
            omega
          rw [if_pos hbig, if_neg hwrap, Link.headStrIn, if_neg (by omega)]
          rfl
        · have hsum : int32 (((j + 1 : ℕ) : Int) + 1) = ((j + 2 : ℕ) : Int) := by
            rw [← int32_natCast (show j + 2 < 2 ^ 31 by omega)]
            congr 1
          rw [if_neg hbig, hsum]
          by_cases hlong : 20 < j + 2
          · rw [if_pos (show ((j + 2 : ℕ) : Int) > 20 by omega), if_pos (.inl hlong)]
            rfl
          · have hcopy : Link.headStrIn b.live b.data (((j + 1 : ℕ) : Int) - 1) =
                some (slice b.mem b.data j) := by
              have hj' : ((j + 1 : ℕ) : Int) - 1 = j := by omega
              rw [Link.headStrIn, hj', if_pos ⟨by omega, by omega⟩, Int.toNat_natCast]
              exact sliceIn_guarded b.mem le_rfl (by omega)
            rw [if_neg (show ¬ ((j + 2 : ℕ) : Int) > 20 by omega), hcopy, Option.bind_some]
            by_cases hneg : atoi (slice b.mem b.data j) < 0
            · rw [if_pos hneg, if_pos (.inr hneg)]
              rfl
            · rw [if_neg hneg, if_neg (not_or.mpr ⟨hlong, hneg⟩)]
              push_cast
              rw [Int.add_assoc]

/-- Behind a header of `h` bytes and a body of `m` bytes `read_record` stays within the
live bytes as long as its sums do not wrap around. -/
theorem Wf.readBody_isSome (hb : b.Wf) {h m : ℕ} (hm : h + m < 2 ^ 31 + 19) :
    (readBody b.live (b.data + h) h m b.size).isSome = true ↔
      h + m + 1 < 2 ^ 31 ∧ (h + m + 2 = 2 ^ 31 → b.content[h + m]? ≠ some 13) := by
  have hsize := hb.size
  have hfits := hb.fits
  have hdata := hb.data
  have htotal := hb.total
  have hout (a : Int) (ha : b.data + b.size ≤ a) : b.live a = none := if_neg (by omega)
  rw [readBody]
  by_cases hwrap : 2 ^ 31 ≤ h + m + 1
  · have hneed : int32 (int32 ((h : Int) + m) + 1) < 0 := by
      unfold int32
      omega
    rw [if_pos (show b.size ≥ int32 (int32 ((h : Int) + m) + 1) by omega), hout _ (by omega)]
    exact iff_of_false (by simp) (by omega)
  · have hlen : int32 ((h : Int) + m) = ((h + m : ℕ) : Int) := int32_add_natCast (by omega)
    have hneed : int32 (((h + m : ℕ) : Int) + 1) = ((h + m + 1 : ℕ) : Int) :=
      int32_natCast (n := h + m + 1) (by omega)
    rw [hlen, hneed]
    by_cases hroom : ((h + m + 1 : ℕ) : Int) ≤ b.size
    · have hp : b.live (b.data + h + m) = some (b.mem (b.data + ((h + m : ℕ) : Int))) := by
        rw [show b.data + h + m = b.data + ((h + m : ℕ) : Int) by push_cast; ring]
        exact guarded_eq b.mem (by omega) (by omega)
      have hat : b.content[h + m]? = some (b.mem (b.data + ((h + m : ℕ) : Int))) :=
        getElem?_slice b.mem b.data (by omega)
      rw [if_pos hroom, hp, hat, Option.bind_some]
      generalize b.mem (b.data + ((h + m : ℕ) : Int)) = c
      by_cases hline : c = 10
      · subst hline
        exact iff_of_true rfl ⟨by omega, fun _ ↦ by decide⟩
      · rw [if_neg hline]
        by_cases hcr : c = 13
        · subst hcr
          rw [if_pos rfl]
          by_cases hlast : h + m + 2 = 2 ^ 31
          · have hneed : int32 (((h + m : ℕ) : Int) + 2) < 0 := by
              unfold int32
              omega
            rw [if_pos (show b.size ≥ int32 (((h + m : ℕ) : Int) + 2) by omega),
              hout _ (by omega)]
            exact iff_of_false (by simp) fun hgood ↦ hgood.2 hlast rfl
          · have hneed : int32 (((h + m : ℕ) : Int) + 2) = ((h + m + 2 : ℕ) : Int) :=
              int32_natCast (n := h + m + 2) (by omega)
            rw [hneed]
            refine iff_of_true ?_ ⟨by omega, fun heq ↦ absurd heq hlast⟩
            split
            · have hnext : b.live (b.data + h + m + 1) = some (b.mem (b.data + h + m + 1)) :=
                guarded_eq b.mem (by omega) (by omega)
              rw [hnext, Option.bind_some]
              split <;> rfl
            · rfl
        · rw [if_neg hcr]
          exact iff_of_true rfl ⟨by omega, fun _ heq ↦ hcr (Option.some.inj heq)⟩
    · rw [if_neg hroom]
      have hnone : b.content[h + m]? = none := by
        rw [List.getElem?_eq_none]
        have := hb.length_content
        omega
      exact iff_of_true rfl ⟨by omega, fun _ ↦ by simp [hnone]⟩

/-- The lengths that `read_record` adds up stay `int`s. -/
def LengthsFit (s : Bytes) : Prop :=
  ∀ line after, splitLine s = some (line, after) → isDigit (line.headD 0) = true →
    line.length + 2 < 2 ^ 31 ∧
      (line.length + 2 ≤ 20 → 0 ≤ atoi line →
        let len := line.length + 1 + (atoi line).toNat
        len + 1 < 2 ^ 31 ∧ (len + 2 = 2 ^ 31 → s[len]? ≠ some 13))

/-- `read_record` looks at no byte outside of the live part just when its lengths fit. -/
theorem Wf.readRecord_isSome (h : b.Wf) : b.readRecord.isSome = true ↔ LengthsFit b.content := by
  rw [h.readRecord_eq]
  cases hline : splitLine b.content with
  | none => simp [LengthsFit, hline]
  | some p =>
      obtain ⟨line, after⟩ := p
      have hfit : LengthsFit b.content ↔ (isDigit (line.headD 0) = true →
          line.length + 2 < 2 ^ 31 ∧ (line.length + 2 ≤ 20 → 0 ≤ atoi line →
            line.length + 1 + (atoi line).toNat + 1 < 2 ^ 31 ∧
              (line.length + 1 + (atoi line).toNat + 2 = 2 ^ 31 →
                b.content[line.length + 1 + (atoi line).toNat]? ≠ some 13))) := by
        simp [LengthsFit, hline]
      rw [hfit]
      simp only
      by_cases hdigit : isDigit (line.headD 0) = true
      · by_cases hbig : 2 ^ 31 ≤ line.length + 2
        · rw [if_neg (by rw [hdigit]; decide), if_pos hbig]
          exact iff_of_false (by simp) fun hgood ↦ absurd (hgood hdigit).1 (by omega)
        · rw [if_neg (by rw [hdigit]; decide), if_neg hbig]
          by_cases hstop : 20 < line.length + 2 ∨ atoi line < 0
          · rw [if_pos hstop]
            exact iff_of_true rfl fun _ ↦ ⟨by omega, by omega⟩
          · have hrange := atoi_range line
            obtain ⟨m, hm⟩ := Int.eq_ofNat_of_zero_le (show 0 ≤ atoi line by omega)
            rw [if_neg hstop, Option.isSome_map, hm, h.readBody_isSome (by omega),
              Int.toNat_natCast]
            exact ⟨fun hgood _ ↦ ⟨by omega, fun _ _ ↦ hgood⟩,
              fun hgood ↦ (hgood hdigit).2 (by omega) (by omega)⟩
      · rw [if_pos (Bool.not_eq_true _ ▸ hdigit)]
        exact iff_of_true rfl fun hgood ↦ absurd hgood hdigit

/-! ## Reading back -/

/-- Append the records one after another; `none` when a call fails, or writes more
bytes than the allocation has behind the live part. -/
def appendRecords (alloc : Int → Bool) : List Bytes → Buffer → Option Buffer
  | [], b => some b
  | s :: ss, b =>
      let r := b.appendRecord alloc s
      if 0 ≤ r.1 ∧ b.slot + r.1 ≤ r.2.total then appendRecords alloc ss r.2 else none

/-- Calls of `read_record` return 1 with each of the strings, and then 0 with the
buffer empty. -/
def ReadsBack : List Bytes → Buffer → Prop
  | [], b => ∃ b', b.readRecord = some (0, none, b') ∧ b'.size = 0
  | s :: ss, b => ∃ ref b', b.readRecord = some (1, some ref, b') ∧ ref.deref b'.mem = s ∧
      ReadsBack ss b'

/-- A record written behind the live part, in bounds, is added to the content. -/
theorem Wf.appendRecord_of_fits (h : b.Wf) (alloc : Int → Bool) {s : Bytes}
    (hs : s.length < 2 ^ 31) (hpos : 0 ≤ (b.appendRecord alloc s).1)
    (hfit : b.slot + (b.appendRecord alloc s).1 ≤ (b.appendRecord alloc s).2.total) :
    (b.appendRecord alloc s).2.Wf ∧
      (b.appendRecord alloc s).2.content = b.content ++ encodeRecord s := by
  have hdigits := length_digits_le (n := s.length) (k := 10) (by decide) (by omega)
  have hrecord : intBytes s.length ++ [10] ++ s ++ [10] = encodeRecord s := by
    rw [intBytes_ofNat]
    simp [encodeRecord]
  have hlen : (encodeRecord s).length ≤ s.length + 12 := by
    simp [encodeRecord]
    omega
  rw [Buffer.appendRecord, int32_natCast hs, Int.toNat_natCast, List.take_length, hrecord]
    at hpos hfit ⊢
  generalize int32 (int32 (16 + (s.length : Int)) + 1) = want at hpos hfit ⊢
  obtain ⟨n, heq, hle, hlt, -⟩ := h.growUntil alloc want rounds
  have hwf := h.extend hle hlt
  cases hgrow : (Buffer.growUntil alloc want rounds b).1 with
  | false =>
      rw [hgrow, if_neg (by decide)] at hpos
      exact absurd hpos (by decide : ¬ (0 : Int) ≤ -1)
  | true =>
      rw [hgrow] at hpos hfit
      rw [if_pos rfl] at hpos hfit ⊢
      rw [heq] at hfit ⊢
      have hexact : int32 (encodeRecord s).length = (encodeRecord s).length := by
        unfold int32 at hpos ⊢
        omega
      rw [hexact, total_put, slot] at hfit
      apply hwf.put
      rw [hwf.space_eq]
      change b.data + b.size + _ ≤ n at hfit
      change _ ≤ n - b.data - b.size
      omega

theorem Wf.appendRecords (h : b.Wf) (alloc : Int → Bool) {ss : List Bytes} {b' : Buffer}
    (hint : ∀ s ∈ ss, s.length < 2 ^ 31) (happend : b.appendRecords alloc ss = some b') :
    b'.Wf ∧ b'.content = b.content ++ ss.flatMap encodeRecord := by
  induction ss generalizing b with
  | nil =>
      obtain rfl := Option.some.inj happend
      exact ⟨h, by simp⟩
  | cons s ss ih =>
      have hnext := h.appendRecord_of_fits alloc (hint s List.mem_cons_self)
      rw [Buffer.appendRecords] at happend
      generalize b.appendRecord alloc s = r at happend hnext
      by_cases hfits : 0 ≤ r.1 ∧ b.slot + r.1 ≤ r.2.total
      · obtain ⟨hwf, hcontent⟩ := hnext hfits.1 hfits.2
        rw [if_pos hfits] at happend
        obtain ⟨hwf', hcontent'⟩ :=
          ih hwf (fun r hr ↦ hint r (List.mem_cons_of_mem s hr)) happend
        exact ⟨hwf', by rw [hcontent', hcontent, List.flatMap_cons, List.append_assoc]⟩
      · rw [if_neg hfits] at happend
        cases happend

/-- `read_record` behind a whole header: the record, or that more bytes are needed. -/
theorem Wf.readBody_encode (h : b.Wf) (hd m : ℕ) (hfit : hd + m + 1 < 2 ^ 31)
    (hend : hd + m < b.size → b.content[hd + m]? = some 10) :
    readBody b.live (b.data + hd) hd m b.size =
      if ((hd + m + 1 : ℕ) : Int) ≤ b.size then
        some (1, some ⟨b.data + hd, m⟩, b.size - (hd + m + 1 : ℕ))
      else some (0, none, b.size) := by
  have hsize := h.size
  have hbound := h.fits
  have hdata := h.data
  have htotal := h.total
  have hneed : int32 (int32 ((hd : Int) + m) + 1) = ((hd + m + 1 : ℕ) : Int) := by
    rw [int32_add_natCast (by omega)]
    exact int32_natCast (n := hd + m + 1) (by omega)
  rw [readBody, hneed]
  by_cases hroom : ((hd + m + 1 : ℕ) : Int) ≤ b.size
  · have hat : b.content[hd + m]? = some (b.mem (b.data + ((hd + m : ℕ) : Int))) :=
      getElem?_slice b.mem b.data (by omega)
    have hp : b.live (b.data + hd + m) = some 10 := by
      rw [show b.data + hd + m = b.data + ((hd + m : ℕ) : Int) by push_cast; ring,
        ← hend (by omega), hat]
      exact guarded_eq b.mem (by omega) (by omega)
    rw [if_pos hroom, if_pos hroom, hp, Option.bind_some, if_pos rfl,
      int32_of_range (x := b.size - _) (by omega) (by omega)]
  · rw [if_neg hroom, if_neg hroom]

/-- The bytes of a record at the start decide the call, however few of them are live. -/
theorem Wf.readRecord_encode (h : b.Wf) {s rest : Bytes}
    (hcontent : b.content = encodeRecord s ++ rest) {n : ℕ} (hn : (n : Int) ≤ b.size) :
    { b with size := n : Buffer }.readRecord =
      if (encodeRecord s).length ≤ n then
        some (1, some ⟨b.data + ((digits s.length).length + 1 : ℕ), s.length⟩,
          { b with size := (n - (encodeRecord s).length : ℕ) })
      else some (0, none, { b with size := n }) := by
  have hlength := h.length_content
  have htotal := h.total
  have hdata := h.data
  have hbound := h.fits
  obtain ⟨d, hd⟩ : ∃ d, (digits s.length).length = d := ⟨_, rfl⟩
  have henc : (encodeRecord s).length = d + 1 + s.length + 1 := by
    rw [← hd]
    simp [encodeRecord]
    omega
  rw [hcontent, List.length_append, henc] at hlength
  have hs : s.length < 2 ^ 31 := by omega
  have hshort := length_digits_le (n := s.length) (k := 10) (by decide) (by omega)
  have hwf : { b with size := n : Buffer }.Wf := by
    refine ⟨hdata, ?_, ?_, h.pos, htotal⟩
    · exact Int.natCast_nonneg n
    · change b.data + n ≤ b.total
      omega
  have htake : { b with size := n : Buffer }.content = (encodeRecord s ++ rest).take n := by
    rw [← hcontent, content, content, slice_take b.mem b.data (by omega : n ≤ b.size.toNat)]
    rfl
  have hnot : (10 : UInt8) ∉ digits s.length := fun hmem ↦
    absurd (isDigit_of_mem_digits 10 hmem) (by decide)
  rw [hwf.readRecord_eq, htake, henc, hd]
  by_cases hline : n ≤ d
  · have hnone : splitLine ((encodeRecord s ++ rest).take n) = none := by
      refine splitLine_eq_none fun hmem ↦ hnot ?_
      rw [encodeRecord, List.append_assoc, List.take_append_of_le_length (by omega)] at hmem
      exact List.mem_of_mem_take hmem
    rw [hnone, if_neg (by omega)]
  · have hsome : splitLine ((encodeRecord s ++ rest).take n) =
        some (digits s.length, (s ++ 10 :: rest).take (n - d - 1)) := by
      refine splitLine_eq_some.mpr ⟨?_, hnot⟩
      obtain ⟨k, rfl⟩ : ∃ k, n = d + (k + 1) := ⟨n - d - 1, by omega⟩
      rw [← hd, show (digits s.length).length + (k + 1) - (digits s.length).length - 1 = k by omega]
      have hall : (digits s.length).take ((digits s.length).length + (k + 1)) = digits s.length :=
        List.take_of_length_le (by omega)
      simp [encodeRecord, List.take_append, hall]
    have hend : (d + 1 + s.length : ℕ) < (n : Int) →
        { b with size := n : Buffer }.content[d + 1 + s.length]? = some 10 := by
      intro hlt
      rw [htake, List.getElem?_take_of_lt (by omega), encodeRecord]
      have : d + 1 + s.length = (digits s.length ++ 10 :: s).length := by simp [hd]; omega
      rw [this]
      simp
    have hdigit : ¬ isDigit ((digits s.length).headD 0) = false := by
      obtain ⟨c, ds, hds⟩ := List.exists_cons_of_ne_nil (digits_ne_nil s.length)
      have hc : isDigit c = true := isDigit_of_mem_digits c (by rw [hds]; exact List.mem_cons_self)
      rw [hds, List.headD_cons, hc]
      decide
    have hbody := hwf.readBody_encode (d + 1) s.length (by omega) hend
    rw [hsome]
    simp only [hd, atoi_digits hs]
    rw [if_neg hdigit, if_neg (by omega), if_neg (by omega)]
    rw [hbody]
    by_cases hroom : d + 1 + s.length + 1 ≤ n
    · rw [if_pos hroom, if_pos (Int.ofNat_le.mpr hroom)]
      simp only [Option.map_some]
      congr 4
      omega
    · rw [if_neg hroom, if_neg (mt Int.ofNat_le.mp hroom)]
      rfl

theorem Wf.deref_encode (h : b.Wf) {s rest : Bytes}
    (hcontent : b.content = encodeRecord s ++ rest) :
    BytesRef.deref b.mem ⟨b.data + ((digits s.length).length + 1 : ℕ), s.length⟩ = s := by
  have hlen := h.length_content
  rw [hcontent] at hlen
  simp [encodeRecord] at hlen
  have hbody : (b.content.drop ((digits s.length).length + 1)).take s.length = s := by
    have hskip : (digits s.length).drop ((digits s.length).length + 1) = [] :=
      List.drop_of_length_le (by omega)
    rw [hcontent]
    simp [encodeRecord, List.drop_append, hskip]
  rwa [content, slice_drop b.mem b.data (by omega), slice_take _ _ (by omega)] at hbody

/-- No record behind the first one is ever read back. -/
theorem Wf.readsBack_encode (h : b.Wf) {s rest : Bytes}
    (hcontent : b.content = encodeRecord s ++ rest) (ss : List Bytes) {n : ℕ}
    (hn : (n : Int) ≤ b.size) :
    ReadsBack ss { b with size := n } ↔
      (∀ t ∈ ss, s = t) ∧ n = ss.length * (encodeRecord s).length := by
  have hpos : 0 < (encodeRecord s).length := by simp [encodeRecord]
  induction ss generalizing n with
  | nil =>
      rw [ReadsBack, h.readRecord_encode hcontent hn, List.length_nil, Nat.zero_mul]
      by_cases hroom : (encodeRecord s).length ≤ n
      · rw [if_pos hroom]
        refine iff_of_false ?_ (by omega)
        rintro ⟨b', hread, -⟩
        cases hread
      · rw [if_neg hroom]
        constructor
        · rintro ⟨b', hread, hempty⟩
          obtain rfl := (Prod.mk.inj (Prod.mk.inj (Option.some.inj hread)).2).2
          exact ⟨fun t ht ↦ absurd ht List.not_mem_nil, Int.ofNat_eq_zero.mp hempty⟩
        · rintro ⟨-, rfl⟩
          exact ⟨_, rfl, rfl⟩
  | cons t ss ih =>
      rw [ReadsBack, h.readRecord_encode hcontent hn, List.length_cons, Nat.succ_mul]
      by_cases hroom : (encodeRecord s).length ≤ n
      · rw [if_pos hroom]
        have hderef := h.deref_encode hcontent
        have htail := ih (n := n - (encodeRecord s).length) (by omega)
        constructor
        · rintro ⟨ref, b', hread, hbody, hback⟩
          obtain ⟨href, rfl⟩ := Prod.mk.inj (Prod.mk.inj (Option.some.inj hread)).2
          obtain rfl := Option.some.inj href
          obtain ⟨hall, hsize⟩ := htail.mp hback
          exact ⟨List.forall_mem_cons.mpr ⟨hderef.symm.trans hbody, hall⟩, by omega⟩
        · rintro ⟨hall, hsize⟩
          obtain ⟨heq, hrest⟩ := List.forall_mem_cons.mp hall
          exact ⟨_, _, rfl, hderef.trans heq, htail.mpr ⟨hrest, by omega⟩⟩
      · rw [if_neg hroom]
        refine iff_of_false ?_ (by omega)
        rintro ⟨ref, b', hread, -⟩
        cases hread

/-- Appended records are read back just when they are all equal, and a call stays in
bounds just when the lengths of the header at the start fit. -/
theorem records_read_back_iff {alloc : Int → Bool} {ss : List Bytes} {b₁ b₂ : Buffer} (h : b.Wf)
    (hempty : b.size = 0) (hint : ∀ s ∈ ss, s.length < 2 ^ 31)
    (happend : b.appendRecords alloc ss = some b₁) (h₂ : b₂.Wf) :
    (ReadsBack ss b₁ ∧ b₂.readRecord.isSome = true) ↔
      (∀ s ∈ ss, ∀ t ∈ ss, s = t) ∧ LengthsFit b₂.content := by
  have hnone : b.content = [] := by rw [content, hempty]; rfl
  obtain ⟨h₁, hcontent⟩ := h.appendRecords alloc hint happend
  rw [hnone, List.nil_append] at hcontent
  refine and_congr ?_ h₂.readRecord_isSome
  have hlen := h₁.length_content
  rw [hcontent] at hlen
  cases ss with
  | nil =>
      have hzero : b₁.size = 0 := hlen.symm
      refine iff_of_true ⟨b₁, ?_, hzero⟩ fun s hs ↦ absurd hs List.not_mem_nil
      rw [h₁.readRecord_eq, hcontent]
      rfl
  | cons s ss =>
      have hall : (∀ t ∈ s :: ss, s = t) ↔ ∀ t ∈ s :: ss, ∀ u ∈ s :: ss, t = u :=
        ⟨fun heq t ht u hu ↦ (heq t ht).symm.trans (heq u hu),
          fun heq ↦ heq s List.mem_cons_self⟩
      have hback := h₁.readsBack_encode (by rw [hcontent, List.flatMap_cons]) (s :: ss) hlen.le
      rw [hlen] at hback
      rw [hback, ← hall, and_iff_left_iff_imp]
      intro heq
      have hreplicate : s :: ss = List.replicate (ss.length + 1) s :=
        List.eq_replicate_iff.mpr ⟨rfl, fun t ht ↦ (heq t ht).symm⟩
      rw [hreplicate]
      simp [List.flatMap_replicate]

theorem records_read_back_iff_twice :
    ∃ b₁, (new 8192).appendRecords (fun _ ↦ true) [[97], [97]] = some b₁ ∧
      (ReadsBack [[97], [97]] b₁ ∧ b₁.readRecord.isSome = true ↔
        (∀ s ∈ [[(97 : UInt8)], [97]], ∀ t ∈ [[(97 : UInt8)], [97]], s = t) ∧
          LengthsFit b₁.content) := by
  have hwf : (new 8192).Wf := wf_new (by decide) (by decide)
  obtain ⟨b₁, hb₁⟩ := Option.isSome_iff_exists.mp
    (by decide +kernel : ((new 8192).appendRecords (fun _ ↦ true) [[97], [97]]).isSome = true)
  have hint : ∀ s ∈ [[(97 : UInt8)], [97]], s.length < 2 ^ 31 := by decide
  exact ⟨b₁, hb₁, records_read_back_iff hwf rfl hint hb₁ (hwf.appendRecords _ hint hb₁).1⟩

/-- Of the records "a" and "b" the first one is read twice, and behind a header of
2147483647 the byte at the end of the body is looked at. -/
theorem not_records_read_back :
    (¬ ∀ (alloc : Int → Bool) (ss : List Bytes) (b b₁ : Buffer), b.Wf → b.size = 0 →
      (∀ s ∈ ss, s.length < 2 ^ 31) → b.appendRecords alloc ss = some b₁ → ReadsBack ss b₁) ∧
    ¬ ∀ b : Buffer, b.Wf → b.readRecord.isSome = true := by
  have hwf : (new 8192).Wf := wf_new (by decide) (by decide)
  constructor
  · intro hall
    obtain ⟨b₁, hb₁⟩ := Option.isSome_iff_exists.mp
      (by decide +kernel : ((new 8192).appendRecords (fun _ ↦ true) [[97], [98]]).isSome = true)
    have hback := hall (fun _ ↦ true) [[97], [98]] (new 8192) b₁ hwf rfl (by decide) hb₁
    obtain ⟨h₁, hcontent⟩ := hwf.appendRecords _ (by decide) hb₁
    have hlen := h₁.length_content
    have hiff := h₁.readsBack_encode (s := [97]) (n := 8)
      (show b₁.content = encodeRecord [97] ++ encodeRecord [98] by rw [hcontent]; decide)
      [[97], [98]] (by rw [← hlen, hcontent]; decide)
    have hsize : ((8 : ℕ) : Int) = b₁.size := by rw [← hlen, hcontent]; decide
    rw [hsize] at hiff
    exact absurd (hiff.mp hback) (by decide)
  · intro hall
    have hheader := hwf.put
      (show ((digits 2147483647 ++ [10]).length : Int) ≤ _ by decide +kernel)
    have hread := hall _ hheader.1
    exact absurd hread (by decide +kernel)

end Buffer

end GeminiDB
