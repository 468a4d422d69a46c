import GeminiDB.Net.Recv

/-!
# What `recv` looks at

The parser of `recv` again, on a memory of which only a part can be read: it
gives `none` when it reads an address outside of that part or copies a header
that `head_str` has no room for. On the bytes of the input buffer alone it gives
what `parse` gives, and what it points to lies within them.
-/

namespace GeminiDB

open Memory Decimal Scanner

namespace Link

variable {mem : Int → UInt8} {lo hi : Int}

def skipLinesIn (mem : Int → Option UInt8) : Int → ℕ → Option (Int × ℕ)
  | head, 0 => some (head, 0)
  | head, size + 1 => (mem head).bind fun b ↦
      if b = 10 ∨ b = 13 then skipLinesIn mem (head + 1) size else some (head, size + 1)

def separatorAtIn (mem : Int → Option UInt8) (head size : Int) : Option (Option (Option Int)) :=
  if size ≥ 1 then (mem head).bind fun b ↦
    if b = 10 then some (some (some 1))
    else if size ≥ 2 then
      if b = 13 then (mem (head + 1)).bind fun c ↦
        if c = 10 then some (some (some 2)) else some (some none)
      else some (some none)
    else some none
  else some none

/-- `memcpy` to `head_str[20]` and the zero behind it. -/
def headStrIn (mem : Int → Option UInt8) (head len : Int) : Option Bytes :=
  if 0 ≤ len ∧ len < 20 then sliceIn mem head len.toNat else none

def parseRecordIn (mem : Int → Option UInt8) (head size : Int) : Option RecordParse :=
  (findIn mem 10 head size.toNat).bind fun
    | none => some (.notReady none)
    | some newline =>
        let body := newline + 1
        let headLen := int32 (body - head)
        if headLen = 1 then some (.packetEnd headLen)
        else (mem head).bind fun b ↦
          if headLen = 2 ∧ b = 13 then some (.packetEnd headLen)
          else if b < 48 ∨ b > 57 then some (.badFormat none)
          else if headLen > 20 - 1 then some (.badFormat none)
          else (headStrIn mem head (headLen - 1)).bind fun headStr ↦
            let bodyLen := atoi headStr
            if bodyLen < 0 then some (.badFormat none)
            else
              let len := int32 (headLen + bodyLen)
              let size := int32 (size - len)
              if size < 0 then some (.notReady none)
              else (separatorAtIn mem (head + len) size).map fun
                | none => .notReady (some ⟨body, bodyLen⟩)
                | some none => .badFormat (some ⟨body, bodyLen⟩)
                | some (some n) => .record ⟨body, bodyLen⟩ len n

def parseRecordsIn (mem : Int → Option UInt8) :
    ℕ → (head size parsed : Int) → (recvData : List BytesRef) → Option Parse
  | 0, _, _, _, recvData => some (.notReady recvData)
  | k + 1, head, size, parsed, recvData =>
      if size > 0 then
        (parseRecordIn mem head size).bind fun
          | .packetEnd headLen => some (.packetEnd recvData (int32 (parsed + headLen)))
          | .badFormat body => some (.badFormat (recvData ++ body.toList))
          | .notReady body => some (.notReady (recvData ++ body.toList))
          | .record body len n =>
              let recvData := recvData ++ [body]
              let parsed := int32 (int32 (parsed + len) + n)
              if parsed > maxPacketSize then some (.badFormat recvData)
              else parseRecordsIn mem k (head + len + n) (int32 (int32 (size - len) - n)) parsed
                recvData
      else some (.notReady recvData)

/-- Both loops of `recv`, on the `size` bytes from `data` on. -/
def parseIn (mem : Int → Option UInt8) (data size : Int) : Option Parse :=
  (skipLinesIn mem data size.toNat).bind fun start ↦
    parseRecordsIn mem start.2 start.1 start.2 (start.1 - data) []

/-- The references lie in `[lo, hi)`, one behind the other. -/
structure InOrder (lo hi : Int) (refs : List BytesRef) : Prop where
  within : ∀ r ∈ refs, lo ≤ r.data ∧ 0 ≤ r.size ∧ r.data + r.size ≤ hi
  apart : refs.Pairwise fun r s ↦ r.data + r.size < s.data

def Parse.refs : Parse → List BytesRef
  | packetEnd recvData _ => recvData
  | badFormat recvData => recvData
  | notReady recvData => recvData

/-- What a parse of `size` bytes from `data` on may push and pass to `decr`. -/
structure Parse.Within (data size : Int) (p : Parse) : Prop where
  refs : InOrder data (data + size) p.refs
  parsed : ∀ {recvData n}, p = .packetEnd recvData n → 0 ≤ n ∧ n ≤ size

/-- What one round may push and skip. -/
def RecordParse.Within (head size : Int) : RecordParse → Prop
  | packetEnd n => 0 < n ∧ n ≤ size
  | record body len n => head < body.data ∧ 0 ≤ body.size ∧ body.data + body.size = head + len ∧
      0 ≤ len ∧ 0 < n ∧ len + n ≤ size
  | badFormat body => ∀ r ∈ body, head < r.data ∧ 0 ≤ r.size ∧ r.data + r.size ≤ head + size
  | notReady body => ∀ r ∈ body, head < r.data ∧ 0 ≤ r.size ∧ r.data + r.size ≤ head + size

theorem InOrder.push {head : Int} {refs : List BytesRef} {r : BytesRef} (h : InOrder lo head refs)
    (hlo : lo ≤ head) (hdata : head < r.data) (hsize : 0 ≤ r.size) (hend : r.data + r.size ≤ hi) :
    InOrder lo hi (refs ++ [r]) := by
  refine ⟨fun s hs ↦ ?_, ?_⟩
  · rcases List.mem_append.mp hs with hs | hs
    · have := h.within s hs
      omega
    · obtain rfl := List.mem_singleton.mp hs
      omega
  · rw [List.pairwise_append]
    refine ⟨h.apart, List.pairwise_singleton _ _, fun s hs t ht ↦ ?_⟩
    obtain rfl := List.mem_singleton.mp ht
    have := h.within s hs
    omega

theorem InOrder.mono {hi' : Int} {refs : List BytesRef} (h : InOrder lo hi refs) (hle : hi ≤ hi') :
    InOrder lo hi' refs :=
  ⟨fun r hr ↦ have := h.within r hr; ⟨this.1, this.2.1, this.2.2.trans hle⟩, h.apart⟩

theorem skipLinesIn_guarded {head : Int} {n : ℕ} (hlo : lo ≤ head) (hhi : head + n ≤ hi) :
    skipLinesIn (guarded mem lo hi) head n = some (skipLines mem head n) := by
  induction n generalizing head with
  | zero => rfl
  | succ n ih =>
      push_cast at hhi
      rw [skipLinesIn, guarded_eq mem hlo (by omega), Option.bind_some,
        ih (by omega) (by omega), skipLines]
      split <;> rfl

theorem separatorAtIn_guarded {head : Int} {n : ℕ} (hlo : lo ≤ head) (hhi : head + n ≤ hi) :
    separatorAtIn (guarded mem lo hi) head n = some (separatorAt mem head n) ∧
      ∀ m, separatorAt mem head n = some (some m) → 0 < m ∧ m ≤ n := by
  rw [separatorAtIn, separatorAt]
  rcases n with _ | _ | n
  · simp
  · rw [guarded_eq mem hlo (by omega)]
    by_cases hline : mem head = 10 <;> simp [hline]
  · have htwo : ((n + 1 + 1 : ℕ) : Int) ≥ 2 := by omega
    have hone : ((n + 1 + 1 : ℕ) : Int) ≥ 1 := by omega
    rw [guarded_eq mem hlo (by omega), guarded_eq mem (a := head + 1) (by omega) (by omega)]
    simp only [htwo, hone, true_and, if_true, Option.bind_some]
    by_cases hline : mem head = 10
    · simp [hline]
      omega
    · by_cases hsep : mem head = 13 ∧ mem (head + 1) = 10
      · simp [hsep.1, hsep.2]
        omega
      · by_cases hcr : mem head = 13
        · have hnext : ¬ mem (head + 1) = 10 := fun heq ↦ hsep ⟨hcr, heq⟩
          simp [hcr, hnext]
        · simp [hline, hcr]

theorem parseBody_guarded {size j m : ℕ} {head : Int} (hlo : lo ≤ head) (hhi : head + size ≤ hi)
    (hj : j < size) (hsize : size < 2 ^ 31) (hm : (m : Int) < 2147483648) :
    (if int32 (size - int32 ((j + 1 : ℕ) + m)) < 0 then some (.notReady none)
      else (separatorAtIn (guarded mem lo hi) (head + int32 ((j + 1 : ℕ) + m))
          (int32 (size - int32 ((j + 1 : ℕ) + m)))).map fun
        | none => RecordParse.notReady (some ⟨head + j + 1, m⟩)
        | some none => .badFormat (some ⟨head + j + 1, m⟩)
        | some (some n) => .record ⟨head + j + 1, m⟩ (int32 ((j + 1 : ℕ) + m)) n) =
      some (if int32 (size - int32 ((j + 1 : ℕ) + m)) < 0 then .notReady none
        else match separatorAt mem (head + int32 ((j + 1 : ℕ) + m))
            (int32 (size - int32 ((j + 1 : ℕ) + m))) with
          | none => .notReady (some ⟨head + j + 1, m⟩)
          | some none => .badFormat (some ⟨head + j + 1, m⟩)
          | some (some n) => .record ⟨head + j + 1, m⟩ (int32 ((j + 1 : ℕ) + m)) n) ∧
    RecordParse.Within head size
      (if int32 (size - int32 ((j + 1 : ℕ) + m)) < 0 then .notReady none
        else match separatorAt mem (head + int32 ((j + 1 : ℕ) + m))
            (int32 (size - int32 ((j + 1 : ℕ) + m))) with
          | none => .notReady (some ⟨head + j + 1, m⟩)
          | some none => .badFormat (some ⟨head + j + 1, m⟩)
          | some (some n) => .record ⟨head + j + 1, m⟩ (int32 ((j + 1 : ℕ) + m)) n) := by
  -- the sum may wrap around, the difference does not
  have hleft : int32 (size - int32 ((j + 1 : ℕ) + m)) = size - ((j + 1 : ℕ) + m) := by
    unfold int32
    omega
  rw [hleft]
  clear hleft
  by_cases hmore : size - (j + 1) < m
  · rw [if_pos (by omega), if_pos (by omega)]
    exact ⟨rfl, by simp [RecordParse.Within]⟩
  · have hrest : (size : Int) - ((j + 1 : ℕ) + m) = (size - (j + 1) - m : ℕ) := by omega
    rw [if_neg (by omega), if_neg (by omega), int32_add_natCast (by omega), hrest]
    obtain ⟨hguard, hsep⟩ := @separatorAtIn_guarded mem lo hi (head + ((j + 1 + m : ℕ) : Int))
      (size - (j + 1) - m) (by omega) (by omega)
    rw [hguard, Option.map_some]
    refine ⟨rfl, ?_⟩
    cases hat : separatorAt mem (head + ((j + 1 + m : ℕ) : Int)) (size - (j + 1) - m : ℕ) with
    | none =>
        simp only [RecordParse.Within, Option.mem_some_iff, forall_eq']
        omega
    | some sep =>
        cases sep with
        | none =>
            simp only [RecordParse.Within, Option.mem_some_iff, forall_eq']
            omega
        | some n =>
            have hn := hsep n hat
            simp only [RecordParse.Within]
            omega

theorem parseRecordIn_guarded {size : ℕ} {head : Int} (hlo : lo ≤ head) (hhi : head + size ≤ hi)
    (hpos : 0 < size) (hrange : size < 2 ^ 31) :
    parseRecordIn (guarded mem lo hi) head size = some (parseRecord mem head size) ∧
      (parseRecord mem head size).Within head size := by
  rw [parseRecordIn, parseRecord, Int.toNat_natCast, findIn_guarded mem 10 hlo hhi,
    Option.bind_some]
  cases hfind : find mem 10 head size with
  | none => exact ⟨rfl, by simp [RecordParse.Within]⟩
  | some newline =>
      obtain ⟨j, hj, rfl, hend, hnot⟩ := find_eq_some hfind
      have hhead : int32 (head + j + 1 - head) = ((j + 1 : ℕ) : Int) := by
        rw [← int32_natCast (show j + 1 < 2 ^ 31 by omega)]
        congr 1
        push_cast
        ring
      obtain ⟨hlow, hhigh⟩ := atoi_range (slice mem head j)
      simp only [hhead, guarded_eq mem hlo (show head < hi by omega), Option.bind_some]
      rw [show ((j + 1 : ℕ) : Int) - 1 = j by push_cast; ring, Int.toNat_natCast]
      clear hhead
      by_cases hone : ((j + 1 : ℕ) : Int) = 1
      · rw [if_pos hone, if_pos (.inl hone)]
        exact ⟨rfl, by simp only [RecordParse.Within]; omega⟩
      · rw [if_neg hone]
        by_cases htwo : ((j + 1 : ℕ) : Int) = 2 ∧ mem head = 13
        · rw [if_pos htwo, if_pos (.inr htwo)]
          exact ⟨rfl, by simp only [RecordParse.Within]; omega⟩
        · rw [if_neg htwo, if_neg (not_or.mpr ⟨hone, htwo⟩)]
          by_cases hchar : mem head < 48 ∨ mem head > 57
          · rw [if_pos hchar, if_pos hchar]
            exact ⟨rfl, by simp [RecordParse.Within]⟩
          · rw [if_neg hchar, if_neg hchar]
            by_cases hlong : ((j + 1 : ℕ) : Int) > 20 - 1
            · rw [if_pos hlong, if_pos hlong]
              exact ⟨rfl, by simp [RecordParse.Within]⟩
            · rw [if_neg hlong, if_neg hlong, headStrIn, if_pos (by omega), Int.toNat_natCast,
                sliceIn_guarded mem hlo (by omega), Option.bind_some]
              generalize atoi (slice mem head j) = bodyLen at hlow hhigh ⊢
              by_cases hneg : bodyLen < 0
              · rw [if_pos hneg, if_pos hneg]
                exact ⟨rfl, by simp [RecordParse.Within]⟩
              · rw [if_neg hneg, if_neg hneg]
                obtain ⟨m, rfl⟩ := Int.eq_ofNat_of_zero_le (not_lt.mp hneg)
                exact parseBody_guarded hlo hhi hj hrange hhigh

theorem parseRecordsIn_guarded {k size parsed : ℕ} {head data : Int} {recvData : List BytesRef}
    (hlo : lo ≤ head) (hhi : head + size ≤ hi) (hrange : parsed + size < 2 ^ 31)
    (hparsed : head = data + parsed) (hrefs : InOrder data head recvData) :
    parseRecordsIn (guarded mem lo hi) k head size parsed recvData =
        some (parseRecords mem k head size parsed recvData) ∧
      (parseRecords mem k head size parsed recvData).Within data (parsed + size) := by
  induction k generalizing head size parsed recvData with
  | zero => exact ⟨rfl, hrefs.mono (by omega), fun heq ↦ by cases heq⟩
  | succ k ih =>
      rw [parseRecordsIn, parseRecords]
      generalize maxPacketSize = limit
      by_cases hsize : (size : Int) > 0
      · rw [if_pos hsize, if_pos hsize]
        obtain ⟨hguard, hwithin⟩ := @parseRecordIn_guarded mem lo hi size head hlo hhi (by omega)
          (by omega)
        rw [hguard, Option.bind_some]
        generalize parseRecord mem head size = p at hwithin ⊢
        have hbody {body : Option BytesRef} (hat : ∀ r ∈ body,
            head < r.data ∧ 0 ≤ r.size ∧ r.data + r.size ≤ head + size) :
            InOrder data (data + (parsed + size)) (recvData ++ body.toList) := by
          cases body with
          | none => simpa using hrefs.mono (show head ≤ data + (parsed + size) by omega)
          | some r =>
              obtain ⟨hdata, hnonneg, hend⟩ := hat r rfl
              exact hrefs.push (by omega) hdata hnonneg (by omega)
        cases p with
        | packetEnd n =>
            refine ⟨rfl, hrefs.mono (by omega), fun heq ↦ ?_⟩
            simp only [RecordParse.Within] at hwithin
            simp only [Parse.packetEnd.injEq] at heq
            rw [← heq.2, int32_of_range (by omega) (by omega)]
            omega
        | badFormat body => exact ⟨rfl, hbody hwithin, fun heq ↦ by cases heq⟩
        | notReady body => exact ⟨rfl, hbody hwithin, fun heq ↦ by cases heq⟩
        | record ref len n =>
            obtain ⟨hdata, hnonneg, hend, hlen, hn, hfits⟩ := hwithin
            obtain ⟨len, rfl⟩ := Int.eq_ofNat_of_zero_le hlen
            obtain ⟨n, rfl⟩ := Int.eq_ofNat_of_zero_le hn.le
            have hpushed := hrefs.push (by omega) hdata hnonneg
              (show ref.data + ref.size ≤ head + ((len + n : ℕ) : Int) by push_cast; omega)
            simp only
            rw [int32_add_natCast (m := parsed) (by omega), int32_add_natCast (by omega),
              int32_sub_natCast (m := size) (by omega) (by omega),
              int32_sub_natCast (by omega) (by omega), Int.add_assoc]
            by_cases hmax : ((parsed + len + n : ℕ) : Int) > limit
            · rw [if_pos hmax, if_pos hmax]
              exact ⟨rfl, hpushed.mono (by omega), fun heq ↦ by cases heq⟩
            · rw [if_neg hmax, if_neg hmax]
              have hnext := @ih (size - len - n) (parsed + len + n) (head + (len + n)) _
                (by omega) (by omega) (by omega) (by push_cast; omega) (by simpa using hpushed)
              have hsum : ((parsed + len + n : ℕ) : Int) + ((size - len - n : ℕ) : Int) =
                  parsed + size := by omega
              rwa [hsum] at hnext
      · rw [if_neg hsize, if_neg hsize]
        exact ⟨rfl, hrefs.mono (by omega), fun heq ↦ by cases heq⟩

theorem parseIn_guarded {input : Buffer} (h : input.Wf) :
    parseIn (guarded input.mem input.data (input.data + input.size)) input.data input.size =
        some (parse input) ∧
      (parse input).Within input.data input.size := by
  obtain ⟨hdata, hsize, hfits, hpos, htotal⟩ := h
  obtain ⟨size, hsize⟩ := Int.eq_ofNat_of_zero_le hsize
  obtain ⟨-, hparsed, hle⟩ := skipLines_eq input.mem input.data size
  rw [parseIn, parse, hsize, Int.toNat_natCast,
    skipLinesIn_guarded le_rfl le_rfl, Option.bind_some, hparsed]
  have hsum : ((size - (skipLines input.mem input.data size).2 : ℕ) : Int) +
      ((skipLines input.mem input.data size).2 : ℕ) = size := by omega
  rw [← hsum]
  exact parseRecordsIn_guarded (by omega) (by omega) (by omega) (by omega)
    ⟨by simp, List.Pairwise.nil⟩

/-- The parser reads nothing outside of the input, copies no header that is too
long, points into the input in stream order, also where `recv` clears what it has
pushed, and drops no more than there is. -/
theorem recv_in_bounds {link : Link} (h : link.input.Wf) (alloc : Int → Bool) :
    parseIn (guarded link.input.mem link.input.data (link.input.data + link.input.size))
        link.input.data link.input.size = some (parse link.input) ∧
      (parse link.input).Within link.input.data link.input.size ∧
      InOrder link.input.data (link.input.data + link.input.size)
        (link.recv alloc).2.recvData ∧
      ∀ refs, (link.recv alloc).1 = .vector refs → refs ≠ [] →
        refs = (link.recv alloc).2.recvData ∧ ∃ n, 0 ≤ n ∧ n ≤ link.input.size ∧
          (link.recv alloc).2.input = link.input.decr n := by
  obtain ⟨hguard, hwithin⟩ := parseIn_guarded h
  have hnil : InOrder link.input.data (link.input.data + link.input.size) [] :=
    ⟨by simp, List.Pairwise.nil⟩
  refine ⟨hguard, hwithin, ?_⟩
  obtain ⟨hrefs, hparsed⟩ := hwithin
  rw [recv]
  split
  · exact ⟨hnil, fun refs heq hne ↦ absurd (by simpa using heq.symm) hne⟩
  · cases hparse : parse link.input with
    | packetEnd recvData n =>
        rw [hparse] at hrefs
        refine ⟨hrefs, fun refs heq _ ↦ ?_⟩
        cases heq
        exact ⟨rfl, n, (hparsed hparse).1, (hparsed hparse).2, rfl⟩
    | badFormat recvData =>
        rw [hparse] at hrefs
        exact ⟨hrefs, fun refs heq ↦ by cases heq⟩
    | notReady recvData =>
        rw [hparse] at hrefs
        simp only
        split
        · exact ⟨hnil, fun refs heq hne ↦ absurd (by simpa using heq.symm) hne⟩
        · exact ⟨hrefs, fun refs heq ↦ by cases heq⟩

/-- A record behind which a length of `INT_MAX` is announced. -/
theorem recv_in_bounds_huge :
    let input := ((Buffer.new 8).append (fun _ ↦ true) (ascii "1\na\n2147483647\nb")).2
    parseIn (guarded input.mem input.data (input.data + input.size)) input.data input.size =
      some (parse input) := by
  intro input
  have hwf : input.Wf := ((Buffer.wf_new (by decide) (by decide)).append _ (by decide +kernel)).1
  exact (@recv_in_bounds { Link.new 3 with input := input } hwf fun _ ↦ true).1

end Link

end GeminiDB
