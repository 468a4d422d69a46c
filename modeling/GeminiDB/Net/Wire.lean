import GeminiDB.Lib.Scanner
import GeminiDB.Util.Strings

/-!
# The wire format

A packet is a sequence of records and an empty line; a record is a line with
the length of its body, the body, and a line end. `scanPacket` is the format as
`Link::recv` accepts it, on the bytes received so far. It undoes the encoding,
and further bytes never change a packet or a failure it has found.
-/

namespace GeminiDB

open Decimal Scanner

def encodeRecord (s : Bytes) : Bytes := digits s.length ++ 10 :: (s ++ [10])

def encodePacket (packet : List Bytes) : Bytes := packet.flatMap encodeRecord ++ [10]

/-- `Link::MAX_PACKET_SIZE`. -/
def maxPacketSize : ℕ := 128 * 1024 * 1024

def isBlank (b : UInt8) : Bool := b == 10 || b == 13

/-- The first line without its end, and what follows it. -/
def splitLine : Bytes → Option (Bytes × Bytes)
  | [] => none
  | b :: rest => if b = 10 then some ([], rest) else (splitLine rest).map (Prod.map (b :: ·) id)

/-- What the bytes after a body say: how many of them separate it from the next
record, `none` for a wrong separator, or that more bytes are needed. -/
def separator : Bytes → Option (Option ℕ)
  | [] => none
  | [b] => if b = 10 then some (some 1) else none
  | b :: c :: _ =>
      if b = 10 then some (some 1) else if b = 13 ∧ c = 10 then some (some 2) else some none

inductive RecordScan where
  | packetEnd (consumed : ℕ)
  | record (body : Bytes) (consumed : ℕ)
  | fail
  | more
  deriving DecidableEq

/-- The end of a packet, or one record with its separator. -/
def scanRecord (s : Bytes) : RecordScan :=
  match splitLine s with
  | none => .more
  | some (line, after) =>
      let size := (atoi line).toNat
      if line = [] ∨ line = [13] then .packetEnd (line.length + 1)
      else if isDigit (line.headD 0) = false ∨ 19 < line.length + 1 ∨ atoi line < 0 then .fail
      else if after.length < size then .more
      else match separator (after.drop size) with
        | none => .more
        | some none => .fail
        | some (some n) => .record (after.take size) (line.length + 1 + size + n)

/-- The rest of a packet, after `parsed` bytes and the records `acc`. -/
def scanRecords : ℕ → ℕ → List Bytes → Bytes → Outcome (List Bytes)
  | 0, _, _, _ => .more
  | k + 1, parsed, acc, s =>
      match scanRecord s with
      | .packetEnd n => .item acc (parsed + n)
      | .record body n =>
          if maxPacketSize < parsed + n then .fail
          else scanRecords k (parsed + n) (acc ++ [body]) (s.drop n)
      | .fail => .fail
      | .more => .more

def scanPacket (s : Bytes) : Outcome (List Bytes) :=
  let body := s.dropWhile isBlank
  scanRecords body.length (s.length - body.length) [] body

/-! ## Further bytes -/

theorem splitLine_eq_some {s line after : Bytes} :
    splitLine s = some (line, after) ↔ s = line ++ 10 :: after ∧ 10 ∉ line := by
  induction s generalizing line with
  | nil => simp [splitLine]
  | cons b s ih =>
      rw [splitLine]
      by_cases hb : b = 10
      · cases line with
        | nil => simp [hb]
        | cons c line =>
            simp only [hb, if_true]
            constructor
            · intro h
              cases h
            · rintro ⟨heq, hnot⟩
              simp only [List.cons_append, List.cons.injEq] at heq
              simp [← heq.1] at hnot
      · rw [if_neg hb, Option.map_eq_some_iff]
        constructor
        · rintro ⟨⟨line', after'⟩, hrest, heq⟩
          cases heq
          obtain ⟨rfl, hnot⟩ := ih.mp hrest
          exact ⟨rfl, by simpa [Ne.symm hb] using hnot⟩
        · rintro ⟨heq, hnot⟩
          cases line with
          | nil => exact absurd (List.cons.inj heq).1 hb
          | cons c line =>
              obtain ⟨rfl, hs⟩ := List.cons.inj heq
              exact ⟨(line, after), ih.mpr ⟨hs, fun hmem ↦ hnot (List.mem_cons_of_mem b hmem)⟩, rfl⟩

theorem separator_append {s : Bytes} {r : Option ℕ} (h : separator s = some r) (t : Bytes) :
    separator (s ++ t) = some r := by
  rcases s with _ | ⟨b, _ | ⟨c, s⟩⟩
  · cases h
  · by_cases hb : b = 10
    · subst hb
      cases t <;> simpa [separator] using h
    · simp [separator, hb] at h
  · exact h

theorem separator_le {s : Bytes} {n : ℕ} (h : separator s = some (some n)) :
    0 < n ∧ n ≤ s.length := by
  rcases s with _ | ⟨b, _ | ⟨c, s⟩⟩
  · cases h
  · by_cases hb : b = 10
    · simp [separator, hb] at h
      simp [← h]
    · simp [separator, hb] at h
  · simp only [separator] at h
    split at h
    · simp at h
      simp [← h]
    · split at h
      · simp at h
        simp [← h]
      · simp at h

theorem scanRecord_append {s : Bytes} (h : scanRecord s ≠ .more) (t : Bytes) :
    scanRecord (s ++ t) = scanRecord s := by
  cases hline : splitLine s with
  | none => simp [scanRecord, hline] at h
  | some p =>
      obtain ⟨line, after⟩ := p
      obtain ⟨hs, hnot⟩ := splitLine_eq_some.mp hline
      have hline' : splitLine (s ++ t) = some (line, after ++ t) :=
        splitLine_eq_some.mpr ⟨by simp [hs], hnot⟩
      simp only [scanRecord, hline, hline'] at h ⊢
      split
      · rfl
      · split
        · rfl
        · next hend hbad =>
          simp only [hend, hbad, if_false] at h
          have hshort : ¬ after.length < (atoi line).toNat := fun hlt ↦ h (if_pos hlt)
          have hlong : ¬ (after ++ t).length < (atoi line).toNat := by
            rw [List.length_append]
            omega
          rw [if_neg hshort] at h
          rw [if_neg hshort, if_neg hlong, List.drop_append_of_le_length (by omega),
            List.take_append_of_le_length (by omega)]
          cases hsep : separator (after.drop (atoi line).toNat) with
          | none => simp [hsep] at h
          | some r => rw [separator_append hsep]

/-- How many bytes a scan of one record takes. -/
def RecordScan.consumed : RecordScan → ℕ
  | packetEnd n => n
  | record _ n => n
  | _ => 0

theorem scanRecord_consumed (s : Bytes) :
    (scanRecord s).consumed ≤ s.length ∧
      ((∃ n, scanRecord s = .packetEnd n) ∨ (∃ body n, scanRecord s = .record body n) →
        0 < (scanRecord s).consumed) := by
  cases hline : splitLine s with
  | none => simp [scanRecord, hline, RecordScan.consumed]
  | some p =>
      obtain ⟨line, after⟩ := p
      have hlen := congrArg List.length (splitLine_eq_some.mp hline).1
      simp only [List.length_append, List.length_cons] at hlen
      simp only [scanRecord, hline]
      split
      · simp only [RecordScan.consumed]
        omega
      · split
        · simp [RecordScan.consumed]
        · split
          · simp [RecordScan.consumed]
          · next hlong =>
            cases hsep : separator (after.drop (atoi line).toNat) with
            | none => simp [RecordScan.consumed]
            | some r =>
                cases r with
                | none => simp [RecordScan.consumed]
                | some n =>
                    have hn := separator_le hsep
                    rw [List.length_drop] at hn
                    simp only [RecordScan.consumed]
                    omega

theorem scanRecords_append {j k parsed : ℕ} (hjk : j ≤ k) (acc : List Bytes) {s : Bytes}
    (h : scanRecords j parsed acc s ≠ .more) (t : Bytes) :
    scanRecords k parsed acc (s ++ t) = scanRecords j parsed acc s := by
  induction j generalizing k parsed acc s with
  | zero => exact absurd rfl h
  | succ j ih =>
      obtain ⟨k, rfl⟩ : ∃ m, k = m + 1 := ⟨k - 1, by omega⟩
      have hlen := scanRecord_consumed s
      simp only [scanRecords] at h ⊢
      cases hscan : scanRecord s with
      | more => simp [hscan] at h
      | fail => rw [scanRecord_append (by simp [hscan]), hscan]
      | packetEnd n => rw [scanRecord_append (by simp [hscan]), hscan]
      | record body n =>
          rw [hscan] at hlen h
          rw [scanRecord_append (by simp [hscan]), hscan]
          simp only at h ⊢
          split
          · rfl
          · next hsize =>
            rw [if_neg hsize] at h
            have hle : n ≤ s.length := hlen.1
            rw [List.drop_append_of_le_length hle]
            exact ih (by omega) _ h

theorem scanRecords_consumed {k parsed n : ℕ} {acc packet : List Bytes} {s : Bytes}
    (h : scanRecords k parsed acc s = .item packet n) :
    parsed < n ∧ n ≤ parsed + s.length := by
  induction k generalizing parsed acc s with
  | zero => cases h
  | succ k ih =>
      have hlen := scanRecord_consumed s
      simp only [scanRecords] at h
      cases hscan : scanRecord s with
      | more => simp [hscan] at h
      | fail => simp [hscan] at h
      | packetEnd m =>
          rw [hscan] at hlen h
          have hpos := hlen.2 (.inl ⟨m, rfl⟩)
          simp only [RecordScan.consumed] at hlen hpos
          simp only [Outcome.item.injEq] at h
          omega
      | record body m =>
          rw [hscan] at hlen h
          have hpos := hlen.2 (.inr ⟨body, m, rfl⟩)
          simp only [RecordScan.consumed] at hlen hpos
          simp only at h
          split at h
          · cases h
          · have hrest := ih h
            rw [List.length_drop] at hrest
            omega

theorem scanPacket_append {s : Bytes} (h : scanPacket s ≠ .more) (t : Bytes) :
    scanPacket (s ++ t) = scanPacket s := by
  have hne : (s.dropWhile isBlank).isEmpty = false := by
    rw [List.isEmpty_eq_false_iff]
    intro hnil
    simp [scanPacket, hnil, scanRecords] at h
  have hskip : (s ++ t).length - (s.dropWhile isBlank ++ t).length =
      s.length - (s.dropWhile isBlank).length := by
    simp only [List.length_append]
    omega
  rw [scanPacket, List.dropWhile_append, hne, if_neg (by simp), hskip]
  exact scanRecords_append (by simp) [] h t

/-- What a scan finds does not change when more bytes arrive. -/
theorem scanPacket_stable : Stable scanPacket where
  nil := rfl
  consumed := by
    intro s packet n h
    have hn := scanRecords_consumed h
    have hlen := (List.dropWhile_sublist isBlank (l := s)).length_le
    omega
  item t h := by rw [scanPacket_append (by simp [h]), h]
  fail t h := by rw [scanPacket_append (by simp [h]), h]

/-! ## Round trip -/

theorem atoi_digits {n : ℕ} (h : n < 2 ^ 31) : atoi (digits n) = n := by
  obtain ⟨b, ds, hds⟩ := List.exists_cons_of_ne_nil (digits_ne_nil n)
  have hb : isDigit b = true := isDigit_of_mem_digits b (by rw [hds]; exact List.mem_cons_self)
  have hall : (b :: ds).takeWhile isDigit = b :: ds := by
    rw [List.takeWhile_eq_self_iff, ← hds]
    exact isDigit_of_mem_digits
  rw [atoi, hds, strtol_of_digit hb, hall, ← hds, value_digits,
    int32_of_range (by omega) (by omega)]
  omega

theorem scanRecord_encode {s : Bytes} (hs : s.length < 2 ^ 31) (t : Bytes) :
    scanRecord (encodeRecord s ++ t) = .record s (encodeRecord s).length := by
  have hnot : (10 : UInt8) ∉ digits s.length := fun hmem ↦
    absurd (isDigit_of_mem_digits 10 hmem) (by decide)
  have hline : splitLine (encodeRecord s ++ t) = some (digits s.length, s ++ 10 :: t) :=
    splitLine_eq_some.mpr ⟨by simp [encodeRecord], hnot⟩
  obtain ⟨b, ds, hds⟩ := List.exists_cons_of_ne_nil (digits_ne_nil s.length)
  have hb : isDigit b = true := isDigit_of_mem_digits b (by rw [hds]; exact List.mem_cons_self)
  have hend : ¬ (digits s.length = [] ∨ digits s.length = [13]) := by
    rw [hds]
    rintro (heq | heq)
    · cases heq
    · rw [(List.cons.inj heq).1] at hb
      exact absurd hb (by decide)
  have hshort := length_digits_le (n := s.length) (k := 10) (by decide) (by omega)
  have hbad : ¬ (isDigit ((digits s.length).headD 0) = false ∨ 19 < (digits s.length).length + 1 ∨
      atoi (digits s.length) < 0) := by
    rw [atoi_digits hs]
    rintro (hdigit | hlong | hneg)
    · simp [hds, hb] at hdigit
    · omega
    · omega
  have hsep : separator (10 :: t) = some (some 1) := by
    cases t <;> rfl
  simp only [scanRecord, hline]
  rw [if_neg hend, if_neg hbad, atoi_digits hs, Int.toNat_natCast, if_neg (by simp),
    List.drop_left, hsep, List.take_left]
  simp [encodeRecord]
  omega

theorem scanRecords_encode {packet : List Bytes} {k parsed : ℕ} (acc : List Bytes) (t : Bytes)
    (hk : packet.length < k)
    (hsize : parsed + (packet.flatMap encodeRecord).length ≤ maxPacketSize) :
    scanRecords k parsed acc (encodePacket packet ++ t) =
      .item (acc ++ packet) (parsed + (encodePacket packet).length) := by
  induction packet generalizing k parsed acc with
  | nil =>
      obtain ⟨k, rfl⟩ : ∃ m, k = m + 1 := ⟨k - 1, by omega⟩
      simp [scanRecords, scanRecord, encodePacket, splitLine]
  | cons s packet ih =>
      obtain ⟨k, rfl⟩ : ∃ m, k = m + 1 := ⟨k - 1, by omega⟩
      simp only [List.flatMap_cons, List.length_append] at hsize
      have hs : s.length < 2 ^ 31 := by
        have hmax : maxPacketSize = 134217728 := by decide
        simp only [encodeRecord, List.length_append, List.length_cons] at hsize
        omega
      have hencode : encodePacket (s :: packet) ++ t =
          encodeRecord s ++ (encodePacket packet ++ t) := by
        simp [encodePacket]
      simp only [List.length_cons] at hk
      rw [hencode, scanRecords, scanRecord_encode hs]
      simp only
      rw [if_neg (by omega), List.drop_left, ih (acc ++ [s]) (by omega) (by omega)]
      simp [encodePacket, Nat.add_assoc]

theorem not_isBlank_of_isDigit {b : UInt8} (hb : isDigit b = true) : isBlank b = false := by
  rw [isBlank, Bool.or_eq_false_iff, beq_eq_false_iff_ne, beq_eq_false_iff_ne]
  constructor <;>
  · rintro rfl
    exact absurd hb (by decide)

theorem length_lt_encodePacket (packet : List Bytes) :
    packet.length < (encodePacket packet).length := by
  induction packet with
  | nil => simp [encodePacket]
  | cons s packet ih =>
      simp only [encodePacket, List.flatMap_cons, List.length_append, List.length_cons,
        encodeRecord] at ih ⊢
      omega

/-- A non-empty packet comes back, whatever follows it. -/
theorem scanPacket_encode {packet : List Bytes} (hne : packet ≠ [])
    (hsize : (packet.flatMap encodeRecord).length ≤ maxPacketSize) (t : Bytes) :
    scanPacket (encodePacket packet ++ t) = .item packet (encodePacket packet).length := by
  obtain ⟨s, rest, rfl⟩ := List.exists_cons_of_ne_nil hne
  obtain ⟨b, ds, hds⟩ := List.exists_cons_of_ne_nil (digits_ne_nil s.length)
  have hb : isDigit b = true := isDigit_of_mem_digits b (by rw [hds]; exact List.mem_cons_self)
  have hskip : (encodePacket (s :: rest) ++ t).dropWhile isBlank =
      encodePacket (s :: rest) ++ t := by
    simp [encodePacket, encodeRecord, hds, not_isBlank_of_isDigit hb]
  have hlen := length_lt_encodePacket (s :: rest)
  rw [scanPacket, hskip, Nat.sub_self, scanRecords_encode [] t _ (by omega)]
  · simp
  · rw [List.length_append]
    omega

end GeminiDB
