import GeminiDB.Net.Recv

/-!
# Length headers

The grammar that a packet should follow, and the header lines on which `recv`
keeps to it. `recv` looks at the first byte and the length of a header line and
at what `atoi` makes of it, so it also accepts lines that only begin with digits
and numbers that are too large for an `int`.
-/

namespace GeminiDB

open Memory Decimal Scanner

/-- A decimal number, with at most one carriage return behind it. -/
def IsHeader (line : Bytes) (n : ℕ) : Prop :=
  ∃ ds, (line = ds ∨ line = ds ++ [13]) ∧ ds ≠ [] ∧ (∀ b ∈ ds, isDigit b = true) ∧ value ds = n

/-- The length of some record; a length is an `int`. -/
def WellFormedLine (line : Bytes) : Prop := ∃ n < 2 ^ 31, IsHeader line n

def BlankLine (line : Bytes) : Prop := line = [] ∨ line = [13]

/-- The header checks of `recv`. -/
def Rejected (line : Bytes) : Prop :=
  isDigit (line.headD 0) = false ∨ 18 < line.length ∨ atoi line < 0

instance (line : Bytes) : Decidable (BlankLine line) := inferInstanceAs (Decidable (_ ∨ _))

instance (line : Bytes) : Decidable (Rejected line) := inferInstanceAs (Decidable (_ ∨ _ ∨ _))

/-- A record as it stands in the input. -/
structure RecordText where
  header : Bytes
  body : Bytes
  separator : Bytes

namespace RecordText

def bytes (r : RecordText) : Bytes := r.header ++ 10 :: (r.body ++ r.separator)

structure Wf (r : RecordText) : Prop where
  header : IsHeader r.header r.body.length
  short : r.header.length ≤ 18
  separator : r.separator = [10] ∨ r.separator = [13, 10]

/-- The record as `recv` reads it. -/
structure Accepted (r : RecordText) : Prop where
  line : 10 ∉ r.header
  blank : ¬ BlankLine r.header
  good : ¬ Rejected r.header
  body : r.body.length = (atoi r.header).toNat
  separator : r.separator = [10] ∨ r.separator = [13, 10]

end RecordText

/-- Behind empty lines and the records `recs`, the line `line` has arrived where
the next header or the end of the packet should be. -/
structure AtHeader (s : Bytes) (recs : List RecordText) (line rest : Bytes) : Prop where
  split : s.dropWhile isBlank = recs.flatMap RecordText.bytes ++ (line ++ 10 :: rest)
  wf : ∀ r ∈ recs, r.Wf
  limit : recs ≠ [] → s.length - (s.dropWhile isBlank).length +
    (recs.flatMap RecordText.bytes).length ≤ maxPacketSize
  line : 10 ∉ line

/-! ## Scanning a line -/

theorem IsHeader.digit {line : Bytes} {n : ℕ} (h : IsHeader line n) :
    isDigit (line.headD 0) = true ∧ 10 ∉ line ∧ ¬ BlankLine line := by
  obtain ⟨ds, hline, hne, hdigits, -⟩ := h
  obtain ⟨b, ds, rfl⟩ := List.exists_cons_of_ne_nil hne
  have hb := hdigits b List.mem_cons_self
  have hnot : (10 : UInt8) ∉ b :: ds := fun hmem ↦ absurd (hdigits 10 hmem) (by decide)
  rcases hline with rfl | rfl
  · refine ⟨hb, hnot, ?_⟩
    rintro (heq | heq)
    · cases heq
    · rw [(List.cons.inj heq).1] at hb
      exact absurd hb (by decide)
  · refine ⟨hb, by simpa using hnot, ?_⟩
    rintro (heq | heq)
    · cases heq
    · rw [(List.cons.inj heq).1] at hb
      exact absurd hb (by decide)

theorem IsHeader.atoi {line : Bytes} {n : ℕ} (h : IsHeader line n) (hn : n < 2 ^ 31) :
    atoi line = n := by
  obtain ⟨ds, hline, hne, hdigits, rfl⟩ := h
  obtain ⟨b, ds, rfl⟩ := List.exists_cons_of_ne_nil hne
  have hb := hdigits b List.mem_cons_self
  have hall : line.takeWhile isDigit = b :: ds := by
    rcases hline with rfl | rfl
    · exact List.takeWhile_eq_self_iff.mpr hdigits
    · rw [List.takeWhile_append_of_pos hdigits]
      simp [show isDigit 13 = false by decide]
  obtain ⟨tail, rfl⟩ : ∃ tail, line = b :: tail := by
    rcases hline with rfl | rfl
    · exact ⟨_, rfl⟩
    · exact ⟨_, rfl⟩
  rw [GeminiDB.atoi, strtol_of_digit hb, hall, int32_of_range (by omega) (by omega)]
  omega

theorem scanRecord_line {line rest : Bytes} (hline : 10 ∉ line) :
    scanRecord (line ++ 10 :: rest) =
      if BlankLine line then .packetEnd (line.length + 1)
      else if Rejected line then .fail
      else if rest.length < (atoi line).toNat then .more
      else match separator (rest.drop (atoi line).toNat) with
        | none => .more
        | some none => .fail
        | some (some n) =>
            .record (rest.take (atoi line).toNat) (line.length + 1 + (atoi line).toNat + n) := by
  rw [scanRecord, splitLine_eq_some.mpr ⟨rfl, hline⟩]
  have hlong : 19 < line.length + 1 ↔ 18 < line.length := by omega
  simp only [BlankLine, Rejected, hlong]
  rfl

theorem scanRecord_cases {s : Bytes} (h : scanRecord s ≠ .more) :
    ∃ line rest, s = line ++ 10 :: rest ∧ 10 ∉ line := by
  cases hline : splitLine s with
  | none => exact absurd (by rw [scanRecord, hline]) h
  | some p => exact ⟨p.1, p.2, splitLine_eq_some.mp hline⟩

theorem separator_eq_some {s : Bytes} {n : ℕ} (h : separator s = some (some n)) :
    ∃ sep rest, s = sep ++ rest ∧ sep.length = n ∧ (sep = [10] ∨ sep = [13, 10]) := by
  rcases s with _ | ⟨b, _ | ⟨c, s⟩⟩
  · cases h
  · by_cases hb : b = 10
    · simp only [separator, hb, if_true, Option.some.injEq] at h
      exact ⟨[10], [], by rw [hb]; rfl, h, .inl rfl⟩
    · simp [separator, hb] at h
  · by_cases hb : b = 10
    · simp only [separator, hb, if_true, Option.some.injEq] at h
      exact ⟨[10], c :: s, by rw [hb]; rfl, h, .inl rfl⟩
    · by_cases hcr : b = 13 ∧ c = 10
      · obtain ⟨rfl, rfl⟩ := hcr
        exact ⟨[13, 10], s, rfl, Option.some.inj (Option.some.inj h), .inr rfl⟩
      · simp [separator, hb, hcr] at h

theorem separator_of_eq {sep : Bytes} (h : sep = [10] ∨ sep = [13, 10]) (t : Bytes) :
    separator (sep ++ t) = some (some sep.length) := by
  rcases h with rfl | rfl
  · exact separator_append (s := [10]) rfl t
  · exact separator_append (s := [13, 10]) rfl t

namespace RecordText

variable {r : RecordText}

theorem Wf.accepted (h : r.Wf) (hbody : r.body.length < 2 ^ 31) : r.Accepted := by
  obtain ⟨hdigit, hline, hblank⟩ := h.header.digit
  have hatoi := h.header.atoi hbody
  refine ⟨hline, hblank, ?_, by rw [hatoi, Int.toNat_natCast], h.separator⟩
  rintro (hbad | hbad | hbad)
  · rw [hdigit] at hbad
    cases hbad
  · have := h.short
    omega
  · rw [hatoi] at hbad
    omega

theorem length_body_lt (r : RecordText) : r.body.length < r.bytes.length := by
  simp [bytes]
  omega

theorem Accepted.scanRecord (h : r.Accepted) (t : Bytes) :
    scanRecord (r.bytes ++ t) = .record r.body r.bytes.length := by
  have hbytes : r.bytes ++ t = r.header ++ 10 :: (r.body ++ (r.separator ++ t)) := by simp [bytes]
  rw [hbytes, scanRecord_line h.line, if_neg h.blank, if_neg h.good, ← h.body, if_neg (by simp),
    List.drop_left, separator_of_eq h.separator, List.take_left]
  simp [bytes, Nat.add_assoc, Nat.add_comm 1]

end RecordText

theorem scanRecords_texts {recs : List RecordText} (hacc : ∀ r ∈ recs, r.Accepted) {k parsed : ℕ}
    (acc : List Bytes) {t : Bytes}
    (hk : (recs.flatMap RecordText.bytes).length + t.length ≤ k)
    (hlimit : recs ≠ [] → parsed + (recs.flatMap RecordText.bytes).length ≤ maxPacketSize) :
    ∃ j, t.length ≤ j ∧ scanRecords k parsed acc (recs.flatMap RecordText.bytes ++ t) =
      scanRecords j (parsed + (recs.flatMap RecordText.bytes).length)
        (acc ++ recs.map RecordText.body) t := by
  induction recs generalizing k parsed acc with
  | nil => exact ⟨k, by simpa using hk, by simp⟩
  | cons r recs ih =>
      have hbody := r.length_body_lt
      have hle := hlimit (by simp)
      simp only [List.flatMap_cons, List.length_append] at hk hle
      obtain ⟨k, rfl⟩ : ∃ m, k = m + 1 := ⟨k - 1, by omega⟩
      obtain ⟨j, hj, hrest⟩ := @ih (fun q hq ↦ hacc q (List.mem_cons_of_mem r hq)) k
        (parsed + r.bytes.length) (acc ++ [r.body]) (by omega) (fun _ ↦ by omega)
      refine ⟨j, hj, ?_⟩
      rw [List.flatMap_cons, List.append_assoc, scanRecords,
        (hacc r List.mem_cons_self).scanRecord]
      simp only
      rw [if_neg (by omega), List.drop_left, hrest]
      simp [Nat.add_assoc]

namespace AtHeader

variable {s line rest : Bytes} {recs : List RecordText}

theorem accepted (h : AtHeader s recs line rest) : ∀ r ∈ recs, r.Accepted := by
  intro r hr
  have hmax : maxPacketSize = 134217728 := by decide
  have hlimit := h.limit (List.ne_nil_of_mem hr)
  have hbody := r.length_body_lt
  have hmem : r.bytes ∈ recs.map RecordText.bytes := List.mem_map_of_mem hr
  have hsub := (List.sublist_flatten_of_mem hmem).length_le
  rw [← List.flatMap_def] at hsub
  exact (h.wf r hr).accepted (by omega)

/-- At a line where a header is expected the scan has come to that line. -/
theorem scanPacket (h : AtHeader s recs line rest) :
    ∃ j parsed, scanPacket s = scanRecords (j + 1) parsed (recs.map RecordText.body)
      (line ++ 10 :: rest) := by
  have hlen := congrArg List.length h.split
  rw [List.length_append] at hlen
  obtain ⟨j, hj, hscan⟩ := scanRecords_texts h.accepted (t := line ++ 10 :: rest) [] hlen.ge h.limit
  rw [List.length_append, List.length_cons] at hj
  obtain ⟨j, rfl⟩ : ∃ m, j = m + 1 := ⟨j - 1, by omega⟩
  rw [← h.split, List.nil_append] at hscan
  exact ⟨j, _, hscan⟩

theorem scanPacket_rejected (h : AtHeader s recs line rest) (hblank : ¬ BlankLine line)
    (hbad : Rejected line) : GeminiDB.scanPacket s = .fail := by
  obtain ⟨j, parsed, hscan⟩ := h.scanPacket
  rw [hscan, scanRecords, scanRecord_line h.line, if_neg hblank, if_pos hbad]

/-- An accepted header asks for more when nothing has followed it yet. -/
theorem scanPacket_accepted (h : AtHeader s recs line []) (hblank : ¬ BlankLine line)
    (hgood : ¬ Rejected line) : GeminiDB.scanPacket s = .more := by
  obtain ⟨j, parsed, hscan⟩ := h.scanPacket
  rw [hscan, scanRecords, scanRecord_line h.line, if_neg hblank, if_neg hgood]
  by_cases hbody : ([] : Bytes).length < (atoi line).toNat
  · rw [if_pos hbody]
  · rw [if_neg hbody, List.drop_nil]
    rfl

/-- What had arrived when the line ended. -/
theorem take (h : AtHeader s recs line rest) :
    AtHeader (s.take (s.length - rest.length)) recs line [] := by
  obtain ⟨b, front, hfront⟩ : ∃ b front,
      recs.flatMap RecordText.bytes ++ (line ++ [10]) = b :: front :=
    List.exists_cons_of_ne_nil (by simp)
  have hsplit : s.dropWhile isBlank = b :: front ++ rest := by
    rw [h.split, ← hfront]
    simp
  have hb : isBlank b = false := by
    have := List.head?_dropWhile_not isBlank s
    simpa [hsplit] using this
  have hs : s = s.takeWhile isBlank ++ b :: front ++ rest := by
    rw [List.append_assoc, ← hsplit, List.takeWhile_append_dropWhile]
  have htake : s.take (s.length - rest.length) = s.takeWhile isBlank ++ b :: front := by
    have hlen := congrArg List.length hs
    rw [List.length_append] at hlen
    rw [show s.length - rest.length = (s.takeWhile isBlank ++ b :: front).length by omega]
    exact (congrArg (List.take _) hs).trans List.take_left
  have hdrop : (s.take (s.length - rest.length)).dropWhile isBlank = b :: front := by
    rw [htake, List.dropWhile_append_of_pos fun c hc ↦ List.mem_takeWhile_imp hc,
      List.dropWhile_cons_of_neg (by simp [hb])]
  refine ⟨by rw [hdrop, ← hfront], h.wf, fun hne ↦ ?_, h.line⟩
  have hlimit := h.limit hne
  have hlen := congrArg List.length hs
  rw [hsplit] at hlimit
  rw [hdrop, htake]
  simp only [List.length_append] at hlimit hlen ⊢
  omega

end AtHeader

theorem exists_recordText {line rest : Bytes} (hline : 10 ∉ line) (hblank : ¬ BlankLine line)
    (hmore : scanRecord (line ++ 10 :: rest) ≠ .more)
    (hfail : scanRecord (line ++ 10 :: rest) ≠ .fail) :
    ∃ (r : RecordText) (tail : Bytes), line ++ 10 :: rest = r.bytes ++ tail ∧ r.header = line ∧
      r.Accepted := by
  rw [scanRecord_line hline, if_neg hblank] at hmore hfail
  have hgood : ¬ Rejected line := fun hbad ↦ hfail (if_pos hbad)
  rw [if_neg hgood] at hmore hfail
  have hlong : ¬ rest.length < (atoi line).toNat := fun hshort ↦ hmore (if_pos hshort)
  rw [if_neg hlong] at hmore hfail
  generalize hm : (atoi line).toNat = m at hmore hfail hlong
  cases hsep : separator (rest.drop m) with
  | none => simp [hsep] at hmore
  | some found =>
      cases found with
      | none => simp [hsep] at hfail
      | some c =>
          obtain ⟨sep, tail, htail, -, hsep'⟩ := separator_eq_some hsep
          refine ⟨⟨line, rest.take m, sep⟩, tail, ?_, rfl, hline, hblank, hgood, ?_, hsep'⟩
          · conv_lhs => rw [← List.take_append_drop m rest, htail]
            simp [RecordText.bytes]
          · rw [hm, List.length_take]
            omega

/-- The limit on records is kept from the first one to the others. -/
theorem records_le_cons {parsed : ℕ} {r : RecordText} {recs : List RecordText}
    (hr : ¬maxPacketSize < parsed + r.bytes.length)
    (hrecs : recs ≠ [] →
      parsed + r.bytes.length + (recs.flatMap RecordText.bytes).length ≤ maxPacketSize) :
    parsed + ((r :: recs).flatMap RecordText.bytes).length ≤ maxPacketSize := by
  rw [List.flatMap_cons, List.length_append]
  rcases eq_or_ne recs [] with rfl | hne
  · simpa using hr
  · have := hrecs hne
    omega

/-- The headers of a packet, when every line that is not well formed is rejected. -/
theorem scanRecords_item {k parsed n : ℕ} {acc packet : List Bytes} {s : Bytes}
    (h : scanRecords k parsed acc s = .item packet n)
    (hlines : ∀ recs line rest, s = recs.flatMap RecordText.bytes ++ (line ++ 10 :: rest) →
      (∀ r ∈ recs, r.Wf) →
      (recs ≠ [] → parsed + (recs.flatMap RecordText.bytes).length ≤ maxPacketSize) →
      10 ∉ line → ¬ BlankLine line → WellFormedLine line ∨ Rejected line) :
    ∃ recs line rest, s = recs.flatMap RecordText.bytes ++ (line ++ 10 :: rest) ∧
      (∀ r ∈ recs, r.Wf) ∧
      (recs ≠ [] → parsed + (recs.flatMap RecordText.bytes).length ≤ maxPacketSize) ∧
      10 ∉ line ∧ BlankLine line ∧ packet = acc ++ recs.map RecordText.body := by
  induction k generalizing parsed acc s with
  | zero => cases h
  | succ k ih =>
      rw [scanRecords] at h
      have hmore : scanRecord s ≠ .more := fun heq ↦ by
        rw [heq] at h
        cases h
      have hfail : scanRecord s ≠ .fail := fun heq ↦ by
        rw [heq] at h
        cases h
      obtain ⟨line, rest, rfl, hline⟩ := scanRecord_cases hmore
      by_cases hblank : BlankLine line
      · rw [scanRecord_line hline, if_pos hblank] at h
        cases h
        exact ⟨[], line, rest, rfl, by simp, by simp, hline, hblank, by simp⟩
      · have hgood : ¬ Rejected line := fun hbad ↦ hfail (by
          rw [scanRecord_line hline, if_neg hblank, if_pos hbad])
        obtain ⟨m, hm, hheader⟩ :=
          (hlines [] line rest rfl (by simp) (by simp) hline hblank).resolve_right hgood
        obtain ⟨r, tail, hs, rfl, hacc⟩ := exists_recordText hline hblank hmore hfail
        have hr : r.Wf := by
          refine ⟨?_, not_lt.mp fun hlong ↦ hgood (.inr (.inl hlong)), hacc.separator⟩
          rwa [hacc.body, hheader.atoi hm, Int.toNat_natCast]
        rw [hs, hacc.scanRecord] at h
        simp only [List.drop_left] at h
        by_cases hmax : maxPacketSize < parsed + r.bytes.length
        · rw [if_pos hmax] at h
          cases h
        · rw [if_neg hmax] at h
          have hcons {recs : List RecordText} (hwf : ∀ q ∈ recs, q.Wf)
              (hlimit : recs ≠ [] → parsed + r.bytes.length +
                (recs.flatMap RecordText.bytes).length ≤ maxPacketSize) :
              (∀ q ∈ r :: recs, q.Wf) ∧ (r :: recs ≠ [] → parsed +
                ((r :: recs).flatMap RecordText.bytes).length ≤ maxPacketSize) := by
            exact ⟨by simpa using ⟨hr, hwf⟩, fun _ ↦ records_le_cons hmax hlimit⟩
          obtain ⟨recs, line', rest', htail, hwf, hlimit, hline', hblank', hpacket⟩ :=
            ih h fun recs line' rest' htail hwf hlimit hline' hblank' ↦ by
              obtain ⟨hwf, hlimit⟩ := hcons hwf hlimit
              exact hlines (r :: recs) line' rest' (by rw [hs, htail]; simp) hwf hlimit hline'
                hblank'
          obtain ⟨hwf, hlimit⟩ := hcons hwf hlimit
          exact ⟨r :: recs, line', rest', by rw [hs, htail]; simp, hwf, hlimit, hline', hblank',
            by simp [hpacket]⟩

namespace Link

/-- The link when only the first `n` bytes of its input had arrived. -/
def arrived (n : ℕ) (link : Link) : Link := { link with input := { link.input with size := n } }

/-- Every record of a packet is behind a decimal number, its length, and a line in
the place of a header that is no such number makes `recv` fail as soon as the line
has arrived. -/
structure StrictHeaders (link : Link) : Prop where
  accepted : ∀ alloc refs, (link.recv alloc).1 = .vector refs → refs ≠ [] →
    ∃ recs line rest, AtHeader link.input.content recs line rest ∧ BlankLine line ∧
      refs.map (BytesRef.deref link.input.mem) = recs.map RecordText.body
  refused : ∀ recs line rest, AtHeader link.input.content recs line rest → ¬ BlankLine line →
    ¬ WellFormedLine line → ∀ alloc n, link.input.content.length - rest.length ≤ n →
      n ≤ link.input.content.length → ((link.arrived n).recv alloc).1 = .badFormat

theorem arrived_content {link : Link} (h : link.input.Wf) {n : ℕ}
    (hn : n ≤ link.input.content.length) :
    (link.arrived n).input.Wf ∧ (link.arrived n).input.content = link.input.content.take n := by
  have hlen := h.length_content
  obtain ⟨hdata, hsize, hfits, hpos, htotal⟩ := h
  refine ⟨⟨hdata, by simp [arrived], by simp only [arrived]; omega, hpos, htotal⟩, ?_⟩
  simp only [arrived, Buffer.content, Int.toNat_natCast]
  rw [slice_take _ _ (by omega)]

/-- `recv` keeps to the grammar just when it rejects every line in the place of a
header that is not well formed. -/
theorem strict_headers_iff {link : Link} (h : link.input.Wf) :
    link.StrictHeaders ↔ ∀ recs line rest, AtHeader link.input.content recs line rest →
      ¬ BlankLine line → WellFormedLine line ∨ Rejected line := by
  constructor
  · intro hstrict recs line rest hat hblank
    by_contra hbad
    rw [not_or] at hbad
    have hle : link.input.content.length - rest.length ≤ link.input.content.length := by omega
    obtain ⟨hwf, hcontent⟩ := arrived_content h hle
    have hmore := hat.take.scanPacket_accepted hblank hbad.2
    rw [← hcontent] at hmore
    obtain ⟨result, refs, input, hrecv, hresult, -⟩ := recv_more hwf (fun _ ↦ true) hmore
    have hrefused := hstrict.refused recs line rest hat hblank hbad.1 (fun _ ↦ true) _ le_rfl hle
    rw [hrecv] at hrefused
    rcases hresult with rfl | rfl <;> cases hrefused
  · intro hlines
    refine ⟨fun alloc refs hrecv hne ↦ ?_,
      fun recs line rest hat hblank hbad alloc n hlow hhigh ↦ ?_⟩
    · cases hscan : scanPacket link.input.content with
      | item packet n =>
          obtain ⟨refs', heq, hrefs, -⟩ := recv_item h alloc hscan
          rw [heq] at hrecv
          cases hrecv
          obtain ⟨recs, line, rest, hsplit, hwf, hlimit, hline, hblank, hpacket⟩ :=
            scanRecords_item hscan fun recs line rest hsplit hwf hlimit hline hblank ↦
              hlines recs line rest ⟨hsplit, hwf, hlimit, hline⟩ hblank
          exact ⟨recs, line, rest, ⟨hsplit, hwf, hlimit, hline⟩, hblank, by
            rw [hrefs, hpacket, List.nil_append]⟩
      | fail =>
          obtain ⟨refs', heq⟩ := recv_fail h alloc hscan
          rw [heq] at hrecv
          cases hrecv
      | more =>
          obtain ⟨result, refs', input, heq, rfl | rfl, -⟩ := recv_more h alloc hscan
          · rw [heq] at hrecv
            cases hrecv
            exact absurd rfl hne
          · rw [heq] at hrecv
            cases hrecv
    · have hfail := hat.take.scanPacket_rejected hblank
        ((hlines recs line rest hat hblank).resolve_left hbad)
      obtain ⟨hwf, hcontent⟩ := arrived_content h hhigh
      have hlater := scanPacket_stable.fail
        ((link.input.content.take n).drop (link.input.content.length - rest.length)) hfail
      rw [show link.input.content.take (link.input.content.length - rest.length) =
          (link.input.content.take n).take (link.input.content.length - rest.length) by
        rw [List.take_take, Nat.min_eq_left hlow], List.take_append_drop, ← hcontent] at hlater
      obtain ⟨refs, hrecv⟩ := recv_fail hwf alloc hlater
      rw [hrecv]

/-- A connection that has received `bs`. -/
def holding (bs : Bytes) : Link :=
  { Link.new 3 with input := ⟨store (fun _ ↦ 0) 0 bs, 0, bs.length, 8192⟩ }

theorem holding_wf {bs : Bytes} (hbs : bs.length ≤ 8192) : (holding bs).input.Wf :=
  ⟨le_rfl, by simp [holding], by simpa [holding] using hbs, by simp [holding], by simp [holding]⟩

@[simp] theorem holding_content (bs : Bytes) : (holding bs).input.content = bs := by
  simp only [holding, Buffer.content, Int.toNat_natCast]
  exact slice_store _ 0 bs

/-- A line without digits is rejected. -/
theorem strict_headers_iff_letter : (holding (ascii "x\n")).StrictHeaders := by
  have hwf : (holding (ascii "x\n")).input.Wf := holding_wf (by decide)
  have hcontent : (holding (ascii "x\n")).input.content = [120, 10] := by simp [ascii]
  apply (strict_headers_iff hwf).mpr
  intro recs line rest hat _
  have hsplit := hat.split
  rw [hcontent, show [120, 10].dropWhile isBlank = [120, 10] by decide] at hsplit
  rcases recs with _ | ⟨r, recs⟩
  · rcases line with _ | ⟨b, line⟩
    · exact absurd (List.cons.inj hsplit).1 (by decide)
    · obtain rfl := (List.cons.inj hsplit).1
      exact .inr (.inl (by simp [isDigit]))
  · obtain ⟨ds, hheader, hne, hdigits, -⟩ := (hat.wf r List.mem_cons_self).header
    obtain ⟨b, ds, rfl⟩ := List.exists_cons_of_ne_nil hne
    have hb : b = 120 := by
      rcases hheader with heq | heq <;>
      · simp only [List.flatMap_cons, RecordText.bytes, heq, List.cons_append] at hsplit
        exact (List.cons.inj hsplit).1.symm
    exact absurd (hdigits b List.mem_cons_self) (by rw [hb]; decide)

/-- A header with a letter behind its digit is accepted. -/
theorem not_strict_headers : ¬ (holding (ascii "1x\na\n\n")).StrictHeaders := by
  have hwf : (holding (ascii "1x\na\n\n")).input.Wf := holding_wf (by decide)
  have hcontent : (holding (ascii "1x\na\n\n")).input.content = [49, 120, 10, 97, 10, 10] := by
    simp [ascii]
  generalize holding (ascii "1x\na\n\n") = link at hwf hcontent ⊢
  intro hstrict
  have hat : AtHeader link.input.content [] [49, 120] [97, 10, 10] := by
    rw [hcontent]
    exact ⟨by decide, by simp, by simp, by decide⟩
  have hline : ¬ WellFormedLine [49, 120] := by
    rintro ⟨n, -, ds, rfl | heq, -, hdigits, -⟩
    · exact absurd (hdigits 120 (by decide)) (by decide)
    · have := congrArg List.getLast? heq
      simp at this
  have hlength : link.input.content.length = 6 := by rw [hcontent]; rfl
  obtain ⟨hwf', hcontent'⟩ := arrived_content hwf hlength.ge
  have hrefused := hstrict.refused [] [49, 120] [97, 10, 10] hat (by decide) hline
    (fun _ ↦ true) 6 (by rw [hlength]; decide) hlength.ge
  have hscan : scanPacket (link.arrived 6).input.content = .item [[97]] 6 := by
    rw [hcontent', hcontent]
    decide +kernel
  obtain ⟨refs, hrecv, -⟩ := recv_item hwf' (fun _ ↦ true) hscan
  rw [hrecv] at hrefused
  cases hrefused

end Link

end GeminiDB
