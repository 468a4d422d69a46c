import GeminiDB.Net.Headers

/-!
# The packet size limit

`recv` compares the bytes parsed with the limit behind each complete record and
nowhere else. An input that is still waiting for a line, a body or a separator
is kept however long it is, until its buffer can no longer grow.
-/

namespace GeminiDB

open Memory Decimal Scanner

/-- The beginning of a record: of its header line, its body or its separator. -/
inductive Pending : Bytes → Prop
  | line {tail : Bytes} : 10 ∉ tail → Pending tail
  | body {line rest : Bytes} : 10 ∉ line → ¬ BlankLine line → ¬ Rejected line →
      rest.length < (atoi line).toNat → Pending (line ++ 10 :: rest)
  | separator {line body sep : Bytes} : 10 ∉ line → ¬ BlankLine line → ¬ Rejected line →
      body.length = (atoi line).toNat → sep = [] ∨ (∃ b, b ≠ 10 ∧ sep = [b]) →
      Pending (line ++ 10 :: (body ++ sep))

/-- Empty lines, complete records within the limit and the beginning of one more. -/
def Unfinished (s : Bytes) : Prop :=
  ∃ recs tail, s.dropWhile isBlank = recs.flatMap RecordText.bytes ++ tail ∧
    (∀ r ∈ recs, r.Accepted) ∧
    (recs ≠ [] → s.length - (s.dropWhile isBlank).length +
      (recs.flatMap RecordText.bytes).length ≤ maxPacketSize) ∧
    Pending tail

theorem separator_eq_none {s : Bytes} : separator s = none ↔ s = [] ∨ ∃ b, b ≠ 10 ∧ s = [b] := by
  rcases s with _ | ⟨b, _ | ⟨c, s⟩⟩
  · simp [separator]
  · simp [separator]
  · simp only [separator]
    split_ifs <;> simp

theorem not_mem_of_splitLine {s : Bytes} (h : splitLine s = none) : 10 ∉ s := fun hmem ↦ by
  obtain ⟨line, after, hs, hnot⟩ := List.eq_append_cons_of_mem hmem
  rw [splitLine_eq_some.mpr ⟨hs, hnot⟩] at h
  cases h

theorem pending_iff {s : Bytes} : scanRecord s = .more ↔ Pending s := by
  constructor
  · intro h
    cases hfirst : splitLine s with
    | none => exact .line (not_mem_of_splitLine hfirst)
    | some p =>
        obtain ⟨line, rest⟩ := p
        obtain ⟨rfl, hline⟩ := splitLine_eq_some.mp hfirst
        rw [scanRecord_line hline] at h
        by_cases hblank : BlankLine line
        · rw [if_pos hblank] at h
          cases h
        · by_cases hbad : Rejected line
          · rw [if_neg hblank, if_pos hbad] at h
            cases h
          · by_cases hshort : rest.length < (atoi line).toNat
            · exact .body hline hblank hbad hshort
            · rw [if_neg hblank, if_neg hbad, if_neg hshort] at h
              have hsep : separator (rest.drop (atoi line).toNat) = none := by
                rcases hsep : separator (rest.drop (atoi line).toNat) with _ | _ | n
                · rfl
                · simp [hsep] at h
                · simp [hsep] at h
              rw [← List.take_append_drop (atoi line).toNat rest]
              exact .separator hline hblank hbad (by rw [List.length_take]; omega)
                (separator_eq_none.mp hsep)
  · rintro (hline | ⟨hline, hblank, hgood, hshort⟩ | ⟨hline, hblank, hgood, hbody, hsep⟩)
    · rw [scanRecord, splitLine_eq_none hline]
    · rw [scanRecord_line hline, if_neg hblank, if_neg hgood, if_pos hshort]
    · rw [scanRecord_line hline, if_neg hblank, if_neg hgood, ← hbody, if_neg (by simp),
        List.drop_left, separator_eq_none.mpr hsep]

/-- Scanning asks for more just on complete records with the beginning of another. -/
theorem scanRecords_more_iff {k parsed : ℕ} {acc : List Bytes} {s : Bytes} (hk : s.length ≤ k) :
    scanRecords k parsed acc s = .more ↔
      ∃ recs tail, s = recs.flatMap RecordText.bytes ++ tail ∧ (∀ r ∈ recs, r.Accepted) ∧
        (recs ≠ [] → parsed + (recs.flatMap RecordText.bytes).length ≤ maxPacketSize) ∧
        Pending tail := by
  constructor
  · intro h
    induction k generalizing parsed acc s with
    | zero =>
        obtain rfl : s = [] := List.length_eq_zero_iff.mp (by omega)
        exact ⟨[], [], rfl, by simp, by simp, .line (by simp)⟩
    | succ k ih =>
        rw [scanRecords] at h
        by_cases hmore : scanRecord s = .more
        · exact ⟨[], s, rfl, by simp, by simp, pending_iff.mp hmore⟩
        · have hfail : scanRecord s ≠ .fail := fun heq ↦ by
            rw [heq] at h
            cases h
          obtain ⟨line, rest, rfl, hline⟩ := scanRecord_cases hmore
          by_cases hblank : BlankLine line
          · rw [scanRecord_line hline, if_pos hblank] at h
            cases h
          · obtain ⟨r, tail, hs, rfl, hacc⟩ := exists_recordText hline hblank hmore hfail
            rw [hs, hacc.scanRecord] at h
            have hlen := congrArg List.length hs
            have hpos := r.length_body_lt
            rw [@List.length_append _ r.bytes] at hlen
            simp only [List.drop_left] at h
            by_cases hmax : maxPacketSize < parsed + r.bytes.length
            · rw [if_pos hmax] at h
              cases h
            · rw [if_neg hmax] at h
              obtain ⟨recs, tail', rfl, hrecs, hlimit, hpending⟩ := ih (by omega) h
              exact ⟨r :: recs, tail', by rw [hs]; simp, by simpa using ⟨hacc, hrecs⟩,
                fun _ ↦ records_le_cons hmax hlimit, hpending⟩
  · rintro ⟨recs, tail, rfl, hacc, hlimit, hpending⟩
    rw [List.length_append] at hk
    obtain ⟨j, hj, hscan⟩ := scanRecords_texts hacc acc hk hlimit
    rw [hscan]
    cases j with
    | zero => rfl
    | succ j => rw [scanRecords, pending_iff.mpr hpending]

theorem scanPacket_more_iff {s : Bytes} : scanPacket s = .more ↔ Unfinished s :=
  scanRecords_more_iff le_rfl

/-- A packet ends within two bytes of the limit. -/
theorem scanRecords_item_le {k parsed n : ℕ} {acc packet : List Bytes} {s : Bytes}
    (h : scanRecords k parsed acc s = .item packet n) (hparsed : acc ≠ [] → parsed ≤ maxPacketSize)
    (hne : packet ≠ []) : n ≤ maxPacketSize + 2 := by
  induction k generalizing parsed acc s with
  | zero => cases h
  | succ k ih =>
      rw [scanRecords] at h
      cases hscan : scanRecord s with
      | packetEnd m =>
          have hm : m ≤ 2 := by
            obtain ⟨line, rest, rfl, hline⟩ := scanRecord_cases (s := s) (by simp [hscan])
            rw [scanRecord_line hline] at hscan
            by_cases hblank : BlankLine line
            · rw [if_pos hblank] at hscan
              cases hscan
              rcases hblank with rfl | rfl <;> simp
            · rw [if_neg hblank] at hscan
              split_ifs at hscan
              split at hscan <;> cases hscan
          simp only [hscan, Outcome.item.injEq] at h
          obtain ⟨rfl, rfl⟩ := h
          have := hparsed hne
          omega
      | record body m =>
          simp only [hscan] at h
          by_cases hmax : maxPacketSize < parsed + m
          · rw [if_pos hmax] at h
            cases h
          · rw [if_neg hmax] at h
            exact ih h fun _ ↦ not_lt.mp hmax
      | fail => simp [hscan] at h
      | more => simp [hscan] at h

/-- `NULL`, which closes the connection. -/
def Recv.isNull : Recv → Prop
  | vector _ => False
  | badFormat => True
  | noMemory => True

namespace Link

/-- With more than the limit received and no packet in it, `recv` gives up. -/
def BoundsInput (alloc : Int → Bool) (link : Link) : Prop :=
  maxPacketSize + 32 < link.input.content.length →
    (∀ refs n, parse link.input = .packetEnd refs n → maxPacketSize + 32 < n) →
    (link.recv alloc).1.isNull

/-- The buffer is full up to its end, the bytes start in its first half, and there
is no memory for a larger one. -/
def CannotGrow (alloc : Int → Bool) (input : Buffer) : Prop :=
  input.data + input.size = input.total ∧ input.data ≤ input.total.tdiv 2 ∧
    (Buffer.grown input.total < 0 ∨ alloc (Buffer.grown input.total) = false)

theorem makeRoom_fails {input : Buffer} (h : input.Wf) (alloc : Int → Bool) :
    (makeRoom alloc input).1 = false ↔ CannotGrow alloc input := by
  have hspace := h.space_eq
  have hnice := h.nice.space_eq
  obtain ⟨hdata, hsize, hfits, hpos, htotal⟩ := h
  rw [makeRoom]
  by_cases hfull : input.space = 0
  · rw [if_pos hfull]
    by_cases hhalf : input.data > input.total.tdiv 2
    · have hmoved : input.nice.space ≠ 0 := by
        rw [hnice, Buffer.nice, if_pos hhalf]
        have := Int.tdiv_eq_ediv_of_nonneg (a := input.total) (b := 2) (by omega)
        simp only
        omega
      simp only
      rw [if_neg hmoved]
      exact ⟨fun hbad ↦ (by cases hbad), fun hbad ↦ absurd hhalf (not_lt.mpr hbad.2.1)⟩
    · have hsame : input.nice = input := by rw [Buffer.nice, if_neg hhalf]
      simp only [hsame]
      rw [if_pos hfull]
      by_cases hgrow : Buffer.grown input.total < 0 ∨ alloc (Buffer.grown input.total) = false
      · have hfail : input.grow alloc = (-1, input) := by rw [Buffer.grow, if_pos hgrow]
        simp only [hfail]
        exact ⟨fun _ ↦ ⟨by omega, not_lt.mp hhalf, hgrow⟩, fun _ ↦ by simp⟩
      · have hmore : input.grow alloc =
            (Buffer.grown input.total, { input with total := Buffer.grown input.total }) := by
          rw [Buffer.grow, if_neg hgrow]
        simp only [hmore]
        refine ⟨fun hbad ↦ ?_, fun hbad ↦ absurd hbad.2.2 hgrow⟩
        rw [not_or] at hgrow
        have : Buffer.grown input.total = -1 := by simpa using hbad
        omega
  · rw [if_neg hfull]
    exact ⟨fun hbad ↦ (by cases hbad), fun hbad ↦ absurd (by have := hbad.1; omega) hfull⟩

/-- On the beginning of a packet `recv` gives up only for want of memory. -/
theorem recv_null_iff {link : Link} (h : link.input.Wf) (alloc : Int → Bool)
    (hmore : scanPacket link.input.content = .more) (hpos : 0 < link.input.content.length) :
    (link.recv alloc).1.isNull ↔ CannotGrow alloc link.input := by
  have hfinds := parse_finds h
  have hlen := h.length_content
  rw [hmore] at hfinds
  obtain ⟨refs, hparse⟩ := hfinds.more
  rw [← makeRoom_fails h alloc, recv, if_neg (by omega), hparse]
  simp only
  cases (makeRoom alloc link.input).1 <;> simp [Recv.isNull]

/-- `recv` keeps the limit just when the input is not the beginning of a packet,
however long, or its buffer cannot grow any more. -/
theorem bounds_input_iff {link : Link} (h : link.input.Wf) (alloc : Int → Bool) :
    link.BoundsInput alloc ↔ link.input.content.length ≤ maxPacketSize + 32 ∨
      ¬ Unfinished link.input.content ∨ CannotGrow alloc link.input := by
  have hfinds := parse_finds h
  rw [← scanPacket_more_iff]
  cases hscan : scanPacket link.input.content with
  | item packet n =>
      refine ⟨fun _ ↦ .inr (.inl (by simp)), fun _ _ hnone ↦ ?_⟩
      rw [hscan] at hfinds
      obtain ⟨refs, hparse, -⟩ := hfinds.item
      have hle := scanRecords_item_le hscan (by simp) (scanPacket_ne_nil hscan)
      have := hnone refs n hparse
      omega
  | fail =>
      refine ⟨fun _ ↦ .inr (.inl (by simp)), fun _ _ _ ↦ ?_⟩
      obtain ⟨refs, hrecv⟩ := recv_fail h alloc hscan
      rw [hrecv]
      trivial
  | more =>
      rw [hscan] at hfinds
      obtain ⟨refs, hparse⟩ := hfinds.more
      constructor
      · intro hbounds
        by_cases hlong : maxPacketSize + 32 < link.input.content.length
        · refine .inr (.inr ((recv_null_iff h alloc hscan (by omega)).mp
            (hbounds hlong fun refs' n heq ↦ ?_)))
          rw [hparse] at heq
          cases heq
        · exact .inl (not_lt.mp hlong)
      · rintro (hshort | hfinished | hroom) hlong -
        · omega
        · exact absurd rfl hfinished
        · exact (recv_null_iff h alloc hscan (by omega)).mpr hroom

theorem bounds_input_iff_letter : (holding (ascii "x\n")).BoundsInput fun _ ↦ true := by
  have hwf : (holding (ascii "x\n")).input.Wf := holding_wf (by decide)
  exact (bounds_input_iff hwf fun _ ↦ true).mpr (.inl (by rw [holding_content]; decide))

/-- A connection that has received `n` line ends, in a buffer of 2^28 bytes. -/
def flooded (n : ℕ) : Link :=
  { Link.new 3 with input := ⟨fun _ ↦ 10, 0, n, 268435456⟩ }

theorem slice_const (b : UInt8) (a : Int) (n : ℕ) :
    slice (fun _ ↦ b) a n = List.replicate n b := by
  induction n generalizing a with
  | zero => rfl
  | succ n ih => rw [slice, ih, List.replicate_succ]

theorem flooded_wf {n : ℕ} (hn : n ≤ 268435456) : (flooded n).input.Wf :=
  ⟨le_rfl, by simp [flooded], by simpa [flooded] using by omega, by simp [flooded],
    by simp [flooded]⟩

theorem flooded_content (n : ℕ) : (flooded n).input.content = List.replicate n 10 := by
  simp only [flooded, Buffer.content, Int.toNat_natCast]
  exact slice_const 10 0 n

theorem flooded_more (n : ℕ) : scanPacket (flooded n).input.content = .more := by
  have hblank : (List.replicate n (10 : UInt8)).dropWhile isBlank = [] := by
    rw [List.dropWhile_eq_nil_iff]
    intro b hb
    rw [List.eq_of_mem_replicate hb]
    decide
  rw [flooded_content, scanPacket_more_iff]
  exact ⟨[], [], hblank, by simp, by simp, .line (by simp)⟩

/-- The empty lines before a packet are not counted. -/
theorem not_bounds_input : ¬ (flooded (maxPacketSize + 33)).BoundsInput fun _ ↦ true := by
  have hmax : maxPacketSize = 134217728 := by decide
  generalize hn : maxPacketSize + 33 = n
  intro hbounds
  have hwf : (flooded n).input.Wf := flooded_wf (by omega)
  have hlength : (flooded n).input.content.length = n := by
    rw [flooded_content, List.length_replicate]
  have hfinds := parse_finds hwf
  rw [flooded_more] at hfinds
  obtain ⟨refs, hparse⟩ := hfinds.more
  have hnull := hbounds (by omega) fun refs' m heq ↦ by
    rw [hparse] at heq
    cases heq
  rw [recv_null_iff hwf _ (flooded_more n) (by omega)] at hnull
  have hfull : (0 : Int) + (n : Int) = 268435456 := hnull.1
  omega

end Link

end GeminiDB
