import GeminiDB.Net.Link

/-!
# What `recv` accepts

The parser of `recv`, on addresses and `int`s, finds what `scanPacket` finds in
the content of the input buffer.
-/

namespace GeminiDB

open Memory Decimal Scanner

theorem splitLine_eq_none {s : Bytes} (h : 10 ∉ s) : splitLine s = none := by
  cases hline : splitLine s with
  | none => rfl
  | some p =>
      obtain ⟨line, after⟩ := p
      exact absurd (by simp [(splitLine_eq_some.mp hline).1]) h

theorem atoi_range (s : Bytes) : -2147483648 ≤ atoi s ∧ atoi s < 2147483648 := int32_range _

theorem scanRecords_ne_nil {k parsed n : ℕ} {acc packet : List Bytes} {s : Bytes} (hacc : acc ≠ [])
    (h : scanRecords k parsed acc s = .item packet n) : packet ≠ [] := by
  induction k generalizing parsed acc s with
  | zero => cases h
  | succ k ih =>
      rw [scanRecords] at h
      cases hscan : scanRecord s with
      | packetEnd m =>
          simp only [hscan, Outcome.item.injEq] at h
          exact h.1 ▸ hacc
      | record body m =>
          simp only [hscan] at h
          split at h
          · cases h
          · exact ih (by simp) h
      | fail => simp [hscan] at h
      | more => simp [hscan] at h

/-- After the empty lines are skipped, no packet is empty. -/
theorem scanPacket_ne_nil {s : Bytes} {packet : List Bytes} {n : ℕ}
    (h : scanPacket s = .item packet n) : packet ≠ [] := by
  rw [scanPacket] at h
  generalize hbody : s.dropWhile isBlank = body at h
  cases body with
  | nil => cases h
  | cons b body =>
      have hb : isBlank b = false := by
        have := List.head?_dropWhile_not isBlank s
        simpa [hbody] using this
      simp only [isBlank, Bool.or_eq_false_iff, beq_eq_false_iff_ne] at hb
      rw [List.length_cons, scanRecords] at h
      cases hscan : scanRecord (b :: body) with
      | packetEnd m =>
          exfalso
          rw [scanRecord, splitLine, if_neg hb.1] at hscan
          cases hline : splitLine body with
          | none => simp [hline] at hscan
          | some p =>
              simp only [hline, Option.map_some, Prod.map, id_eq] at hscan
              rw [if_neg (by simp [hb.2])] at hscan
              split at hscan
              · cases hscan
              · split at hscan
                · cases hscan
                · split at hscan <;> cases hscan
      | record record m =>
          simp only [hscan] at h
          split at h
          · cases h
          · exact scanRecords_ne_nil (by simp) h
      | fail => simp [hscan] at h
      | more => simp [hscan] at h

theorem separatorAt_eq (mem : Int → UInt8) (head : Int) (n : ℕ) :
    Link.separatorAt mem head n =
      (separator (slice mem head n)).map (Option.map (Nat.cast : ℕ → Int)) := by
  rcases n with _ | _ | n
  · rfl
  · by_cases hline : mem head = 10 <;> simp [slice, separator, Link.separatorAt, hline]
  · have htwo : (2 : Int) ≤ ((n + 1 + 1 : ℕ) : Int) := by omega
    have hone : (1 : Int) ≤ ((n + 1 + 1 : ℕ) : Int) := by omega
    simp only [slice, separator, Link.separatorAt, ge_iff_le, htwo, hone, true_and, if_true]
    split_ifs <;> rfl

namespace Link

variable {mem : Int → UInt8}

theorem splitLine_slice {head : Int} {size j : ℕ} (hj : j < size) (hend : mem (head + j) = 10)
    (hnot : 10 ∉ slice mem head j) :
    splitLine (slice mem head size) =
      some (slice mem head j, slice mem (head + j + 1) (size - (j + 1))) := by
  obtain ⟨m, rfl⟩ : ∃ m, size = j + (m + 1) := ⟨size - j - 1, by omega⟩
  refine splitLine_eq_some.mpr ⟨?_, hnot⟩
  rw [slice_add, slice, hend, show j + (m + 1) - (j + 1) = m by omega]

theorem line_eq_nil (head : Int) (j : ℕ) : slice mem head j = [] ↔ j = 0 := by
  rw [← List.length_eq_zero_iff, length_slice]

theorem line_eq_cr (head : Int) (j : ℕ) : slice mem head j = [13] ↔ j = 1 ∧ mem head = 13 := by
  rcases j with _ | _ | j <;> simp [slice]

theorem isDigit_head (mem : Int → UInt8) (head : Int) {j : ℕ} (hj : 0 < j) :
    isDigit ((slice mem head j).headD 0) = false ↔ mem head < 48 ∨ mem head > 57 := by
  obtain ⟨j, rfl⟩ : ∃ m, j = m + 1 := ⟨j - 1, by omega⟩
  simp [slice, isDigit, imp_iff_not_or]

/-- A round of the parser finds what `scanRecord` finds. -/
def RecordParse.Finds (mem : Int → UInt8) : RecordParse → RecordScan → Prop
  | .packetEnd n, .packetEnd m => n = m
  | .record ref len n, .record body m =>
      ref.deref mem = body ∧ ∃ l c : ℕ, len = l ∧ n = c ∧ l + c = m
  | .badFormat _, .fail => True
  | .notReady _, .more => True
  | _, _ => False

theorem parseBody_finds {size j m : ℕ} {head : Int} (hj : j < size) (hsize : size < 2 ^ 31)
    (hm : (m : Int) < 2147483648) :
    RecordParse.Finds mem
      (if int32 (size - int32 ((j + 1 : ℕ) + m)) < 0 then .notReady none
        else match separatorAt mem (head + int32 ((j + 1 : ℕ) + m))
            (int32 (size - int32 ((j + 1 : ℕ) + m))) with
          | none => .notReady (some ⟨head + j + 1, m⟩)
          | some none => .badFormat (some ⟨head + j + 1, m⟩)
          | some (some n) => .record ⟨head + j + 1, m⟩ (int32 ((j + 1 : ℕ) + m)) n)
      (if size - (j + 1) < m then .more
        else match separator ((slice mem (head + j + 1) (size - (j + 1))).drop m) with
          | none => .more
          | some none => .fail
          | some (some n) => .record ((slice mem (head + j + 1) (size - (j + 1))).take m)
              (j + 1 + m + n)) := by
  -- the sum may wrap around, the difference does not
  have hleft : int32 (size - int32 ((j + 1 : ℕ) + m)) = size - ((j + 1 : ℕ) + m) := by
    unfold int32
    omega
  rw [hleft]
  clear hleft
  by_cases hmore : size - (j + 1) < m
  · rw [if_pos hmore, if_pos (by omega)]
    trivial
  · have hrest : (size : Int) - ((j + 1 : ℕ) + m) = (size - (j + 1) - m : ℕ) := by omega
    have hstart : head + ((j + 1 + m : ℕ) : Int) = head + j + 1 + m := by
      push_cast
      ring
    rw [if_neg hmore, if_neg (by omega), slice_drop _ _ (by omega), slice_take _ _ (by omega),
      int32_add_natCast (by omega), hrest, separatorAt_eq, hstart]
    cases separator (slice mem (head + j + 1 + m) (size - (j + 1) - m)) with
    | none => trivial
    | some sep =>
        cases sep with
        | none => trivial
        | some n => exact ⟨rfl, j + 1 + m, n, rfl, rfl, rfl⟩

theorem parseRecord_finds {size : ℕ} (head : Int) (hrange : size < 2 ^ 31) :
    (parseRecord mem head size).Finds mem (scanRecord (slice mem head size)) := by
  rw [parseRecord, Int.toNat_natCast]
  cases hfind : find mem 10 head size with
  | none =>
      rw [scanRecord, splitLine_eq_none (find_eq_none hfind)]
      trivial
  | some newline =>
      obtain ⟨j, hj, rfl, hend, hnot⟩ := find_eq_some hfind
      have hhead : int32 (head + j + 1 - head) = ((j + 1 : ℕ) : Int) := by
        rw [← int32_natCast (show j + 1 < 2 ^ 31 by omega)]
        congr 1
        push_cast
        ring
      obtain ⟨hlow, hhigh⟩ := atoi_range (slice mem head j)
      simp only [scanRecord, splitLine_slice hj hend hnot, hhead, length_slice]
      rw [show ((j + 1 : ℕ) : Int) - 1 = j by push_cast; ring, Int.toNat_natCast]
      clear hhead
      generalize atoi (slice mem head j) = bodyLen at hlow hhigh ⊢
      have hstop : (((j + 1 : ℕ) : Int) = 1 ∨ ((j + 1 : ℕ) : Int) = 2 ∧ mem head = 13) ↔
          (slice mem head j = [] ∨ slice mem head j = [13]) := by
        rw [line_eq_nil, line_eq_cr]
        exact or_congr (by omega) (and_congr_left' (by omega))
      rw [if_congr hstop rfl rfl]
      split
      · exact rfl
      · next hbody =>
        have hdigit := isDigit_head mem head
          (Nat.pos_of_ne_zero fun hzero ↦ hbody (.inl ((line_eq_nil head j).mpr hzero)))
        by_cases hchar : mem head < 48 ∨ mem head > 57
        · rw [if_pos hchar, if_pos (.inl (hdigit.mpr hchar))]
          trivial
        · by_cases hlong : ((j + 1 : ℕ) : Int) > 20 - 1
          · rw [if_neg hchar, if_pos hlong, if_pos (by omega)]
            trivial
          · by_cases hneg : bodyLen < 0
            · rw [if_neg hchar, if_neg hlong, if_pos hneg, if_pos (by omega)]
              trivial
            · have hgood : ¬ (isDigit ((slice mem head j).headD 0) = false ∨ 19 < j + 1 ∨
                  bodyLen < 0) := by
                rintro (hbad | hbad | hbad)
                · exact hchar (hdigit.mp hbad)
                · omega
                · exact hneg hbad
              rw [if_neg hchar, if_neg hlong, if_neg hneg, if_neg hgood]
              obtain ⟨m, rfl⟩ := Int.eq_ofNat_of_zero_le (not_lt.mp hneg)
              rw [Int.toNat_natCast]
              exact parseBody_finds hj hrange hhigh

/-- The end of a parse in terms of the bytes it has read. -/
def Parse.Finds (mem : Int → UInt8) : Parse → Outcome (List Bytes) → Prop
  | .packetEnd refs n, .item packet m => refs.map (BytesRef.deref mem) = packet ∧ n = m
  | .badFormat _, .fail => True
  | .notReady _, .more => True
  | _, _ => False

theorem Parse.Finds.item {p : Parse} {packet : List Bytes} {n : ℕ}
    (h : p.Finds mem (.item packet n)) :
    ∃ refs, p = .packetEnd refs n ∧ refs.map (BytesRef.deref mem) = packet := by
  cases p with
  | packetEnd refs parsed => exact ⟨refs, by rw [h.2], h.1⟩
  | badFormat => exact h.elim
  | notReady => exact h.elim

theorem Parse.Finds.fail {p : Parse} (h : p.Finds mem .fail) : ∃ refs, p = .badFormat refs := by
  cases p with
  | packetEnd => exact h.elim
  | badFormat refs => exact ⟨refs, rfl⟩
  | notReady => exact h.elim

theorem Parse.Finds.more {p : Parse} (h : p.Finds mem .more) : ∃ refs, p = .notReady refs := by
  cases p with
  | packetEnd => exact h.elim
  | badFormat => exact h.elim
  | notReady refs => exact ⟨refs, rfl⟩

theorem parseRecords_finds {k size parsed : ℕ} {head : Int} (recvData : List BytesRef)
    (hrange : parsed + size < 2 ^ 31) :
    (parseRecords mem k head size parsed recvData).Finds mem
      (scanRecords k parsed (recvData.map (BytesRef.deref mem)) (slice mem head size)) := by
  induction k generalizing head size parsed recvData with
  | zero => trivial
  | succ k ih =>
      rw [parseRecords, scanRecords]
      generalize maxPacketSize = limit
      split
      · have hrecord : (parseRecord mem head size).Finds mem (scanRecord (slice mem head size)) :=
          parseRecord_finds head (by omega)
        have hlen := (scanRecord_consumed (slice mem head size)).1
        rw [length_slice] at hlen
        generalize parseRecord mem head size = p at hrecord ⊢
        generalize scanRecord (slice mem head size) = q at hrecord hlen ⊢
        cases p <;> cases q <;> try exact absurd hrecord id
        case packetEnd.packetEnd n m =>
          obtain rfl : n = m := hrecord
          exact ⟨rfl, int32_add_natCast (by simp only [RecordScan.consumed] at hlen; omega)⟩
        case record.record ref len n body m =>
          obtain ⟨rfl, l, c, rfl, rfl, rfl⟩ := hrecord
          simp only [RecordScan.consumed] at hlen
          have hnext : head + l + c = head + ((l + c : ℕ) : Int) := by
            push_cast
            ring
          have hacc : recvData.map (BytesRef.deref mem) ++ [ref.deref mem] =
              (recvData ++ [ref]).map (BytesRef.deref mem) := by simp
          simp only [hnext, hacc]
          rw [int32_add_natCast (m := parsed) (by omega), int32_add_natCast (by omega),
            int32_sub_natCast (m := size) (by omega) (by omega),
            int32_sub_natCast (by omega) (by omega), slice_drop _ _ hlen, ← Nat.sub_sub]
          by_cases hmax : limit < parsed + (l + c)
          · rw [if_pos hmax, if_pos (by omega)]
            trivial
          · rw [if_neg hmax, if_neg (by omega), Nat.add_assoc]
            exact ih _ (by omega)
        all_goals trivial
      · next hsize =>
        obtain rfl : size = 0 := by omega
        trivial

theorem skipLines_eq (mem : Int → UInt8) (head : Int) (n : ℕ) :
    slice mem (skipLines mem head n).1 (skipLines mem head n).2 =
        (slice mem head n).dropWhile isBlank ∧
      (skipLines mem head n).1 - head = ((n - (skipLines mem head n).2 : ℕ) : Int) ∧
      (skipLines mem head n).2 ≤ n := by
  induction n generalizing head with
  | zero => simp [skipLines, slice]
  | succ n ih =>
      rw [skipLines]
      split
      · next hblank =>
        obtain ⟨hslice, hparsed, hle⟩ := ih (head + 1)
        refine ⟨?_, by omega, by omega⟩
        rw [hslice, slice, List.dropWhile_cons_of_pos (by simpa [isBlank] using hblank)]
      · next hblank =>
        refine ⟨?_, by simp, le_rfl⟩
        simp only
        rw [slice, List.dropWhile_cons_of_neg (by simpa [isBlank] using hblank)]

/-- The parser of `recv` finds what `scanPacket` finds in the content. -/
theorem parse_finds {input : Buffer} (h : input.Wf) :
    (parse input).Finds input.mem (scanPacket input.content) := by
  obtain ⟨hslice, hparsed, hle⟩ := skipLines_eq input.mem input.data input.size.toNat
  have hrange : input.size < 2147483648 := by
    have := h.data
    have := h.fits
    have := h.total
    omega
  simp only [parse, hparsed]
  rw [scanPacket, Buffer.content, ← hslice, length_slice, length_slice]
  exact parseRecords_finds [] (by omega)

theorem makeRoom_content {input : Buffer} (h : input.Wf) (alloc : Int → Bool) :
    (makeRoom alloc input).2.Wf ∧ (makeRoom alloc input).2.content = input.content := by
  unfold makeRoom
  split
  · simp only
    split
    · obtain ⟨hwf, hcontent⟩ := h.nice.grow_content alloc
      exact ⟨hwf, hcontent.trans input.content_nice⟩
    · exact ⟨h.nice, by simp⟩
  · exact ⟨h, rfl⟩

variable {link : Link}

theorem recv_item (h : link.input.Wf) (alloc : Int → Bool) {packet : List Bytes} {n : ℕ}
    (hscan : scanPacket link.input.content = .item packet n) :
    ∃ refs, link.recv alloc =
        (.vector refs, { link with recvData := refs, input := link.input.decr n }) ∧
      refs.map (BytesRef.deref link.input.mem) = packet ∧ refs ≠ [] ∧
      n ≤ link.input.content.length := by
  have hn := (scanPacket_stable.consumed hscan)
  have hlen := h.length_content
  have hfinds := parse_finds h
  rw [recv, if_neg (by omega)]
  rw [hscan] at hfinds
  obtain ⟨refs, hparse, hrefs⟩ := hfinds.item
  rw [hparse]
  refine ⟨refs, rfl, hrefs, ?_, hn.2⟩
  rintro rfl
  exact scanPacket_ne_nil hscan hrefs.symm

theorem recv_fail (h : link.input.Wf) (alloc : Int → Bool)
    (hscan : scanPacket link.input.content = .fail) :
    ∃ refs, link.recv alloc = (.badFormat, { link with recvData := refs }) := by
  have hlen := h.length_content
  have hfinds := parse_finds h
  have hne : link.input.size ≠ 0 := by
    intro hzero
    rw [List.length_eq_zero_iff.mp (show link.input.content.length = 0 by omega),
      scanPacket_stable.nil] at hscan
    cases hscan
  rw [recv, if_neg hne]
  rw [hscan] at hfinds
  obtain ⟨refs, hparse⟩ := hfinds.fail
  rw [hparse]
  exact ⟨refs, rfl⟩

theorem recv_more (h : link.input.Wf) (alloc : Int → Bool)
    (hscan : scanPacket link.input.content = .more) :
    ∃ result refs input, link.recv alloc =
        (result, { link with recvData := refs, input := input }) ∧
      (result = .vector [] ∨ result = .noMemory) ∧ input.Wf ∧
      input.content = link.input.content := by
  have hfinds := parse_finds h
  have hroom := makeRoom_content h alloc
  rw [recv]
  split
  · exact ⟨_, _, _, rfl, .inl rfl, h, rfl⟩
  · rw [hscan] at hfinds
    obtain ⟨refs, hparse⟩ := hfinds.more
    rw [hparse]
    simp only
    split
    · exact ⟨_, _, _, rfl, .inl rfl, hroom.1, hroom.2⟩
    · exact ⟨_, _, _, rfl, .inr rfl, hroom.1, hroom.2⟩

end Link

end GeminiDB
