import GeminiDB.Net.Link

/-!
# The input of a connection

What a call of `read` returns for the outcomes of its `::read` calls. The value
0 stands for the end of the stream, for a call that would block at once, and for
bytes that the end of the stream follows.
-/

namespace GeminiDB

def ReadResult.payload : ReadResult → Bytes
  | bytes bs => bs
  | _ => []

namespace Link

/-- The outcomes of the `::read` calls that the loop of `read` makes, with `room`
bytes of free space. -/
def seen (noblock : Bool) : ℕ → List ReadResult → List ReadResult
  | 0, _ => []
  | _ + 1, [] => [.wouldBlock]
  | room + 1, .intr :: results => .intr :: seen noblock (room + 1) results
  | room + 1, .bytes bs :: results =>
      let got := bs.take (room + 1)
      .bytes got ::
        if got ≠ [] ∧ noblock = true then seen noblock (room + 1 - got.length) results else []
  | _ + 1, result :: _ => [result]

/-- The input buffer when the loop of `read` begins. -/
def readInput (alloc : Int → Bool) (link : Link) : Buffer :=
  (if link.input.total = initBufferSize then (link.input.grow alloc).2 else link.input).nice

/-- The outcomes that a call of `read` meets. -/
def outcomes (alloc : Int → Bool) (results : List ReadResult) (link : Link) : List ReadResult :=
  seen link.noblock (link.readInput alloc).space.toNat results

def received (alloc : Int → Bool) (results : List ReadResult) (link : Link) : Bytes :=
  (link.outcomes alloc results).flatMap ReadResult.payload

/-- `read` returns the number of bytes it has received unless there was an error,
0 for the end of the stream before any byte, and makes `proc_request` give up the
link neither for a call that would block nor with bytes received before the end. -/
structure ReadFaithful (alloc : Int → Bool) (results : List ReadResult) (link : Link) : Prop where
  appended : (link.read alloc results).2.input.content =
    link.input.content ++ link.received alloc results
  positive : link.received alloc results ≠ [] → .error ∉ link.outcomes alloc results →
    0 < (link.read alloc results).1 ∧
      (link.read alloc results).1 = (link.received alloc results).length
  zero : (link.read alloc results).1 = 0 →
    .bytes [] ∈ link.outcomes alloc results ∧ link.received alloc results = []
  kept : link.error = false → (link.procRequest alloc results).error = true →
    .wouldBlock ∉ link.outcomes alloc results ∧
      (.bytes [] ∈ link.outcomes alloc results → link.received alloc results = [])

theorem readLoop_seen (noblock : Bool) (results : List ReadResult) {ret : ℕ} {input : Buffer}
    (h : input.Wf) (hret : ret + input.space < 2147483648) :
    let seen := seen noblock input.space.toNat results
    let r := readLoop noblock results ret input
    r.1 = (if .error ∈ seen then -1 else if .bytes [] ∈ seen then 0
      else ((ret + (seen.flatMap ReadResult.payload).length : ℕ) : Int)) ∧
      r.2.content = input.content ++ seen.flatMap ReadResult.payload := by
  induction results generalizing ret input with
  | nil =>
      rcases hroom : input.space.toNat with _ | room <;>
        simp [readLoop, seen, ReadResult.payload]
  | cons result results ih =>
      simp only [readLoop]
      rcases hroom : input.space.toNat with _ | room
      · rw [if_neg (by omega)]
        simp [seen]
      · rw [if_pos (by omega)]
        cases result with
        | intr =>
            have := ih h hret
            rw [hroom] at this
            simpa [seen, ReadResult.payload] using this
        | wouldBlock => simp [seen, ReadResult.payload]
        | error => simp [seen, ReadResult.payload]
        | bytes bs =>
            simp only [seen, ← hroom]
            generalize hgot : bs.take input.space.toNat = got
            have hle : got.length ≤ input.space.toNat := by
              rw [← hgot, List.length_take]
              omega
            rcases got with _ | ⟨b, got⟩
            · simp [ReadResult.payload]
            · have hfit : ((b :: got).length : Int) ≤ input.space := by omega
              obtain ⟨hwf, hcontent⟩ := h.put hfit
              have hspace := h.space_put hfit
              have hleft : (input.put (b :: got)).space.toNat =
                  input.space.toNat - (b :: got).length := by omega
              have hput : ({ input with
                  mem := Memory.store input.mem input.slot (b :: got) } : Buffer).incr
                    (b :: got).length = input.put (b :: got) := rfl
              rw [if_neg (by simp), hput, int32_add_natCast (by omega), ← hleft]
              generalize input.put (b :: got) = next at hwf hcontent hspace
              cases noblock with
              | false => simpa [ReadResult.payload] using hcontent
              | true =>
                  have hfits : ((ret + (b :: got).length : ℕ) : Int) + next.space < 2147483648 := by
                    push_cast
                    omega
                  obtain ⟨hret', hcontent'⟩ := ih hwf hfits
                  simp only [ne_eq, reduceCtorEq, not_false_eq_true, and_self, if_true,
                    List.mem_cons, ReadResult.bytes.injEq, false_or, List.flatMap_cons,
                    ReadResult.payload, List.length_append]
                  refine ⟨by rw [hret']; simp only [Nat.add_assoc], ?_⟩
                  rw [hcontent', hcontent, List.append_assoc]

theorem readLoop_wf (noblock : Bool) (results : List ReadResult) (ret : Int) {input : Buffer}
    (h : input.Wf) : (readLoop noblock results ret input).2.Wf := by
  induction results generalizing ret input with
  | nil => exact h
  | cons result results ih =>
      simp only [readLoop]
      split
      · cases result with
        | intr => exact ih ret h
        | wouldBlock => exact h
        | error => exact h
        | bytes bs =>
            dsimp only
            split
            · exact h
            · have hfit : ((bs.take input.space.toNat).length : Int) ≤ input.space := by
                rw [List.length_take]
                omega
              have hput := (h.put hfit).1
              split
              · exact ih _ hput
              · exact hput
      · exact h

/-- An error, the end of the stream and a call that would block end the loop. -/
theorem seen_ends (noblock : Bool) (room : ℕ) (results : List ReadResult) :
    (.error ∈ seen noblock room results →
        .bytes [] ∉ seen noblock room results ∧ .wouldBlock ∉ seen noblock room results) ∧
      (.bytes [] ∈ seen noblock room results → .wouldBlock ∉ seen noblock room results) := by
  induction results generalizing room with
  | nil => cases room <;> simp [seen]
  | cons result results ih =>
      rcases room with _ | room
      · simp [seen]
      · cases result with
        | intr => simpa [seen] using ih (room + 1)
        | wouldBlock => simp [seen]
        | error => simp [seen]
        | bytes bs =>
            simp only [seen]
            split
            · next hgot =>
              have := ih (room + 1 - (bs.take (room + 1)).length)
              simpa [hgot.1, eq_comm] using this
            · simp

/-- With room, a loop that receives nothing ends in one of these ways. -/
theorem seen_nothing (noblock : Bool) (room : ℕ) (results : List ReadResult)
    (hnothing : (seen noblock (room + 1) results).flatMap ReadResult.payload = [])
    (herror : .error ∉ seen noblock (room + 1) results)
    (hend : .bytes [] ∉ seen noblock (room + 1) results) :
    .wouldBlock ∈ seen noblock (room + 1) results := by
  induction results with
  | nil => simp [seen]
  | cons result results ih =>
      cases result with
      | intr =>
          simp only [seen, List.mem_cons, reduceCtorEq, false_or, List.flatMap_cons,
            ReadResult.payload, List.nil_append] at hnothing herror hend ⊢
          exact ih hnothing herror hend
      | wouldBlock => simp [seen]
      | error => simp [seen] at herror
      | bytes bs =>
          simp only [seen, List.flatMap_cons, ReadResult.payload, List.append_eq_nil_iff]
            at hnothing
          simp [seen, hnothing.1] at hend

theorem readInput_content (alloc : Int → Bool) {link : Link} (h : link.input.Wf) :
    (link.readInput alloc).Wf ∧ (link.readInput alloc).content = link.input.content ∧
      link.input.space ≤ (link.readInput alloc).space := by
  rw [readInput]
  split
  · obtain ⟨hwf, hcontent⟩ := h.grow_content alloc
    exact ⟨hwf.nice, by rw [Buffer.content_nice, hcontent],
      (h.space_grow alloc).trans hwf.space_nice⟩
  · exact ⟨h.nice, Buffer.content_nice _, h.space_nice⟩

theorem procRequest_wf (alloc : Int → Bool) (results : List ReadResult) {link : Link}
    (h : link.input.Wf) : (link.procRequest alloc results).input.Wf := by
  have hread : (link.read alloc results).2.input.Wf :=
    readLoop_wf link.noblock results 0 (readInput_content alloc h).1
  rw [procRequest]
  split
  · exact h
  · dsimp only
    split
    · exact hread
    · exact hread

theorem read_eq (alloc : Int → Bool) (results : List ReadResult) {link : Link}
    (h : link.input.Wf) :
    (link.read alloc results).1 =
        (if .error ∈ link.outcomes alloc results then -1
          else if .bytes [] ∈ link.outcomes alloc results then 0
          else ((link.received alloc results).length : Int)) ∧
      (link.read alloc results).2.input.content =
        link.input.content ++ link.received alloc results := by
  obtain ⟨hwf, hinput, -⟩ := readInput_content alloc h
  have hfits : ((0 : ℕ) : Int) + (link.readInput alloc).space < 2147483648 := by
    have := hwf.space_eq
    have := hwf.data
    have := hwf.size
    have := hwf.total
    omega
  have hloop := readLoop_seen link.noblock results hwf hfits
  simp only [hinput, Nat.cast_zero, Nat.zero_add] at hloop
  exact hloop

/-- `read` is right just when the end of the stream does not follow bytes of the
same call and the call does not block before any byte. -/
theorem read_faithful_iff (alloc : Int → Bool) (results : List ReadResult) {link : Link}
    (h : link.input.Wf) (hspace : 0 < link.input.space) :
    ReadFaithful alloc results link ↔
      (.bytes [] ∈ link.outcomes alloc results → link.received alloc results = []) ∧
        (.wouldBlock ∈ link.outcomes alloc results → link.received alloc results ≠ []) := by
  obtain ⟨hret, hcontent⟩ := read_eq alloc results h
  obtain ⟨-, -, hroom⟩ := readInput_content alloc h
  obtain ⟨herror, hend⟩ := seen_ends link.noblock (link.readInput alloc).space.toNat results
  have hnothing := seen_nothing link.noblock ((link.readInput alloc).space.toNat - 1) results
  rw [Nat.sub_add_cancel (by omega)] at hnothing
  change .error ∈ link.outcomes alloc results → _ at herror
  change .bytes [] ∈ link.outcomes alloc results → _ at hend
  change link.received alloc results = [] → .error ∉ link.outcomes alloc results → _ at hnothing
  constructor
  · intro hfaithful
    refine ⟨fun hbytes ↦ ?_, fun hblock hnil ↦ ?_⟩
    · by_contra hne
      have hgood : .error ∉ link.outcomes alloc results := fun hbad ↦ (herror hbad).1 hbytes
      have hpos := (hfaithful.positive hne hgood).1
      rw [hret, if_neg hgood, if_pos hbytes] at hpos
      omega
    · have hgood : .error ∉ link.outcomes alloc results := fun hbad ↦ (herror hbad).2 hblock
      have hopen : .bytes [] ∉ link.outcomes alloc results := fun hbytes ↦ hend hbytes hblock
      rw [if_neg hgood, if_neg hopen, hnil] at hret
      exact hopen (hfaithful.zero hret).1
  · rintro ⟨hbytes, hblock⟩
    have hlength {P : Prop} (hgood : .error ∉ link.outcomes alloc results)
        (hne : link.received alloc results ≠ []) (hstop : (link.read alloc results).1 ≤ 0) : P := by
      have hopen : .bytes [] ∉ link.outcomes alloc results := fun hbad ↦ hne (hbytes hbad)
      have := List.length_pos_iff.mpr hne
      rw [hret, if_neg hgood, if_neg hopen] at hstop
      omega
    refine ⟨hcontent, fun hne hgood ↦ ?_, fun hzero ↦ ?_, fun hlink hmark ↦ ?_⟩
    · have hopen : .bytes [] ∉ link.outcomes alloc results := fun hbad ↦ hne (hbytes hbad)
      have := List.length_pos_iff.mpr hne
      rw [hret, if_neg hgood, if_neg hopen]
      omega
    · have hgood : .error ∉ link.outcomes alloc results := fun hbad ↦ by
        rw [hret, if_pos hbad] at hzero
        omega
      have hnil : link.received alloc results = [] := by
        by_contra hne
        exact hlength hgood hne hzero.le
      refine ⟨?_, hnil⟩
      by_contra hopen
      exact hblock (hnothing hnil hgood hopen) hnil
    · refine ⟨fun hbad ↦ ?_, hbytes⟩
      have hgood : .error ∉ link.outcomes alloc results := fun herr ↦ (herror herr).2 hbad
      refine hlength hgood (hblock hbad) (not_lt.mp fun hpos ↦ ?_)
      simp only [procRequest, hlink, Bool.false_eq_true, if_false] at hmark
      rw [if_neg (not_le.mpr hpos)] at hmark
      exact absurd hmark (by simp [read, hlink])

theorem read_faithful_iff_bytes :
    ReadFaithful (fun _ ↦ true) [.intr, .bytes [49, 10], .wouldBlock]
      { Link.new 3 with noblock := true } := by
  have hwf : ({ Link.new 3 with noblock := true } : Link).input.Wf :=
    Buffer.wf_new (by decide) (by decide)
  exact (read_faithful_iff (fun _ ↦ true) [.intr, .bytes [49, 10], .wouldBlock] hwf
    (by decide +kernel)).mpr (by decide +kernel)

/-- A request and the end of the stream in one call: the request is dropped. -/
theorem read_unfaithful : ¬ ReadFaithful (fun _ ↦ true) [.bytes [49, 10, 97, 10, 10], .bytes []]
    { Link.new 3 with noblock := true } := fun hread ↦
  absurd (hread.positive (by decide +kernel) (by decide +kernel)).1 (by decide +kernel)

end Link

end GeminiDB
