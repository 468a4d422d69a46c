import GeminiDB.Net.Link
import GeminiDB.Util.Growth

/-!
# Sends that run out of memory

`send` answers 0 whether or not its appends have succeeded, each of which may or may
not find memory. The packet is complete just when the output buffer can be grown far
enough for all of it, every growth by the append that asks for it.
-/

namespace GeminiDB

open Buffer

namespace Link

/-- A size that the buffers of a connection can have. -/
def Capacity (total : Int) : Prop :=
  Relation.ReflTransGen (GrowsTo fun _ ↦ true) initBufferSize total

/-- How large the allocation has to be for each append of a packet behind `used` bytes.
A record asks for 17 bytes more than its own. -/
def needs : Int → List Bytes → List Int
  | used, [] => [used + 1]
  | used, s :: resp => (used + (s.length + 17)) :: needs (used + (encodeRecord s).length) resp

/-- The buffer `after` holds the packet behind what `before` holds. -/
structure Queued (resp : List Bytes) (before after : Buffer) : Prop where
  wf : after.Wf
  content : after.content = before.content ++ encodePacket resp

/-- A send reports 0 for a queued packet, and otherwise -1 without the end of a
packet behind only some of the elements. -/
def SendFaithful (resp : List Bytes) (before : Buffer) (r : Int × Link) : Prop :=
  (r.1 = 0 → Queued resp before r.2.output) ∧
    (r.1 ≠ 0 → r.1 = -1 ∧ ∀ kept : List Bytes, kept.Sublist resp → kept ≠ resp →
      r.2.output.content ≠ before.content ++ encodePacket kept)

theorem Capacity.range {total : Int} (h : Capacity total) :
    8 ∣ total ∧ 0 < total ∧ total ≤ 2147483640 := by
  induction h with
  | refl => decide
  | tail _ hstep ih =>
      have hlt := hstep.lt ih.2.1 (by omega)
      obtain ⟨rfl, -, -⟩ := hstep
      unfold grown int32 at hlt ⊢
      split_ifs at hlt ⊢ <;> omega

theorem Capacity.reaches {alloc : Int → Bool} {total n : Int} (h : Capacity total)
    (hn : Relation.ReflTransGen (GrowsTo alloc) total n) : Capacity n := by
  induction hn with
  | refl => exact h
  | tail _ hstep ih => exact ih.tail ⟨hstep.1, hstep.2.1, rfl⟩

theorem Capacity.appendPacket {b : Buffer} (h : Capacity b.total) (allocs : ℕ → Int → Bool)
    (resp : List Bytes) : Capacity (appendPacket allocs resp b).2.total := by
  induction resp generalizing b allocs with
  | nil =>
      rw [Link.appendPacket]
      exact h.reaches (append_reaches (allocs 0) [10] b)
  | cons s resp ih =>
      rw [Link.appendPacket]
      exact ih (h.reaches (appendRecord_reaches (allocs 0) s b)) fun i ↦ allocs (i + 1)

/-- A record asks for more than its own size. -/
theorem le_needs {used : Int} (hused : 0 ≤ used) {resp : List Bytes} {s : Bytes} (hs : s ∈ resp) :
    ∃ need ∈ needs used resp, (s.length : Int) + 17 ≤ need := by
  induction resp generalizing used with
  | nil => cases hs
  | cons r resp ih =>
      rw [needs]
      rcases List.mem_cons.mp hs with rfl | hs
      · exact ⟨_, List.mem_cons_self, by omega⟩
      · obtain ⟨need, hneed, hle⟩ := @ih (used + (encodeRecord r).length) (by omega) hs
        exact ⟨need, List.mem_cons_of_mem _ hneed, hle⟩

/-- What the append of a record of `s` does: it finds room when the allocation can be
grown to hold it, and then grows it no further. -/
theorem appendRecord_room {b : Buffer} (h : b.Wf) (alloc : Int → Bool) {s : Bytes}
    (hs : s.length + 17 < 2 ^ 31) :
    ((b.appendRecord alloc s).1 ≠ -1 ↔
        CanHold alloc b.total (b.data + b.size + (s.length + 17))) ∧
      ((b.appendRecord alloc s).1 ≠ -1 →
        (b.appendRecord alloc s).2.data = b.data ∧
        (b.appendRecord alloc s).2.size = b.size + (encodeRecord s).length ∧
        b.data + b.size + (s.length + 17) ≤ (b.appendRecord alloc s).2.total ∧
        Relation.ReflTransGen (GrowsFor alloc (b.data + b.size + (s.length + 17))) b.total
          (b.appendRecord alloc s).2.total) := by
  have hreach := h.growUntil_growsFor alloc (s.length + 17) Buffer.rounds
  have hlen := length_encodeRecord_le hs
  obtain ⟨n, heq, hle, hlt, hspace⟩ := h.growUntil alloc (s.length + 17) Buffer.rounds
  have hwf := h.extend hle hlt
  rw [heq] at hreach
  rw [appendRecord_eq alloc hs, heq, ← h.growUntil_iff]
  cases hgrow : (Buffer.growUntil alloc (s.length + 17) Buffer.rounds b).1 with
  | false => simp
  | true =>
      have hroom := hspace hgrow
      have hput := hwf.put (show ((encodeRecord s).length : Int) ≤ _ from by omega)
      have hsize := hput.1.length_content
      have hbefore := h.length_content
      rw [hput.2, List.length_append] at hsize
      rw [hwf.space_eq] at hroom
      refine ⟨by simp, fun _ ↦ ⟨rfl, ?_, ?_, hreach⟩⟩
      · change ((b.content.length + _ : ℕ) : Int) = _ at hsize
        simp only [if_true]
        omega
      · simp only at hroom
        change b.data + b.size + _ ≤ n
        omega

/-- The appends of a packet all succeed just when the allocation can be grown for
each of them in its turn. -/
theorem appendPacket_iff {output : Buffer} (h : output.Wf) (allocs : ℕ → Int → Bool)
    {resp : List Bytes} (hresp : ∀ s ∈ resp, s.length + 17 < 2 ^ 31) :
    (appendPacket allocs resp output).1 = true ↔
      CanHoldAll allocs (needs (output.data + output.size) resp) output.total := by
  induction resp generalizing output allocs with
  | nil =>
      have hsuccess : (appendPacket allocs [] output).1 = true ↔
          CanHold (allocs 0) output.total (output.data + output.size + 1) := by
        simp only [appendPacket,
          append_eq (allocs 0) (show ([10] : Bytes).length < 2 ^ 31 by decide),
          List.length_singleton, Nat.cast_one]
        rw [← h.growUntil_iff]
        cases (Buffer.growUntil (allocs 0) 1 Buffer.rounds output).1 <;> simp
      rw [hsuccess, needs]
      refine ⟨fun hhold ↦ ?_, CanHoldAll.first⟩
      obtain ⟨n, hn, hneed⟩ := hhold.least
      exact (canHoldAll_cons h.pos h.total hn hneed).mpr canHoldAll_nil
  | cons s resp ih =>
      have hs := hresp s List.mem_cons_self
      obtain ⟨hiff, hroom⟩ := appendRecord_room h (allocs 0) hs
      obtain ⟨hwf, -⟩ := h.appendRecord (allocs 0) hs
      have hrest := ih hwf (fun i ↦ allocs (i + 1)) fun r hr ↦ hresp r (List.mem_cons_of_mem s hr)
      simp only [appendPacket, needs, Bool.and_eq_true, decide_eq_true_eq]
      rw [hrest]
      constructor
      · rintro ⟨hfirst, hlater⟩
        obtain ⟨hdata, hsize, htotal, hreach⟩ := hroom hfirst
        rw [hdata, hsize, ← Int.add_assoc] at hlater
        exact (canHoldAll_cons h.pos h.total hreach htotal).mpr hlater
      · intro hhold
        have hfirst := hiff.mpr hhold.first
        obtain ⟨hdata, hsize, htotal, hreach⟩ := hroom hfirst
        refine ⟨hfirst, ?_⟩
        rw [hdata, hsize, ← Int.add_assoc]
        exact (canHoldAll_cons h.pos h.total hreach htotal).mp hhold

/-- An append that fails leaves the content too short. -/
theorem appendPacket_length {output : Buffer} (h : output.Wf) (allocs : ℕ → Int → Bool)
    {resp : List Bytes} (hresp : ∀ s ∈ resp, s.length + 17 < 2 ^ 31) :
    (appendPacket allocs resp output).2.content.length ≤
        output.content.length + (encodePacket resp).length ∧
      ((appendPacket allocs resp output).1 = false →
        (appendPacket allocs resp output).2.content.length <
          output.content.length + (encodePacket resp).length) := by
  induction resp generalizing output allocs with
  | nil =>
      obtain ⟨-, hcontent⟩ := h.append (allocs 0) (show ([10] : Bytes).length < 2 ^ 31 by decide)
      rw [appendPacket]
      generalize output.append (allocs 0) [10] = r at hcontent ⊢
      simp only [hcontent, encodePacket, List.flatMap_nil, List.nil_append,
        decide_eq_false_iff_not, not_not, List.length_singleton]
      refine ⟨by split <;> simp, fun hfail ↦ ?_⟩
      rw [if_pos hfail]
      omega
  | cons s resp ih =>
      obtain ⟨hwf, hcontent⟩ := h.appendRecord (allocs 0) (hresp s List.mem_cons_self)
      obtain ⟨hle, hlt⟩ := ih hwf (fun i ↦ allocs (i + 1)) fun r hr ↦
        hresp r (List.mem_cons_of_mem s hr)
      have hpos : 0 < (encodeRecord s).length := by simp [encodeRecord]
      have hlen : (encodePacket (s :: resp)).length =
          (encodeRecord s).length + (encodePacket resp).length := by
        simp [encodePacket]
      have hkept := congrArg List.length hcontent
      rw [apply_ite List.length, List.length_append] at hkept
      rw [appendPacket, hlen]
      generalize appendPacket (fun i ↦ allocs (i + 1)) resp (output.appendRecord (allocs 0) s).2 = q
        at hle hlt ⊢
      generalize output.appendRecord (allocs 0) s = r at hle hlt hkept ⊢
      simp only [Bool.and_eq_false_iff, decide_eq_false_iff_not, not_not]
      split at hkept
      · exact ⟨by omega, fun _ ↦ by omega⟩
      · next hgrow =>
        refine ⟨by omega, fun hfail ↦ ?_⟩
        have := hlt (hfail.resolve_left hgrow)
        omega

theorem length_lt_encodePacket_of_mem {resp : List Bytes} {s : Bytes} (h : s ∈ resp) :
    (encodeRecord s).length < (encodePacket resp).length := by
  have hsub := (List.sublist_flatten_of_mem (List.mem_map_of_mem (f := encodeRecord) h)).length_le
  simp only [encodePacket, List.length_append, List.length_singleton, List.flatMap_def]
  omega

/-- The packet is queued just when the buffer can be grown for all of its appends. -/
theorem queued_iff {output : Buffer} (h : output.Wf) (hcap : Capacity output.total)
    (allocs : ℕ → Int → Bool) (resp : List Bytes) :
    Queued resp output (appendPacket allocs resp output).2 ↔
      CanHoldAll allocs (needs (output.data + output.size) resp) output.total := by
  by_cases hresp : ∀ s ∈ resp, s.length + 17 < 2 ^ 31
  · rw [← appendPacket_iff h allocs hresp]
    obtain ⟨hwf, hcontent⟩ := appendPacket_content allocs h hresp
    constructor
    · intro hqueued
      have hlength := congrArg List.length hqueued.content
      rw [List.length_append] at hlength
      by_contra hfail
      have := (appendPacket_length h allocs hresp).2 (by simpa using hfail)
      omega
    · exact fun hgrow ↦ ⟨hwf, hcontent hgrow⟩
  · -- a record this long fits into no buffer
    simp only [not_forall, not_lt] at hresp
    obtain ⟨s, hs, hlong⟩ := hresp
    constructor
    · intro hqueued
      exfalso
      have hmax := (hcap.appendPacket allocs resp).range
      have hfits := hqueued.wf.fits
      have hdata := hqueued.wf.data
      have hlength := hqueued.wf.length_content
      have hpacket := length_lt_encodePacket_of_mem hs
      have hdigits := Decimal.lt_length_digits (n := s.length) (k := 9) (by decide) (by omega)
      rw [hqueued.content, List.length_append] at hlength
      simp only [encodeRecord, List.length_append, List.length_cons, List.length_nil] at hpacket
      omega
    · rintro ⟨n, hn, hall⟩
      exfalso
      have := series_range hn h.pos h.total
      have hused : 0 ≤ output.data + output.size := Int.add_nonneg h.data h.size
      obtain ⟨need, hneed, hle⟩ := le_needs hused hs
      have := hall need hneed
      omega

/-- `send` is right just when the packet has at least one element and the output
buffer can be grown for all appends of the packet; the other sends need only that. -/
theorem send_faithful_iff {link : Link} (h : link.output.Wf) (hcap : Capacity link.output.total)
    (allocs : ℕ → Int → Bool) (resp : List Bytes) :
    (SendFaithful resp link.output (link.send allocs resp) ↔
        resp ≠ [] ∧ CanHoldAll allocs (needs (link.output.data + link.output.size) resp)
          link.output.total) ∧
      (SendFaithful resp link.output (link.sendBytes allocs resp) ↔
        CanHoldAll allocs (needs (link.output.data + link.output.size) resp)
          link.output.total) := by
  have hbytes : SendFaithful resp link.output (link.sendBytes allocs resp) ↔
      CanHoldAll allocs (needs (link.output.data + link.output.size) resp) link.output.total := by
    rw [← queued_iff h hcap allocs resp]
    exact ⟨fun hsend ↦ hsend.1 rfl, fun hqueued ↦ ⟨fun _ ↦ hqueued, fun hne ↦ absurd rfl hne⟩⟩
  refine ⟨?_, hbytes⟩
  by_cases hnil : resp = []
  · subst hnil
    refine ⟨fun hsend ↦ ?_, fun hne ↦ absurd rfl hne.1⟩
    have hcontent := (hsend.1 rfl).content
    exact absurd hcontent (by simp [encodePacket])
  · rw [send_of_ne allocs hnil, hbytes]
    exact ⟨fun hhold ↦ ⟨hnil, hhold⟩, fun hhold ↦ hhold.2⟩

/-- The first append gets 8192 bytes; that no other gets any does not matter. -/
theorem send_faithful_iff_new :
    SendFaithful [[111, 107], [120]] (Link.new 3).output
      ((Link.new 3).send (fun i _ ↦ i = 0) [[111, 107], [120]]) := by
  have hgrow : SeriesGrows (fun i _ ↦ i = 0) (needs (0 + 0) [[111, 107], [120]]) 8 8192 :=
    ⟨rfl, by decide, by decide⟩
  have hhold : CanHoldAll (fun i _ ↦ i = 0) (needs (0 + 0) [[111, 107], [120]]) 8 :=
    ⟨8192, .single hgrow, by decide⟩
  exact (@send_faithful_iff (Link.new 3) (Buffer.wf_new (by decide) (by decide)) .refl
    (fun i _ ↦ i = 0) [[111, 107], [120]]).1.mpr ⟨by decide, hhold⟩

/-- There is no memory for the first element, and when the second one asks for the same
size there is: the packet ends without its first element. -/
theorem send_unfaithful : ¬ SendFaithful [[111, 107], [120]] (Link.new 3).output
    ((Link.new 3).send (fun i _ ↦ i = 1) [[111, 107], [120]]) := fun hsend ↦
  absurd (hsend.1 rfl).content (by decide +kernel)

end Link

end GeminiDB
