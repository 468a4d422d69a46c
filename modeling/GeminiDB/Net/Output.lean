import GeminiDB.Lib.Machine
import GeminiDB.Net.Link

/-!
# The output of a connection

The bytes that the socket has accepted and those still in the output buffer are
together the bytes that were appended, whatever the socket accepts at a time.
-/

namespace GeminiDB

namespace Link

/-- The bytes that the socket accepts during the loop of `write`. -/
def acceptedLoop (noblock : Bool) : List WriteResult → Buffer → Bytes
  | [], _ => []
  | result :: results, output =>
      if output.size > 0 then
        match result with
        | .intr => acceptedLoop noblock results output
        | .wouldBlock => []
        | .error => []
        | .accepted n =>
            let len := min n output.size.toNat
            if len = 0 then []
            else output.content.take len ++
              if noblock then acceptedLoop noblock results (output.decr len) else []
      else []

/-- The bytes that the socket accepts during a `write`. -/
def accepted (results : List WriteResult) (link : Link) : Bytes :=
  acceptedLoop link.noblock results link.output

theorem writeLoop_content (noblock : Bool) (results : List WriteResult) (ret : Int)
    {output : Buffer} (h : output.Wf) :
    (writeLoop noblock results ret output).2.Wf ∧
      acceptedLoop noblock results output ++ (writeLoop noblock results ret output).2.content =
        output.content := by
  induction results generalizing ret output with
  | nil => exact ⟨h.nice, output.content_nice⟩
  | cons result results ih =>
      have hstop : output.nice.Wf ∧ [] ++ output.nice.content = output.content :=
        ⟨h.nice, output.content_nice⟩
      simp only [writeLoop, acceptedLoop]
      split
      · cases result with
        | intr => exact ih ret h
        | wouldBlock => exact hstop
        | error => exact ⟨h, rfl⟩
        | accepted n =>
            have hlen := h.length_content
            have hsize := h.size
            simp only
            split
            · exact hstop
            · obtain ⟨hwf, hcontent⟩ := h.decr (n := min n output.size.toNat) (by omega)
              split
              · obtain ⟨hwf', hcontent'⟩ := ih (int32 (ret + min n output.size.toNat)) hwf
                refine ⟨by simpa using hwf', ?_⟩
                rw [List.append_assoc]
                refine (congrArg _ ?_).trans (List.take_append_drop _ _)
                rw [← hcontent]
                simpa using hcontent'
              · refine ⟨hwf.nice, ?_⟩
                rw [List.append_nil, Buffer.content_nice, hcontent, List.take_append_drop]
      · exact hstop

/-- A `write` moves bytes from the front of the output buffer to the socket. -/
theorem write_content (results : List WriteResult) {link : Link} (h : link.output.Wf) :
    (link.write results).2.output.Wf ∧
      link.accepted results ++ (link.write results).2.output.content = link.output.content :=
  writeLoop_content link.noblock results 0 h

end Link

/-! ## Sends and writes interleaved -/

/-- A connection, the bytes its socket has accepted and the packets appended to
its output buffer. -/
structure Outgoing where
  link : Link
  accepted : Bytes
  queued : List (List Bytes)

inductive OutputStep where
  | send (allocs : ℕ → Int → Bool) (resp : List Bytes)
  | sendBytes (allocs : ℕ → Int → Bool) (resp : List Bytes)
  | write (results : List WriteResult)
  | nice
  | grow (alloc : Int → Bool)

namespace Outgoing

def start (link : Link) : Outgoing := ⟨link, [], []⟩

def step (s : Outgoing) : OutputStep → Option Outgoing
  | .send allocs resp => some { s with
      link := (s.link.send allocs resp).2
      queued := s.queued ++ if resp = [] then [] else [resp] }
  | .sendBytes allocs resp => some { s with
      link := (s.link.sendBytes allocs resp).2
      queued := s.queued ++ [resp] }
  | .write results => some { s with
      link := (s.link.write results).2
      accepted := s.accepted ++ s.link.accepted results }
  | .nice => some { s with link := { s.link with output := s.link.output.nice } }
  | .grow alloc => some { s with link := { s.link with output := (s.link.output.grow alloc).2 } }

/-- The growth that a step needs succeeds. -/
def Grows (s : Outgoing) : OutputStep → Prop
  | .send allocs resp => s.link.sendGrows allocs resp = true
  | .sendBytes allocs resp => s.link.sendGrows allocs resp = true
  | _ => True

instance (s : Outgoing) (a : OutputStep) : Decidable (s.Grows a) := by
  cases a <;> unfold Grows <;> infer_instance

/-- Accepted and buffered bytes are the buffer's first content and the packets. -/
structure Streams (first : Bytes) (s : Outgoing) : Prop where
  wf : s.link.output.Wf
  bytes : s.accepted ++ s.link.output.content = first ++ s.queued.flatMap encodePacket

theorem Streams.step {first : Bytes} {s t : Outgoing} {a : OutputStep} (h : Streams first s)
    (hgrow : s.Grows a) (hstep : s.step a = some t) : Streams first t := by
  have happend {output : Buffer} {resp : List Bytes} (hwf : output.Wf)
      (hcontent : output.content = s.link.output.content ++ encodePacket resp) :
      Streams first ⟨{ s.link with output := output }, s.accepted, s.queued ++ [resp]⟩ := by
    refine ⟨hwf, ?_⟩
    simp only [hcontent, List.flatMap_append, ← List.append_assoc, h.bytes]
    simp
  cases a with
  | send allocs resp =>
      cases hstep
      by_cases hnil : resp = []
      · subst hnil
        exact ⟨h.wf, by simpa using h.bytes⟩
      · obtain ⟨hwf, hcontent⟩ := Link.sendBytes_content allocs h.wf hgrow
        rw [if_neg hnil, Link.send_of_ne allocs hnil]
        exact happend hwf hcontent
  | sendBytes allocs resp =>
      cases hstep
      obtain ⟨hwf, hcontent⟩ := Link.sendBytes_content allocs h.wf hgrow
      exact happend hwf hcontent
  | write results =>
      cases hstep
      obtain ⟨hwf, hcontent⟩ := Link.write_content results h.wf
      refine ⟨hwf, ?_⟩
      rw [← h.bytes, ← hcontent, List.append_assoc]
  | nice =>
      cases hstep
      exact ⟨h.wf.nice, by simpa using h.bytes⟩
  | grow alloc =>
      cases hstep
      obtain ⟨hwf, hcontent⟩ := h.wf.grow_content alloc
      refine ⟨hwf, ?_⟩
      rw [hcontent, h.bytes]

/-- However sends and writes follow each other, no byte of the output is lost,
repeated or moved, and `nice` never copies between overlapping places. -/
theorem output_stream {link : Link} (hwf : link.output.Wf) {s : Outgoing}
    (h : Machine.ReachableVia step Grows (start link) s) :
    s.accepted ++ s.link.output.content =
        link.output.content ++ s.queued.flatMap encodePacket ∧
      (s.link.output.data > s.link.output.total.tdiv 2 →
        s.link.output.size ≤ s.link.output.data) := by
  have hs : Streams link.output.content s :=
    h.invariant ⟨hwf, by simp [start]⟩ fun _ _ _ hs hgrow hstep ↦ hs.step hgrow hstep
  exact ⟨hs.bytes, hs.wf.nice_disjoint⟩

/-- Two packets, of which the socket takes three bytes and then one. -/
theorem output_stream_partial : ∃ s : Outgoing, s.accepted = [50, 10, 97, 98] ∧
    s.accepted ++ s.link.output.content = [] ++ s.queued.flatMap encodePacket := by
  have hstart : Machine.ReachableVia step Grows (start { Link.new 3 with noblock := true }) _ :=
    .refl step Grows _
  have hsend := hstart.step (a := .send (fun _ _ ↦ true) [[97, 98]]) (by decide +kernel) rfl
  have hwrite := hsend.step (a := .write [.accepted 3, .wouldBlock]) (by decide +kernel) rfl
  have hagain := hwrite.step (a := .send (fun _ _ ↦ true) [[]]) (by decide +kernel) rfl
  have hlast := hagain.step (a := .write [.intr, .accepted 1, .wouldBlock]) (by decide +kernel) rfl
  have hwf : ({ Link.new 3 with noblock := true } : Link).output.Wf :=
    Buffer.wf_new (by decide) (by decide)
  exact ⟨_, by decide +kernel, (output_stream hwf hlast).1⟩

end Outgoing

end GeminiDB
