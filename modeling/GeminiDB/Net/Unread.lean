import GeminiDB.Net.Pipeline
import Mathlib.Algebra.Order.BigOperators.Group.Finset

/-!
# Bytes that are not parsed

A link that was received from holds what is left of the bytes after the requests parsed.
Only reading adds to it, and a request takes something away. A link that waits for the
kernel holds less than a request.
-/

namespace GeminiDB

open Scanner

namespace NetworkServer

variable {S : Setup} {s s' : NetworkServer} {c c' : Conn} {a : Action} {link : Link} {o : World}

/-- The next request of the link cannot be parsed, or not yet. -/
def Unparsed (o : World) (link : Link) : Prop :=
  link.error = true ∨ ∀ req, req ≠ [] → (link.recv o.alloc).1 ≠ .vector req

/-- The number of bytes that were received and not parsed. -/
def Conn.unread (c : Conn) : ℕ := c.link.elim 0 fun link ↦ link.input.content.length

theorem unread_recv (hwf : link.input.Wf) (alloc : Int → Bool) :
    (link.recv alloc).2.input.content.length ≤ link.input.content.length ∧
      ∀ req, req ≠ [] → (link.recv alloc).1 = .vector req →
        (link.recv alloc).2.input.content.length < link.input.content.length := by
  cases hscan : scanPacket link.input.content with
  | item packet n =>
      obtain ⟨refs, hrecv, -, -, hle⟩ := Link.recv_item hwf alloc hscan
      have hpos := (scanPacket_stable.consumed hscan).1
      rw [hrecv]
      simp only [(hwf.decr hle).2, List.length_drop]
      exact ⟨by omega, fun _ _ _ ↦ by omega⟩
  | fail =>
      obtain ⟨refs, hrecv⟩ := Link.recv_fail hwf alloc hscan
      rw [hrecv]
      exact ⟨le_rfl, fun req _ heq ↦ by cases heq⟩
  | more =>
      obtain ⟨result, refs, input, hrecv, hresult, -, hcontent⟩ :=
        Link.recv_more hwf alloc hscan
      rw [hrecv]
      refine ⟨(congrArg List.length hcontent).le, fun req hne heq ↦ ?_⟩
      obtain rfl : result = .vector req := heq
      rcases hresult with heq | heq
      · exact absurd (Recv.vector.inj heq) hne
      · cases heq

theorem Flushed.input {after : Link} {sent : Option Bytes} (h : Flushed o link after sent) :
    after.input = link.input := by
  by_cases hempty : link.output.size = 0
  · rw [(h.empty hempty).1]
  · rw [(h.pending hempty).1]
    rfl

theorem Settled.unread_le {flags : Flags} {h : History} (hsettled : Settled o link flags h c) :
    c.unread ≤ link.input.content.length := by
  cases hsettled with
  | deleted => exact Nat.zero_le _
  | idle hflushed => exact (congrArg (·.content.length) hflushed.input).le
  | ready hflushed => exact (congrArg (·.content.length) hflushed.input).le

/-- The loop over the ready links only parses, and a request takes something away. -/
theorem Move.unread_ready (hmove : Move S (.ready o) c c') (hlink : c.link = some link)
    (hwf : link.input.Wf) :
    c'.unread ≤ c.unread ∧ (¬ Unparsed o link → c'.unread < c.unread) := by
  have hunread : c.unread = link.input.content.length := by rw [Conn.unread, hlink]; rfl
  obtain ⟨hle, hlt⟩ := unread_recv hwf o.alloc
  rw [hunread]
  cases hmove with
  | drop hplace herror =>
      cases hlink
      exact ⟨Nat.zero_le _, fun hnot ↦ absurd (.inl herror) hnot⟩
  | reject hplace hrecv =>
      cases hlink
      exact ⟨Nat.zero_le _, fun hnot ↦ absurd (.inr fun req _ ↦ hrecv req) hnot⟩
  | more hplace hrecv =>
      cases hlink
      refine ⟨hle, fun hnot ↦ absurd (.inr fun req hne heq ↦ hne ?_) hnot⟩
      exact Recv.vector.inj (heq.symm.trans hrecv)
  | queue hplace hrecv hne =>
      cases hlink
      exact ⟨hle, fun _ ↦ hlt _ hne hrecv⟩
  | @answer _ _ link' flags h req resp hplace hrecv hne hthread hresp =>
      cases hlink
      have hless := hlt req hne (by rw [hrecv])
      rw [hrecv] at hless
      have hsettled := (settle_settled (verdict S o link'.request) o (link'.send o.appends resp).2
        flags ((h.call.parse link'.request).answer link'.request resp link'
          (link'.send o.appends resp).2)).unread_le
      rw [input_send] at hsettled
      exact ⟨hsettled.trans hless.le, fun _ ↦ hsettled.trans_lt hless⟩

/-- Only an event adds bytes. -/
theorem Move.unread_le (hmove : Move S a c c') (hwf : ∀ link, c.link = some link → link.input.Wf)
    (hplace : (∃ o, a = .event o) → c.history.place = .finished) (hlive : c.link ≠ none) :
    c'.unread ≤ c.unread := by
  cases hmove with
  | accept => exact absurd rfl hlive
  | marked hidle => cases hidle.symm.trans (hplace ⟨_, rfl⟩)
  | read hidle => cases hidle.symm.trans (hplace ⟨_, rfl⟩)
  | result => exact (settle_settled ..).unread_le
  | drop => exact Nat.zero_le _
  | reject => exact Nat.zero_le _
  | more => exact (unread_recv (hwf _ rfl) _).1
  | queue => exact (unread_recv (hwf _ rfl) _).1
  | @answer o link link' flags h req resp _ hrecv =>
      have hle := (unread_recv (hwf _ rfl) o.alloc).1
      rw [hrecv] at hle
      have hsettled := (settle_settled (verdict S o link'.request) o (link'.send o.appends resp).2
        flags ((h.call.parse link'.request).answer link'.request resp link'
          (link'.send o.appends resp).2)).unread_le
      rw [input_send] at hsettled
      exact hsettled.trans hle
  | withdraw => exact le_rfl
  | @work p k o link link' flags h w sent hplace hsend hwrite =>
      have hinput : w.2.input = link.input := by
        rcases hwrite with ⟨rfl, -⟩ | ⟨rfl, -⟩
        · rw [hsend, input_send]
        · rw [Link.write, hsend, input_send]
      exact (congrArg (fun input : Buffer ↦ input.content.length) hinput).le

/-! ## What was received -/

/-- The requests parsed and the bytes left are what was received, and a link that waits for
the kernel holds less than a request. -/
def Drained (c : Conn) : Prop :=
  ∀ link, c.link = some link →
    Taken scanPacket c.history.received c.history.parsed link.input.content ∧
      (c.history.place = .idle → scanPacket link.input.content = .more)

theorem more_of_empty {input : Buffer} (hwf : input.Wf) (hsize : input.size = 0) :
    scanPacket input.content = .more := by
  have hlength := hwf.length_content
  have hnil : input.content = [] := List.length_eq_zero_iff.mp (by omega)
  rw [hnil]
  exact scanPacket_stable.nil

theorem Settled.drained {flags : Flags} {h : History} (hsettled : Settled o link flags h c)
    (hwf : link.input.Wf) (htaken : Taken scanPacket h.received h.parsed link.input.content) :
    Drained c := by
  cases hsettled with
  | deleted => exact fun _ heq ↦ (by cases heq)
  | idle hflushed hsize =>
      rintro _ ⟨⟩
      rw [hflushed.input] at hsize ⊢
      exact ⟨htaken, fun _ ↦ more_of_empty hwf hsize⟩
  | ready hflushed =>
      rintro _ ⟨⟩
      rw [hflushed.input]
      exact ⟨htaken, fun hplace ↦ (by cases hplace)⟩

/-- A request is parsed from what is left. -/
theorem taken_recv (hwf : link.input.Wf) {received : Bytes} {parsed : List (List Bytes)}
    (htaken : Taken scanPacket received parsed link.input.content) {alloc : Int → Bool}
    {req : List BytesRef} (hrecv : (link.recv alloc).1 = .vector req) :
    req ≠ [] → Taken scanPacket received (parsed ++ [(link.recv alloc).2.request])
      (link.recv alloc).2.input.content := by
  intro hne
  cases hscan : scanPacket link.input.content with
  | item packet n =>
      obtain ⟨refs, heq, hrefs, -, hle⟩ := Link.recv_item hwf alloc hscan
      have hitem := htaken.item scanPacket_stable hscan
      rw [heq]
      simp only [(hwf.decr hle).2]
      rwa [← hrefs] at hitem
  | fail =>
      obtain ⟨refs, heq⟩ := Link.recv_fail hwf alloc hscan
      rw [heq] at hrecv
      cases hrecv
  | more =>
      obtain ⟨result, refs, input, heq, rfl | rfl, -⟩ := Link.recv_more hwf alloc hscan
      · rw [heq] at hrecv
        exact absurd (Recv.vector.inj hrecv).symm hne
      · rw [heq] at hrecv
        cases hrecv

/-- What is left stays, less than a request. -/
theorem more_recv (hwf : link.input.Wf) {alloc : Int → Bool}
    (hrecv : (link.recv alloc).1 = .vector []) :
    (link.recv alloc).2.input.content = link.input.content ∧
      scanPacket link.input.content = .more := by
  cases hscan : scanPacket link.input.content with
  | item packet n =>
      obtain ⟨refs, heq, -, hne, -⟩ := Link.recv_item hwf alloc hscan
      rw [heq] at hrecv
      exact absurd (Recv.vector.inj hrecv) hne
  | fail =>
      obtain ⟨refs, heq⟩ := Link.recv_fail hwf alloc hscan
      rw [heq] at hrecv
      cases hrecv
  | more =>
      obtain ⟨result, refs, input, heq, -, -, hcontent⟩ := Link.recv_more hwf alloc hscan
      rw [heq]
      exact ⟨hcontent, rfl⟩

theorem content_procRequest (hwf : link.input.Wf) (alloc : Int → Bool) (reads : List ReadResult) :
    ∃ more, (link.procRequest alloc reads).input.content = link.input.content ++ more := by
  rw [Link.procRequest]
  split
  · exact ⟨[], (List.append_nil _).symm⟩
  · have hcontent := (Link.read_eq alloc reads hwf).2
    dsimp only
    split
    · exact ⟨_, hcontent⟩
    · exact ⟨_, hcontent⟩

theorem Move.drained (hmove : Move S a c c') (hroomy : Roomy c) (hc : Drained c) : Drained c' := by
  cases hmove with
  | accept =>
      rintro _ ⟨⟩
      exact ⟨taken_nil scanPacket [], fun _ ↦ scanPacket_stable.nil⟩
  | marked =>
      rintro _ ⟨⟩
      exact ⟨(hc _ rfl).1, fun hplace ↦ (by cases hplace)⟩
  | @read o link =>
      rintro _ ⟨⟩
      refine ⟨?_, fun hplace ↦ (by cases hplace)⟩
      obtain ⟨more, hmore⟩ := content_procRequest (hroomy _ rfl).1 o.alloc o.reads
      dsimp only
      rw [hmore, List.drop_left]
      exact (hc _ rfl).1.append scanPacket_stable more
  | result => exact (settle_settled ..).drained (hroomy _ rfl).1 (hc _ rfl).1
  | drop => exact fun _ heq ↦ (by cases heq)
  | reject => exact fun _ heq ↦ (by cases heq)
  | more hplace hrecv =>
      rintro _ ⟨⟩
      obtain ⟨hsame, hmore⟩ := more_recv (hroomy _ rfl).1 hrecv
      rw [hsame]
      exact ⟨(hc _ rfl).1, fun _ ↦ hmore⟩
  | queue hplace hrecv hne =>
      rintro _ ⟨⟩
      exact ⟨taken_recv (hroomy _ rfl).1 (hc _ rfl).1 hrecv hne, fun hplace ↦ (by cases hplace)⟩
  | @answer o _ link' _ h req _ hplace hrecv hne =>
      have hwf := Link.recv_wf (hroomy _ rfl).1 o.alloc
      have htaken := taken_recv (hroomy _ rfl).1 (hc _ rfl).1 (congrArg Prod.fst hrecv) hne
      rw [hrecv] at hwf htaken
      refine (settle_settled ..).drained ?_ ?_
      · rw [input_send]
        exact hwf
      · rw [input_send]
        exact htaken
  | withdraw hplace =>
      rintro _ ⟨⟩
      exact ⟨(hc _ rfl).1, fun hidle ↦ by rcases hplace with hplace | hplace <;> simp_all⟩
  | work hplace hsend hwrite =>
      rintro _ ⟨⟩
      refine ⟨?_, fun hidle ↦ (by cases hidle)⟩
      have htaken := (hc _ rfl).1
      rcases hwrite with ⟨rfl, -⟩ | ⟨rfl, -⟩
      · rw [hsend, input_send]
        exact htaken
      · rw [Link.write, hsend, input_send]
        exact htaken

/-- In every reachable state the links account for what they received. -/
theorem Reached.drained (hs : Reached S s) (id : ℕ) : Drained (s.conn id) := by
  have hboth : Roomy (s.conn id) ∧ Drained (s.conn id) :=
    conn_invariant (P := fun c ↦ Roomy c ∧ Drained c) (fun _ _ ha ↦ ha)
      ⟨fun _ heq ↦ (by cases heq), fun _ heq ↦ (by cases heq)⟩
      (fun _ _ _ _ _ _ _ hc hmove ↦ ⟨hmove.roomy hc.1, hmove.drained hc.1 hc.2⟩) hs id
  exact hboth.2

end NetworkServer

end GeminiDB
