import GeminiDB.Net.Room

/-!
# Answers in the order of the requests

The loop thread and the workers handle the requests of a link one after another,
as a link with a request in a job is nowhere else. So each request is answered by
one packet, and the packets are queued in the order in which the requests arrived.
-/

namespace GeminiDB

open Scanner

namespace NetworkServer

variable {S : Setup} {s : NetworkServer} {c c' : Conn} {a : Action}

/-- A response that is not empty and that the output buffer grows for. -/
def Fits (o : World) (resp : List Bytes) (link : Link) : Prop :=
  resp ≠ [] ∧ link.sendGrows o.appends resp = true

instance (o : World) (resp : List Bytes) (link : Link) : Decidable (Fits o resp link) :=
  inferInstanceAs (Decidable (_ ∧ _))

/-- If the loop thread answers what `recv` returns, the response fits. -/
def ReplyFits (S : Setup) (o : World) : Recv × Link → Prop
  | (.vector (_ :: _), link) =>
      ¬ Threaded S link.request → Fits o (reply S o link.request) link
  | _ => True

instance (S : Setup) (o : World) : DecidablePred (ReplyFits S o)
  | (.vector (_ :: _), link) =>
      inferInstanceAs (Decidable (¬ Threaded S link.request → Fits o _ link))
  | (.vector [], _) => inferInstanceAs (Decidable True)
  | (.badFormat, _) => inferInstanceAs (Decidable True)
  | (.noMemory, _) => inferInstanceAs (Decidable True)

/-- Handlers append something, and growing the output buffer succeeds. -/
def Provides (S : Setup) (s : NetworkServer) : Action → Prop
  | .ready o => o.Registered ∧
      ∀ link ∈ (s.acting (.ready o)).bind s.links, ReplyFits S o (link.recv o.alloc)
  | .work p k o => o.Registered ∧
      ∀ link ∈ (s.acting (.work p k o)).bind s.links, Fits o o.resp link
  | .event o => o.Registered
  | _ => True

instance (S : Setup) (s : NetworkServer) (a : Action) : Decidable (Provides S s a) :=
  match a with
  | .ready _ => inferInstanceAs (Decidable (_ ∧ _))
  | .work _ _ _ => inferInstanceAs (Decidable (_ ∧ _))
  | .event o => inferInstanceAs (Decidable o.Registered)
  | .wait _ => inferInstanceAs (Decidable True)
  | .withdraw => inferInstanceAs (Decidable True)
  | .take _ => inferInstanceAs (Decidable True)

theorem Provides.registered (ha : Provides S s a) : a.Registered := by
  cases a with
  | ready => exact ha.1
  | work => exact ha.1
  | event => exact ha
  | _ => trivial

/-- The buffers of a link hold what was received and not parsed, queued and not sent. -/
structure Accounts (link : Link) (h : History) : Prop where
  input : link.input.Wf
  output : link.output.Wf
  taken : Taken scanPacket h.received h.parsed link.input.content
  sent : h.sent ++ link.output.content = h.queued

/-- The requests are answered in order, the last one perhaps not yet. -/
structure InOrder (c : Conn) : Prop where
  live : ∀ link, c.link = some link → Accounts link c.history
  answered : c.history.place ≠ .waiting → c.history.answers.map Prod.fst = c.history.parsed
  waiting : c.history.place = .waiting → ∃ link, c.link = some link ∧
    c.history.answers.map Prod.fst ++ [link.request] = c.history.parsed
  queued : c.history.queued = c.history.answers.flatMap fun answer ↦ encodePacket answer.2

/-- What a `send` and the writes after it do to the record of a link. -/
theorem Accounts.answer {link : Link} {h : History} (hlink : Accounts link h) {o : World}
    (req : List Bytes) {resp : List Bytes} (hne : resp ≠ [])
    (hgrow : link.sendGrows o.appends resp = true) :
    Accounts (link.send o.appends resp).2 (h.answer req resp link (link.send o.appends resp).2) ∧
      (h.answer req resp link (link.send o.appends resp).2).queued =
        h.queued ++ encodePacket resp := by
  obtain ⟨hwf, hcontent⟩ := Link.send_content o.appends hlink.output hne hgrow
  have hqueued : (h.answer req resp link (link.send o.appends resp).2).queued =
      h.queued ++ encodePacket resp := by
    rw [History.answer, hcontent, List.drop_left]
  refine ⟨⟨?_, hwf, ?_, ?_⟩, hqueued⟩
  · rw [input_send]
    exact hlink.input
  · rw [input_send]
    exact hlink.taken
  · rw [hqueued, hcontent, ← List.append_assoc]
    exact congrArg (· ++ encodePacket resp) hlink.sent

theorem Accounts.write {link : Link} {h : History} (hlink : Accounts link h) (o : World) :
    Accounts (link.write o.writes).2 (h.send (some (link.accepted o.writes))) := by
  obtain ⟨hwf, hcontent⟩ := Link.write_content o.writes hlink.output
  refine ⟨hlink.input, hwf, hlink.taken, ?_⟩
  change h.sent ++ link.accepted o.writes ++ (link.write o.writes).2.output.content = h.queued
  rw [List.append_assoc, hcontent, hlink.sent]

theorem Accounts.flush {link after : Link} {h : History} (hlink : Accounts link h) {o : World}
    {sent : Option Bytes} (hflushed : Flushed o link after sent) :
    Accounts after (h.send sent) := by
  by_cases hempty : link.output.size = 0
  · obtain ⟨rfl, rfl⟩ := hflushed.empty hempty
    rw [History.send_none]
    exact hlink
  · obtain ⟨rfl, rfl⟩ := hflushed.pending hempty
    exact hlink.write o

/-- The place of a link is nobody's account. -/
theorem Accounts.at {link : Link} {h : History} (hlink : Accounts link h) (place : Place) :
    Accounts link (h.at place) :=
  ⟨hlink.input, hlink.output, hlink.taken, hlink.sent⟩

theorem Settled.inOrder {o : World} {link : Link} {flags : Flags} {h : History}
    (hsettled : Settled o link flags h c) (hlink : Accounts link h)
    (hanswered : h.answers.map Prod.fst = h.parsed) (hplace : h.place ≠ .waiting)
    (hqueued : h.queued = h.answers.flatMap fun answer ↦ encodePacket answer.2) : InOrder c := by
  cases hsettled with
  | deleted =>
      exact ⟨fun _ heq ↦ (by cases heq), fun _ ↦ hanswered, fun heq ↦ absurd heq hplace, hqueued⟩
  | idle hflushed =>
      refine ⟨?_, fun _ ↦ hanswered, fun heq ↦ (by cases heq), hqueued⟩
      rintro _ ⟨⟩
      exact (hlink.flush hflushed).at _
  | ready hflushed =>
      refine ⟨?_, fun _ ↦ hanswered, fun heq ↦ (by cases heq), hqueued⟩
      rintro _ ⟨⟩
      exact (hlink.flush hflushed).at _

theorem Accounts.recv {link link' : Link} {h : History} (hlink : Accounts link h)
    {alloc : Int → Bool} {req : List BytesRef} (hrecv : link.recv alloc = (.vector req, link'))
    (hne : req ≠ []) : Accounts link' (h.call.parse link'.request) := by
  cases hscan : scanPacket link.input.content with
  | item packet n =>
      obtain ⟨refs, heq, hrefs, -, hle⟩ := Link.recv_item hlink.input alloc hscan
      obtain ⟨-, rfl⟩ := Prod.mk.inj (heq.symm.trans hrecv)
      obtain ⟨hwf, hcontent⟩ := hlink.input.decr hle
      refine ⟨hwf, hlink.output, ?_, hlink.sent⟩
      have htaken := hlink.taken.item scanPacket_stable hscan
      rw [← hcontent, ← hrefs] at htaken
      exact htaken
  | fail =>
      obtain ⟨refs, heq⟩ := Link.recv_fail hlink.input alloc hscan
      cases (Prod.mk.inj (heq.symm.trans hrecv)).1
  | more =>
      obtain ⟨result, refs, input, heq, rfl | rfl, -⟩ := Link.recv_more hlink.input alloc hscan
      · exact absurd (Recv.vector.inj (Prod.mk.inj (heq.symm.trans hrecv)).1).symm hne
      · cases (Prod.mk.inj (heq.symm.trans hrecv)).1

theorem Accounts.recv_more {link : Link} {h : History} (hlink : Accounts link h)
    {alloc : Int → Bool} (hrecv : (link.recv alloc).1 = .vector []) :
    Accounts (link.recv alloc).2 h := by
  cases hscan : scanPacket link.input.content with
  | item packet n =>
      obtain ⟨refs, heq, -, hne, -⟩ := Link.recv_item hlink.input alloc hscan
      rw [heq] at hrecv
      exact absurd (Recv.vector.inj hrecv) hne
  | fail =>
      obtain ⟨refs, heq⟩ := Link.recv_fail hlink.input alloc hscan
      rw [heq] at hrecv
      cases hrecv
  | more =>
      obtain ⟨result, refs, input, heq, -, hwf, hcontent⟩ :=
        Link.recv_more hlink.input alloc hscan
      rw [heq]
      exact ⟨hwf, hlink.output, hcontent.symm ▸ hlink.taken, hlink.sent⟩

theorem Accounts.read {link : Link} {h : History} (hlink : Accounts link h)
    (herror : link.error = false) (alloc : Int → Bool) (reads : List ReadResult) :
    Accounts (link.procRequest alloc reads) { h.call.at .ready with
      received := h.received ++
        (link.procRequest alloc reads).input.content.drop link.input.content.length } := by
  have hcontent := (Link.read_eq alloc reads hlink.input).2
  have hsame : (link.procRequest alloc reads).input = (link.read alloc reads).2.input ∧
      (link.procRequest alloc reads).output = link.output := by
    rw [Link.procRequest, herror, if_neg Bool.false_ne_true]
    dsimp only
    split
    · exact ⟨rfl, rfl⟩
    · exact ⟨rfl, rfl⟩
  refine ⟨Link.procRequest_wf alloc reads hlink.input, hsame.2 ▸ hlink.output, ?_,
    hsame.2 ▸ hlink.sent⟩
  rw [hsame.1, hcontent, List.drop_left]
  exact hlink.taken.append scanPacket_stable _

theorem Move.inOrder {id : ℕ} (hmove : Move S a c c') (hconn : s.conn id = c) (hc : InOrder c)
    (ha : Provides S s a) (hact : s.acting a = some id) : InOrder c' := by
  have hsettle {o : World} {link : Link} {flags : Flags} {h : History} (code : Int)
      (hlink : Accounts link h) := (settle_settled code o link flags h).inOrder hlink
  have hlive {link : Link} {flags : Flags} {h : History}
      (hconn : s.conn id = ⟨some link, flags, h⟩) : s.links id = some link :=
    congrArg Conn.link hconn
  cases hmove with
  | accept =>
      refine ⟨?_, fun _ ↦ rfl, fun heq ↦ (by cases heq), rfl⟩
      rintro _ ⟨⟩
      exact ⟨Buffer.wf_new (by decide) (by decide), Buffer.wf_new (by decide) (by decide),
        taken_nil scanPacket [], rfl⟩
  | marked hplace =>
      refine ⟨?_, fun _ ↦ hc.answered (by simp [hplace]), fun heq ↦ (by cases heq), hc.queued⟩
      rintro _ ⟨⟩
      exact (hc.live _ rfl).at _
  | read hplace herror =>
      refine ⟨?_, fun _ ↦ hc.answered (by simp [hplace]), fun heq ↦ (by cases heq), hc.queued⟩
      rintro _ ⟨⟩
      exact (hc.live _ rfl).read herror _ _
  | result hplace =>
      exact hsettle _ (hc.live _ rfl) (hc.answered (by simp [hplace])) (by simp [hplace]) hc.queued
  | drop hplace =>
      exact ⟨fun _ heq ↦ (by cases heq), hc.answered, fun heq ↦ by simp [hplace] at heq, hc.queued⟩
  | reject hplace =>
      exact ⟨fun _ heq ↦ (by cases heq), hc.answered,
        fun heq ↦ by simp [History.call, hplace] at heq, hc.queued⟩
  | more hplace hrecv =>
      refine ⟨?_, fun _ ↦ hc.answered (by simp [hplace]), fun heq ↦ (by cases heq), hc.queued⟩
      rintro _ ⟨⟩
      have hlink := (hc.live _ rfl).recv_more hrecv
      exact ⟨hlink.input, hlink.output, hlink.taken, hlink.sent⟩
  | queue hplace hrecv hne =>
      refine ⟨?_, fun hnot ↦ absurd rfl hnot, fun _ ↦ ⟨_, rfl, ?_⟩, hc.queued⟩
      · rintro _ ⟨⟩
        exact ((hc.live _ rfl).recv (Prod.ext hrecv rfl) hne).at _
      · exact congrArg (· ++ [_]) (hc.answered (by simp [hplace]))
  | @answer o link link' flags h req resp hplace hrecv hne hthread hresp =>
      subst hresp
      obtain ⟨ref, req, rfl⟩ := List.exists_cons_of_ne_nil hne
      have hgood := ha.2 link (by rw [hact, Option.bind_some, hlive hconn]; rfl)
      rw [hrecv] at hgood
      have hfits := hgood hthread
      obtain ⟨hlink, hqueued⟩ := ((hc.live _ rfl).recv hrecv hne).answer
        link'.request hfits.1 hfits.2
      refine hsettle _ hlink ?_ ?_ ?_
      · have hanswered := hc.answered (by simp [hplace])
        change (h.answers ++ [_]).map Prod.fst = h.parsed ++ [link'.request]
        rw [List.map_append, hanswered]
        rfl
      · change h.place ≠ .waiting
        simp [hplace]
      · rw [hqueued]
        change h.queued ++ _ = (h.answers ++ [_]).flatMap _
        rw [List.flatMap_append, hc.queued]
        simp
  | withdraw hplace =>
      refine ⟨?_, hc.answered, fun heq ↦ ?_, hc.queued⟩
      · rintro _ ⟨⟩
        exact hc.live _ rfl
      · obtain ⟨link, hlink, hparsed⟩ := hc.waiting heq
        exact ⟨link, hlink, hparsed⟩
  | @work p k o link link' flags h w sent hplace hsend hwrite =>
      obtain ⟨l, hl, hparsed⟩ := hc.waiting hplace
      obtain rfl : link = l := Option.some.inj hl
      have hgood := ha.2 link (by rw [hact, Option.bind_some, hlive hconn]; rfl)
      obtain ⟨hlink, hqueued⟩ := (hc.live _ rfl).answer link.request hgood.1 hgood.2
      rw [← hsend] at hlink hqueued
      refine ⟨?_, fun _ ↦ ?_, fun heq ↦ (by cases heq), ?_⟩
      · rintro _ ⟨⟩
        rcases hwrite with ⟨rfl, rfl⟩ | ⟨rfl, rfl⟩
        · rw [History.send_none]
          exact hlink.at _
        · exact (hlink.write o).at _
      · change (h.answers ++ [_]).map Prod.fst = h.parsed
        rw [List.map_append]
        exact hparsed
      · change (h.answer link.request o.resp link link').queued = (h.answers ++ [_]).flatMap _
        rw [hqueued, List.flatMap_append, hc.queued]
        simp

/-- The requests of a link are answered one by one and in order: each has its packet, but
for the last one as long as a worker has it. -/
theorem answered_in_order (hs : Machine.ReachableVia (step S) (Provides S) (init S) s) (id : ℕ) :
    (s.history id).queued = (s.history id).answers.flatMap (fun answer ↦ encodePacket answer.2) ∧
      ((s.history id).answers.map Prod.fst = (s.history id).parsed ∨
        ∃ job ∈ s.unfinished, job.link = id ∧
          (s.history id).answers.map Prod.fst ++ [job.request] = (s.history id).parsed) ∧
      ∀ link, s.links id = some link →
        (s.history id).sent ++ link.output.content = (s.history id).queued ∧
          Taken scanPacket (s.history id).received (s.history id).parsed link.input.content := by
  have hinOrder : InOrder (s.conn id) := by
    refine conn_invariant (fun _ _ ha ↦ Provides.registered ha) ?_
      (fun s a id c _ ha hact hc hmove ↦ hmove.inOrder rfl hc ha hact) hs id
    exact ⟨fun _ heq ↦ (by cases heq), fun _ ↦ rfl, fun heq ↦ (by cases heq), rfl⟩
  have hreached : Reached S s :=
    Relation.ReflTransGen.mono (fun _ _ ⟨a, ha, hstep⟩ ↦ ⟨a, ha.registered, hstep⟩) _ _ hs
  refine ⟨hinOrder.queued, ?_, fun link hlink ↦ ?_⟩
  · by_cases hplace : (s.history id).place = .waiting
    · obtain ⟨link, hlink, hparsed⟩ := hinOrder.waiting hplace
      cases hreached.custody.held id with
      | @waiting link' job hlink' _ _ _ hjobs _ _ hcurrent =>
          obtain rfl : link = link' := Option.some.inj (hlink.symm.trans hlink')
          have hjob : job ∈ s.unfinishedOf id := by simp [hjobs]
          obtain ⟨hmem, hid⟩ := List.mem_filter.mp hjob
          refine .inr ⟨job, hmem, of_decide_eq_true hid, ?_⟩
          rw [hcurrent.request]
          exact hparsed
      | gone hnone => cases hnone.symm.trans hlink
      | idle _ hidle => cases hidle.symm.trans hplace
      | ready _ hready => cases hready.symm.trans hplace
      | finished _ hfinished => cases hfinished.symm.trans hplace
    · exact .inl (hinOrder.answered hplace)
  · have haccounts := hinOrder.live link hlink
    exact ⟨haccounts.sent, haccounts.taken⟩

/-- Four requests at once: for a reader, for nobody, for the loop thread, and for a writer
that has not finished. -/
def fourRequests : List Action :=
  [.wait [(3, epollIn)], .event { quietWorld with sock := some 7 }, .event quietWorld,
    .ready quietWorld, .wait [(7, epollIn)],
    .event { quietWorld with reads :=
      [.bytes (ascii "3\nget\n1\nx\n\n1\nx\n\n4\nping\n\n3\nset\n\n")] },
    .event quietWorld, .ready quietWorld, .take .reader,
    .work .reader 0 { quietWorld with resp := [ascii "ok", ascii "17"] }, .withdraw,
    .ready quietWorld, .wait [(4, epollIn)], .event { quietWorld with writes := [.accepted 4] },
    .event quietWorld, .ready quietWorld, .ready quietWorld,
    .wait [], .event quietWorld, .ready quietWorld, .ready quietWorld,
    .wait [], .event quietWorld, .ready quietWorld, .withdraw, .ready quietWorld]

theorem answered_in_order_four : ∃ s, Machine.ReachableVia (step smallSetup)
      (Provides smallSetup) (init smallSetup) s ∧
    (s.history 4).parsed.length = 4 ∧ (s.history 4).answers.map Prod.snd =
      [[ascii "ok", ascii "17"], [ascii "client_error", ascii "Unknown Command: x"],
        [ascii "ok"]] ∧
    (s.history 4).queued =
      (s.history 4).answers.flatMap (fun answer ↦ encodePacket answer.2) := by
  obtain ⟨s, hrun, hs⟩ := (Option.any_eq_true ..).mp
    (show (Machine.runVia (step smallSetup) (Provides smallSetup) (init smallSetup)
      fourRequests).any (fun s ↦
        (s.history 4).parsed.length = 4 ∧ (s.history 4).answers.map Prod.snd =
          [[ascii "ok", ascii "17"], [ascii "client_error", ascii "Unknown Command: x"],
            [ascii "ok"]]) = true by decide +kernel)
  have hreached := Machine.reachableVia_of_run hrun
  obtain ⟨hparsed, hanswers⟩ := of_decide_eq_true hs
  exact ⟨s, hreached, hparsed, hanswers, (answered_in_order hreached 4).1⟩

end NetworkServer

end GeminiDB
