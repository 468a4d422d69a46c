import GeminiDB.Serv.Spec

/-!
# The server does what the service does

Each step of the server is matched by steps of the service: what a worker does behind the
lock by the moment of its commit, everything else by what it is called. A link waits for a
worker just when the service has a request of it without a reply.
-/

namespace GeminiDB

open Program

namespace NetworkServer

/-- The request that a worker has or will get. -/
def Conn.waiting (c : Conn) : Option Request :=
  c.link.bind fun link ↦ if c.history.place = .waiting then some link.request else none

/-- Nothing was asked or answered. -/
structure SameRecord (c c' : Conn) : Prop where
  waiting : c'.waiting = c.waiting
  parsed : c'.history.parsed = c.history.parsed
  answers : c'.history.answers = c.history.answers

variable {S : Setup} {s s' : NetworkServer} {c c' : Conn} {id : ℕ}

theorem SameRecord.refl (c : Conn) : SameRecord c c := ⟨rfl, rfl, rfl⟩

theorem Conn.waiting_of_place {c : Conn} (h : c.history.place ≠ .waiting) : c.waiting = none := by
  rw [Conn.waiting]
  cases c.link with
  | none => rfl
  | some link => exact if_neg h

theorem Conn.waiting_of_link {c : Conn} {link : Link} (hlink : c.link = some link)
    (hplace : c.history.place = .waiting) : c.waiting = some link.request := by
  rw [Conn.waiting, hlink]
  exact if_pos hplace

/-- `proc_result` asks and answers nothing. -/
theorem settle_record (code : Int) (o : World) (link : Link) (flags : Flags) (h : History) :
    (settle code o link flags h).waiting = none ∧
      (settle code o link flags h).history.parsed = h.parsed ∧
        (settle code o link flags h).history.answers = h.answers := by
  have hsettled := settle_settled code o link flags h
  generalize settle code o link flags h = c at hsettled
  cases hsettled with
  | deleted => exact ⟨rfl, rfl, rfl⟩
  | idle => exact ⟨Conn.waiting_of_place (by simp [History.at]), rfl, rfl⟩
  | ready => exact ⟨Conn.waiting_of_place (by simp [History.at]), rfl, rfl⟩

/-- Only a new link has a new object. -/
theorem accept_next (hs : Custody S s) {o : World} (hact : s.acting (.event o) = some id)
    (hnone : s.links id = none) (hstep : s.step S (.event o) = some s')
    (hsome : s'.links id ≠ none) : id = s.next := by
  have hresult {p : PoolId} (h : (s.pools p).results.head?.map ProcJob.link = some id) : False := by
    obtain ⟨job, hjob, rfl⟩ := Option.map_eq_some_iff.mp h
    obtain ⟨link, hlink, -⟩ := hs.result (mem_results (List.mem_of_mem_head? hjob))
    cases hnone.symm.trans hlink
  rw [acting] at hact
  split at hact
  · next p batch hpc =>
    dsimp only at hact
    split at hact
    · exact (Option.some.inj hact).symm
    · next hserv =>
      split at hact
      · exact (hresult hact).elim
      · next hreader =>
        split at hact
        · exact (hresult hact).elim
        · next hwriter =>
          obtain rfl := Option.some.inj hact
          simp only [step, hpc] at hstep
          split at hstep
          · rw [event, if_neg hserv, if_neg hreader, if_neg hwriter] at hstep
            cases hstep
            rw [procRequest] at hsome
            split at hsome
            · dsimp only at hsome
              rw [hnone] at hsome
              exact absurd hnone hsome
            · exact absurd hnone hsome
          · cases hstep
  · cases hact

/-- The history of an address that is not used yet is empty. -/
def Fresh (s : NetworkServer) : Prop := ∀ id, s.next ≤ id → s.history id = History.init

theorem Fresh.steps (hfresh : Fresh s) {a : Action} (hs : Custody S s) (hsteps : Steps S a s s')
    (hnext : s.next ≤ s'.next) : Fresh s' := by
  intro id hid
  have hnone : s.links id = none := by
    cases hlink : s.links id with
    | none => rfl
    | some link =>
        have := (hs.wired.range hlink).2
        omega
  rcases hsteps.2 id with hsame | ⟨-, hmove⟩
  · exact (congrArg Conn.history hsame).trans (hfresh id (hnext.trans hid))
  · have hconn : s.conn id = ⟨none, s.flagsOf id, s.history id⟩ := by rw [conn, hnone]
    rw [hconn] at hmove
    generalize s.flagsOf id = flags, hc : s'.conn id = c at hmove
    cases hmove with
    | accept =>
        have hrange := (hsteps.1.wired.range (congrArg Conn.link hc)).2
        omega

/-- An event asks and answers nothing. -/
theorem event_record (hs : Custody S s) (hfresh : Fresh s) {o : World}
    (hsteps : Steps S (.event o) s s') (hstep : s.step S (.event o) = some s') (id : ℕ) :
    SameRecord (s.conn id) (s'.conn id) := by
  rcases hsteps.2 id with hsame | ⟨hact, hmove⟩
  · rw [hsame]
    exact .refl _
  · generalize hc : s.conn id = c, hc' : s'.conn id = c' at hmove
    cases hmove with
    | @accept _ sock h hsock =>
        have hnext := accept_next hs hact (congrArg Conn.link hc) hstep
          (by rw [show s'.links id = _ from congrArg Conn.link hc']; simp)
        have hinit : h = History.init := by
          rw [← hfresh id hnext.ge]
          exact (congrArg Conn.history hc).symm
        subst hinit
        exact ⟨rfl, rfl, rfl⟩
    | marked hplace =>
        refine ⟨?_, rfl, rfl⟩
        rw [Conn.waiting_of_place (by simp [History.at]), Conn.waiting_of_place (by simp [hplace])]
    | read hplace =>
        refine ⟨?_, rfl, rfl⟩
        rw [Conn.waiting_of_place (by simp [History.at]), Conn.waiting_of_place (by simp [hplace])]
    | result hplace =>
        obtain ⟨hwaiting, hparsed, hanswers⟩ :=
          settle_record _ o _ 0 _
        refine ⟨?_, hparsed, hanswers⟩
        rw [hwaiting, Conn.waiting_of_place (by simp [hplace])]

theorem withdraw_record (hsteps : Steps S .withdraw s s') (id : ℕ) :
    SameRecord (s.conn id) (s'.conn id) := by
  rcases hsteps.2 id with hsame | ⟨-, hmove⟩
  · rw [hsame]
    exact .refl _
  · generalize hc : s.conn id = c, hc' : s'.conn id = c' at hmove
    cases hmove with
    | withdraw => exact ⟨rfl, rfl, rfl⟩

/-- The link whose request the loop will parse. -/
theorem incoming_spec {o : World} {req : Request} (h : s.incoming o = some (id, req)) :
    ∃ rest link refs link', s.pc = .ready (id :: rest) ∧ s.links id = some link ∧
      link.error = false ∧ link.recv o.alloc = (.vector refs, link') ∧ refs ≠ [] ∧
        req = link'.request := by
  rw [incoming] at h
  split at h
  · next i rest hpc =>
    split at h
    · cases h
    · next link hlink =>
      split at h
      · cases h
      · next herror =>
        split at h
        · next ref refs link' hrecv =>
          cases h
          exact ⟨rest, link, ref :: refs, link', hpc, hlink, by simpa using herror, hrecv,
            by simp, rfl⟩
        · cases h
  · cases h

/-- A link that is marked is deleted. -/
theorem ready_error {o : World} {rest : List ℕ} {link : Link} (hpc : s.pc = .ready (id :: rest))
    (hlink : s.links id = some link) (herror : link.error = true)
    (hstep : s.step S (.ready o) = some s') : s'.links id = none ∧ s'.history = s.history := by
  simp only [step, hpc] at hstep
  cases hstep
  rw [readyLink]
  dsimp only
  rw [hlink]
  dsimp only
  rw [if_pos herror]
  exact ⟨Function.update_self .., rfl⟩

/-- Without a request nothing is asked or answered. -/
theorem ready_record {o : World} (hsteps : Steps S (.ready o) s s')
    (hstep : s.step S (.ready o) = some s') (hnone : s.incoming o = none) (id : ℕ) :
    SameRecord (s.conn id) (s'.conn id) := by
  rcases hsteps.2 id with hsame | ⟨hact, hmove⟩
  · rw [hsame]
    exact .refl _
  · obtain ⟨rest, hpc⟩ : ∃ rest, s.pc = .ready (id :: rest) := by
      rw [acting] at hact
      split at hact
      · next hpc =>
        obtain rfl := Option.some.inj hact
        exact ⟨_, hpc⟩
      · cases hact
    have hcases : ∃ link, s.links id = some link ∧ (s.history id).place = .ready := by
      generalize hc : s.conn id = c, s'.conn id = c' at hmove
      have hplace : c.link.isSome = true ∧ c.history.place = .ready := by
        cases hmove with
        | drop hplace => exact ⟨rfl, hplace⟩
        | reject hplace => exact ⟨rfl, hplace⟩
        | more hplace => exact ⟨rfl, hplace⟩
        | queue hplace => exact ⟨rfl, hplace⟩
        | answer hplace => exact ⟨rfl, hplace⟩
      subst hc
      exact ⟨_, (Option.some_get hplace.1).symm, hplace.2⟩
    obtain ⟨link, hlink, hplace⟩ := hcases
    have hidle : (s.conn id).waiting = none := Conn.waiting_of_place (by
      rw [show (s.conn id).history.place = .ready from hplace]
      simp)
    cases herror : link.error with
    | true =>
        obtain ⟨hgone, hhistory⟩ := ready_error hpc hlink herror hstep
        refine ⟨?_, congrFun (congrArg (fun h i ↦ (h i).parsed) hhistory) id,
          congrFun (congrArg (fun h i ↦ (h i).answers) hhistory) id⟩
        rw [hidle, Conn.waiting, show (s'.conn id).link = none from hgone]
        rfl
    | false =>
        have hrecv (refs : List BytesRef) (link' : Link) (hne : refs ≠ []) :
            link.recv o.alloc ≠ (.vector refs, link') := by
          intro hrecv
          obtain ⟨ref, refs, rfl⟩ := List.exists_cons_of_ne_nil hne
          simp [incoming, hpc, hlink, herror, hrecv] at hnone
        generalize hc : s.conn id = c, s'.conn id = c' at hmove hidle
        have hthis : c.link = some link := by
          rw [← hc]
          exact hlink
        clear hc
        cases hmove with
        | drop => exact ⟨hidle.symm, rfl, rfl⟩
        | reject => exact ⟨hidle.symm, rfl, rfl⟩
        | more =>
            refine ⟨?_, rfl, rfl⟩
            rw [hidle, Conn.waiting_of_place (by simp [History.at])]
        | queue _ hvector hne =>
            cases hthis
            exact (hrecv _ _ hne (Prod.ext hvector rfl)).elim
        | answer _ hvector hne =>
            cases hthis
            exact absurd hvector (hrecv _ _ hne)

/-- A request is queued, or answered at once. -/
theorem ready_request (hs : Custody S s) {o : World} (ho : o.Registered) {req : Request}
    (hstep : s.step S (.ready o) = some s') (hreq : s.incoming o = some (id, req)) :
    (∀ i, i ≠ id → s'.conn i = s.conn i) ∧ (s.conn id).waiting = none ∧
      (s'.conn id).history.parsed = (s.conn id).history.parsed ++ [req] ∧
        (Threaded S req → (s'.conn id).waiting = some req ∧
          (s'.conn id).history.answers = (s.conn id).history.answers) ∧
        (¬ Threaded S req → (s'.conn id).waiting = none ∧
          (s'.conn id).history.answers = (s.conn id).history.answers ++
            [(req, reply S o req)]) := by
  obtain ⟨rest, link, refs, link', hpc, hlink, herror, hrecv, hne, rfl⟩ := incoming_spec hreq
  simp only [step, hpc, Option.some.injEq] at hstep
  subst hstep
  obtain ⟨c, hserved, hmove⟩ := readyLink_spec hs hpc ho
  refine ⟨hserved.others, ?_⟩
  rw [hserved.conn]
  have hthis : (s.conn id).link = some link := hlink
  generalize s.conn id = c₀ at hmove hthis
  have hready {flags : Flags} {h : History} (hplace : h.place = .ready) :
      Conn.waiting ⟨some link, flags, h⟩ = none :=
    Conn.waiting_of_place (show h.place ≠ .waiting by rw [hplace]; simp)
  cases hmove with
  | drop _ hmarked =>
      cases hthis
      cases herror.symm.trans hmarked
  | reject _ hnot =>
      cases hthis
      exact (hnot _ (congrArg Prod.fst hrecv)).elim
  | more _ hmore =>
      cases hthis
      have hempty : Recv.vector refs = .vector [] := (congrArg Prod.fst hrecv).symm.trans hmore
      cases hempty
      exact absurd rfl hne
  | queue hplace _ _ hthread =>
      cases hthis
      rw [hrecv] at hthread ⊢
      exact ⟨hready hplace, rfl, fun _ ↦ ⟨Conn.waiting_of_link rfl rfl, rfl⟩,
        fun hnot ↦ absurd hthread hnot⟩
  | answer hplace hvector _ hthread hresp =>
      cases hthis
      cases hrecv.symm.trans hvector
      subst hresp
      obtain ⟨hnone, hparsed, hanswers⟩ := settle_record (verdict S o link'.request) o
        (link'.send o.appends (reply S o link'.request)).2 _
        ((History.parse link'.request (History.call _)).answer link'.request
          (reply S o link'.request) link' (link'.send o.appends (reply S o link'.request)).2)
      exact ⟨hready hplace, hparsed, fun hyes ↦ absurd hyes hthread, fun _ ↦ ⟨hnone, hanswers⟩⟩

/-- A job that is not finished belongs to a link that waits for it. -/
theorem job_waiting (hs : Custody S s) {job : ProcJob} (hjob : job ∈ s.unfinished) :
    (s.conn job.link).waiting = some job.request ∧ s.unfinishedOf job.link = [job] := by
  obtain ⟨link, hlink, hplace, -, -, hone, -, -, hcurrent⟩ := hs.unfinished hjob
  refine ⟨?_, hone⟩
  rw [hcurrent.request]
  exact Conn.waiting_of_link hlink hplace

/-- A worker that is done has answered the request of its link. -/
theorem work_record (hs : Custody S s) {p : PoolId} {k : ℕ} {o : World} (ho : o.Registered)
    {job : ProcJob} (hjob : (s.pools p).running[k]? = some job)
    (hstep : s.step S (.work p k o) = some s') :
    (∀ i, i ≠ job.link → s'.conn i = s.conn i) ∧ (s'.conn job.link).waiting = none ∧
      (s'.conn job.link).history.parsed = (s.conn job.link).history.parsed ∧
        (s'.conn job.link).history.answers =
          (s.conn job.link).history.answers ++ [(job.request, o.resp)] := by
  have hsteps : Steps S (.work p k o) s s' := hs.step (a := .work p k o) ho hstep
  refine ⟨fun i hi ↦ ?_, ?_⟩
  · rcases hsteps.2 i with hsame | ⟨hact, -⟩
    · exact hsame
    · rw [acting, hjob] at hact
      exact absurd (Option.some.inj hact).symm hi
  · obtain ⟨link, hlink, -, -, -, -, -, -, hcurrent⟩ :=
      hs.unfinished (mem_unfinished (.inr (List.mem_of_getElem? hjob)))
    simp only [step, if_neg hs.wired.alive, work, hjob, hlink, Option.some.injEq] at hstep
    subst hstep
    rw [hcurrent.request]
    refine ⟨Conn.waiting_of_place ?_, ?_, ?_⟩
    · simp [conn, store, History.at]
    · simp [conn, store, History.at, History.send, History.answer]
    · simp [conn, store, History.at, History.send, History.answer]

/-- The jobs of the workers, and the histories of addresses to come, in any other step. -/
theorem loop_keeps (hs : Custody S s) (hfresh : Fresh s) {a : Action} (ha : a.Registered)
    (hstep : s.step S a = some s') (htake : ∀ p, a ≠ .take p)
    (hwork : ∀ p k o, a ≠ .work p k o) :
    Custody S s' ∧ Fresh s' ∧ ∀ p, (s'.pools p).running = (s.pools p).running := by
  have hsteps := hs.step ha hstep
  obtain ⟨hrunning, -, hnext, -⟩ := step_apart hstep htake hwork
  exact ⟨hsteps.1, hfresh.steps hs hsteps hnext, hrunning⟩

end NetworkServer

open NetworkServer

/-- The response of a handler is the one that is sent. -/
theorem reply_respond {fds : Descriptors} {o : World} {r : Report} {req : Request}
    {resp : Response} (h : handler r req = .ret (some resp)) :
    reply (serverSetup fds) (System.respond o resp) req = resp := by
  rw [handler] at h
  rw [reply, serverSetup]
  dsimp only
  cases hcmd : procMap.getProc (req.headD []) with
  | none =>
      rw [hcmd] at h
      exact Option.some.inj (Prog.ret.inj h)
  | some cmd => rfl

/-- How the server and the service hang together. -/
structure Refines (fds : Descriptors) (strict : Bool) (s : System) (t : Spec) : Prop where
  custody : Custody (serverSetup fds) s.net
  fresh : Fresh s.net
  running : ∀ id, s.threads.rest id ≠ none → ∃ p, ∃ job ∈ (s.net.pools p).running, job.link = id
  linked : Linked binlogs Shows (Admits strict) Moment.body s.threads t.atomic
  asked : ∀ id, t.asked id = (s.net.conn id).waiting
  log : t.log.filter Event.visible = s.log
  parsed : ∀ id, requestsOf id s.log = (s.net.conn id).history.parsed
  answers : ∀ id, repliesOf id s.log = (s.net.conn id).history.answers

/-- What the log gets from a step: moments of handlers that have been started, and at last the
reply of a worker that is done. -/
structure Advance (s s' : System) (t : Spec) (ext : List Event) : Prop where
  moments : ∀ {id m x}, .moment id m x ∈ ext → ∃ p, t.atomic.rest id = some p ∧
    ∀ P : Moment → Prop, p.All P → P m
  leaves : ∀ p, ∀ job ∈ (s.net.pools p).running, job ∈ (s'.net.pools p).running ∨
    ∃ before req resp, ext = before ++ [.reply job.link req resp]

/-- What the service does when the server makes a step. -/
def Matched (fds : Descriptors) (strict : Bool) (s s' : System) (t : Spec) : Prop :=
  ∃ t' ext, Spec.Steps strict t t' ∧ t'.log = t.log ++ ext ∧ Advance s s' t ext ∧
    Refines fds strict s' t'

namespace Refines

variable {fds : Descriptors} {strict : Bool} {s s' : System} {t t' : Spec} {net : NetworkServer}

/-- A step without requests and replies. -/
theorem silent (h : Refines fds strict s t)
    (hnet : Custody (serverSetup fds) net ∧ Fresh net ∧
      ∀ p, (net.pools p).running = (s.net.pools p).running)
    (hrecord : ∀ id, SameRecord (s.net.conn id) (net.conn id)) (calls : Bytes → UInt64) :
    Matched fds strict s { s with net := net, calls := calls } t := by
  obtain ⟨hcustody, hfresh, hrunning⟩ := hnet
  refine ⟨t, [], .refl, (List.append_nil _).symm,
    ⟨fun h ↦ absurd h List.not_mem_nil, fun p job hjob ↦ .inl ((hrunning p).symm ▸ hjob)⟩,
    hcustody, hfresh, fun id hid ↦ ?_, h.linked, fun id ↦ ?_, h.log, fun id ↦ ?_, fun id ↦ ?_⟩
  · obtain ⟨p, job, hjob, hlink⟩ := h.running id hid
    exact ⟨p, job, (hrunning p).symm ▸ hjob, hlink⟩
  · exact (h.asked id).trans (hrecord id).waiting.symm
  · exact (h.parsed id).trans (hrecord id).parsed.symm
  · exact (h.answers id).trans (hrecord id).answers.symm

/-- A request is queued. -/
theorem queue (h : Refines fds strict s t) {id : ℕ} {req : Request}
    (hnet : Custody (serverSetup fds) net ∧ Fresh net ∧
      ∀ p, (net.pools p).running = (s.net.pools p).running)
    (hothers : ∀ i, i ≠ id → net.conn i = s.net.conn i) (hidle : (s.net.conn id).waiting = none)
    (hparsed : (net.conn id).history.parsed = (s.net.conn id).history.parsed ++ [req])
    (hwaiting : (net.conn id).waiting = some req)
    (hanswers : (net.conn id).history.answers = (s.net.conn id).history.answers) :
    Matched fds strict s { s with net := net, log := s.log ++ [.request id req] } t := by
  obtain ⟨hcustody, hfresh, hrunning⟩ := hnet
  refine ⟨_, _, .single (.request id req ((h.asked id).trans hidle)), rfl,
    ⟨fun h ↦ (by simp at h), fun p job hjob ↦ .inl ((hrunning p).symm ▸ hjob)⟩, hcustody, hfresh,
    fun i hi ↦ ?_, h.linked, fun i ↦ ?_, ?_, fun i ↦ ?_, fun i ↦ ?_⟩
  · obtain ⟨p, job, hjob, hlink⟩ := h.running i hi
    exact ⟨p, job, (hrunning p).symm ▸ hjob, hlink⟩
  · by_cases hi : i = id
    · subst hi
      exact (Function.update_self ..).trans hwaiting.symm
    · rw [hothers i hi]
      exact (Function.update_of_ne hi ..).trans (h.asked i)
  · rw [List.filter_append, h.log]
    rfl
  · rw [requestsOf_append, h.parsed]
    by_cases hi : i = id
    · subst hi
      rw [hparsed]
      simp [requestsOf]
    · rw [hothers i hi]
      simp [requestsOf, Ne.symm hi]
  · rw [repliesOf_append, h.answers]
    by_cases hi : i = id
    · subst hi
      rw [hanswers]
      simp [repliesOf]
    · rw [hothers i hi]
      simp [repliesOf]

/-- A worker, or the loop, answers a request that is under way. -/
theorem answer (h : Refines fds strict s t) {id : ℕ} {req : Request} {resp : Response}
    (hcustody : Custody (serverSetup fds) net) (hfresh : Fresh net)
    (hrunning : ∀ p, ∀ job ∈ (s.net.pools p).running, job.link ≠ id → job ∈ (net.pools p).running)
    (hdone : s.threads.rest id = some (.ret (some resp)))
    (hothers : ∀ i, i ≠ id → net.conn i = s.net.conn i)
    (hasked : (s.net.conn id).waiting = some req) (hwaiting : (net.conn id).waiting = none)
    (hparsed : (net.conn id).history.parsed = (s.net.conn id).history.parsed)
    (hanswers : (net.conn id).history.answers =
      (s.net.conn id).history.answers ++ [(req, resp)]) (calls : Bytes → UInt64) :
    Matched fds strict s
      { s with
        net := net
        threads := s.threads.put id none
        calls := calls
        log := s.log ++ [.reply id req resp] } t := by
  obtain ⟨a, hatomic, hrest, hlinked⟩ := h.linked.finish (moments_sound strict) hdone
  obtain ⟨t', ext, hsteps, rfl, hsame, hlog, hsilent, hmoments⟩ := Spec.steps_of_atomic hatomic
  refine ⟨_, ext ++ [.reply id req resp],
    hsteps.tail (.reply id (by rw [hsame, h.asked, hasked]) hrest), ?_, ?_, hcustody, hfresh,
    fun i hi ↦ ?_, hlinked.put (hlinked.not_owner hdone) none, fun i ↦ ?_, ?_, fun i ↦ ?_,
    fun i ↦ ?_⟩
  · rw [hlog, List.append_assoc]
  · refine ⟨fun hmem ↦ ?_, fun p job hjob ↦ ?_⟩
    · rcases List.mem_append.mp hmem with hold | hnew
      · exact hmoments hold
      · cases List.mem_singleton.mp hnew
    · by_cases hid : job.link = id
      · exact .inr ⟨ext, req, resp, by rw [hid]⟩
      · exact .inl (hrunning p job hjob hid)
  · by_cases hid : i = id
    · subst hid
      exact absurd (Function.update_self ..) hi
    · obtain ⟨p, job, hjob, hlink⟩ := h.running i (by simpa [Threads.put, hid] using hi)
      exact ⟨p, job, hrunning p job hjob (hlink ▸ hid), hlink⟩
  · by_cases hi : i = id
    · subst hi
      exact (Function.update_self ..).trans hwaiting.symm
    · rw [hothers i hi]
      exact (Function.update_of_ne hi ..).trans (hsame ▸ h.asked i)
  · rw [List.filter_append, hlog, List.filter_append, hsilent, h.log, List.append_nil]
    rfl
  · rw [requestsOf_append, h.parsed]
    by_cases hi : i = id
    · subst hi
      rw [hparsed]
      simp [requestsOf]
    · rw [hothers i hi]
      simp [requestsOf]
  · rw [repliesOf_append, h.answers]
    by_cases hi : i = id
    · subst hi
      rw [hanswers]
      simp [repliesOf]
    · rw [hothers i hi]
      simp [repliesOf, Ne.symm hi]

/-- A link that waits for nothing has no worker. -/
theorem rest_none (h : Refines fds strict s t) {id : ℕ} (hidle : (s.net.conn id).waiting = none) :
    s.threads.rest id = none := by
  by_contra hrest
  obtain ⟨p, job, hjob, rfl⟩ := h.running id hrest
  cases hidle.symm.trans (job_waiting h.custody (mem_unfinished (.inr hjob))).1

/-- A request that needs no thread is asked, started and answered. -/
theorem inline (h : Refines fds strict s t) {id : ℕ} {req : Request} {resp : Response}
    {r : Report} (hhandler : handler r req = .ret (some resp))
    (hnet : Custody (serverSetup fds) net ∧ Fresh net ∧
      ∀ p, (net.pools p).running = (s.net.pools p).running)
    (hothers : ∀ i, i ≠ id → net.conn i = s.net.conn i) (hidle : (s.net.conn id).waiting = none)
    (hparsed : (net.conn id).history.parsed = (s.net.conn id).history.parsed ++ [req])
    (hwaiting : (net.conn id).waiting = none)
    (hanswers : (net.conn id).history.answers =
      (s.net.conn id).history.answers ++ [(req, resp)]) (calls : Bytes → UInt64) :
    Matched fds strict s
      { s with
        net := net
        calls := calls
        log := s.log ++ [.request id req, .reply id req resp] } t := by
  obtain ⟨hcustody, hfresh, hrunning⟩ := hnet
  have hrest := h.rest_none hidle
  obtain ⟨habsent, howner⟩ := h.linked.absent hrest
  have hmoments : moments (handler r req) = .ret (some resp) := congrArg moments hhandler
  have hasked : t.asked id = none := (h.asked id).trans hidle
  have hstarted : (t.atomic.put id (some (moments (handler r req)))).rest id =
      some (.ret (some resp)) := by
    rw [hmoments]
    exact Function.update_self ..
  have hsteps : Spec.Steps strict t _ :=
    ((Relation.ReflTransGen.single (.request id req hasked)).tail
      (.start id r (Function.update_self ..) habsent)).tail
        (.reply id (Function.update_self ..) hstarted)
  have hthreads : (s.threads.put id ((some (moments (handler r req))).map
      (Prog.expand Moment.body))).put id none = s.threads := by
    simp only [Threads.put, Function.update_idem]
    rw [← hrest, Function.update_eq_self]
  have hlinked := (h.linked.put howner (some (moments (handler r req)))).put
    (i := id) howner none
  rw [Option.map_none, hthreads] at hlinked
  refine ⟨_, [.request id req, .reply id req resp], hsteps, by simp,
    ⟨fun h ↦ (by simp at h), fun p job hjob ↦ .inl ((hrunning p).symm ▸ hjob)⟩, hcustody, hfresh,
    fun i hi ↦ ?_, hlinked, fun i ↦ ?_, ?_, fun i ↦ ?_, fun i ↦ ?_⟩
  · obtain ⟨p, job, hjob, hlink⟩ := h.running i hi
    exact ⟨p, job, (hrunning p).symm ▸ hjob, hlink⟩
  · by_cases hi : i = id
    · subst hi
      exact (Function.update_self ..).trans hwaiting.symm
    · rw [hothers i hi]
      refine (Function.update_of_ne hi ..).trans ?_
      exact (Function.update_of_ne hi ..).trans (h.asked i)
  · rw [List.filter_append, List.filter_append, h.log, List.append_assoc]
    rfl
  · rw [requestsOf_append, h.parsed]
    by_cases hi : i = id
    · subst hi
      rw [hparsed]
      simp [requestsOf]
    · rw [hothers i hi]
      simp [requestsOf, Ne.symm hi]
  · rw [repliesOf_append, h.answers]
    by_cases hi : i = id
    · subst hi
      rw [hanswers]
      simp [repliesOf]
    · rw [hothers i hi]
      simp [repliesOf, Ne.symm hi]

/-- A link from `ready_list`. -/
theorem ready (h : Refines fds strict s t) {o : World} {r : Report}
    (hready : s.ready (serverSetup fds) o r = some s') : Matched fds strict s s' t := by
  have hkeeps {o' : World} {net : NetworkServer} (ho : o'.Registered)
      (hstep : s.net.step (serverSetup fds) (.ready o') = some net) :=
    loop_keeps h.custody h.fresh (a := .ready o') ho hstep (by simp) (by simp)
  rw [System.ready] at hready
  cases hincoming : s.net.incoming o with
  | none =>
      rw [hincoming] at hready
      obtain ⟨net, hstep, rfl⟩ := Option.map_eq_some_iff.mp hready
      have hsteps := h.custody.step (a := .ready (System.respond o [])) (.inl rfl) hstep
      exact h.silent (hkeeps (.inl rfl) hstep) (ready_record hsteps hstep hincoming) s.calls
  | some request =>
      obtain ⟨id, req⟩ := request
      rw [hincoming] at hready
      dsimp only at hready
      split at hready
      · next hthread =>
        obtain ⟨net, hstep, rfl⟩ := Option.map_eq_some_iff.mp hready
        obtain ⟨hothers, hidle, hparsed, hqueue, -⟩ :=
          ready_request h.custody (o := System.respond o []) (.inl rfl) hstep hincoming
        obtain ⟨hwaiting, hanswers⟩ := hqueue hthread
        exact h.queue (hkeeps (.inl rfl) hstep) hothers hidle hparsed hwaiting hanswers
      · next hthread =>
        split at hready
        · next resp hhandler =>
          obtain ⟨net, hstep, rfl⟩ := Option.map_eq_some_iff.mp hready
          obtain ⟨hothers, hidle, hparsed, -, hinline⟩ :=
            ready_request h.custody (o := System.respond o resp) (.inl rfl) hstep hincoming
          obtain ⟨hwaiting, hanswers⟩ := hinline hthread
          rw [reply_respond hhandler] at hanswers
          exact h.inline hhandler (hkeeps (.inl rfl) hstep) hothers hidle hparsed hwaiting
            hanswers _
        · cases hready

/-- The link of a job that no worker has taken has no worker: it would have a second job. -/
theorem take_absent (h : Refines fds strict s t) {p : PoolId} {job : ProcJob}
    {jobs : List ProcJob} (hjobs : (s.net.pools p).jobs = job :: jobs) :
    s.threads.rest job.link = none := by
  have hmem : job ∈ s.net.unfinished := mem_unfinished (p := p) (.inl (hjobs ▸ List.mem_cons_self))
  have hone := (job_waiting h.custody hmem).2
  by_contra hrest
  obtain ⟨q, job', hjob', hlink⟩ := h.running job.link hrest
  have hfirst : (s.net.unfinished.filter fun j ↦ j.link = job.link).length =
      (s.net.unfinishedOf job.link).length := rfl
  rw [hone, ← List.countP_eq_length_filter] at hfirst
  have hrunning : 0 < (s.net.pools q).running.countP fun j ↦ j.link = job.link :=
    List.countP_pos_iff.mpr ⟨job', hjob', by simpa using hlink⟩
  have hwaits : 0 < (s.net.pools p).jobs.countP fun j ↦ j.link = job.link :=
    List.countP_pos_iff.mpr ⟨job, hjobs ▸ List.mem_cons_self, by simp⟩
  simp only [unfinished, List.countP_append, List.length_singleton] at hfirst
  cases p <;> cases q <;> omega

/-- A worker starts the handler of the job it takes. -/
theorem take (h : Refines fds strict s t) {p : PoolId} (r : Report) {job : ProcJob}
    {jobs : List ProcJob} (hjobs : (s.net.pools p).jobs = job :: jobs)
    (hstep : s.net.step (serverSetup fds) (.take p) = some net) :
    Matched fds strict s
      { s with
        net := net
        threads := s.threads.put job.link (some (body (handler r job.request))) } t := by
  have hsteps := h.custody.step (a := .take p) trivial hstep
  have hconn (i : ℕ) : net.conn i = s.net.conn i := by
    rcases hsteps.2 i with hsame | ⟨hact, -⟩
    · exact hsame
    · cases hact
  have hmem : job ∈ s.net.unfinished := mem_unfinished (p := p) (.inl (hjobs ▸ List.mem_cons_self))
  have hwaiting := (job_waiting h.custody hmem).1
  obtain ⟨job', jobs', hjobs', -, rfl⟩ := step_take hstep
  cases hjobs.symm.trans hjobs'
  obtain ⟨habsent, howner⟩ := h.linked.absent (h.take_absent hjobs)
  have hlinked := h.linked.put howner (some (moments (handler r job.request)))
  rw [Option.map_some, expand_moments] at hlinked
  have hstay (q : PoolId) {other : ProcJob} (hother : other ∈ (s.net.pools q).running) :
      other ∈ (Function.update s.net.pools p { s.net.pools p with
        jobs := jobs, running := (s.net.pools p).running ++ [job] } q).running := by
    by_cases hq : q = p
    · subst hq
      simp [hother]
    · simpa [hq] using hother
  refine ⟨_, [], .single (.start job.link r ((h.asked _).trans hwaiting) habsent),
    (List.append_nil _).symm,
    ⟨fun h ↦ absurd h List.not_mem_nil, fun q other hother ↦ .inl (hstay q hother)⟩, hsteps.1,
    h.fresh.steps h.custody hsteps le_rfl, fun i hi ↦ ?_, hlinked,
    fun i ↦ (h.asked i).trans (congrArg Conn.waiting (hconn i).symm), h.log,
    fun i ↦ (h.parsed i).trans (congrArg (fun c ↦ c.history.parsed) (hconn i).symm),
    fun i ↦ (h.answers i).trans (congrArg (fun c ↦ c.history.answers) (hconn i).symm)⟩
  by_cases hid : i = job.link
  · exact ⟨p, job, by simp, hid.symm⟩
  · obtain ⟨q, job', hjob', hlink⟩ := h.running i (by simpa [Threads.put, hid] using hi)
    exact ⟨q, job', hstay q hjob', hlink⟩

/-- What one step does, the service does. -/
theorem step (h : Refines fds strict s t) {a : System.Action} (ha : a.Admitted strict)
    (hstep : s.step fds a = some s') : Matched fds strict s s' t := by
  cases a with
  | wait reports =>
      obtain ⟨net, hnet, rfl⟩ := Option.map_eq_some_iff.mp hstep
      refine h.silent (loop_keeps h.custody h.fresh (a := .wait reports) trivial hnet
        (by simp) (by simp)) (fun id ↦ ?_) s.calls
      rcases (h.custody.step (a := .wait reports) trivial hnet).2 id with hsame | ⟨hact, -⟩
      · rw [hsame]
        exact .refl _
      · cases hact
  | event o =>
      obtain ⟨net, hnet, rfl⟩ := Option.map_eq_some_iff.mp hstep
      have hsteps := h.custody.step (a := .event (System.respond o [])) (.inl rfl) hnet
      exact h.silent (loop_keeps h.custody h.fresh (a := .event (System.respond o [])) (.inl rfl)
        hnet (by simp) (by simp)) (event_record h.custody h.fresh hsteps hnet) _
  | ready o r =>
      simp only [System.step] at hstep
      split at hstep
      · exact h.ready hstep
      · cases hstep
  | withdraw =>
      obtain ⟨net, hnet, rfl⟩ := Option.map_eq_some_iff.mp hstep
      have hsteps := h.custody.step (a := .withdraw) trivial hnet
      exact h.silent (loop_keeps h.custody h.fresh (a := .withdraw) trivial hnet (by simp)
        (by simp)) (withdraw_record hsteps) s.calls
  | take p r =>
      simp only [System.step] at hstep
      split at hstep
      · cases hstep
      · next job jobs hjobs =>
        obtain ⟨net, hnet, rfl⟩ := Option.map_eq_some_iff.mp hstep
        exact h.take r hjobs hnet
  | access id x =>
      simp only [System.step] at hstep
      split at hstep
      · cases hstep
      · obtain ⟨threads, hexec, rfl⟩ := Option.map_eq_some_iff.mp hstep
        obtain ⟨a, hatomic, hlinked⟩ := h.linked.exec (moments_sound strict) ha hexec
        obtain ⟨t', ext, hsteps, rfl, hasked, hlog, hsilent, hmoments⟩ :=
          Spec.steps_of_atomic hatomic
        refine ⟨t', ext, hsteps, hlog, ⟨hmoments, fun p job hjob ↦ .inl hjob⟩, h.custody, h.fresh,
          fun i hi ↦ h.running i ?_, hlinked, fun i ↦ hasked ▸ h.asked i, ?_, h.parsed, h.answers⟩
        · exact fun hnone ↦ hi (Threads.exec_absent hexec hnone)
        · rw [hlog, List.filter_append, hsilent, List.append_nil]
          exact h.log
  | work p k o =>
      simp only [System.step] at hstep
      split at hstep
      · cases hstep
      · next job hjob =>
        split at hstep
        · next resp hdone =>
          obtain ⟨net, hnet, rfl⟩ := Option.map_eq_some_iff.mp hstep
          have hsteps := h.custody.step (a := .work p k (System.respond o resp)) (.inl rfl) hnet
          obtain ⟨hothers, hwaiting, hparsed, hanswers⟩ :=
            work_record h.custody (o := System.respond o resp) (.inl rfl) hjob hnet
          obtain ⟨hrunning, -, hnext, -⟩ := step_work h.custody hnet
          refine h.answer hsteps.1 (h.fresh.steps h.custody hsteps hnext.ge)
            (fun q other hother hlink ↦ ?_) hdone hothers
            (job_waiting h.custody (mem_unfinished (.inr (List.mem_of_getElem? hjob)))).1 hwaiting
            hparsed hanswers s.calls
          rw [hrunning]
          by_cases hq : q = p
          · subst hq
            rw [if_pos rfl]
            obtain ⟨j, hj⟩ := List.mem_iff_getElem?.mp hother
            refine List.mem_eraseIdx_iff_getElem?.mpr ⟨j, ?_, hj⟩
            rintro rfl
            obtain rfl := Option.some.inj (hjob.symm.trans hj)
            exact hlink rfl
          · rw [if_neg hq]
            exact hother
        · cases hstep

end Refines

/-- At the start there is nothing to do. -/
theorem refines_init (fds : Descriptors) (strict : Bool) :
    Refines fds strict (System.init fds) Spec.init := by
  refine ⟨custody_init _, fun _ _ ↦ rfl, fun _ h ↦ absurd rfl h, ⟨represents_empty, fun i ↦ ?_⟩,
    fun _ ↦ rfl, rfl, fun _ ↦ rfl, fun _ ↦ rfl⟩
  exact .absent rfl rfl (by simp [System.init])

/-- Whatever the server has come to, the service can come to. -/
theorem refines_reached {fds : Descriptors} {strict : Bool} {s : System}
    (h : s.Reached fds strict) : ∃ t, Spec.Reached strict t ∧ Refines fds strict s t := by
  refine Machine.ReachableVia.invariant (P := fun s ↦ ∃ t, Spec.Reached strict t ∧
    Refines fds strict s t) h ⟨_, .refl, refines_init fds strict⟩ ?_
  rintro s a s' ⟨t, hreached, hrefines⟩ ha hstep
  obtain ⟨t', -, hsteps, -, -, hrefines'⟩ := hrefines.step ha hstep
  exact ⟨t', hreached.trans hsteps, hrefines'⟩

end GeminiDB
