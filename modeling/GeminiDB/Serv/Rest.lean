import GeminiDB.Net.Effort
import GeminiDB.Serv.Calls
import GeminiDB.Serv.Progress

/-!
# The server comes to rest

When the kernel has nothing new to report from the clients, the loop and the workers cannot
go on for ever, whatever the sockets, the memory and the store answer. When nothing more can
be done the loop sleeps, every request has its reply, and what a link has left of its bytes
is less than a request.
-/

namespace GeminiDB

open Program NetworkServer Scanner

namespace NetworkServer

/-- The loop sleeps in `wait`, and the pools are empty. -/
structure Resting (s : NetworkServer) : Prop where
  top : s.pc = .top
  listed : s.readyList = []
  results : ∀ q, (s.pools q).results = []
  unfinished : s.unfinished = []

variable {S : Setup} {s : NetworkServer} {id : ℕ} {link : Link}

/-- A link is with the kernel only. -/
theorem Resting.idle (h : Resting s) (hs : Custody S s) (hlink : s.links id = some link) :
    (s.history id).place = .idle := by
  have hlisted : s.listed.count id = 0 := by
    simp [NetworkServer.listed, todo, h.top, h.listed, hs.wired.second (.inl h.top)]
  have hresults : s.resultsOf id = [] := by simp [resultsOf, NetworkServer.results, h.results]
  have hjobs : s.unfinishedOf id = [] := by rw [unfinishedOf, h.unfinished, List.filter_nil]
  cases hs.held id with
  | gone hnone => cases hlink.symm.trans hnone
  | idle _ hplace => exact hplace
  | ready _ _ _ hone => cases hlisted.symm.trans hone
  | waiting _ _ _ _ hone => cases hjobs.symm.trans hone
  | finished _ _ _ _ _ hone => cases hresults.symm.trans hone

theorem Resting.waiting (h : Resting s) (hs : Custody S s) (id : ℕ) :
    (s.conn id).waiting = none := by
  rw [Conn.waiting, conn]
  cases hlink : s.links id with
  | none => rfl
  | some link => simp [h.idle hs hlink]

end NetworkServer

/-! ## Requests and replies -/

theorem requestsOf_visible (id : ℕ) (log : List Event) :
    requestsOf id (log.filter Event.visible) = requestsOf id log := by
  rw [requestsOf, List.filterMap_filter]
  refine List.filterMap_congr fun e _ ↦ ?_
  cases e <;> rfl

theorem repliesOf_visible (id : ℕ) (log : List Event) :
    repliesOf id (log.filter Event.visible) = repliesOf id log := by
  rw [repliesOf, List.filterMap_filter]
  refine List.filterMap_congr fun e _ ↦ ?_
  cases e <;> rfl

/-- The replies to a link are to its requests, the last one perhaps not yet. -/
theorem Spec.Reached.replied {strict : Bool} {t : Spec} (h : Spec.Reached strict t) (id : ℕ) :
    (repliesOf id t.log).map Prod.fst ++ (t.asked id).toList = requestsOf id t.log := by
  induction h with
  | refl => rfl
  | tail _ hstep ih =>
      cases hstep with
      | request i req hfree =>
          by_cases hi : id = i
          · subst hi
            rw [hfree] at ih
            simp_all [repliesOf, requestsOf]
          · simp_all [repliesOf, requestsOf, Ne.symm hi]
      | start => exact ih
      | moment => simpa [repliesOf, requestsOf] using ih
      | reply i hasked =>
          by_cases hi : id = i
          · subst hi
            rw [hasked] at ih
            simp_all [repliesOf, requestsOf]
          · simp_all [repliesOf, requestsOf, Ne.symm hi]

/-! ## What is left to do -/

namespace System

/-- The pipe of a pool is read only when there is a result behind it. -/
def Action.Piped (fds : Descriptors) (s : System) : Action → Prop
  | .wait reports => Woken (serverSetup fds) s.net reports
  | _ => True

/-- The states that the server reaches when `wait` reports no empty pipe. -/
def ReachedPiped (fds : Descriptors) (strict : Bool) (s : System) : Prop :=
  Machine.ReachableVia (step fds) (fun s a ↦ a.Admitted strict ∧ a.Piped fds s) (init fds) s

/-- `wait` reports results only, and does not return for nothing. -/
def Action.Inner (fds : Descriptors) (s : System) : Action → Prop
  | .wait reports =>
      Calls (serverSetup fds) s.net reports ∧ (reports ≠ [] ∨ s.net.readyList ≠ [])
  | _ => True

/-- A step of the server with nothing new from its clients. -/
def InnerStep (fds : Descriptors) (strict : Bool) : System → System → Prop :=
  Machine.Moves (step fds) fun s a ↦ a.Admitted strict ∧ a.Inner fds s

/-- Events of clients, their bytes, handlers, and what the loop has to do about the rest. -/
def remaining (s : System) : ℕ × ℕ × Multiset (Option (Body (Option Response))) × ℕ :=
  (s.net.pending, s.net.unread, s.tasks, s.net.effort)

def Lower (s' s : System) : Prop :=
  Prod.Lex (· < ·) (Prod.Lex (· < ·) (Prod.Lex Less (· < ·))) s'.remaining s.remaining

instance : IsWellFounded System Lower :=
  ⟨InvImage.wf remaining (Nat.lt_wfRel.wf.prod_lex
    (Nat.lt_wfRel.wf.prod_lex (wellFounded_less.prod_lex Nat.lt_wfRel.wf)))⟩

variable {s s' : System}

theorem lower_iff : Lower s' s ↔ s'.net.pending < s.net.pending ∨
    s'.net.pending = s.net.pending ∧ (s'.net.unread < s.net.unread ∨
      s'.net.unread = s.net.unread ∧ (Less s'.tasks s.tasks ∨
        s'.tasks = s.tasks ∧ s'.net.effort < s.net.effort)) := by
  simp only [Lower, remaining, Prod.lex_iff]

end System

variable {fds : Descriptors} {strict : Bool} {s s' : System} {a : System.Action}

/-! ## The network server in it -/

/-- A step that is not of a worker is one of the loop, which leaves the handlers alone. -/
theorem loop_step (hnot : ¬ a.OfWorker) (hstep : s.step fds a = some s') :
    s'.threads = s.threads ∧ ∃ b : NetworkServer.Action, b.Registered ∧
      s.net.step (serverSetup fds) b = some s'.net ∧
        (∀ reports, b = .wait reports → a = .wait reports) ∧ (∀ p, b ≠ .take p) ∧
          ∀ p k o, b ≠ .work p k o := by
  cases a with
  | wait reports =>
      obtain ⟨net, hnet, rfl⟩ := Option.map_eq_some_iff.mp hstep
      exact ⟨rfl, .wait reports, trivial, hnet, fun _ h ↦ by cases h; rfl, by simp, by simp⟩
  | event o =>
      obtain ⟨net, hnet, rfl⟩ := Option.map_eq_some_iff.mp hstep
      exact ⟨rfl, .event _, Or.inl rfl, hnet, by simp, by simp, by simp⟩
  | ready o r =>
      simp only [System.step] at hstep
      split at hstep
      · obtain ⟨⟨resp, hnet⟩, hthreads⟩ := System.ready_net hstep
        exact ⟨hthreads, .ready _, Or.inl rfl, hnet, by simp, by simp, by simp⟩
      · cases hstep
  | withdraw =>
      obtain ⟨net, hnet, rfl⟩ := Option.map_eq_some_iff.mp hstep
      exact ⟨rfl, .withdraw, trivial, hnet, by simp, by simp, by simp⟩
  | take p r => exact absurd trivial hnot
  | access id x => exact absurd trivial hnot
  | work p k o => exact absurd trivial hnot

/-- An access of a worker is nothing to the network server. -/
theorem net_step (hstep : s.step fds a = some s') :
    s'.net = s.net ∨ ∃ b : NetworkServer.Action, b.Registered ∧
      s.net.step (serverSetup fds) b = some s'.net ∧
        ∀ reports, b = .wait reports → a = .wait reports := by
  have hloop (hnot : ¬ a.OfWorker) : s'.net = s.net ∨ ∃ b : NetworkServer.Action, b.Registered ∧
      s.net.step (serverSetup fds) b = some s'.net ∧
        ∀ reports, b = .wait reports → a = .wait reports := by
    obtain ⟨-, b, hb, hnet, hwait, -⟩ := loop_step hnot hstep
    exact .inr ⟨b, hb, hnet, hwait⟩
  cases a with
  | take p r =>
      simp only [System.step] at hstep
      split at hstep
      · cases hstep
      · obtain ⟨net, hnet, rfl⟩ := Option.map_eq_some_iff.mp hstep
        exact .inr ⟨.take p, trivial, hnet, by simp⟩
  | access id x =>
      simp only [System.step] at hstep
      split at hstep
      · cases hstep
      · obtain ⟨threads, -, rfl⟩ := Option.map_eq_some_iff.mp hstep
        exact .inl rfl
  | work p k o =>
      simp only [System.step] at hstep
      split at hstep
      · cases hstep
      · split at hstep
        · obtain ⟨net, hnet, rfl⟩ := Option.map_eq_some_iff.mp hstep
          exact .inr ⟨.work p k _, Or.inl rfl, hnet, by simp⟩
        · cases hstep
  | wait reports => exact hloop id
  | event o => exact hloop id
  | ready o r => exact hloop id
  | withdraw => exact hloop id

theorem System.Reached.net (h : s.Reached fds strict) :
    NetworkServer.Reached (serverSetup fds) s.net := by
  refine Machine.ReachableVia.invariant
    (P := fun s : System ↦ NetworkServer.Reached (serverSetup fds) s.net) h
    (Machine.ReachableVia.refl ..) ?_
  intro s a s' hs _ hstep
  rcases net_step hstep with hsame | ⟨b, hb, hnet, -⟩
  · rwa [hsame]
  · exact hs.step hb hnet

namespace System.ReachedPiped

theorem reached (h : s.ReachedPiped fds strict) : s.Reached fds strict :=
  Relation.ReflTransGen.mono (fun _ _ ⟨a, ha, hstep⟩ ↦ ⟨a, ha.1, hstep⟩) _ _ h

/-- No announced result is missing. -/
theorem backed (h : s.ReachedPiped fds strict) : Backed s.net := by
  have hboth : s.Reached fds strict ∧ Backed s.net := by
    refine Machine.ReachableVia.invariant (P := fun s ↦ s.Reached fds strict ∧ Backed s.net) h
      ⟨Machine.ReachableVia.refl .., fun q ↦ Nat.zero_le _⟩ ?_
    rintro s a s' ⟨hreached, hbacked⟩ ⟨hadmitted, hpiped⟩ hstep
    refine ⟨hreached.step hadmitted hstep, ?_⟩
    rcases net_step hstep with hsame | ⟨b, -, hnet, hwait⟩
    · rwa [hsame]
    · refine hbacked.step hreached.net.custody hreached.net.posted (fun reports hb ↦ ?_) hnet
      rw [hwait reports hb] at hpiped
      exact hpiped
  exact hboth.2

theorem inner (h : s.ReachedPiped fds strict) (hstep : InnerStep fds strict s s') :
    s'.ReachedPiped fds strict := by
  obtain ⟨a, ⟨hadmitted, hinner⟩, ha⟩ := hstep
  refine Machine.ReachableVia.step h ⟨hadmitted, ?_⟩ ha
  cases a with
  | wait reports => exact hinner.1.woken
  | _ => trivial

theorem inners (h : s.ReachedPiped fds strict)
    (hrun : Relation.ReflTransGen (InnerStep fds strict) s s') : s'.ReachedPiped fds strict := by
  induction hrun with
  | refl => exact h
  | tail _ hstep ih => exact ih.inner hstep

end System.ReachedPiped

/-! ## Every step leaves less -/

theorem lower_of_tasks (hpending : s'.net.pending = s.net.pending)
    (hunread : s'.net.unread ≤ s.net.unread) (htasks : Less s'.tasks s.tasks) : s'.Lower s := by
  refine System.lower_iff.mpr (.inr ⟨hpending, ?_⟩)
  exact hunread.lt_or_eq.imp_right fun heq ↦ ⟨heq, .inl htasks⟩

theorem inner_lowers (h : s.Reached fds strict) (hstep : System.InnerStep fds strict s s') :
    s'.Lower s := by
  obtain ⟨a, ⟨-, hinner⟩, ha⟩ := hstep
  obtain ⟨-, t, -, hrefines⟩ := h.staffed
  have hloop (hnot : ¬ a.OfWorker) : s'.Lower s := by
    obtain ⟨hsame, b, hb, hnet, hwait, htake, hwork⟩ := loop_step hnot ha
    have hcalls (reports : List (ℕ × Flags)) (heq : b = .wait reports) :
        Calls (serverSetup fds) s.net reports ∧ (reports ≠ [] ∨ s.net.readyList ≠ []) := by
      rw [hwait reports heq] at hinner
      exact hinner
    refine System.lower_iff.mpr ((loop_lowers h.net hb hcalls htake hwork hnet).imp_right ?_)
    refine And.imp_right fun hless ↦ ?_
    rcases hless with hunread | ⟨hunread, heffort, hunfinished⟩
    · exact .inl hunread
    · have htasks : s'.tasks = s.tasks := by
        rw [System.tasks, System.tasks, hunfinished, hsame]
      exact hunread.lt_or_eq.imp_right fun heq ↦ ⟨heq, .inr ⟨htasks, heffort⟩⟩
  cases a with
  | take p r =>
      obtain ⟨hless, -⟩ := take_less hrefines ha
      simp only [System.step] at ha
      split at ha
      · cases ha
      · obtain ⟨net, hnet, rfl⟩ := Option.map_eq_some_iff.mp ha
        obtain ⟨job, jobs, -, -, rfl⟩ := step_take hnet
        exact lower_of_tasks rfl le_rfl hless
  | access id x =>
      obtain ⟨hless, -⟩ := access_less hrefines ha
      simp only [System.step] at ha
      split at ha
      · cases ha
      · obtain ⟨threads, -, rfl⟩ := Option.map_eq_some_iff.mp ha
        exact lower_of_tasks rfl le_rfl hless
  | work p k o =>
      obtain ⟨hless, -⟩ := work_less hrefines ha
      simp only [System.step] at ha
      split at ha
      · cases ha
      · split at ha
        · obtain ⟨net, hnet, rfl⟩ := Option.map_eq_some_iff.mp ha
          obtain ⟨hpending, hunread⟩ := work_keeps h.net (.inl rfl) hnet
          exact lower_of_tasks hpending hunread hless
        · cases ha
  | wait reports => exact hloop id
  | event o => exact hloop id
  | ready o r => exact hloop id
  | withdraw => exact hloop id

/-! ## Something can be done, or the server rests -/

theorem inner_of_worker (hstep : System.WorkerStep fds strict s s') :
    System.InnerStep fds strict s s' := by
  obtain ⟨a, ⟨hworker, hadmitted⟩, ha⟩ := hstep
  refine ⟨a, ⟨hadmitted, ?_⟩, ha⟩
  cases a with
  | wait reports => exact hworker.elim
  | _ => trivial

/-- The numbers that `info` would add fit into the buffer of `add`. -/
def System.Printable (s : System) : Prop :=
  (Response.addText s.net.linkCount).length ≤ Response.addBufSize ∧
    (Response.addText s.totalCalls.toInt).length ≤ Response.addBufSize

instance : DecidablePred System.Printable := fun _ ↦ inferInstanceAs (Decidable (_ ∧ _))

theorem System.Printable.report (h : s.Printable) : s.report.Printable :=
  ⟨h.1, totalCalls_eq s.reports_report ▸ h.2⟩

/-- The loop executes a handler to its end. -/
theorem handler_of_not_threaded {req : Request} (h : ¬ Threaded (serverSetup fds) req) {r : Report}
    (hr : r.Printable) : ∃ resp, handler r req = .ret (some resp) := by
  rw [handler]
  cases hcmd : procMap.getProc (req.headD []) with
  | none => exact ⟨_, rfl⟩
  | some cmd =>
      refine Proc.api_of_plain ?_ hr req
      refine (procMap_flags cmd (List.mem_of_find?_eq_some hcmd)).2 ?_
      by_contra hthread
      refine h ⟨⟨cmd.flags⟩, ?_, hthread⟩
      exact Option.map_eq_some_iff.mpr ⟨cmd, hcmd, rfl⟩

theorem ready_enabled {rest : List ℕ} (hpc : s.net.pc = .ready rest) (hprints : s.Printable) :
    ∃ s', s.step fds (.ready calmWorld s.report) = some s' := by
  have hnet (resp : Response) : ∃ net,
      s.net.step (serverSetup fds) (.ready (System.respond calmWorld resp)) = some net := by
    cases rest with
    | nil => exact ⟨_, by rw [NetworkServer.step, hpc]⟩
    | cons id rest => exact ⟨_, by rw [NetworkServer.step, hpc]⟩
  have hready : ∃ s', s.ready (serverSetup fds) calmWorld s.report = some s' := by
    rw [System.ready]
    cases hincoming : s.net.incoming calmWorld with
    | none =>
        obtain ⟨net, hnet⟩ := hnet []
        exact ⟨_, congrArg (Option.map _) hnet⟩
    | some asked =>
        obtain ⟨id, req⟩ := asked
        dsimp only
        by_cases hthreaded : Threaded (serverSetup fds) req
        · obtain ⟨net, hnet⟩ := hnet []
          exact ⟨_, by rw [if_pos hthreaded, hnet, Option.map_some]⟩
        · obtain ⟨resp, hresp⟩ := handler_of_not_threaded hthreaded hprints.report
          obtain ⟨net, hnet⟩ := hnet resp
          exact ⟨_, by rw [if_neg hthreaded, hresp]; exact congrArg (Option.map _) hnet⟩
  obtain ⟨s', hs'⟩ := hready
  exact ⟨s', by rw [System.step, if_pos s.reports_report, hs']⟩

theorem wait_enabled (htop : s.net.pc = .top) {reports : List (ℕ × Flags)}
    (hreported : s.net.Reported reports)
    (hcalls : Calls (serverSetup fds) s.net reports)
    (hgo : reports ≠ [] ∨ s.net.readyList ≠ []) : ∃ s', System.InnerStep fds strict s s' := by
  refine ⟨{ s with net := s.net.waited reports }, .wait reports, ⟨trivial, hcalls, hgo⟩, ?_⟩
  simp [System.step, NetworkServer.step, htop, hreported, waited]

/-- A server in which nothing more can be done rests. -/
theorem resting_of_stopped (h : s.ReachedPiped fds strict)
    (hprints : s.Printable)
    (hstopped : ¬ ∃ s', System.InnerStep fds strict s s') : Resting s.net := by
  have hcustody := h.reached.net.custody
  have hposted := h.reached.net.posted
  have hgo {a : System.Action} (hadmitted : a.Admitted strict) (hinner : a.Inner fds s) :
      ¬ ∃ s', s.step fds a = some s' := by
    rintro ⟨s', hs'⟩
    exact hstopped ⟨s', a, ⟨hadmitted, hinner⟩, hs'⟩
  have htop : s.net.pc = .top := by
    cases hpc : s.net.pc with
    | top => rfl
    | events batch =>
        obtain ⟨net, hnet⟩ := event_enabled (S := serverSetup fds) h.backed hpc
          (o := System.respond calmWorld []) rfl
        have hstep : s.step fds (.event calmWorld) = some _ := congrArg (Option.map _) hnet
        exact absurd ⟨_, hstep⟩ (hgo (a := .event calmWorld) trivial trivial)
    | ready rest =>
        exact absurd (ready_enabled hpc hprints)
          (hgo (a := .ready calmWorld s.report) trivial trivial)
    | withdraw id rest =>
        obtain ⟨link, hlink, -⟩ := withdraw_steps hcustody hpc
        obtain ⟨net, hnet⟩ : ∃ net, s.net.step (serverSetup fds) .withdraw = some net :=
          Option.isSome_iff_exists.mp (by simp [NetworkServer.step, hpc, hlink])
        have hstep : s.step fds .withdraw = some _ := congrArg (Option.map _) hnet
        exact absurd ⟨_, hstep⟩ (hgo (a := .withdraw) trivial trivial)
    | crashed => exact absurd hpc hcustody.wired.alive
  refine ⟨htop, ?_, fun q ↦ ?_, ?_⟩
  · by_contra hlisted
    have hreported : s.net.Reported [] := ⟨List.nodup_nil, by simp⟩
    have hcalls : Calls (serverSetup fds) s.net [] := by simp [Calls]
    exact hstopped (wait_enabled htop hreported hcalls (.inr hlisted))
  · by_contra hresults
    refine hstopped (wait_enabled htop (hposted.reported hcustody.wired.mirrors q) ?_ ?_)
    · intro r hr
      rw [List.mem_singleton.mp hr]
      exact ⟨q, rfl, hresults⟩
    · exact .inl (List.cons_ne_nil _ _)
  · by_contra hjobs
    obtain ⟨job, hjob⟩ := List.exists_mem_of_ne_nil _ hjobs
    obtain ⟨s', hs'⟩ := worker_enabled h.reached hjob
    exact hstopped ⟨s', inner_of_worker hs'⟩

/-- A server that rests has nothing to do. -/
theorem stopped_of_resting (h : s.Reached fds strict) (hrests : Resting s.net) :
    ¬ ∃ s', System.InnerStep fds strict s s' := by
  have hnone {p : PoolId} {job : ProcJob}
      (hjob : job ∈ (s.net.pools p).jobs ∨ job ∈ (s.net.pools p).running) : False :=
    List.not_mem_nil (hrests.unfinished ▸ mem_unfinished hjob)
  have htop := hrests.top
  rintro ⟨s', a, ⟨-, hinner⟩, ha⟩
  cases a with
  | wait reports =>
      obtain ⟨hcalls, hgo⟩ := hinner
      have hne : reports ≠ [] := hgo.resolve_right (not_not.mpr hrests.listed)
      obtain ⟨r, hr⟩ := List.exists_mem_of_ne_nil _ hne
      obtain ⟨q, -, hresults⟩ := hcalls r hr
      exact hresults (hrests.results q)
  | event o => simp [System.step, NetworkServer.step, htop] at ha
  | ready o r =>
      simp only [System.step] at ha
      split at ha
      · obtain ⟨⟨resp, hnet⟩, -⟩ := System.ready_net ha
        simp [NetworkServer.step, htop] at hnet
      · cases ha
  | withdraw => simp [System.step, NetworkServer.step, htop] at ha
  | take p r =>
      simp only [System.step] at ha
      split at ha
      · cases ha
      · next hjobs => exact hnone (.inl (hjobs ▸ List.mem_cons_self))
  | access id x =>
      simp only [System.step] at ha
      split at ha
      · cases ha
      · obtain ⟨threads, hexec, -⟩ := Option.map_eq_some_iff.mp ha
        obtain ⟨op, next, v, hrest, -⟩ := Threads.exec_cases hexec
        obtain ⟨-, t, -, hrefines⟩ := h.staffed
        obtain ⟨p, job, hjob, -⟩ := hrefines.running id (by rw [hrest]; simp)
        exact hnone (.inr hjob)
  | work p k o =>
      simp only [System.step] at ha
      split at ha
      · cases ha
      · next hjob => exact hnone (.inr (List.mem_of_getElem? hjob))

/-- With nothing new from its clients the server comes to rest, whatever happens meanwhile: it
cannot go on for ever, and when it stops it sleeps, has answered every request, and waits for the
rest of a request on every link. -/
theorem System.comes_to_rest (h : s.ReachedPiped fds strict) :
    (∀ run : ℕ → System, run 0 = s → ¬ ∀ n, InnerStep fds strict (run n) (run (n + 1))) ∧
      ∀ s', Relation.ReflTransGen (InnerStep fds strict) s s' →
        s'.Printable → (¬ ∃ s'', InnerStep fds strict s' s'') →
          Resting s'.net ∧ ∀ id, (repliesOf id s'.log).map Prod.fst = requestsOf id s'.log ∧
            ∀ link, s'.net.links id = some link →
              drain scanPacket (s'.net.history id).received =
                (requestsOf id s'.log, some link.input.content) := by
  constructor
  · rintro run rfl hsteps
    have hreached (n : ℕ) : (run n).ReachedPiped fds strict := by
      induction n with
      | zero => exact h
      | succ n ih => exact ih.inner (hsteps n)
    obtain ⟨n, hn⟩ := WellFounded.not_rel_apply_succ (r := Lower) run
    exact hn (inner_lowers (hreached n).reached (hsteps n))
  · intro s' hrun hprints hstopped
    have hreached := h.inners hrun
    have hnet := hreached.reached.net
    have hrests := resting_of_stopped hreached hprints hstopped
    obtain ⟨t, hspec, hrefines⟩ := refines_reached hreached.reached
    refine ⟨hrests, fun id ↦ ⟨?_, fun link hlink ↦ ?_⟩⟩
    · have hreplied := hspec.replied id
      rw [hrefines.asked, hrests.waiting hnet.custody, Option.toList_none, List.append_nil,
        ← repliesOf_visible, ← requestsOf_visible, hrefines.log] at hreplied
      exact hreplied
    · obtain ⟨htaken, hmore⟩ := hnet.drained id link hlink
      rw [hrefines.parsed]
      have hdrain := drain_more (hmore (hrests.idle hnet.custody hlink))
      rw [Taken, hdrain, List.append_nil] at htaken
      exact htaken

/-! ## A run -/

instance (fds : Descriptors) (s : System) : DecidablePred (System.Action.Piped fds s)
  | .wait reports => decidable_of_iff (∀ r ∈ reports,
      (r.1 = fds.reader → (s.net.pools .reader).results ≠ []) ∧
        (r.1 = fds.writer → (s.net.pools .writer).results ≠ [])) ⟨by
      rintro h r hr (_ | _)
      · exact (h r hr).1
      · exact (h r hr).2, fun h r hr ↦ ⟨h r hr .reader, h r hr .writer⟩⟩
  | .event _ => inferInstanceAs (Decidable True)
  | .ready _ _ => inferInstanceAs (Decidable True)
  | .withdraw => inferInstanceAs (Decidable True)
  | .take _ _ => inferInstanceAs (Decidable True)
  | .access _ _ => inferInstanceAs (Decidable True)
  | .work _ _ _ => inferInstanceAs (Decidable True)

instance (fds : Descriptors) (s : System) : DecidablePred (System.Action.Inner fds s)
  | .wait reports => decidable_of_iff ((∀ r ∈ reports,
      (r.1 = fds.reader ∧ (s.net.pools .reader).results ≠ []) ∨
        (r.1 = fds.writer ∧ (s.net.pools .writer).results ≠ [])) ∧
          (reports ≠ [] ∨ s.net.readyList ≠ [])) (and_congr_left fun _ ↦ ⟨fun h r hr ↦
      (h r hr).elim (fun h ↦ ⟨.reader, h⟩) fun h ↦ ⟨.writer, h⟩, by
      intro h r hr
      obtain ⟨_ | _, hq⟩ := h r hr
      · exact .inl hq
      · exact .inr hq⟩)
  | .event _ => inferInstanceAs (Decidable True)
  | .ready _ _ => inferInstanceAs (Decidable True)
  | .withdraw => inferInstanceAs (Decidable True)
  | .take _ _ => inferInstanceAs (Decidable True)
  | .access _ _ => inferInstanceAs (Decidable True)
  | .work _ _ _ => inferInstanceAs (Decidable True)

/-- The loop collects what the two clients were answered, and goes to sleep. -/
def collectBoth : List System.Action :=
  [.ready calmWorld (smallReport 2), .wait [(4, epollIn), (5, epollIn)], .event calmWorld,
    .event calmWorld, .event calmWorld,
    .ready calmWorld ⟨2, procMap.entries.map fun cmd ↦
      { cmd with calls := if cmd.name = ascii "get" ∨ cmd.name = ascii "set" then 1 else 0 },
      [], 0, []⟩]

/-- The server is told of two clients with a request each, answers both and rests. -/
theorem System.comes_to_rest_run : ∃ s s' : System, s.ReachedPiped smallFds true ∧ s.log = [] ∧
    Relation.ReflTransGen (InnerStep smallFds true) s s' ∧ s'.log = setThenGetLog ∧
      Resting s'.net ∧ (repliesOf 4 s'.log).map Prod.fst = requestsOf 4 s'.log ∧
        ∃ link, s'.net.links 4 = some link ∧
          drain scanPacket (s'.net.history 4).received =
            (requestsOf 4 s'.log, some link.input.content) := by
  obtain ⟨s, hrun, hs⟩ := (Option.any_eq_true ..).mp
    (show (Machine.runVia (System.step smallFds) (fun s a ↦ a.Admitted true ∧ a.Piped smallFds s)
      (System.init smallFds) (setThenGet.take 9)).any (fun s ↦ s.log = [] ∧
        (Machine.runVia (System.step smallFds) (fun s a ↦ a.Admitted true ∧ a.Inner smallFds s) s
          (setThenGet.drop 9 ++ collectBoth)).any fun s' ↦ s'.log = setThenGetLog ∧
            s'.Printable ∧ s'.net.pc = .top ∧ s'.net.readyList = [] ∧
              (s'.net.unfinished ++ s'.net.results).length = 0 ∧ (s'.net.links 4).isSome) = true by
      decide +kernel)
  obtain ⟨hempty, hinner⟩ := of_decide_eq_true hs
  obtain ⟨s', hrun', hs'⟩ := (Option.any_eq_true ..).mp hinner
  obtain ⟨hlog, hprints, htop, hlisted, hpools, hlink⟩ := of_decide_eq_true hs'
  have hreached : s.ReachedPiped smallFds true := Machine.reachableVia_of_run hrun
  have hsteps : Relation.ReflTransGen (InnerStep smallFds true) s s' :=
    Machine.reachableVia_of_run hrun'
  obtain ⟨hunfinished, hresults⟩ := List.append_eq_nil_iff.mp (List.length_eq_zero_iff.mp hpools)
  obtain ⟨hreader, hwriter⟩ := List.append_eq_nil_iff.mp hresults
  have hrests : Resting s'.net := ⟨htop, hlisted, fun q ↦ by cases q <;> assumption, hunfinished⟩
  obtain ⟨-, hreplied⟩ := (System.comes_to_rest hreached).2 s' hsteps hprints
    (stopped_of_resting (hreached.inners hsteps).reached hrests)
  obtain ⟨link, hlink⟩ := Option.isSome_iff_exists.mp hlink
  exact ⟨s, s', hreached, hempty, hsteps, hlog, hrests, (hreplied 4).1, link, hlink,
    (hreplied 4).2 link hlink⟩

end GeminiDB
