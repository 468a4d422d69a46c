import GeminiDB.Net.Runs
import GeminiDB.Proc.Table

/-!
# The running server (`geminidb-server.cpp`, `serv.cpp`)

The event loop, the workers of its two pools, and the database behind them. A worker
that has taken a job executes the handler of its request, one access after another,
while the loop and the other workers go on. A handler without accesses is executed by
the loop.
-/

namespace GeminiDB

open Program

/-- The descriptors of the listening socket and of the pipes of the two pools. -/
structure Descriptors where
  serv : ℕ
  reader : ℕ
  writer : ℕ
  distinct : [serv, reader, writer].Nodup

def readerThreads : ℕ := 10

/-- Some writes rely on there being a single thread. -/
def writerThreads : ℕ := 1

/-- The server as `main` sets it up. -/
def serverSetup (fds : Descriptors) : Setup where
  procMap name := (procMap.getProc name).map fun cmd ↦ ⟨cmd.flags⟩
  servFd := fds.serv
  readerFd := fds.reader
  writerFd := fds.writer
  workers
    | .reader => readerThreads
    | .writer => writerThreads
  distinct := fds.distinct

/-- What the server does that its clients or its database see: a request is parsed, the
database is read or written, a handler has made its response. -/
inductive Event where
  | request (id : ℕ) (req : Request)
  | moment (id : ℕ) (m : Moment) (x : Option Bytes)
  | reply (id : ℕ) (req : Request) (resp : Response)
  deriving DecidableEq

/-- A worker is known by the link of its job. `calls` are those of the commands; `log` is
read by nothing but the proofs. -/
structure System where
  net : NetworkServer
  threads : Threads ℕ DbOp DbOp.Result (BinlogQueue Unit) (Option Response)
  calls : Bytes → UInt64
  log : List Event

namespace NetworkServer

/-- The request that the loop will parse in its next round over `ready_list`. -/
def incoming (s : NetworkServer) (o : World) : Option (ℕ × Request) :=
  match s.pc with
  | .ready (id :: _) =>
      match s.links id with
      | none => none
      | some link =>
          if link.error then none
          else match link.recv o.alloc with
            | (.vector (_ :: _), link') => some (id, link'.request)
            | _ => none
  | _ => none

/-- The job whose result the loop collects in its next round over the events. -/
def collected (s : NetworkServer) : Option ProcJob :=
  match s.pc with
  | .events (p :: _) =>
      let ptr := (s.fdes.table.heap p).dataPtr
      if ptr = servPtr then none
      else if ptr = readerPtr then (s.pools .reader).results.head?
      else if ptr = writerPtr then (s.pools .writer).results.head?
      else none
  | _ => none

end NetworkServer

namespace System

def init (fds : Descriptors) : System where
  net := NetworkServer.init (serverSetup fds)
  threads := ⟨BinlogQueue.empty, none, fun _ ↦ none⟩
  calls := fun _ ↦ 0
  log := []

/-- The commands and the number of links are those of the server. -/
def Reports (s : System) (r : Report) : Prop :=
  r.linkCount = s.net.linkCount ∧
    (r.commands.map fun cmd ↦ (cmd.name, cmd.flags, cmd.proc, cmd.calls)).Perm
      (procMap.entries.map fun cmd ↦ (cmd.name, cmd.flags, cmd.proc, s.calls cmd.name))

instance (s : System) (r : Report) : Decidable (s.Reports r) :=
  inferInstanceAs (Decidable (_ ∧ _))

/-- One of the reports that handlers may read. -/
def report (s : System) : Report :=
  ⟨s.net.linkCount, procMap.entries.map fun cmd ↦ { cmd with calls := s.calls cmd.name }, [], 0, []⟩

theorem reports_report (s : System) : s.Reports s.report := by
  refine ⟨rfl, .of_eq ?_⟩
  rw [report, List.map_map]
  rfl

/-- `job->cmd->calls += 1`, for a command that is in the table. -/
def count (req : Request) (calls : Bytes → UInt64) : Bytes → UInt64 :=
  if (procMap.getProc (req.headD [])).isSome then
    Function.update calls (req.headD []) (calls (req.headD []) + 1)
  else calls

/-- The world when handlers make this response; all of them return 0. -/
def respond (o : World) (resp : Response) : World := { o with result := procOk, resp := resp }

inductive Action where
  | wait (reports : List (ℕ × Flags))
  | event (o : World)
  | ready (o : World) (r : Report)
  | withdraw
  | take (p : PoolId) (r : Report)
  | access (id : ℕ) (x : Unit × Bool)
  | work (p : PoolId) (k : ℕ) (o : World)

/-- A link from `ready_list`. A request for a thread is queued, any other one answered; a
handler that writes beyond an array has no step. -/
def ready (S : Setup) (o : World) (r : Report) (s : System) : Option System :=
  match s.net.incoming o with
  | none => (s.net.step S (.ready (respond o []))).map fun net ↦ { s with net := net }
  | some (id, req) =>
      if NetworkServer.Threaded S req then
        (s.net.step S (.ready (respond o []))).map fun net ↦
          { s with net := net, log := s.log ++ [.request id req] }
      else match handler r req with
        | .ret (some resp) =>
            (s.net.step S (.ready (respond o resp))).map fun net ↦
              { s with
                net := net
                calls := count req s.calls
                log := s.log ++ [.request id req, .reply id req resp] }
        | _ => none

/-- The loop makes its own step, and starts no handler in a thread. -/
theorem ready_net {S : Setup} {o : World} {r : Report} {s s' : System}
    (h : s.ready S o r = some s') :
    (∃ resp, s.net.step S (.ready (respond o resp)) = some s'.net) ∧ s'.threads = s.threads := by
  rw [ready] at h
  split at h
  · obtain ⟨net, hnet, rfl⟩ := Option.map_eq_some_iff.mp h
    exact ⟨⟨_, hnet⟩, rfl⟩
  · split at h
    · obtain ⟨net, hnet, rfl⟩ := Option.map_eq_some_iff.mp h
      exact ⟨⟨_, hnet⟩, rfl⟩
    · split at h
      · obtain ⟨net, hnet, rfl⟩ := Option.map_eq_some_iff.mp h
        exact ⟨⟨_, hnet⟩, rfl⟩
      · cases h

def step (fds : Descriptors) (s : System) : Action → Option System
  | .wait reports =>
      (s.net.step (serverSetup fds) (.wait reports)).map fun net ↦ { s with net := net }
  | .event o =>
      (s.net.step (serverSetup fds) (.event (respond o []))).map fun net ↦
        { s with
          net := net
          calls := s.net.collected.elim s.calls fun job ↦ count job.request s.calls }
  | .ready o r => if s.Reports r then s.ready (serverSetup fds) o r else none
  | .withdraw => (s.net.step (serverSetup fds) .withdraw).map fun net ↦ { s with net := net }
  | .take p r =>
      match (s.net.pools p).jobs with
      | [] => none
      | job :: _ =>
          (s.net.step (serverSetup fds) (.take p)).map fun net ↦
            { s with
              net := net
              threads := s.threads.put job.link (some (body (handler r job.request))) }
  | .access id x =>
      if s.net.pc = .crashed then none
      else (s.threads.exec binlogs id x).map fun threads ↦ { s with threads := threads }
  | .work p k o =>
      match (s.net.pools p).running[k]? with
      | none => none
      | some job =>
          match s.threads.rest job.link with
          | some (.ret (some resp)) =>
              (s.net.step (serverSetup fds) (.work p k (respond o resp))).map fun net ↦
                { s with
                  net := net
                  threads := s.threads.put job.link none
                  log := s.log ++ [.reply job.link job.request resp] }
          | _ => none

/-- With `strict`, no access to leveldb fails. -/
def Action.Admitted (strict : Bool) : Action → Prop
  | .access _ x => Admits strict x
  | _ => True

instance (strict : Bool) : DecidablePred (Action.Admitted strict)
  | .access _ x => inferInstanceAs (Decidable (strict = true → x.2 = false))
  | .wait _ => inferInstanceAs (Decidable True)
  | .event _ => inferInstanceAs (Decidable True)
  | .ready _ _ => inferInstanceAs (Decidable True)
  | .withdraw => inferInstanceAs (Decidable True)
  | .take _ _ => inferInstanceAs (Decidable True)
  | .work _ _ _ => inferInstanceAs (Decidable True)

def Reached (fds : Descriptors) (strict : Bool) (s : System) : Prop :=
  Machine.ReachableVia (step fds) (fun _ a ↦ a.Admitted strict) (init fds) s

end System

/-! ## What the loop leaves alone -/

namespace NetworkServer

/-- The request of a job names a command that belongs to the pool. -/
def Suited (S : Setup) (p : PoolId) (job : ProcJob) : Prop :=
  ∃ cmd, S.procMap (job.request.headD []) = some cmd ∧ cmd.flags &&& Command.flagThread ≠ 0 ∧
    (p = .writer ↔ cmd.flags &&& Command.flagWrite ≠ 0)

/-- The jobs of the workers are untouched, and so are the addresses to come. -/
structure Apart (S : Setup) (s s' : NetworkServer) : Prop where
  running : ∀ p, (s'.pools p).running = (s.pools p).running
  jobs : ∀ p, ∀ job ∈ (s'.pools p).jobs, job ∈ (s.pools p).jobs ∨ Suited S p job
  results : s'.results = s.results
  next : s'.next = s.next

variable {S : Setup} {s s' s'' : NetworkServer}

theorem Apart.of_pools (hpools : s'.pools = s.pools) (hnext : s'.next = s.next) :
    Apart S s s' := by
  refine ⟨fun p ↦ ?_, fun p job hjob ↦ .inl (hpools ▸ hjob), ?_, hnext⟩
  · rw [hpools]
  · rw [NetworkServer.results, hpools]
    rfl

theorem Apart.refl (s : NetworkServer) : Apart S s s := .of_pools rfl rfl

theorem Apart.trans (h : Apart S s s') (h' : Apart S s' s'') : Apart S s s'' := by
  refine ⟨fun p ↦ (h'.running p).trans (h.running p), fun p job hjob ↦ ?_,
    h'.results.trans h.results, h'.next.trans h.next⟩
  rcases h'.jobs p job hjob with hold | hnew
  · exact h.jobs p job hold
  · exact .inr hnew

theorem apart_push (second : Bool) (id : ℕ) (s : NetworkServer) : Apart S s (s.push second id) := by
  rw [push]
  split
  · exact .of_pools rfl rfl
  · exact .of_pools rfl rfl

theorem apart_watch_if (p : Prop) [Decidable p] (flag : Flags) (id : ℕ) (link : Link)
    (s : NetworkServer) : Apart S s (if p then s.watch flag id link else s) := by
  split
  · exact .of_pools rfl rfl
  · exact .refl s

theorem apart_procResult (second : Bool) (job : ProcJob) (o : World) (s : NetworkServer) :
    Apart S s (s.procResult second job o) := by
  rw [procResult]
  dsimp only
  cases s.links job.link with
  | none => exact .of_pools rfl rfl
  | some link =>
      dsimp only
      by_cases herr : job.result = procError
      · rw [if_pos herr]
        exact .of_pools rfl rfl
      · rw [if_neg herr]
        generalize (if link.output.size ≠ 0 then link.write o.writes else (0, link)) = w
        generalize (if link.output.size ≠ 0 then some (link.accepted o.writes) else none) = sent
        by_cases hdead : w.1 < 0
        · rw [if_pos hdead]
          exact .of_pools rfl rfl
        · rw [if_neg hdead]
          have hstore (h : History) : Apart S s (s.store job.link w.2 h) := .of_pools rfl rfl
          have hflush (h : History) := (hstore h).trans
            (apart_watch_if (w.2.output.size ≠ 0) fdeventOut job.link w.2 _)
          by_cases hidle : w.2.input.size = 0
          · rw [if_pos hidle]
            exact (hflush _).trans (.of_pools rfl rfl)
          · rw [if_neg hidle]
            refine Apart.trans ?_ (apart_push _ _ _)
            exact (hflush _).trans (.of_pools rfl rfl)

theorem apart_finish (req resp : List Bytes) (result : Int) (id : ℕ) (link : Link) (o : World)
    (s : NetworkServer) : Apart S s (s.finish req resp result id link o) := by
  rw [finish]
  dsimp only
  generalize (if (link.send o.appends resp).1 = -1 then procError else result) = code
  by_cases hthread : code = procThread
  · rw [if_pos hthread]
    exact .of_pools rfl rfl
  · rw [if_neg hthread]
    by_cases hbackend : code = procBackend
    · rw [if_pos hbackend]
      exact .of_pools rfl rfl
    · rw [if_neg hbackend]
      refine Apart.trans ?_ (apart_procResult _ _ _ _)
      exact .of_pools rfl rfl

theorem apart_proc (req : List Bytes) (id : ℕ) (link : Link) (rest : List ℕ) (o : World)
    (s : NetworkServer) : Apart S s (s.proc S req id link rest o) := by
  rw [proc]
  dsimp only
  cases hcmd : S.procMap (req.headD []) with
  | none => exact apart_finish ..
  | some cmd =>
      dsimp only
      by_cases hthread : cmd.flags &&& Command.flagThread ≠ 0
      · rw [if_pos hthread]
        have hpool (p : PoolId)
            (hp : p = if cmd.flags &&& Command.flagWrite ≠ 0 then PoolId.writer else .reader) :
            p = .writer ↔ cmd.flags &&& Command.flagWrite ≠ 0 := by
          split at hp <;> simp_all
        generalize (if cmd.flags &&& Command.flagWrite ≠ 0 then PoolId.writer else .reader) = pool
          at hpool
        refine ⟨fun p ↦ ?_, fun p job hjob ↦ ?_, results_update rfl, rfl⟩
        · by_cases hp : p = pool
          · subst hp
            simp
          · simp [hp]
        · by_cases hp : p = pool
          · subst hp
            dsimp only at hjob
            rw [Function.update_self, List.mem_append, List.mem_singleton] at hjob
            rcases hjob with hold | rfl
            · exact .inl hold
            · exact .inr ⟨cmd, hcmd, hthread, hpool p rfl⟩
          · dsimp only at hjob
            rw [Function.update_of_ne hp] at hjob
            exact .inl hjob
      · rw [if_neg hthread]
        exact apart_finish ..

theorem apart_readyLink (id : ℕ) (rest : List ℕ) (o : World) (s : NetworkServer) :
    Apart S s (s.readyLink S id rest o) := by
  rw [readyLink]
  dsimp only
  split
  · exact .of_pools rfl rfl
  · split
    · exact .of_pools rfl rfl
    · split
      · exact .of_pools rfl rfl
      · exact .of_pools rfl rfl
      · split
        · exact .of_pools rfl rfl
        · refine Apart.trans ?_ (apart_proc _ _ _ _ _ _)
          exact .of_pools rfl rfl

/-- The first result of the pool is collected. -/
theorem popResult_apart {p : PoolId} {o : World} (h : s.popResult p o = some s') :
    ∃ job results, (s.pools p).results = job :: results ∧
      Apart S { s with
        pools := Function.update s.pools p { s.pools p with results := results } } s' := by
  rw [popResult] at h
  split at h
  · cases h
  · next job results hresults =>
    cases h
    exact ⟨job, results, hresults, apart_procResult ..⟩

theorem apart_procRequest (fde : Fdevent) (o : World) (s : NetworkServer) :
    Apart S s (s.procRequest fde o) := by
  rw [procRequest]
  by_cases hin : fde.events &&& fdeventIn ≠ 0
  · rw [if_pos hin]
    dsimp only
    cases s.links fde.dataPtr with
    | none => exact .of_pools rfl rfl
    | some link =>
        refine Apart.trans ?_ (apart_push _ _ _)
        exact .of_pools rfl rfl
  · rw [if_neg hin]
    exact .refl s

/-- An event starts no job; it collects a result or none. -/
theorem event_apart {o : World} (h : s.step S (.event o) = some s') :
    (∀ p, (s'.pools p).running = (s.pools p).running) ∧
      (∀ p, ∀ job ∈ (s'.pools p).jobs, job ∈ (s.pools p).jobs ∨ Suited S p job) ∧
        s.next ≤ s'.next ∧ s.results.Perm (s.collected.toList ++ s'.results) := by
  have hnone (h : Apart S s s') (hcollected : s.collected = none) :
      (∀ p, (s'.pools p).running = (s.pools p).running) ∧
        (∀ p, ∀ job ∈ (s'.pools p).jobs, job ∈ (s.pools p).jobs ∨ Suited S p job) ∧
          s.next ≤ s'.next ∧ s.results.Perm (s.collected.toList ++ s'.results) := by
    rw [hcollected]
    exact ⟨h.running, h.jobs, h.next.ge, .of_eq h.results.symm⟩
  have hpop {p : PoolId} {batch : List ℕ} (hcollected : s.collected = (s.pools p).results.head?)
      (hpop : ({ s with pc := .events batch } : NetworkServer).popResult p o = some s') :
      (∀ p, (s'.pools p).running = (s.pools p).running) ∧
        (∀ p, ∀ job ∈ (s'.pools p).jobs, job ∈ (s.pools p).jobs ∨ Suited S p job) ∧
          s.next ≤ s'.next ∧ s.results.Perm (s.collected.toList ++ s'.results) := by
    obtain ⟨job, results, hresults, hapart⟩ := popResult_apart (S := S) hpop
    have hjob : s.collected = some job := hcollected.trans (congrArg List.head? hresults)
    rw [hjob]
    refine ⟨fun p' ↦ (hapart.running p').trans ?_, fun p' other hother ↦ ?_, hapart.next.ge, ?_⟩
    · by_cases hp : p' = p
      · subst hp
        simp
      · simp [hp]
    · refine (hapart.jobs p' other hother).imp_left fun hold ↦ ?_
      by_cases hp : p' = p
      · subst hp
        simpa using hold
      · simpa [hp] using hold
    · rw [hapart.results]
      refine results_perm (fun q hq ↦ (Function.update_of_ne hq ..).symm) (.of_eq ?_)
      simpa using hresults
  simp only [step] at h
  split at h
  · next hpc =>
    cases h
    exact hnone (.of_pools rfl rfl) (by simp [collected, hpc])
  · next ptr batch hpc =>
    split at h
    · rw [event] at h
      split at h
      · next hserv =>
        cases h
        have hcollected : s.collected = none := by
          simp only [collected, hpc]
          exact if_pos hserv
        rw [hcollected, accept]
        split
        · exact ⟨fun _ ↦ rfl, fun _ _ hjob ↦ .inl hjob, le_rfl, .refl _⟩
        · exact ⟨fun _ ↦ rfl, fun _ _ hjob ↦ .inl hjob, Nat.le_succ _, .refl _⟩
      · next hserv =>
        split at h
        · next hreader =>
          refine hpop ?_ h
          simp only [collected, hpc]
          exact (if_neg hserv).trans (if_pos hreader)
        · next hreader =>
          split at h
          · next hwriter =>
            refine hpop ?_ h
            simp only [collected, hpc]
            exact (if_neg hserv).trans ((if_neg hreader).trans (if_pos hwriter))
          · next hwriter =>
            cases h
            refine hnone ?_ ?_
            · refine Apart.trans ?_ (apart_procRequest _ _ _)
              exact .of_pools rfl rfl
            · simp only [collected, hpc]
              exact (if_neg hserv).trans ((if_neg hreader).trans (if_neg hwriter))
    · cases h
  · cases h

/-- The loop starts no job but those that it queues. -/
theorem step_apart {a : Action} (h : s.step S a = some s') (htake : ∀ p, a ≠ .take p)
    (hwork : ∀ p k o, a ≠ .work p k o) :
    (∀ p, (s'.pools p).running = (s.pools p).running) ∧
      (∀ p, ∀ job ∈ (s'.pools p).jobs, job ∈ (s.pools p).jobs ∨ Suited S p job) ∧
        s.next ≤ s'.next ∧ ((∀ o, a ≠ .event o) → s'.results = s.results) := by
  have hapart (h : Apart S s s') :
      (∀ p, (s'.pools p).running = (s.pools p).running) ∧
        (∀ p, ∀ job ∈ (s'.pools p).jobs, job ∈ (s.pools p).jobs ∨ Suited S p job) ∧
          s.next ≤ s'.next ∧ ((∀ o, a ≠ .event o) → s'.results = s.results) :=
    ⟨h.running, h.jobs, h.next.ge, fun _ ↦ h.results⟩
  cases a with
  | wait reports =>
      simp only [step] at h
      split at h
      · cases h
        exact hapart (.of_pools rfl rfl)
      · cases h
  | event o =>
      obtain ⟨hrunning, hjobs, hnext, -⟩ := event_apart h
      exact ⟨hrunning, hjobs, hnext, fun hnot ↦ absurd rfl (hnot o)⟩
  | ready o =>
      simp only [step] at h
      split at h
      · cases h
        exact hapart (.of_pools rfl rfl)
      · cases h
        exact hapart (apart_readyLink ..)
      · cases h
  | withdraw =>
      simp only [step] at h
      split at h
      · split at h
        · cases h
          exact hapart (.of_pools rfl rfl)
        · cases h
          exact hapart (.of_pools rfl rfl)
      · cases h
  | take p => exact absurd rfl (htake p)
  | work p k o => exact absurd rfl (hwork p k o)

/-- A worker that is done has one job less and gives a result. -/
theorem step_work {p : PoolId} {k : ℕ} {o : World} (hs : Custody S s)
    (h : s.step S (.work p k o) = some s') :
    (∀ p', (s'.pools p').running =
      if p' = p then (s.pools p).running.eraseIdx k else (s.pools p').running) ∧
        (∀ p', (s'.pools p').jobs = (s.pools p').jobs) ∧ s'.next = s.next ∧
          ∃ job done, (s.pools p).running[k]? = some job ∧ done.request = job.request ∧
            s'.results.Perm (done :: s.results) := by
  simp only [step, if_neg hs.wired.alive] at h
  rw [work] at h
  split at h
  · cases h
  · next job hjob =>
    obtain ⟨link, hlink, -⟩ := hs.unfinished (mem_unfinished (.inr (List.mem_of_getElem? hjob)))
    have hresults {r : NetworkServer} {done : ProcJob}
        (hr : r.pools = Function.update s.pools p
          { s.pools p with
            running := (s.pools p).running.eraseIdx k
            results := (s.pools p).results ++ [done] }) :
        r.results.Perm ([done] ++ s.results) := by
      refine results_perm (p := p) (fun q hq ↦ ?_) ?_
      · rw [hr, Function.update_of_ne hq]
      · rw [hr, Function.update_self]
        exact List.perm_append_comm
    rw [hlink] at h
    cases h
    refine ⟨fun p' ↦ ?_, fun p' ↦ ?_, rfl, job, _, hjob, ?_, hresults rfl⟩
    · by_cases hp : p' = p
      · subst hp
        simp
      · simp [hp]
    · by_cases hp : p' = p
      · subst hp
        simp
      · simp [hp]
    · rfl

end NetworkServer

end GeminiDB
