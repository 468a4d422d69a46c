import GeminiDB.Lib.Machine
import GeminiDB.Net.FdeEpoll
import GeminiDB.Net.Output

/-!
# The event loop (`net/server.cpp`, `net/worker.cpp`)

`NetworkServer::serve` waits for events, handles them and then goes through the
list of ready links, while worker threads take jobs from two pools. A link is
known by the address of its object; addresses are not used again. What sockets,
handlers and `realloc` do is chosen anew at each step, `realloc` also for each append
of a packet. `History` is read by nothing but the proofs.
-/

namespace GeminiDB

def procOk : Int := 0
def procError : Int := -1
def procThread : Int := 1
def procBackend : Int := 100

structure Command where
  flags : Flags

def Command.flagRead : Flags := 1
def Command.flagWrite : Flags := 2
def Command.flagThread : Flags := 8

/-- `request` and `calls` are those of the link when the job was made. -/
structure ProcJob where
  result : Int
  link : ℕ
  cmd : Option Command
  resp : List Bytes
  request : List Bytes
  calls : ℕ

/-- The pool of readers or of writers. -/
inductive PoolId where
  | reader
  | writer
  deriving DecidableEq

/-- The jobs not taken yet, those of the workers, and the results. -/
structure ProcWorkerPool where
  jobs : List ProcJob
  running : List ProcJob
  results : List ProcJob

/-- Where a link is: with the kernel only, in a ready list, in a job that no worker has
finished, or in a finished one. -/
inductive Place where
  | idle
  | ready
  | waiting
  | finished
  deriving DecidableEq

/-- What has happened to a link: calls of `read` and `recv`, bytes received, requests
parsed, requests handled with their responses, bytes appended to the output, calls of
`write` and the bytes that the socket accepted in them. -/
structure History where
  place : Place
  calls : ℕ
  received : Bytes
  parsed : List (List Bytes)
  answers : List (List Bytes × List Bytes)
  queued : Bytes
  writes : ℕ
  sent : Bytes

def History.init : History := ⟨.idle, 0, [], [], [], [], 0, []⟩

/-- Where `serve` is: before `wait`, in the loop over the events, in the loop over
`ready_list`, or between giving a job away and the `fdes->del` after it. -/
inductive Pc where
  | top
  | events (batch : List ℕ)
  | ready (rest : List ℕ)
  | withdraw (link : ℕ) (rest : List ℕ)
  | crashed
  deriving DecidableEq

structure NetworkServer where
  links : ℕ → Option Link
  next : ℕ
  linkCount : Int
  fdes : Epoll
  readyList : List ℕ
  readyList2 : List ℕ
  pools : PoolId → ProcWorkerPool
  pc : Pc
  history : ℕ → History

/-- What does not change while the server runs. -/
structure Setup where
  procMap : Bytes → Option Command
  servFd : ℕ
  readerFd : ℕ
  writerFd : ℕ
  workers : PoolId → ℕ
  distinct : [servFd, readerFd, writerFd].Nodup

/-- What the world does in one step. -/
structure World where
  sock : Option ℕ
  alloc : Int → Bool
  appends : ℕ → Int → Bool
  reads : List ReadResult
  writes : List WriteResult
  result : Int
  resp : List Bytes

/-- Addresses of objects that are not client links; those of links are larger. -/
def servPtr : ℕ := 1
def readerPtr : ℕ := 2
def writerPtr : ℕ := 3

def Link.fd (link : Link) : ℕ := link.sock.toNat

/-- The request that `last_recv` points to. -/
def Link.request (link : Link) : List Bytes := link.recvData.map (BytesRef.deref link.input.mem)

/-- The record of a `send`: a request is answered and bytes are appended. -/
def History.answer (req resp : List Bytes) (before after : Link) (h : History) : History :=
  { h with
    answers := h.answers ++ [(req, resp)]
    queued := h.queued ++ after.output.content.drop before.output.content.length }

/-- The record of a `write`, if there was one. -/
def History.send (sent : Option Bytes) (h : History) : History :=
  { h with
    writes := h.writes + sent.toList.length
    sent := h.sent ++ sent.getD [] }

def History.at (place : Place) (h : History) : History := { h with place := place }

namespace NetworkServer

/-- The server after the first lines of `serve`. -/
def init (S : Setup) : NetworkServer where
  links := fun _ ↦ none
  next := 4
  linkCount := 0
  fdes := (Epoll.set true S.writerFd fdeventIn 0 writerPtr
    (Epoll.set true S.readerFd fdeventIn 0 readerPtr
      (Epoll.set true S.servFd fdeventIn 0 servPtr Epoll.init).next).next).next
  readyList := []
  readyList2 := []
  pools := fun _ ↦ ⟨[], [], []⟩
  pc := .top
  history := fun _ ↦ History.init

/-! ## Pieces of a step -/

/-- A dangling pointer was followed. -/
def crash (s : NetworkServer) : NetworkServer := { s with pc := .crashed }

/-- Store a link object and what happened to it. -/
def store (id : ℕ) (link : Link) (h : History) (s : NetworkServer) : NetworkServer :=
  { s with
    links := Function.update s.links id (some link)
    history := Function.update s.history id h }

def watch (flag : Flags) (id : ℕ) (link : Link) (s : NetworkServer) : NetworkServer :=
  { s with fdes := (Epoll.set true link.fd flag 1 id s.fdes).next }

def unwatch (flag : Flags) (link : Link) (s : NetworkServer) : NetworkServer :=
  { s with fdes := (Epoll.clr true link.fd flag s.fdes).next }

def withdraw (link : Link) (s : NetworkServer) : NetworkServer :=
  { s with fdes := (Epoll.del true link.fd s.fdes).next }

/-- `link_count --`, `fdes->del` and `delete link`. -/
def deleteLink (id : ℕ) (link : Link) (s : NetworkServer) : NetworkServer :=
  { (s.withdraw link) with
    linkCount := s.linkCount - 1
    links := Function.update s.links id none }

/-- `ready_list->push_back`, in the loop over the ready links on the second list. -/
def push (second : Bool) (id : ℕ) (s : NetworkServer) : NetworkServer :=
  if second then { s with readyList2 := s.readyList2 ++ [id] }
  else { s with readyList := s.readyList ++ [id] }

/-- `proc_result`. -/
def procResult (second : Bool) (job : ProcJob) (o : World) (s : NetworkServer) : NetworkServer :=
  let id := job.link
  match s.links id with
  | none => s.crash
  | some link =>
      if job.result = procError then s.deleteLink id link
      else
        let w := if link.output.size ≠ 0 then link.write o.writes else (0, link)
        let sent := if link.output.size ≠ 0 then some (link.accepted o.writes) else none
        let h := (s.history id).send sent
        if w.1 < 0 then (s.store id w.2 h).deleteLink id w.2
        else
          let idle := w.2.input.size = 0
          let s := s.store id w.2 (h.at (if idle then .idle else .ready))
          let s := if w.2.output.size ≠ 0 then s.watch fdeventOut id w.2 else s
          if idle then s.watch fdeventIn id w.2
          else (s.unwatch fdeventIn w.2).push second id

/-- The end of `proc` and what `serve` does with its result. -/
def finish (req resp : List Bytes) (result : Int) (id : ℕ) (link : Link) (o : World)
    (s : NetworkServer) : NetworkServer :=
  let r := link.send o.appends resp
  let result := if r.1 = -1 then procError else result
  let s := s.store id r.2 ((s.history id).answer req resp link r.2)
  if result = procThread then s.withdraw r.2
  else if result = procBackend then { (s.withdraw r.2) with linkCount := s.linkCount - 1 }
  else s.procResult true ⟨result, id, none, resp, req, (s.history id).calls⟩ o

/-- `proc` on a request that is not empty. -/
def proc (S : Setup) (req : List Bytes) (id : ℕ) (link : Link) (rest : List ℕ) (o : World)
    (s : NetworkServer) : NetworkServer :=
  let name := req.headD []
  match S.procMap name with
  | none => s.finish req [ascii "client_error", ascii "Unknown Command: " ++ name] procOk id link o
  | some cmd =>
      if cmd.flags &&& Command.flagThread ≠ 0 then
        let p := if cmd.flags &&& Command.flagWrite ≠ 0 then PoolId.writer else PoolId.reader
        let job : ProcJob := ⟨procOk, id, some cmd, [], req, (s.history id).calls⟩
        { s with
          pools := Function.update s.pools p
            { s.pools p with jobs := (s.pools p).jobs ++ [job] }
          history := Function.update s.history id ((s.history id).at .waiting)
          pc := .withdraw id rest }
      else s.finish req o.resp o.result id link o

/-- The loop over `ready_list`, once around. -/
def readyLink (S : Setup) (id : ℕ) (rest : List ℕ) (o : World) (s : NetworkServer) :
    NetworkServer :=
  let s := { s with pc := .ready rest }
  match s.links id with
  | none => s.crash
  | some link =>
      if link.error then s.deleteLink id link
      else
        let r := link.recv o.alloc
        let h := { s.history id with calls := (s.history id).calls + 1 }
        match r.1 with
        | .badFormat => (s.store id r.2 h).deleteLink id r.2
        | .noMemory => (s.store id r.2 h).deleteLink id r.2
        | .vector req =>
            if req.isEmpty then (s.store id r.2 (h.at .idle)).watch fdeventIn id r.2
            else
              let req := r.2.request
              (s.store id r.2 { h with parsed := h.parsed ++ [req] }).proc S req id r.2 rest o

/-- `accept_link` and what follows it. -/
def accept (o : World) (s : NetworkServer) : NetworkServer :=
  match o.sock with
  | none => s
  | some sock =>
      let link := { Link.new sock with noblock := true }
      ({ (s.store s.next link History.init) with
        next := s.next + 1
        linkCount := s.linkCount + 1 }).watch fdeventIn s.next link

/-- `proc_request`. -/
def procRequest (fde : Fdevent) (o : World) (s : NetworkServer) : NetworkServer :=
  if fde.events &&& fdeventIn ≠ 0 then
    let id := fde.dataPtr
    match s.links id with
    | none => s.crash
    | some link =>
        let h := (s.history id).at .ready
        (s.store id (link.procRequest o.alloc o.reads)
          (if link.error then h
          else { h with
            calls := h.calls + 1
            received := h.received ++ (link.procRequest o.alloc o.reads).input.content.drop
              link.input.content.length })).push false id
  else s

/-- `pop` waits for a result when there is none. -/
def popResult (p : PoolId) (o : World) (s : NetworkServer) : Option NetworkServer :=
  match (s.pools p).results with
  | [] => none
  | job :: results =>
      some (({ s with
        pools := Function.update s.pools p { s.pools p with results := results } }).procResult
          false job o)

/-- The loop over the events, once around. -/
def event (p : ℕ) (batch : List ℕ) (o : World) (s : NetworkServer) : Option NetworkServer :=
  let fde := s.fdes.table.heap p
  let s := { s with pc := .events batch }
  if fde.dataPtr = servPtr then some (s.accept o)
  else if fde.dataPtr = readerPtr then s.popResult .reader o
  else if fde.dataPtr = writerPtr then s.popResult .writer o
  else some (s.procRequest fde o)

/-- A worker takes the first job. -/
def take (S : Setup) (p : PoolId) (s : NetworkServer) : Option NetworkServer :=
  match (s.pools p).jobs with
  | [] => none
  | job :: jobs =>
      if (s.pools p).running.length < S.workers p then
        some { s with
          pools := Function.update s.pools p
            { s.pools p with jobs := jobs, running := (s.pools p).running ++ [job] } }
      else none

/-- `ProcWorker::proc` by the worker with the `k`-th of the running jobs. -/
def work (p : PoolId) (k : ℕ) (o : World) (s : NetworkServer) : Option NetworkServer :=
  match (s.pools p).running[k]? with
  | none => none
  | some job =>
      match s.links job.link with
      | none => some s.crash
      | some link =>
          let req := link.request
          let r := link.send o.appends o.resp
          let read := (job.cmd.map Command.flags).getD 0 &&& Command.flagRead ≠ 0
          let w := if r.1 ≠ -1 ∧ read then r.2.write o.writes else (0, r.2)
          let sent := if r.1 ≠ -1 ∧ read then some (r.2.accepted o.writes) else none
          let result := if r.1 = -1 ∨ w.1 < 0 then procError else o.result
          let h := (((s.history job.link).answer req o.resp link r.2).send sent).at .finished
          some { (s.store job.link w.2 h) with
            pools := Function.update s.pools p
              { s.pools p with
                running := (s.pools p).running.eraseIdx k
                results := (s.pools p).results ++
                  [{ job with result := result, resp := o.resp }] } }

/-! ## Steps -/

inductive Action where
  | wait (reports : List (ℕ × Flags))
  | event (o : World)
  | ready (o : World)
  | withdraw
  | take (p : PoolId)
  | work (p : PoolId) (k : ℕ) (o : World)

/-- What the kernel may report: registered descriptors, each once, with events that it was
asked for, errors and hangups. -/
def Reported (s : NetworkServer) (reports : List (ℕ × Flags)) : Prop :=
  (reports.map Prod.fst).Nodup ∧ ∀ r ∈ reports, ∃ e ∈ s.fdes.interest r.1,
    r.2 &&& ~~~(e.events ||| epollErr ||| epollHup) = 0

/-- A socket that the kernel may return from `accept`. -/
def Unused (S : Setup) (s : NetworkServer) (sock : ℕ) : Prop :=
  sock ∉ [S.servFd, S.readerFd, S.writerFd] ∧
    ∀ id < s.next, ∀ link ∈ s.links id, link.fd ≠ sock

instance (s : NetworkServer) (reports : List (ℕ × Flags)) : Decidable (s.Reported reports) :=
  inferInstanceAs (Decidable (_ ∧ _))

instance (S : Setup) (s : NetworkServer) (sock : ℕ) : Decidable (s.Unused S sock) :=
  inferInstanceAs (Decidable (_ ∧ _))

def step (S : Setup) (s : NetworkServer) : Action → Option NetworkServer
  | .wait reports =>
      if s.pc = .top ∧ s.Reported reports then
        let r := s.fdes.wait reports
        some { s with fdes := r.2, pc := .events r.1 }
      else none
  | .event o =>
      match s.pc with
      | .events [] => some { s with pc := .ready s.readyList }
      | .events (p :: batch) => if ∀ sock ∈ o.sock, s.Unused S sock then s.event p batch o else none
      | _ => none
  | .ready o =>
      match s.pc with
      | .ready [] => some { s with readyList := s.readyList2, readyList2 := [], pc := .top }
      | .ready (id :: rest) => some (s.readyLink S id rest o)
      | _ => none
  | .withdraw =>
      match s.pc with
      | .withdraw id rest =>
          match s.links id with
          | none => some s.crash
          | some link => some { (s.withdraw link) with pc := .ready rest }
      | _ => none
  | .take p => if s.pc = .crashed then none else s.take S p
  | .work p k o => if s.pc = .crashed then none else s.work p k o

end NetworkServer

end GeminiDB
