import GeminiDB.Net.Server
import GeminiDB.Proc.Api
import GeminiDB.Util.Number

/-!
# The table of commands (`net/proc.cpp`, `serv.cpp`)

`ProcMap` keeps one `Command` for each name. A command that is registered again gets
the new function and the new flags. The flag `w` brings `t` with it, so that no command
that writes ever runs outside of the writer pool, and the commands that are not flagged
`w` never write.
-/

namespace GeminiDB

open Program

/-! ## Commands -/

def Command.flagBackend : Flags := 4

/-- The functions that are registered. `procNetInfo` is the built-in `proc_info` of
`net/server.cpp`, the other one is that of `serv.cpp`. -/
inductive Proc where
  | procPing
  | procNetInfo
  | procGet
  | procSet
  | procDel
  | procExists
  | procMultiExists
  | procMultiGet
  | procMultiSet
  | procMultiDel
  | procQsize
  | procQfront
  | procQback
  | procQpush
  | procQpushFront
  | procQpushBack
  | procQpop
  | procQpopFront
  | procQpopBack
  | procInfo
  | procVersion
  | procDbsize
  deriving DecidableEq

/-- A `Command`; `timeWait` and `timeProc` are its times as `%.0f` prints them. -/
structure ProcMap.Entry where
  name : Bytes
  flags : Flags
  proc : Proc
  calls : UInt64
  timeWait : Bytes
  timeProc : Bytes

/-- One round of the loop over `sflags`. -/
def addFlag (flags : Flags) (c : UInt8) : Flags :=
  if c = 114 then flags ||| Command.flagRead
  -- some writes rely on running in a single thread
  else if c = 119 then flags ||| Command.flagWrite ||| Command.flagThread
  else if c = 98 then flags ||| Command.flagBackend
  else if c = 116 then flags ||| Command.flagThread
  else flags

/-- The flags of a C string. -/
def parseFlags (sflags : Bytes) : Flags := (sflags.takeWhile (· ≠ 0)).foldl addFlag 0

/-- A command that writes runs in a thread. -/
def WritesInThread (flags : Flags) : Prop :=
  flags &&& Command.flagWrite ≠ 0 → flags &&& Command.flagThread ≠ 0

theorem writesInThread_addFlag {flags : Flags} (h : WritesInThread flags) (c : UInt8) :
    WritesInThread (addFlag flags c) := by
  have hread : Command.flagRead &&& Command.flagWrite = 0 := by decide
  have hback : Command.flagBackend &&& Command.flagWrite = 0 := by decide
  have hkeep {x flags : Flags} (hx : x &&& Command.flagWrite = 0) (h : WritesInThread flags) :
      WritesInThread (flags ||| x) := by
    intro hw
    rw [Flags.or_and_of_disjoint hx] at hw
    rw [BitVec.and_or_distrib_right]
    intro hzero
    exact h hw (BitVec.or_eq_zero_iff.mp hzero).1
  have hthread (flags : Flags) : WritesInThread (flags ||| Command.flagThread) := by
    intro _
    rw [Flags.or_and_right]
    decide
  rw [addFlag]
  split
  · exact hkeep hread h
  · split
    · exact hthread _
    · split
      · exact hkeep hback h
      · split
        · exact hthread _
        · exact h

/-- Whatever the string of flags, `w` comes with `t`. -/
theorem writesInThread_parseFlags (sflags : Bytes) : WritesInThread (parseFlags sflags) := by
  have hall (cs : Bytes) (flags : Flags) (h : WritesInThread flags) :
      WritesInThread (cs.foldl addFlag flags) := by
    induction cs generalizing flags with
    | nil => exact h
    | cons c cs ih => exact ih _ (writesInThread_addFlag h c)
  exact hall _ 0 fun hw ↦ absurd rfl hw

/-- The commands, one for each name; what is there came from `set_proc`. -/
structure ProcMap where
  entries : List ProcMap.Entry
  nodup : (entries.map ProcMap.Entry.name).Nodup
  threaded : ∀ entry ∈ entries, WritesInThread entry.flags

namespace ProcMap

def empty : ProcMap := ⟨[], List.nodup_nil, fun _ h ↦ absurd h List.not_mem_nil⟩

/-- `get_proc`. -/
def getProc (m : ProcMap) (str : Bytes) : Option Entry := m.entries.find? fun e ↦ e.name = str

/-- The entry of `set_proc` for a new name, or the old one changed. -/
def Entry.set (sflags : Bytes) (proc : Proc) (e : Entry) : Entry :=
  { e with flags := parseFlags sflags, proc := proc }

/-- `set_proc` with flags. -/
def setProc (m : ProcMap) (name sflags : Bytes) (proc : Proc) : ProcMap where
  entries :=
    if name ∈ m.entries.map Entry.name then
      m.entries.map fun e ↦ if e.name = name then e.set sflags proc else e
    else m.entries ++ [⟨name, parseFlags sflags, proc, 0, ascii "0", ascii "0"⟩]
  nodup := by
    split
    · have hnames : (m.entries.map fun e ↦
          if e.name = name then e.set sflags proc else e).map Entry.name =
            m.entries.map Entry.name := by
        rw [List.map_map]
        apply List.map_congr_left
        intro e _
        simp only [Function.comp_apply]
        split <;> rfl
      rw [hnames]
      exact m.nodup
    · next hnew =>
      rw [List.map_append, List.nodup_append]
      refine ⟨m.nodup, by simp, fun a ha b hb heq ↦ hnew ?_⟩
      rw [List.map_singleton, List.mem_singleton] at hb
      rwa [heq, hb] at ha
  threaded := by
    intro entry hentry
    split at hentry
    · obtain ⟨e, he, rfl⟩ := List.mem_map.mp hentry
      split
      · exact writesInThread_parseFlags sflags
      · exact m.threaded e he
    · rcases List.mem_append.mp hentry with hold | hnew
      · exact m.threaded entry hold
      · rw [List.mem_singleton.mp hnew]
        exact writesInThread_parseFlags sflags

/-- A registration: a name, flags and a function. -/
abbrev Registration := Bytes × Bytes × Proc

/-- Registrations one after another. -/
def register (m : ProcMap) (rs : List Registration) : ProcMap :=
  rs.foldl (fun m r ↦ m.setProc r.1 r.2.1 r.2.2) m

end ProcMap

/-! ## What is registered -/

/-- The constructor of `NetworkServer`. -/
def builtinProcs : List ProcMap.Registration :=
  [(ascii "ping", ascii "r", .procPing), (ascii "info", ascii "r", .procNetInfo)]

/-- `ProcServer::reg_procs`. -/
def regProcs : List ProcMap.Registration :=
  [(ascii "get", ascii "rt", .procGet), (ascii "set", ascii "wt", .procSet),
    (ascii "del", ascii "wt", .procDel), (ascii "exists", ascii "rt", .procExists),
    (ascii "multi_exists", ascii "rt", .procMultiExists),
    (ascii "multi_get", ascii "rt", .procMultiGet),
    (ascii "multi_set", ascii "wt", .procMultiSet),
    (ascii "multi_del", ascii "wt", .procMultiDel),
    (ascii "qsize", ascii "rt", .procQsize), (ascii "qfront", ascii "rt", .procQfront),
    (ascii "qback", ascii "rt", .procQback), (ascii "qpush", ascii "wt", .procQpush),
    (ascii "qpush_front", ascii "wt", .procQpushFront),
    (ascii "qpush_back", ascii "wt", .procQpushBack),
    (ascii "qpop", ascii "wt", .procQpop), (ascii "qpop_front", ascii "wt", .procQpopFront),
    (ascii "qpop_back", ascii "wt", .procQpopBack), (ascii "info", ascii "r", .procInfo),
    (ascii "version", ascii "r", .procVersion), (ascii "dbsize", ascii "rt", .procDbsize)]

/-- The table of the running server. -/
def procMap : ProcMap := ProcMap.empty.register (builtinProcs ++ regProcs)

/-! ## What a request does -/

/-- What handlers read beside the store: the links, the commands as the table iterates over
them, `GEMINIDB_VERSION`, the approximate size, and the properties of leveldb. -/
structure Report where
  linkCount : Int
  commands : List ProcMap.Entry
  version : Bytes
  size : UInt64
  stats : List Bytes

/-- The sum of the calls as an `int64_t`. -/
def Report.totalCalls (r : Report) : Int64 :=
  (r.commands.foldl (fun (calls : UInt64) cmd ↦ calls + cmd.calls) 0).toInt64

/-- The numbers that `info` adds fit into the buffer of `add`. -/
structure Report.Printable (r : Report) : Prop where
  links : (Response.addText r.linkCount).length ≤ Response.addBufSize
  calls : (Response.addText r.totalCalls.toInt).length ≤ Response.addBufSize

def procPing : Response := [ascii "ok"]

/-- `proc_info` of `net/server.cpp`. -/
def procNetInfo (r : Report) : Option Response :=
  (Response.add [ascii "ok", ascii "version", ascii "1.0", ascii "links"] r.linkCount).bind
    fun resp ↦ Response.add (resp ++ [ascii "total_calls"]) r.totalCalls.toInt

def procVersion : Response := [ascii "ok", ascii "1.0.0"]

def procDbsize (r : Report) : Response := [ascii "ok", Errno.strUint64 r.size]

/-- The array `buf` of `proc_info`. -/
def infoBufSize : ℕ := 128

/-- What `proc_info` says about a command; `snprintf` cuts it off. -/
def cmdInfo (cmd : ProcMap.Entry) : List Bytes :=
  [ascii "cmd." ++ cmd.name,
    (ascii "calls: " ++ Decimal.digits cmd.calls.toNat ++ ascii "\ttime_wait: " ++ cmd.timeWait ++
      ascii "\ttime_proc: " ++ cmd.timeProc).take (infoBufSize - 1)]

/-- `proc_info` of `serv.cpp`. -/
def procInfo (r : Report) (req : Request) : Option Response :=
  (Response.add [ascii "ok", ascii "geminiDB-server", ascii "version", r.version,
      ascii "links"] r.linkCount).bind fun resp ↦
    (Response.add (resp ++ [ascii "total_calls"]) r.totalCalls.toInt).map fun resp ↦
      let resp := resp ++ [ascii "dbsize", Errno.strUint64 r.size]
      let resp := if req.length = 1 ∨ req.arg 1 = ascii "leveldb" then resp ++ r.stats else resp
      if 1 < req.length ∧ req.arg 1 = ascii "cmd" then resp ++ r.commands.flatMap cmdInfo
      else resp

namespace Proc

/-- The function that is registered, applied to a request. -/
def api (r : Report) (req : Request) : Proc → Api (Option Response)
  | procPing => return some GeminiDB.procPing
  | procNetInfo => return GeminiDB.procNetInfo r
  | procGet => Api.procGet req
  | procSet => Api.procSet req
  | procDel => Api.procDel req
  | procExists => Api.procExists req
  | procMultiExists => Api.procMultiExists req
  | procMultiGet => Api.procMultiGet req
  | procMultiSet => Api.procMultiSet req
  | procMultiDel => Api.procMultiDel req
  | procQsize => Api.procQsize req
  | procQfront => Api.procQfront req
  | procQback => Api.procQback req
  | procQpush => Api.procQpush req
  | procQpushFront => Api.procQpushFront req
  | procQpushBack => Api.procQpushBack req
  | procQpop => Api.procQpop req
  | procQpopFront => Api.procQpopFront req
  | procQpopBack => Api.procQpopBack req
  | procInfo => return GeminiDB.procInfo r req
  | procVersion => return some GeminiDB.procVersion
  | procDbsize => return some (GeminiDB.procDbsize r)

/-- The functions that call a mutating one. -/
def mutates : Proc → Bool
  | procSet | procDel | procMultiSet | procMultiDel => true
  | procQpush | procQpushFront | procQpushBack => true
  | procQpop | procQpopFront | procQpopBack => true
  | _ => false

/-- The functions that need nothing from the store. -/
def plain : Proc → Bool
  | procPing | procNetInfo | procInfo | procVersion | procDbsize => true
  | _ => false

theorem all_multiExistsLoop (keys : List Bytes) (resp : Response) :
    (Api.multiExistsLoop keys resp).All ApiCall.Reads := by
  induction keys generalizing resp with
  | nil => trivial
  | cons key keys ih => exact ⟨trivial, fun _ ↦ ih _⟩

theorem all_multiGetLoop (keys : List Bytes) (resp : Response) :
    (Api.multiGetLoop keys resp).All ApiCall.Reads := by
  induction keys generalizing resp with
  | nil => trivial
  | cons key keys ih => exact ⟨trivial, fun _ ↦ ih _⟩

theorem all_checkParams {P : ApiCall → Prop} {n : ℕ} {req : Request} {p : Api (Option Response)}
    (hp : p.All P) : (checkParams n req p).All P := by
  rw [checkParams]
  split
  · trivial
  · exact hp

/-- The other functions only read. -/
theorem all_reads {proc : Proc} (h : proc.mutates = false) (r : Report) (req : Request) :
    (proc.api r req).All ApiCall.Reads := by
  cases proc with
  | procGet => exact all_checkParams ⟨trivial, fun _ ↦ trivial⟩
  | procExists => exact all_checkParams ⟨trivial, fun _ ↦ trivial⟩
  | procMultiExists => exact all_checkParams (all_multiExistsLoop _ _)
  | procMultiGet => exact all_checkParams (all_multiGetLoop _ _)
  | procQsize => exact all_checkParams ⟨trivial, fun _ ↦ trivial⟩
  | procQfront => exact all_checkParams ⟨trivial, fun _ ↦ trivial⟩
  | procQback => exact all_checkParams ⟨trivial, fun _ ↦ trivial⟩
  | procPing => trivial
  | procNetInfo => trivial
  | procInfo => trivial
  | procVersion => trivial
  | procDbsize => trivial
  | _ => cases h

/-- A function that needs nothing from the store responds at once. -/
theorem api_of_plain {proc : Proc} (h : proc.plain = true) {r : Report} (hr : r.Printable)
    (req : Request) : ∃ resp, proc.api r req = .ret (some resp) := by
  have hlinks (resp : Response) : Response.add resp r.linkCount = some _ := if_pos hr.links
  have hcalls (resp : Response) : Response.add resp r.totalCalls.toInt = some _ := if_pos hr.calls
  cases proc with
  | procPing => exact ⟨_, rfl⟩
  | procNetInfo =>
      obtain ⟨resp, hresp⟩ : ∃ resp, GeminiDB.procNetInfo r = some resp := by
        simp [GeminiDB.procNetInfo, hlinks, hcalls]
      exact ⟨resp, congrArg Prog.ret hresp⟩
  | procInfo =>
      obtain ⟨resp, hresp⟩ : ∃ resp, GeminiDB.procInfo r req = some resp := by
        simp [GeminiDB.procInfo, hlinks, hcalls]
      exact ⟨resp, congrArg Prog.ret hresp⟩
  | procVersion => exact ⟨_, rfl⟩
  | procDbsize => exact ⟨_, rfl⟩
  | _ => cases h

end Proc

/-- The flags fit what the functions do. -/
theorem procMap_flags : ∀ cmd ∈ procMap.entries,
    (cmd.flags &&& Command.flagWrite ≠ 0 ↔ cmd.proc.mutates = true) ∧
      (cmd.flags &&& Command.flagThread = 0 → cmd.proc.plain = true) := by
  decide +kernel

/-- The reply to a command that is not in the table. -/
def unknownCommand (name : Bytes) : Response :=
  [ascii "client_error", ascii "Unknown Command: " ++ name]

/-- What `proc` does with a request, by whatever thread. -/
def handler (r : Report) (req : Request) : Api (Option Response) :=
  match procMap.getProc (req.headD []) with
  | none => return some (unknownCommand (req.headD []))
  | some cmd => cmd.proc.api r req

end GeminiDB
