import GeminiDB.Net.Custody

/-!
# What a step does to a link

Every action of the server keeps each link with exactly one holder, and changes
a link as one of the moves below does, or not at all.
-/

namespace GeminiDB

def History.call (h : History) : History := { h with calls := h.calls + 1 }

def History.parse (req : List Bytes) (h : History) : History :=
  { h with parsed := h.parsed ++ [req] }

@[simp] theorem History.send_none (h : History) : h.send none = h := by
  rw [History.send, Option.getD_none, List.append_nil]
  rfl

/-- No registered handler returns anything else. -/
def World.Registered (o : World) : Prop := o.result = procOk ∨ o.result = procError

instance (o : World) : Decidable o.Registered := inferInstanceAs (Decidable (_ ∨ _))

namespace NetworkServer

/-- `proc_result` from the point of view of its link. -/
def settle (result : Int) (o : World) (link : Link) (flags : Flags) (h : History) : Conn :=
  if result = procError then ⟨none, 0, h⟩
  else
    let w := if link.output.size ≠ 0 then link.write o.writes else (0, link)
    let h := h.send (if link.output.size ≠ 0 then some (link.accepted o.writes) else none)
    if w.1 < 0 then ⟨none, 0, h⟩
    else
      let flags := if w.2.output.size ≠ 0 then flags ||| fdeventOut else flags
      if w.2.input.size = 0 then ⟨some w.2, flags ||| fdeventIn, h.at .idle⟩
      else ⟨some w.2, flags &&& ~~~fdeventIn, h.at .ready⟩

/-- The bytes that a `write` of a pending output hands over, and the link after it. -/
structure Flushed (o : World) (link after : Link) (sent : Option Bytes) : Prop where
  empty : link.output.size = 0 → after = link ∧ sent = none
  pending : link.output.size ≠ 0 →
    after = (link.write o.writes).2 ∧ sent = some (link.accepted o.writes)

/-- How `proc_result` ends: it deletes the link or leaves it with the kernel or ready. -/
inductive Settled (o : World) (link : Link) (flags : Flags) (h : History) : Conn → Prop
  | deleted {sent : Option Bytes} : Settled o link flags h ⟨none, 0, h.send sent⟩
  | idle {after : Link} {sent : Option Bytes} (hflushed : Flushed o link after sent)
      (hinput : after.input.size = 0) : Settled o link flags h
        ⟨some after, (if after.output.size ≠ 0 then flags ||| fdeventOut else flags) ||| fdeventIn,
          (h.send sent).at .idle⟩
  | ready {after : Link} {sent : Option Bytes} (hflushed : Flushed o link after sent)
      (hinput : after.input.size ≠ 0) : Settled o link flags h
        ⟨some after,
          (if after.output.size ≠ 0 then flags ||| fdeventOut else flags) &&& ~~~fdeventIn,
          (h.send sent).at .ready⟩

theorem settle_settled (result : Int) (o : World) (link : Link) (flags : Flags) (h : History) :
    Settled o link flags h (settle result o link flags h) := by
  have hflushed : Flushed o link (if link.output.size ≠ 0 then link.write o.writes else (0, link)).2
      (if link.output.size ≠ 0 then some (link.accepted o.writes) else none) := by
    refine ⟨fun hempty ↦ ?_, fun hpending ↦ ?_⟩
    · rw [if_neg (not_not.mpr hempty), if_neg (not_not.mpr hempty)]
      exact ⟨rfl, rfl⟩
    · rw [if_pos hpending, if_pos hpending]
      exact ⟨rfl, rfl⟩
  rw [settle]
  split
  · have hdeleted : Settled o link flags h ⟨none, 0, h.send none⟩ := .deleted
    rwa [h.send_none] at hdeleted
  · dsimp only
    generalize (if link.output.size ≠ 0 then link.write o.writes else (0, link)) = w
      at hflushed ⊢
    generalize (if link.output.size ≠ 0 then some (link.accepted o.writes) else none) = sent
      at hflushed ⊢
    split
    · exact .deleted
    · split
      · next hinput => exact .idle hflushed hinput
      · next hinput => exact .ready hflushed hinput

/-- The response to a request that the loop thread answers. -/
def reply (S : Setup) (o : World) (req : List Bytes) : List Bytes :=
  match S.procMap (req.headD []) with
  | none => [ascii "client_error", ascii "Unknown Command: " ++ req.headD []]
  | some _ => o.resp

/-- The result of the request that the loop thread answers. -/
def verdict (S : Setup) (o : World) (req : List Bytes) : Int :=
  match S.procMap (req.headD []) with
  | none => procOk
  | some _ => o.result

/-- The command of the request runs in a worker thread. -/
def Threaded (S : Setup) (req : List Bytes) : Prop :=
  ∃ cmd ∈ S.procMap (req.headD []), cmd.flags &&& Command.flagThread ≠ 0

instance (S : Setup) (req : List Bytes) : Decidable (Threaded S req) :=
  inferInstanceAs (Decidable (∃ cmd ∈ S.procMap (req.headD []), _))

inductive Move (S : Setup) : Action → Conn → Conn → Prop
  | accept {o : World} {sock : ℕ} {h : History} (hsock : o.sock = some sock) :
      Move S (.event o) ⟨none, 0, h⟩
        ⟨some { Link.new sock with noblock := true }, fdeventIn, History.init⟩
  | marked {o : World} {link : Link} {flags : Flags} {h : History} (hplace : h.place = .idle)
      (herror : link.error = true) :
      Move S (.event o) ⟨some link, flags, h⟩ ⟨some link, flags, h.at .ready⟩
  | read {o : World} {link : Link} {flags : Flags} {h : History} (hplace : h.place = .idle)
      (herror : link.error = false) :
      Move S (.event o) ⟨some link, flags, h⟩
        ⟨some (link.procRequest o.alloc o.reads), flags, { h.call.at .ready with
          received := h.received ++
            (link.procRequest o.alloc o.reads).input.content.drop link.input.content.length }⟩
  | result {o : World} {link : Link} {h : History} {code : Int} (hplace : h.place = .finished) :
      Move S (.event o) ⟨some link, 0, h⟩ (settle code o link 0 h)
  | drop {o : World} {link : Link} {flags : Flags} {h : History} (hplace : h.place = .ready)
      (herror : link.error = true) :
      Move S (.ready o) ⟨some link, flags, h⟩ ⟨none, 0, h⟩
  | reject {o : World} {link : Link} {flags : Flags} {h : History} (hplace : h.place = .ready)
      (hrecv : ∀ req, (link.recv o.alloc).1 ≠ .vector req) :
      Move S (.ready o) ⟨some link, flags, h⟩ ⟨none, 0, h.call⟩
  | more {o : World} {link : Link} {flags : Flags} {h : History} (hplace : h.place = .ready)
      (hrecv : (link.recv o.alloc).1 = .vector []) :
      Move S (.ready o) ⟨some link, flags, h⟩
        ⟨some (link.recv o.alloc).2, flags ||| fdeventIn, h.call.at .idle⟩
  | queue {o : World} {link : Link} {flags : Flags} {h : History} {req : List BytesRef}
      (hplace : h.place = .ready) (hrecv : (link.recv o.alloc).1 = .vector req) (hne : req ≠ [])
      (hthread : Threaded S (link.recv o.alloc).2.request) :
      Move S (.ready o) ⟨some link, flags, h⟩
        ⟨some (link.recv o.alloc).2, flags,
          (h.call.parse (link.recv o.alloc).2.request).at .waiting⟩
  | answer {o : World} {link link' : Link} {flags : Flags} {h : History} {req : List BytesRef}
      {resp : List Bytes} (hplace : h.place = .ready)
      (hrecv : link.recv o.alloc = (.vector req, link')) (hne : req ≠ [])
      (hthread : ¬ Threaded S link'.request) (hresp : resp = reply S o link'.request) :
      Move S (.ready o) ⟨some link, flags, h⟩
        (settle (verdict S o link'.request) o (link'.send o.appends resp).2 flags
          ((h.call.parse link'.request).answer link'.request resp link'
            (link'.send o.appends resp).2))
  | withdraw {link : Link} {flags : Flags} {h : History}
      (hplace : h.place = .waiting ∨ h.place = .finished) :
      Move S .withdraw ⟨some link, flags, h⟩ ⟨some link, 0, h⟩
  | work {p : PoolId} {k : ℕ} {o : World} {link link' : Link} {flags : Flags} {h : History}
      {w : Int × Link} {sent : Option Bytes} (hplace : h.place = .waiting)
      (hsend : link' = (link.send o.appends o.resp).2)
      (hwrite : w = (0, link') ∧ sent = none ∨
        w = link'.write o.writes ∧ sent = some (link'.accepted o.writes)) :
      Move S (.work p k o) ⟨some link, flags, h⟩
        ⟨some w.2, flags, ((h.answer link.request o.resp link link').send sent).at .finished⟩

/-- The link that a step acts on. -/
def acting (s : NetworkServer) : Action → Option ℕ
  | .event _ =>
      match s.pc with
      | .events (p :: _) =>
          let ptr := (s.fdes.table.heap p).dataPtr
          if ptr = servPtr then some s.next
          else if ptr = readerPtr then (s.pools .reader).results.head?.map ProcJob.link
          else if ptr = writerPtr then (s.pools .writer).results.head?.map ProcJob.link
          else some ptr
      | _ => none
  | .ready _ =>
      match s.pc with
      | .ready (id :: _) => some id
      | _ => none
  | .withdraw => s.withdrawing
  | .work p k _ => (s.pools p).running[k]?.map ProcJob.link
  | .wait _ => none
  | .take _ => none

/-- Nobody has the link; the step in progress is to give it to someone. -/
structure Free (s : NetworkServer) (id : ℕ) : Prop where
  listed : s.listed.count id = 0
  unfinished : s.unfinishedOf id = []
  results : s.resultsOf id = []
  withdrawing : s.withdrawing ≠ some id

/-- The link `id` is now `c` and held again; no other link has changed hands. -/
structure Served (S : Setup) (s s' : NetworkServer) (id : ℕ) (c : Conn) : Prop where
  wired : Wired S s'
  held : s'.Held id
  reports : ∀ fd, s'.Reports fd → s.Reports fd
  others : ∀ i, i ≠ id → s'.conn i = s.conn i
  keeps : ∀ i, i ≠ id → Keeps s s' i
  conn : s'.conn id = c

/-- The loop that `proc_result` is called from. -/
def Phase (second : Bool) (s : NetworkServer) : Prop :=
  if second then ∃ rest, s.pc = .ready rest else ∃ batch, s.pc = .events batch

variable {S : Setup} {s s' s'' : NetworkServer} {id : ℕ} {link : Link} {flags : Flags}
  {h : History} {c c' : Conn}

theorem Free.same (hfree : Free s id) (hlists : SameLists s s') : Free s' id :=
  ⟨hlists.listed ▸ hfree.listed, (hlists.unfinishedOf id).trans hfree.unfinished,
    (hlists.resultsOf id).trans hfree.results, hlists.withdrawing ▸ hfree.withdrawing⟩

theorem Edits.gone (he : Edits S s s' id ⟨none, 0, h⟩) (hfree : Free s id) :
    Served S s s' id ⟨none, 0, h⟩ := by
  have hfree' := hfree.same he.lists
  exact ⟨he.wired, .gone (congrArg Conn.link he.conn) hfree'.listed hfree'.unfinished
    hfree'.results hfree'.withdrawing, he.reports, he.others, fun i _ ↦ he.lists.keeps i, he.conn⟩

theorem Edits.idle (he : Edits S s s' id ⟨some link, flags ||| fdeventIn, h⟩)
    (hplace : h.place = .idle) (hfree : Free s id) :
    Served S s s' id ⟨some link, flags ||| fdeventIn, h⟩ := by
  have hfree' := hfree.same he.lists
  have hflags : s'.flagsOf id = flags ||| fdeventIn := congrArg Conn.flags he.conn
  have hhistory : s'.history id = h := congrArg Conn.history he.conn
  refine ⟨he.wired, .idle (congrArg Conn.link he.conn) (hhistory ▸ hplace) ?_ hfree'.listed
    hfree'.unfinished hfree'.results hfree'.withdrawing, he.reports, he.others,
    fun i _ ↦ he.lists.keeps i, he.conn⟩
  rw [hflags, Flags.or_and_right]
  decide

theorem Edits.list (he : Edits S s s' id ⟨some link, flags, h⟩) (hplace : h.place = .ready)
    (hfree : Free s id) (hnot : ¬ s'.Reports link.fd) {l l2 : List ℕ}
    (hlisted : ∀ i, ({ s' with readyList := l, readyList2 := l2 } : NetworkServer).listed.count i =
      s'.listed.count i + if id = i then 1 else 0)
    (hquiet : ∀ i, i ∈ ({ s' with readyList := l, readyList2 := l2 } : NetworkServer).quiet →
      i ∈ s'.quiet ∨ i = id ∧ flags &&& fdeventIn = 0)
    (hsecond : s'.pc = .top ∨ (∃ batch, s'.pc = .events batch) → l2 = []) :
    Served S s { s' with readyList := l, readyList2 := l2 } id ⟨some link, flags, h⟩ := by
  have hfree' := hfree.same he.lists
  have hflags : s'.flagsOf id = flags := congrArg Conn.flags he.conn
  have hhistory : s'.history id = h := congrArg Conn.history he.conn
  have hw := he.wired
  refine ⟨⟨hw.table, hw.mirrors, hw.alive, hw.range, hw.count, hw.client, hw.apart, hw.owned,
    hw.nodup, hw.made, hw.reported, hsecond, hw.start⟩, .ready (congrArg Conn.link he.conn)
    (hhistory ▸ hplace) (fun hmem ↦ ?_) ?_ hfree'.unfinished hfree'.results hfree'.withdrawing hnot,
    he.reports, he.others, fun i hi ↦ (he.lists.keeps i).trans ⟨?_, fun hmem ↦ ?_, .rfl, .rfl,
      .rfl⟩, he.conn⟩
  · rcases hquiet id hmem with hold | ⟨-, hin⟩
    · exact absurd (quiet_subset_listed s' hold) (List.count_eq_zero.mp hfree'.listed)
    · rwa [show flagsOf { s' with readyList := l, readyList2 := l2 } id = flags from hflags]
  · rw [hlisted, hfree'.listed, if_pos rfl]
  · rw [hlisted, if_neg (Ne.symm hi), Nat.add_zero]
  · rcases hquiet i hmem with hold | ⟨heq, -⟩
    · exact hold
    · exact absurd heq hi

theorem Edits.push (he : Edits S s s' id ⟨some link, flags, h⟩) (hplace : h.place = .ready)
    (hfree : Free s id) {second : Bool} (hphase : Phase second s)
    (hin : second = true → flags &&& fdeventIn = 0) (hnot : ¬ s'.Reports link.fd) :
    Served S s (s'.push second id) id ⟨some link, flags, h⟩ := by
  cases second with
  | false =>
      obtain ⟨batch, hpc⟩ := hphase
      have hpc' : s'.pc = .events batch := he.lists.pc.trans hpc
      refine he.list hplace hfree hnot (fun i ↦ ?_) (fun i hmem ↦ .inl ?_) he.wired.second
      · simp only [listed, todo, hpc', List.count_append, List.count_singleton, beq_iff_eq]
        omega
      · simpa only [quiet, hpc'] using hmem
  | true =>
      obtain ⟨rest, hpc⟩ := hphase
      have hpc' : s'.pc = .ready rest := he.lists.pc.trans hpc
      refine he.list hplace hfree hnot (fun i ↦ ?_) (fun i hmem ↦ ?_) fun hpc ↦ ?_
      · simp only [listed, todo, hpc', List.count_append, List.count_singleton, beq_iff_eq]
        omega
      · simp only [quiet, hpc', List.mem_append, List.mem_singleton] at hmem ⊢
        exact hmem.imp_right fun heq ↦ ⟨heq, hin rfl⟩
      · rw [hpc'] at hpc
        simp at hpc

/-! ## The functions of the loop -/

theorem fd_write (writes : List WriteResult) (link : Link) :
    (link.write writes).2.fd = link.fd := rfl

theorem fd_send (allocs : ℕ → Int → Bool) (resp : List Bytes) (link : Link) :
    (link.send allocs resp).2.fd = link.fd := by
  rw [Link.send]
  split <;> rfl

theorem fd_recv (alloc : Int → Bool) (link : Link) : (link.recv alloc).2.fd = link.fd := by
  rw [Link.recv]
  split
  · rfl
  · split
    · rfl
    · rfl
    · dsimp only
      split <;> rfl

theorem fd_procRequest (alloc : Int → Bool) (reads : List ReadResult) (link : Link) :
    (link.procRequest alloc reads).fd = link.fd := by
  rw [Link.procRequest]
  split
  · rfl
  · dsimp only
    split <;> rfl

theorem procResult_spec (hw : Wired S s) (job : ProcJob)
    (hc : s.conn job.link = ⟨some link, flags, h⟩) (hfree : Free s job.link)
    (hnot : ¬ s.Reports link.fd) {second : Bool} (hphase : Phase second s) (o : World) :
    Served S s (s.procResult second job o) job.link (settle job.result o link flags h) := by
  obtain ⟨hlink, -, hhistory⟩ := conn_some hc
  rw [procResult, settle]
  dsimp only
  rw [hlink, hhistory]
  dsimp only
  split
  · exact (hw.deleteLink hc hnot).gone hfree
  · have hfd :
        (if link.output.size ≠ 0 then link.write o.writes else (0, link)).2.fd = link.fd := by
      split <;> rfl
    generalize (if link.output.size ≠ 0 then link.write o.writes else (0, link)) = w at hfd ⊢
    generalize (h.send (if link.output.size ≠ 0 then some (link.accepted o.writes) else none)) = h'
    split
    · have hstore := hw.store hc hfd h'
      have hnot' : ¬ (s.store job.link w.2 h').Reports w.2.fd :=
        fun hr ↦ hnot (hfd ▸ hstore.reports _ hr)
      exact (hstore.trans (hstore.wired.deleteLink hstore.conn hnot')).gone hfree
    · generalize hplace : (if w.2.input.size = 0 then Place.idle else Place.ready) = place
      have hstore := hw.store hc hfd (h'.at place)
      -- the subscription to writing
      have hout : Edits S s (if w.2.output.size ≠ 0 then
            (s.store job.link w.2 (h'.at place)).watch fdeventOut job.link w.2
          else s.store job.link w.2 (h'.at place)) job.link
          ⟨some w.2, if w.2.output.size ≠ 0 then flags ||| fdeventOut else flags, h'.at place⟩ := by
        split
        · exact hstore.trans (hstore.wired.watch hstore.conn Flags.single_out)
        · exact hstore
      generalize (if w.2.output.size ≠ 0 then
            (s.store job.link w.2 (h'.at place)).watch fdeventOut job.link w.2
          else s.store job.link w.2 (h'.at place)) = r at hout ⊢
      split
      · next hidle =>
        obtain rfl : .idle = place := by rw [← hplace, if_pos hidle]
        exact (hout.trans (hout.wired.watch hout.conn Flags.single_in)).idle rfl hfree
      · next hbusy =>
        obtain rfl : .ready = place := by rw [← hplace, if_neg hbusy]
        have hquiet := hout.trans (hout.wired.unwatch hout.conn fdeventIn)
        exact hquiet.push rfl hfree hphase (fun _ ↦ Flags.and_not_and_right)
          fun hr ↦ hnot (hfd ▸ hquiet.reports _ hr)

theorem no_reports {rest : List ℕ} (hpc : s.pc = .ready rest) (fd : ℕ) : ¬ s.Reports fd := by
  rintro ⟨p, hp, -⟩
  rw [batch, hpc] at hp
  cases hp

theorem Edits.served (he : Edits S s s' id c) (hserved : Served S s' s'' id c') :
    Served S s s'' id c' :=
  ⟨hserved.wired, hserved.held, fun fd hr ↦ he.reports fd (hserved.reports fd hr),
    fun i hi ↦ (hserved.others i hi).trans (he.others i hi),
    fun i hi ↦ (he.lists.keeps i).trans (hserved.keeps i hi), hserved.conn⟩

theorem finish_spec (hw : Wired S s) (hc : s.conn id = ⟨some link, flags, h⟩) (hfree : Free s id)
    {rest : List ℕ} (hpc : s.pc = .ready rest) {result : Int}
    (hresult : result = procOk ∨ result = procError) (req resp : List Bytes) (o : World) :
    Served S s (s.finish req resp result id link o) id
      (settle result o (link.send o.appends resp).2 flags
        (h.answer req resp link (link.send o.appends resp).2)) := by
  obtain ⟨-, -, hhistory⟩ := conn_some hc
  have hsent : (link.send o.appends resp).1 ≠ -1 := by
    rw [Link.send]
    split <;> simp
  have hne : result ≠ procThread ∧ result ≠ procBackend := by
    rcases hresult with rfl | rfl <;> decide
  rw [finish, if_neg hsent]
  dsimp only
  rw [if_neg hne.1, if_neg hne.2, hhistory]
  have hstore := hw.store hc (fd_send o.appends resp link)
    (h.answer req resp link (link.send o.appends resp).2)
  refine hstore.served (procResult_spec hstore.wired
    ⟨result, id, none, resp, req, _⟩ hstore.conn (hfree.same hstore.lists)
    (no_reports (hstore.lists.pc.trans hpc) _) ?_ o)
  exact ⟨rest, hstore.lists.pc.trans hpc⟩

/-! ## Jobs on their way -/

theorem unfinished_perm {p : PoolId} {extra : List ProcJob}
    (hother : ∀ q, q ≠ p → s'.pools q = s.pools q)
    (hp : ((s'.pools p).jobs ++ (s'.pools p).running).Perm
      (extra ++ ((s.pools p).jobs ++ (s.pools p).running))) :
    s'.unfinished.Perm (extra ++ s.unfinished) := by
  cases p with
  | reader =>
      rw [unfinished, unfinished, hother .writer (by decide)]
      exact (hp.append_right _).trans (.of_eq (List.append_assoc ..))
  | writer =>
      rw [unfinished, unfinished, hother .reader (by decide)]
      exact (hp.append_left _).trans (List.perm_append_comm_assoc ..)

theorem results_perm {p : PoolId} {extra : List ProcJob}
    (hother : ∀ q, q ≠ p → s'.pools q = s.pools q)
    (hp : (s'.pools p).results.Perm (extra ++ (s.pools p).results)) :
    s'.results.Perm (extra ++ s.results) := by
  cases p with
  | reader =>
      rw [results, results, hother .writer (by decide)]
      exact (hp.append_right _).trans (.of_eq (List.append_assoc ..))
  | writer =>
      rw [results, results, hother .reader (by decide)]
      exact (hp.append_left _).trans (List.perm_append_comm_assoc ..)

theorem unfinished_update {p : PoolId} {new : ProcWorkerPool}
    (hjobs : new.jobs = (s.pools p).jobs) (hrunning : new.running = (s.pools p).running) :
    ({ s with pools := Function.update s.pools p new } : NetworkServer).unfinished =
      s.unfinished := by
  cases p with
  | reader => simp [unfinished, hjobs, hrunning]
  | writer => simp [unfinished, hjobs, hrunning]

theorem results_update {p : PoolId} {new : ProcWorkerPool}
    (hresults : new.results = (s.pools p).results) :
    ({ s with pools := Function.update s.pools p new } : NetworkServer).results = s.results := by
  cases p with
  | reader => simp [results, hresults]
  | writer => simp [results, hresults]

/-- The links and the descriptors have nothing to do with the pools. -/
theorem Wired.withPools (hw : Wired S s) (pools : PoolId → ProcWorkerPool) :
    Wired S { s with pools := pools } :=
  ⟨hw.table, hw.mirrors, hw.alive, hw.range, hw.count, hw.client, hw.apart, hw.owned, hw.nodup,
    hw.made, hw.reported, hw.second, hw.start⟩

theorem filter_perm {l l' : List ProcJob} {job : ProcJob} (h : l'.Perm ([job] ++ l)) (i : ℕ) :
    (l'.filter fun job ↦ job.link = i).Perm
      (if job.link = i then job :: l.filter fun job ↦ job.link = i
        else l.filter fun job ↦ job.link = i) := by
  have hfilter := h.filter fun job ↦ job.link = i
  rw [List.singleton_append, List.filter_cons] at hfilter
  simpa using hfilter

theorem filter_perm_of_ne {l l' : List ProcJob} {job : ProcJob} (h : l'.Perm ([job] ++ l)) {i : ℕ}
    (hi : i ≠ job.link) :
    (l'.filter fun job ↦ job.link = i).Perm (l.filter fun job ↦ job.link = i) := by
  have hfilter := filter_perm h i
  rwa [if_neg (Ne.symm hi)] at hfilter

theorem filter_perm_self {l l' : List ProcJob} {job : ProcJob} (h : l'.Perm ([job] ++ l)) :
    (l'.filter fun j ↦ j.link = job.link).Perm
      (job :: l.filter fun j ↦ j.link = job.link) := by
  have hfilter := filter_perm h job.link
  rwa [if_pos rfl] at hfilter

/-- `push` of a job; what is left is to withdraw its link. -/
theorem proc_thread_spec (hw : Wired S s) (hc : s.conn id = ⟨some link, flags, h⟩)
    (hfree : Free s id) {rest : List ℕ} (hpc : s.pc = .ready rest) {job : ProcJob}
    (hid : job.link = id) (hcalls : job.calls = h.calls) (hrequest : job.request = link.request)
    (p : PoolId) :
    Served S s
      { s with
        pools := Function.update s.pools p
          { s.pools p with jobs := (s.pools p).jobs ++ [job] }
        history := Function.update s.history id (h.at .waiting)
        pc := .withdraw id rest } id ⟨some link, flags, h.at .waiting⟩ := by
  obtain ⟨hlink, hflags, hhistory⟩ := conn_some hc
  generalize hs' : ({ s with
        pools := Function.update s.pools p
          { s.pools p with jobs := (s.pools p).jobs ++ [job] }
        history := Function.update s.history id (h.at .waiting)
        pc := .withdraw id rest } : NetworkServer) = s'
  have hpools (q : PoolId) (hq : q ≠ p) : s'.pools q = s.pools q := by
    rw [← hs']
    exact Function.update_of_ne hq ..
  have hpool : s'.pools p = { s.pools p with jobs := (s.pools p).jobs ++ [job] } := by
    rw [← hs']
    exact Function.update_self ..
  have hunfinished : s'.unfinished.Perm ([job] ++ s.unfinished) := by
    apply unfinished_perm hpools
    rw [hpool, List.append_assoc]
    exact List.perm_append_comm_assoc ..
  have hresults : s'.results = s.results := by
    rw [← hs']
    exact results_update rfl
  have hpc' : s'.pc = .withdraw id rest := by rw [← hs']
  have hreports (fd : ℕ) : ¬ s'.Reports fd := by
    rintro ⟨q, hq, -⟩
    rw [batch, hpc'] at hq
    cases hq
  have hlisted : s'.listed = s.listed := by
    rw [listed, listed, todo, todo, hpc', hpc, ← hs']
  have hself : s'.history id = h.at .waiting := by
    rw [← hs']
    exact Function.update_self ..
  have hconn : s'.conn id = ⟨some link, flags, h.at .waiting⟩ := by
    rw [conn, hself, ← hflags, flagsOf, ← hs', hlink]
    rfl
  have hjobs : s'.unfinishedOf id = [job] := by
    have hperm := filter_perm_self hunfinished
    rw [hid] at hperm
    exact List.perm_singleton.mp (hperm.trans (hfree.unfinished ▸ .rfl))
  refine ⟨?_, .waiting (congrArg Conn.link hconn) (by rw [hself]; rfl) (fun hw ↦ ?_)
    (by rw [hlisted, hfree.listed]) hjobs ?_ (hreports _) ⟨?_, hrequest⟩,
    fun fd hr ↦ absurd hr (hreports fd), fun i hi ↦ ?_,
    fun i hi ↦ ⟨by rw [hlisted], ?_, ?_, ?_, ?_⟩, hconn⟩
  · have hbatch : s'.batch = [] := by rw [batch, hpc']
    subst hs'
    exact ⟨hw.table, hw.mirrors, fun heq ↦ (by cases heq), hw.range, hw.count, hw.client, hw.apart,
      hw.owned, hbatch ▸ List.nodup_nil, fun q hq ↦ (by rw [hbatch] at hq; cases hq),
      fun hr ↦ absurd hr (hreports _), fun htop ↦ by simp at htop, hw.start⟩
  · exact absurd (by rw [withdrawing, hpc']) hw
  · rw [resultsOf, hresults]
    exact hfree.results
  · rw [hself, hcalls]
    rfl
  · subst hs'
    rw [conn, conn]
    exact congrArg (Conn.mk _ _) (Function.update_of_ne hi ..)
  · rw [quiet, quiet, hpc', hpc, ← hs']
    exact fun hmem ↦ hmem
  · exact filter_perm_of_ne hunfinished (hid ▸ hi)
  · rw [resultsOf, resultsOf, hresults]
  · rw [withdrawing, withdrawing, hpc', hpc]
    simp [Ne.symm hi]

theorem proc_spec (hw : Wired S s) (hc : s.conn id = ⟨some link, flags, h⟩) (hfree : Free s id)
    {rest : List ℕ} (hpc : s.pc = .ready rest) {o : World} (ho : o.Registered) {req : List Bytes}
    (hreq : req = link.request) :
    Threaded S req ∧
        Served S s (s.proc S req id link rest o) id ⟨some link, flags, h.at .waiting⟩ ∨
      ¬ Threaded S req ∧ Served S s (s.proc S req id link rest o) id
        (settle (verdict S o req) o (link.send o.appends (reply S o req)).2 flags
          (h.answer req (reply S o req) link (link.send o.appends (reply S o req)).2)) := by
  obtain ⟨-, -, hhistory⟩ := conn_some hc
  rw [proc, reply, verdict, Threaded]
  dsimp only
  cases S.procMap (req.headD []) with
  | none => exact .inr ⟨by simp, finish_spec hw hc hfree hpc (.inl rfl) req _ o⟩
  | some cmd =>
      dsimp only
      rw [hhistory]
      split
      · next hthread =>
        exact .inl ⟨⟨cmd, rfl, hthread⟩, proc_thread_spec hw hc hfree hpc rfl rfl hreq _⟩
      · next hthread =>
        refine .inr ⟨?_, finish_spec hw hc hfree hpc ho req _ o⟩
        rintro ⟨cmd', heq, hflag⟩
        exact hthread (Option.some.inj heq ▸ hflag)

/-- The loops go on; a batch only becomes shorter. -/
theorem Wired.goto (hw : Wired S s) {pc : Pc} (hpc : pc ≠ .crashed)
    (hbatch : ({ s with pc := pc } : NetworkServer).batch.Sublist s.batch)
    (hsecond : pc = .top ∨ (∃ batch, pc = .events batch) → s.readyList2 = []) :
    Wired S { s with pc := pc } ∧
      ∀ fd, ({ s with pc := pc } : NetworkServer).Reports fd → s.Reports fd := by
  have hreports (fd : ℕ) (hr : ({ s with pc := pc } : NetworkServer).Reports fd) :
      s.Reports fd := by
    obtain ⟨p, hp, hentry⟩ := hr
    exact ⟨p, hbatch.subset hp, hentry⟩
  exact ⟨⟨hw.table, hw.mirrors, hpc, hw.range, hw.count, hw.client, hw.apart, hw.owned,
    hw.nodup.sublist hbatch, fun p hp ↦ hw.made p (hbatch.subset hp),
    fun hr ↦ hw.reported (hreports _ hr), hsecond, hw.start⟩, hreports⟩

/-- The first link of what is left of the ready list is taken from it. -/
theorem Custody.takeReady (hs : Custody S s) {rest : List ℕ} (hpc : s.pc = .ready (id :: rest)) :
    Wired S { s with pc := .ready rest } ∧ Free { s with pc := .ready rest } id ∧
      (∀ i, i ≠ id → Keeps s { s with pc := .ready rest } i) ∧
        ∃ link, s.links id = some link ∧ (s.history id).place = .ready := by
  have hlisted (i : ℕ) : s.listed.count i =
      ({ s with pc := .ready rest } : NetworkServer).listed.count i +
        if id = i then 1 else 0 := by
    simp only [listed, todo, hpc, List.cons_append, List.count_cons, beq_iff_eq]
  have hone : 0 < s.listed.count id := by
    rw [hlisted, if_pos rfl]
    omega
  have hsame (i : ℕ) :
      ({ s with pc := .ready rest } : NetworkServer).withdrawing = some i ↔
        s.withdrawing = some i := by
    rw [withdrawing, withdrawing, hpc]
  have hgo := hs.wired.goto (show Pc.ready rest ≠ .crashed by simp) (List.nil_sublist _) (by simp)
  refine ⟨hgo.1, ?_, fun i hi ↦ ⟨?_, ?_, .rfl, .rfl, hsame i⟩, ?_⟩
  · cases hs.held id with
    | ready hlink hplace hin hcount hjobs hresults hwithdrawing hnot =>
        refine ⟨?_, hjobs, hresults, fun heq ↦ hwithdrawing ((hsame id).mp heq)⟩
        rw [hlisted, if_pos rfl] at hcount
        omega
    | _ => omega
  · rw [hlisted i, if_neg (Ne.symm hi), Nat.add_zero]
  · rw [quiet, quiet, hpc]
    exact fun hmem ↦ hmem
  · cases hs.held id with
    | ready hlink hplace hin hcount hjobs hresults hwithdrawing hnot => exact ⟨_, hlink, hplace⟩
    | _ => omega

theorem Served.before (hserved : Served S s' s'' id c)
    (hreports : ∀ fd, s'.Reports fd → s.Reports fd) (hothers : ∀ i, i ≠ id → s'.conn i = s.conn i)
    (hkeeps : ∀ i, i ≠ id → Keeps s s' i) : Served S s s'' id c :=
  ⟨hserved.wired, hserved.held, fun fd hr ↦ hreports fd (hserved.reports fd hr),
    fun i hi ↦ (hserved.others i hi).trans (hothers i hi),
    fun i hi ↦ (hkeeps i hi).trans (hserved.keeps i hi), hserved.conn⟩

theorem readyLink_spec (hs : Custody S s) {rest : List ℕ} (hpc : s.pc = .ready (id :: rest))
    {o : World} (ho : o.Registered) :
    ∃ c, Served S s (s.readyLink S id rest o) id c ∧ Move S (.ready o) (s.conn id) c := by
  obtain ⟨hw, hfree, hkeeps, link, hlink, hplace⟩ := hs.takeReady hpc
  have hbefore {s'' : NetworkServer} {c : Conn}
      (hserved : Served S { s with pc := .ready rest } s'' id c) : Served S s s'' id c :=
    hserved.before (fun fd hr ↦ absurd hr (no_reports rfl fd)) (fun _ _ ↦ rfl) hkeeps
  have hc : ({ s with pc := .ready rest } : NetworkServer).conn id =
      ⟨some link, s.fdes.sFlags link.fd, s.history id⟩ := conn_eq (s := { s with pc := _ }) hlink
  have hpc' : ({ s with pc := .ready rest } : NetworkServer).pc = .ready rest := rfl
  have hconn : s.conn id = ⟨some link, s.fdes.sFlags link.fd, s.history id⟩ := conn_eq hlink
  rw [readyLink, hconn]
  dsimp only
  rw [hlink]
  dsimp only
  generalize ({ s with pc := .ready rest } : NetworkServer) = r at hw hfree hc hpc' hbefore ⊢
  split
  · next herror =>
    exact ⟨_, hbefore ((hw.deleteLink hc (no_reports hpc' _)).gone hfree), .drop hplace herror⟩
  · have hfd := fd_recv o.alloc link
    have hstore (h' : History) := hw.store hc hfd h'
    have hdelete (h' : History) := (hstore h').trans ((hstore h').wired.deleteLink (hstore h').conn
      (no_reports ((hstore h').lists.pc.trans hpc') _))
    split
    · next hrecv =>
      exact ⟨_, hbefore ((hdelete _).gone hfree), .reject hplace fun req ↦ by simp [hrecv]⟩
    · next hrecv =>
      exact ⟨_, hbefore ((hdelete _).gone hfree), .reject hplace fun req ↦ by simp [hrecv]⟩
    · next req hrecv =>
      split
      · next hempty =>
        rw [List.isEmpty_iff.mp hempty] at hrecv
        exact ⟨_, hbefore (((hstore _).trans ((hstore _).wired.watch (hstore _).conn
          Flags.single_in)).idle rfl hfree), .more hplace hrecv⟩
      · next hne =>
        have hne' : req ≠ [] := fun heq ↦ hne (by rw [heq]; rfl)
        have hedit := hstore ((s.history id).call.parse (link.recv o.alloc).2.request)
        rcases proc_spec hedit.wired hedit.conn (hfree.same hedit.lists)
          (hedit.lists.pc.trans hpc') ho rfl with ⟨hthread, hqueue⟩ | ⟨hthread, hanswer⟩
        · exact ⟨_, hbefore (hedit.served hqueue), .queue hplace hrecv hne' hthread⟩
        · exact ⟨_, hbefore (hedit.served hanswer),
            .answer hplace (Prod.ext hrecv rfl) hne' hthread rfl⟩

/-! ## Events -/

theorem Held.free_of_gone (hheld : s.Held id) (hlink : s.links id = none) : Free s id := by
  cases hheld with
  | gone _ hlisted hjobs hresults hwithdrawing =>
      exact ⟨hlisted, hjobs, hresults, hwithdrawing⟩
  | _ => simp_all

theorem Wired.fresh (hw : Wired S s) : s.links s.next = none := by
  cases hl : s.links s.next with
  | none => rfl
  | some link => exact absurd (hw.range hl).2 (lt_irrefl _)

/-- A socket that the kernel may return has no subscriptions. -/
theorem Wired.unsubscribed (hw : Wired S s) {sock : ℕ} (hsock : s.Unused S sock) :
    s.fdes.sFlags sock = 0 := by
  by_contra hne
  rcases hw.owned sock hne with hspecial | ⟨l, hl, hfd⟩
  · apply hsock.1
    simp only [List.mem_cons, Prod.mk.injEq, List.not_mem_nil, or_false] at hspecial ⊢
    exact hspecial.imp And.left (Or.imp And.left And.left)
  · exact hsock.2 _ (hw.range hl).2 l hl hfd

theorem live_insert (links : ℕ → Option Link) (n : ℕ) (link : Link) :
    (Finset.range (n + 1)).filter
        (fun i ↦ (Function.update links n (some link) i).isSome = true) =
      insert n ((Finset.range n).filter fun i ↦ (links i).isSome = true) := by
  ext i
  rw [Finset.mem_insert, Finset.mem_filter, Finset.mem_filter, Finset.mem_range, Finset.mem_range]
  by_cases hi : i = n
  · simp [hi]
  · rw [Function.update_of_ne hi]
    simp only [hi, false_or, and_congr_left_iff]
    omega

theorem Wired.create (hw : Wired S s) {sock : ℕ} (hsock : s.Unused S sock)
    (hlink : link.fd = sock) :
    Edits S s { s.store s.next link History.init with
      next := s.next + 1
      linkCount := s.linkCount + 1 } s.next ⟨some link, 0, History.init⟩ := by
  generalize hs' : ({ s.store s.next link History.init with
      next := s.next + 1
      linkCount := s.linkCount + 1 } : NetworkServer) = s'
  have hlinks : s'.links = Function.update s.links s.next (some link) := by
    rw [← hs', NetworkServer.store]
  have hself : s'.links s.next = some link := by rw [hlinks, Function.update_self]
  have hother {i : ℕ} (hi : i ≠ s.next) : s'.links i = s.links i := by
    rw [hlinks, Function.update_of_ne hi]
  have hold {i : ℕ} {l : Link} (hl : s'.links i = some l) :
      i = s.next ∧ l = link ∨ s.links i = some l := by
    by_cases hi : i = s.next
    · subst hi
      exact .inl ⟨rfl, Option.some.inj (hl.symm.trans hself)⟩
    · exact .inr ((hother hi).symm.trans hl)
  have howns {fd ptr : ℕ} (ho : Owns S s fd ptr) : Owns S s' fd ptr := by
    refine ho.imp_right fun ⟨l, hl, hfd⟩ ↦ ⟨l, (hother fun heq ↦ ?_).trans hl, hfd⟩
    rw [heq, hw.fresh] at hl
    cases hl
  have hfree {i : ℕ} {l : Link} (hl : s.links i = some l) : l.fd ≠ link.fd := by
    rw [hlink]
    exact hsock.2 i (hw.range hl).2 l hl
  have hfields : s'.fdes = s.fdes ∧ s'.pc = s.pc ∧ s'.readyList2 = s.readyList2 ∧
      s'.next = s.next + 1 ∧ s'.linkCount = s.linkCount + 1 ∧
      s'.history = Function.update s.history s.next History.init := by
    rw [← hs']
    exact ⟨rfl, rfl, rfl, rfl, rfl, rfl⟩
  have hlists : SameLists s s' := by
    rw [← hs']
    exact ⟨rfl, rfl, rfl, rfl⟩
  obtain ⟨hfdes, hpc, hlist, hnext, hcount, hhistory⟩ := hfields
  have hreports (fd : ℕ) (hr : s'.Reports fd) : s.Reports fd := by
    rwa [Reports, batch, hpc, hfdes] at hr
  have hbatch : s'.batch = s.batch := hlists.batch
  refine ⟨⟨hfdes ▸ hw.table, hfdes ▸ hw.mirrors, hpc ▸ hw.alive, fun {i l} hl ↦ ?_, ?_,
    fun {i l} hl ↦ ?_, fun hl hl' heq ↦ ?_, fun fd hne ↦ ?_, hbatch ▸ hw.nodup, fun p hp ↦ ?_,
    fun {fd} hr ↦ ?_, ?_, ?_⟩, hlists, hreports, fun i hi ↦ ?_, ?_⟩
  · rcases hold hl with ⟨rfl, -⟩ | hl
    · exact ⟨hw.start, by omega⟩
    · have := hw.range hl
      omega
  · rw [hlinks, hnext, live_insert, Finset.card_insert_of_notMem (by simp), hcount, hw.count]
    push_cast
    rfl
  · rcases hold hl with ⟨-, rfl⟩ | hl
    · rw [hlink]
      exact hsock.1
    · exact hw.client hl
  · rcases hold hl with ⟨rfl, rfl⟩ | hl <;> rcases hold hl' with ⟨rfl, rfl⟩ | hl'
    · rfl
    · exact absurd heq.symm (hfree hl')
    · exact absurd heq (hfree hl)
    · exact hw.apart hl hl' heq
  · rw [hfdes] at hne ⊢
    exact howns (hw.owned fd hne)
  · rw [hfdes]
    exact hw.made p (hbatch ▸ hp)
  · rw [hfdes]
    exact howns (hw.reported (hreports fd hr))
  · rw [hpc, hlist]
    exact hw.second
  · have := hw.start
    omega
  · rw [conn, conn, flagsOf, flagsOf, hother hi, hfdes, hhistory, Function.update_of_ne hi]
  · rw [conn_eq hself, hlink, hfdes, hw.unsubscribed hsock, hhistory, Function.update_self]

theorem accept_spec (hw : Wired S s) (hheld : s.Held s.next) {o : World} {sock : ℕ}
    (ho : o.sock = some sock) (hsock : s.Unused S sock) :
    Served S s (s.accept o) s.next
        ⟨some { Link.new sock with noblock := true }, fdeventIn, History.init⟩ ∧
      Move S (.event o) (s.conn s.next)
        ⟨some { Link.new sock with noblock := true }, fdeventIn, History.init⟩ := by
  have hcreate := hw.create hsock
    (show ({ Link.new sock with noblock := true } : Link).fd = sock from rfl)
  have hwatch := hcreate.trans (hcreate.wired.watch hcreate.conn Flags.single_in)
  have hflags : (0 : Flags) ||| fdeventIn = fdeventIn := by decide
  have hserved := hwatch.idle rfl (hheld.free_of_gone hw.fresh)
  rw [hflags] at hserved
  have hconn : s.conn s.next = ⟨none, 0, s.history s.next⟩ := by
    rw [conn, flagsOf, hw.fresh]
    rfl
  rw [accept, ho, hconn]
  exact ⟨hserved, .accept ho⟩

theorem popResult_spec (hw : Wired S s) (hheld : ∀ i, s.Held i) {batch : List ℕ}
    (hpc : s.pc = .events batch) {p : PoolId} {o : World} (hpop : s.popResult p o = some s') :
    ∃ id c, (s.pools p).results.head?.map ProcJob.link = some id ∧ Served S s s' id c ∧
      Move S (.event o) (s.conn id) c := by
  rw [popResult] at hpop
  split at hpop
  · cases hpop
  · next job later hfirst =>
    cases hpop
    have hhead : (s.pools p).results.head?.map ProcJob.link = some job.link := by
      rw [hfirst]
      rfl
    have hw' := hw.withPools (Function.update s.pools p { s.pools p with results := later })
    generalize hr : ({ s with
        pools := Function.update s.pools p
          { s.pools p with results := later } } : NetworkServer) = r at hw' ⊢
    have hresults : s.results.Perm ([job] ++ r.results) := by
      rw [← hr]
      refine results_perm (fun q hq ↦ (Function.update_of_ne hq ..).symm) ?_
      simp only [Function.update_self, hfirst, List.singleton_append, List.Perm.refl]
    have hsame : r.unfinished = s.unfinished := by
      rw [← hr]
      exact unfinished_update rfl rfl
    have hunfinished (i : ℕ) : r.unfinishedOf i = s.unfinishedOf i := by
      rw [unfinishedOf, unfinishedOf, hsame]
    have hmine : (s.resultsOf job.link).Perm (job :: r.resultsOf job.link) :=
      filter_perm_self hresults
    have hlists : r.pc = s.pc ∧ r.listed = s.listed ∧ r.quiet = s.quiet ∧
        r.withdrawing = s.withdrawing := by
      rw [← hr]
      exact ⟨rfl, rfl, rfl, rfl⟩
    obtain ⟨hpc', hlisted, hquiet, hwithdrawing⟩ := hlists
    have hconn (i : ℕ) : r.conn i = s.conn i := by
      rw [← hr]
      rfl
    have hreports (fd : ℕ) (hrep : r.Reports fd) : s.Reports fd := by
      rw [← hr] at hrep
      exact hrep
    have hnone : s.withdrawing ≠ some job.link := by simp [withdrawing, hpc]
    obtain ⟨link, hlink, hplace, hflags, hcount, hjobs, hresult, hnot, -⟩ :=
      (hheld job.link).result (hmine.mem_iff.mpr List.mem_cons_self)
    rw [hresult] at hmine
    have hempty : r.resultsOf job.link = [] := by
      have hlength := hmine.length_eq
      simp only [List.length_cons, List.length_nil] at hlength
      exact List.length_eq_zero_iff.mp (by omega)
    have hfree : Free r job.link :=
      ⟨hlisted ▸ hcount, (hunfinished _).trans hjobs, hempty, hwithdrawing ▸ hnone⟩
    have hc : s.conn job.link = ⟨some link, 0, s.history job.link⟩ := by
      rw [conn, hlink, hflags hnone]
    have hphase : Phase false r := ⟨batch, hpc'.trans hpc⟩
    have hserved := procResult_spec hw' job ((hconn _).trans hc) hfree
      (fun hrep ↦ hnot (hreports _ hrep)) hphase o
    have hkeeps (i : ℕ) (hi : i ≠ job.link) : Keeps s r i :=
      ⟨by rw [hlisted], fun hmem ↦ hquiet ▸ hmem, .of_eq (hunfinished i),
        (filter_perm_of_ne hresults hi).symm, by rw [hwithdrawing]⟩
    exact ⟨job.link, _, hhead, hserved.before hreports (fun i _ ↦ hconn i) hkeeps,
      hc ▸ .result hplace⟩

/-- A link that the loop over the events finds readable is with the kernel only. -/
theorem readable_idle (hw : Wired S s) (hheld : ∀ i, s.Held i) {p : ℕ} {batch : List ℕ}
    (hpc : s.pc = .events (p :: batch))
    (hserv : (s.fdes.table.heap p).dataPtr ≠ servPtr)
    (hreader : (s.fdes.table.heap p).dataPtr ≠ readerPtr)
    (hwriter : (s.fdes.table.heap p).dataPtr ≠ writerPtr)
    (hin : (s.fdes.table.heap p).events &&& fdeventIn ≠ 0) :
    ∃ link, s.links (s.fdes.table.heap p).dataPtr = some link ∧
      (s.history (s.fdes.table.heap p).dataPtr).place = .idle ∧
      s.fdes.table.events[link.fd]? = some p ∧ Free s (s.fdes.table.heap p).dataPtr := by
  have hp : p ∈ s.batch := by
    rw [NetworkServer.batch, hpc]
    exact List.mem_cons_self
  obtain ⟨fd, hfd⟩ := hw.made p hp
  have hlook := FdeTable.look_eq hfd
  have hreports : s.Reports fd := ⟨p, hp, hfd, hlook ▸ hin⟩
  have hown := hw.reported hreports
  rw [hlook] at hown
  generalize (s.fdes.table.heap p).dataPtr = id at *
  rcases hown with hspecial | ⟨link, hlink, hsame⟩
  · simp only [List.mem_cons, Prod.mk.injEq, List.not_mem_nil, or_false] at hspecial
    rcases hspecial with ⟨-, rfl⟩ | ⟨-, rfl⟩ | ⟨-, rfl⟩
    · exact absurd rfl hserv
    · exact absurd rfl hreader
    · exact absurd rfl hwriter
  · have hthis {l : Link} (hl : s.links id = some l) : s.Reports l.fd := by
      obtain rfl : link = l := Option.some.inj (hlink.symm.trans hl)
      exact hsame ▸ hreports
    cases hheld id with
    | gone hnone => rw [hlink] at hnone; cases hnone
    | idle hl hplace hflag hlisted hjobs hresults hwithdrawing =>
        exact ⟨link, hlink, hplace, hsame ▸ hfd, hlisted, hjobs, hresults, hwithdrawing⟩
    | ready hl _ _ _ _ _ _ hnot => exact absurd (hthis hl) hnot
    | waiting hl _ _ _ _ _ hnot _ => exact absurd (hthis hl) hnot
    | finished hl _ _ _ _ _ hnot _ => exact absurd (hthis hl) hnot

/-- A step keeps every link with one holder and moves each as it may. -/
def Steps (S : Setup) (a : Action) (s s' : NetworkServer) : Prop :=
  Custody S s' ∧
    ∀ i, s'.conn i = s.conn i ∨ s.acting a = some i ∧ Move S a (s.conn i) (s'.conn i)

theorem Served.steps (hserved : Served S s s' id c) (hheld : ∀ i, s.Held i) {a : Action}
    (hact : s.acting a = some id) (hmove : Move S a (s.conn id) c) : Steps S a s s' := by
  refine ⟨⟨hserved.wired, fun i ↦ ?_⟩, fun i ↦ ?_⟩
  · by_cases hi : i = id
    · exact hi ▸ hserved.held
    · exact (hheld i).frame (hserved.others i hi) (hserved.keeps i hi) hserved.reports
  · by_cases hi : i = id
    · rw [hi, hserved.conn]
      exact .inr ⟨hact, hmove⟩
    · exact .inl (hserved.others i hi)

theorem Wired.steps (hw : Wired S s') (hheld : ∀ i, s.Held i)
    (hreports : ∀ fd, s'.Reports fd → s.Reports fd) (hconn : ∀ i, s'.conn i = s.conn i)
    (hkeeps : ∀ i, Keeps s s' i) {a : Action} : Steps S a s s' :=
  ⟨⟨hw, fun i ↦ (hheld i).frame (hconn i) (hkeeps i) hreports⟩, fun i ↦ .inl (hconn i)⟩

theorem Custody.takeEvent (hs : Custody S s) {p : ℕ} {batch : List ℕ}
    (hpc : s.pc = .events (p :: batch)) :
    Wired S { s with pc := .events batch } ∧
      (∀ fd, ({ s with pc := .events batch } : NetworkServer).Reports fd → s.Reports fd) ∧
        ∀ i, Keeps s { s with pc := .events batch } i := by
  have hgo := hs.wired.goto (show Pc.events batch ≠ .crashed by simp)
    (by simp [NetworkServer.batch, hpc]) fun _ ↦ hs.wired.second (.inr ⟨_, hpc⟩)
  refine ⟨hgo.1, hgo.2, fun i ↦ ⟨by simp only [listed, todo, hpc], fun hmem ↦ ?_, .rfl, .rfl, ?_⟩⟩
  · simpa only [quiet, hpc] using hmem
  · simp only [withdrawing, hpc]

theorem procRequest_spec (hs : Custody S s) {p : ℕ} {batch : List ℕ}
    (hpc : s.pc = .events (p :: batch))
    (hserv : (s.fdes.table.heap p).dataPtr ≠ servPtr)
    (hreader : (s.fdes.table.heap p).dataPtr ≠ readerPtr)
    (hwriter : (s.fdes.table.heap p).dataPtr ≠ writerPtr)
    (hin : (s.fdes.table.heap p).events &&& fdeventIn ≠ 0) (o : World) :
    ∃ c, Served S s
        (({ s with pc := .events batch } : NetworkServer).procRequest (s.fdes.table.heap p) o)
        (s.fdes.table.heap p).dataPtr c ∧
      Move S (.event o) (s.conn (s.fdes.table.heap p).dataPtr) c := by
  obtain ⟨hw, hreports, hkeeps⟩ := hs.takeEvent hpc
  obtain ⟨link, hlink, hplace, hfd, hfree⟩ :=
    readable_idle hs.wired hs.held hpc hserv hreader hwriter hin
  have hnodup : (p :: batch).Nodup := by
    have hall := hs.wired.nodup
    rwa [NetworkServer.batch, hpc] at hall
  -- the kernel reports a descriptor once
  have hnot : ¬ ({ s with pc := .events batch } : NetworkServer).Reports link.fd := by
    rintro ⟨q, hq, hentry, -⟩
    obtain rfl : p = q := Option.some.inj (hfd.symm.trans hentry)
    exact (List.nodup_cons.mp hnodup).1 hq
  rw [procRequest, if_pos hin]
  generalize (s.fdes.table.heap p).dataPtr = id at *
  have hfree' : Free { s with pc := .events batch } id :=
    ⟨(hkeeps id).listed.trans hfree.listed, hfree.unfinished, hfree.results,
      fun heq ↦ hfree.withdrawing ((hkeeps id).withdrawing.mp heq)⟩
  have hc : ({ s with pc := .events batch } : NetworkServer).conn id = _ :=
    conn_eq (s := { s with pc := _ }) hlink
  have hphase : Phase false { s with pc := .events batch } := ⟨batch, rfl⟩
  dsimp only
  rw [hlink]
  dsimp only
  have hserved (h' : History) (hready : h'.place = .ready) := by
    have hedit := hw.store hc (fd_procRequest o.alloc o.reads link) h'
    have hnot' := fun hr ↦ hnot (hedit.reports _ (fd_procRequest o.alloc o.reads link ▸ hr))
    exact (hedit.push hready hfree' hphase (fun heq ↦ by cases heq) hnot').before hreports
      (fun _ _ ↦ rfl) fun i _ ↦ hkeeps i
  split
  · next herror =>
    refine ⟨_, hserved _ rfl, ?_⟩
    rw [conn_eq hlink, Link.procRequest, if_pos herror]
    exact .marked hplace herror
  · next herror =>
    refine ⟨_, hserved _ rfl, ?_⟩
    rw [conn_eq hlink]
    exact .read hplace (by simpa using herror)

theorem event_steps (hs : Custody S s) {p : ℕ} {batch : List ℕ}
    (hpc : s.pc = .events (p :: batch)) {o : World} (hsock : ∀ sock ∈ o.sock, s.Unused S sock)
    (hstep : s.event p batch o = some s') : Steps S (.event o) s s' := by
  obtain ⟨hw, hreports, hkeeps⟩ := hs.takeEvent hpc
  have hheld (i : ℕ) : ({ s with pc := .events batch } : NetworkServer).Held i :=
    (hs.held i).frame (i := i) rfl (hkeeps i) hreports
  have hstay : Steps S (.event o) s { s with pc := .events batch } :=
    hw.steps hs.held hreports (fun _ ↦ rfl) hkeeps
  have hconn (i : ℕ) : ({ s with pc := .events batch } : NetworkServer).conn i = s.conn i := rfl
  have hact (o : World) : s.acting (.event o) =
      if (s.fdes.table.heap p).dataPtr = servPtr then some s.next
      else if (s.fdes.table.heap p).dataPtr = readerPtr then
        (s.pools .reader).results.head?.map ProcJob.link
      else if (s.fdes.table.heap p).dataPtr = writerPtr then
        (s.pools .writer).results.head?.map ProcJob.link
      else some (s.fdes.table.heap p).dataPtr := by
    rw [acting, hpc]
  rw [event] at hstep
  split at hstep
  · next hserv =>
    rw [if_pos hserv] at hact
    cases hstep
    cases ho : o.sock with
    | none => rwa [accept, ho]
    | some sock =>
        obtain ⟨hserved, hmove⟩ := accept_spec hw (hheld _) ho (hsock sock ho)
        exact (hserved.before hreports (fun i _ ↦ hconn i) fun i _ ↦ hkeeps i).steps hs.held
          (hact o) hmove
  · next hserv =>
    rw [if_neg hserv] at hact
    split at hstep
    · next hreader =>
      rw [if_pos hreader] at hact
      obtain ⟨id, c, hhead, hserved, hmove⟩ := popResult_spec hw hheld rfl hstep
      exact (hserved.before hreports (fun i _ ↦ hconn i) fun i _ ↦ hkeeps i).steps hs.held
        ((hact o).trans hhead) hmove
    · next hreader =>
      rw [if_neg hreader] at hact
      split at hstep
      · next hwriter =>
        rw [if_pos hwriter] at hact
        obtain ⟨id, c, hhead, hserved, hmove⟩ := popResult_spec hw hheld rfl hstep
        exact (hserved.before hreports (fun i _ ↦ hconn i) fun i _ ↦ hkeeps i).steps hs.held
          ((hact o).trans hhead) hmove
      · next hwriter =>
        rw [if_neg hwriter] at hact
        cases hstep
        by_cases hin : (s.fdes.table.heap p).events &&& fdeventIn = 0
        · rw [procRequest, if_neg (not_not.mpr hin)]
          exact hstay
        · obtain ⟨c, hserved, hmove⟩ := procRequest_spec hs hpc hserv hreader hwriter hin o
          exact hserved.steps hs.held (hact o) hmove

end NetworkServer

end GeminiDB
