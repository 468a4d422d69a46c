import GeminiDB.Net.Server
import Mathlib.Data.Finset.Card
import Mathlib.Data.Finset.Range

/-!
# Who has a link

Between two steps of the server every live link is with the kernel only, once in
a ready list, or in one job. A step acts on one link at most, and only the one
who has the link acts on it. `Move` says what a step can do to a link.
-/

namespace GeminiDB

namespace NetworkServer

/-- The part of the state that belongs to one link. -/
structure Conn where
  link : Option Link
  flags : Flags
  history : History

def flagsOf (s : NetworkServer) (id : ℕ) : Flags :=
  (s.links id).elim 0 fun link ↦ s.fdes.sFlags link.fd

def conn (s : NetworkServer) (id : ℕ) : Conn := ⟨s.links id, s.flagsOf id, s.history id⟩

/-- What is left of `ready_list` in this round. -/
def todo (s : NetworkServer) : List ℕ :=
  match s.pc with
  | .top => s.readyList
  | .events _ => s.readyList
  | .ready rest => rest
  | .withdraw _ rest => rest
  | .crashed => []

def listed (s : NetworkServer) : List ℕ := s.todo ++ s.readyList2

/-- The links listed without a subscription to `FDEVENT_IN`. -/
def quiet (s : NetworkServer) : List ℕ :=
  match s.pc with
  | .top => s.readyList
  | _ => s.readyList2

/-- The jobs that no worker has finished. -/
def unfinished (s : NetworkServer) : List ProcJob :=
  ((s.pools .reader).jobs ++ (s.pools .reader).running) ++
    ((s.pools .writer).jobs ++ (s.pools .writer).running)

def results (s : NetworkServer) : List ProcJob :=
  (s.pools .reader).results ++ (s.pools .writer).results

def unfinishedOf (s : NetworkServer) (id : ℕ) : List ProcJob :=
  s.unfinished.filter fun job ↦ job.link = id

def resultsOf (s : NetworkServer) (id : ℕ) : List ProcJob :=
  s.results.filter fun job ↦ job.link = id

/-- The link that waits for its `fdes->del`. -/
def withdrawing (s : NetworkServer) : Option ℕ :=
  match s.pc with
  | .withdraw id _ => some id
  | _ => none

def batch (s : NetworkServer) : List ℕ :=
  match s.pc with
  | .events batch => batch
  | _ => []

/-- The loop over the events will come to `fd` and find it readable. -/
def Reports (s : NetworkServer) (fd : ℕ) : Prop :=
  ∃ p ∈ s.batch, s.fdes.table.events[fd]? = some p ∧
    (s.fdes.table.look fd).events &&& fdeventIn ≠ 0

/-- The data of a registered descriptor: a live link that has it, or the server's own. -/
def Owns (S : Setup) (s : NetworkServer) (fd ptr : ℕ) : Prop :=
  (fd, ptr) ∈ [(S.servFd, servPtr), (S.readerFd, readerPtr), (S.writerFd, writerPtr)] ∨
    ∃ link, s.links ptr = some link ∧ link.fd = fd

/-- The links and the descriptors fit together. -/
structure Wired (S : Setup) (s : NetworkServer) : Prop where
  table : s.fdes.table.Wf
  mirrors : s.fdes.Mirrors
  alive : s.pc ≠ .crashed
  range : ∀ {id link}, s.links id = some link → 4 ≤ id ∧ id < s.next
  count : s.linkCount = ((Finset.range s.next).filter fun id ↦ (s.links id).isSome = true).card
  client : ∀ {id link}, s.links id = some link → link.fd ∉ [S.servFd, S.readerFd, S.writerFd]
  apart : ∀ {id id' link link'}, s.links id = some link → s.links id' = some link' →
    link.fd = link'.fd → id = id'
  owned : ∀ fd, s.fdes.sFlags fd ≠ 0 → Owns S s fd (s.fdes.table.look fd).dataPtr
  nodup : s.batch.Nodup
  made : ∀ p ∈ s.batch, ∃ fd : ℕ, s.fdes.table.events[fd]? = some p
  reported : ∀ {fd}, s.Reports fd → Owns S s fd (s.fdes.table.look fd).dataPtr
  second : s.pc = .top ∨ (∃ batch, s.pc = .events batch) → s.readyList2 = []
  start : 4 ≤ s.next

/-- The job is the link's last request, and neither `read` nor `recv` was called since. -/
structure Current (job : ProcJob) (link : Link) (h : History) : Prop where
  calls : job.calls = h.calls
  request : job.request = link.request

/-- Exactly one has the link. -/
inductive Held (s : NetworkServer) (id : ℕ) : Prop
  | gone (hlink : s.links id = none) (hlisted : s.listed.count id = 0)
      (hjobs : s.unfinishedOf id = []) (hresults : s.resultsOf id = [])
      (hwithdrawing : s.withdrawing ≠ some id)
  | idle {link : Link} (hlink : s.links id = some link) (hplace : (s.history id).place = .idle)
      (hin : s.flagsOf id &&& fdeventIn ≠ 0) (hlisted : s.listed.count id = 0)
      (hjobs : s.unfinishedOf id = []) (hresults : s.resultsOf id = [])
      (hwithdrawing : s.withdrawing ≠ some id)
  | ready {link : Link} (hlink : s.links id = some link) (hplace : (s.history id).place = .ready)
      (hin : id ∈ s.quiet → s.flagsOf id &&& fdeventIn = 0) (hlisted : s.listed.count id = 1)
      (hjobs : s.unfinishedOf id = []) (hresults : s.resultsOf id = [])
      (hwithdrawing : s.withdrawing ≠ some id) (hreports : ¬ s.Reports link.fd)
  | waiting {link : Link} {job : ProcJob} (hlink : s.links id = some link)
      (hplace : (s.history id).place = .waiting)
      (hflags : s.withdrawing ≠ some id → s.flagsOf id = 0) (hlisted : s.listed.count id = 0)
      (hjobs : s.unfinishedOf id = [job]) (hresults : s.resultsOf id = [])
      (hreports : ¬ s.Reports link.fd) (hjob : Current job link (s.history id))
  | finished {link : Link} {job : ProcJob} (hlink : s.links id = some link)
      (hplace : (s.history id).place = .finished)
      (hflags : s.withdrawing ≠ some id → s.flagsOf id = 0) (hlisted : s.listed.count id = 0)
      (hjobs : s.unfinishedOf id = []) (hresults : s.resultsOf id = [job])
      (hreports : ¬ s.Reports link.fd) (hjob : Current job link (s.history id))

structure Custody (S : Setup) (s : NetworkServer) : Prop where
  wired : Wired S s
  held : ∀ id, s.Held id

/-! ## Frames -/

/-- Neither the lists nor the jobs have changed. -/
structure SameLists (s s' : NetworkServer) : Prop where
  pc : s'.pc = s.pc
  first : s'.readyList = s.readyList
  second : s'.readyList2 = s.readyList2
  pools : s'.pools = s.pools

/-- Whoever has the link `i` keeps it. -/
structure Keeps (s s' : NetworkServer) (i : ℕ) : Prop where
  listed : s'.listed.count i = s.listed.count i
  quiet : i ∈ s'.quiet → i ∈ s.quiet
  unfinished : (s'.unfinishedOf i).Perm (s.unfinishedOf i)
  results : (s'.resultsOf i).Perm (s.resultsOf i)
  withdrawing : s'.withdrawing = some i ↔ s.withdrawing = some i

variable {S : Setup} {s s' s'' : NetworkServer}

theorem SameLists.trans (h : SameLists s s') (h' : SameLists s' s'') : SameLists s s'' :=
  ⟨h'.pc.trans h.pc, h'.first.trans h.first, h'.second.trans h.second, h'.pools.trans h.pools⟩

theorem SameLists.todo (h : SameLists s s') : s'.todo = s.todo := by
  rw [NetworkServer.todo, NetworkServer.todo, h.pc, h.first]

theorem SameLists.listed (h : SameLists s s') : s'.listed = s.listed := by
  rw [NetworkServer.listed, NetworkServer.listed, h.todo, h.second]

theorem SameLists.quiet (h : SameLists s s') : s'.quiet = s.quiet := by
  rw [NetworkServer.quiet, NetworkServer.quiet, h.pc, h.first, h.second]

theorem SameLists.unfinishedOf (h : SameLists s s') (i : ℕ) :
    s'.unfinishedOf i = s.unfinishedOf i := by
  rw [NetworkServer.unfinishedOf, NetworkServer.unfinishedOf, unfinished, unfinished, h.pools]

theorem SameLists.resultsOf (h : SameLists s s') (i : ℕ) : s'.resultsOf i = s.resultsOf i := by
  rw [NetworkServer.resultsOf, NetworkServer.resultsOf, NetworkServer.results,
    NetworkServer.results, h.pools]

theorem SameLists.withdrawing (h : SameLists s s') : s'.withdrawing = s.withdrawing := by
  rw [NetworkServer.withdrawing, NetworkServer.withdrawing, h.pc]

theorem SameLists.batch (h : SameLists s s') : s'.batch = s.batch := by
  rw [NetworkServer.batch, NetworkServer.batch, h.pc]

theorem SameLists.keeps (h : SameLists s s') (i : ℕ) : Keeps s s' i :=
  ⟨by rw [h.listed], fun hi ↦ h.quiet ▸ hi, by rw [h.unfinishedOf], by rw [h.resultsOf],
    by rw [h.withdrawing]⟩

theorem Keeps.trans {i : ℕ} (h : Keeps s s' i) (h' : Keeps s' s'' i) : Keeps s s'' i :=
  ⟨h'.listed.trans h.listed, fun hi ↦ h.quiet (h'.quiet hi), h'.unfinished.trans h.unfinished,
    h'.results.trans h.results, h'.withdrawing.trans h.withdrawing⟩

theorem quiet_subset_listed (s : NetworkServer) {i : ℕ} (h : i ∈ s.quiet) : i ∈ s.listed := by
  rw [quiet] at h
  rw [listed, todo, List.mem_append]
  cases hpc : s.pc with
  | top => exact .inl (by simpa [hpc] using h)
  | _ => exact .inr (by simpa [hpc] using h)

/-- What is kept of a link, its lists and its reports makes it held as before. -/
theorem Held.frame {i : ℕ} (h : s.Held i) (hconn : s'.conn i = s.conn i) (hkeeps : Keeps s s' i)
    (hreports : ∀ fd, s'.Reports fd → s.Reports fd) : s'.Held i := by
  have hlink : s'.links i = s.links i := congrArg Conn.link hconn
  have hflags : s'.flagsOf i = s.flagsOf i := congrArg Conn.flags hconn
  have hhistory : s'.history i = s.history i := congrArg Conn.history hconn
  have hsame := hkeeps.withdrawing
  cases h with
  | gone hnone hlisted hjobs hresults hwithdrawing =>
      exact .gone (hlink.trans hnone) (hkeeps.listed.trans hlisted)
        (List.perm_nil.mp (hjobs ▸ hkeeps.unfinished))
        (List.perm_nil.mp (hresults ▸ hkeeps.results)) fun heq ↦ hwithdrawing (hsame.mp heq)
  | idle hsome hplace hin hlisted hjobs hresults hwithdrawing =>
      exact .idle (hlink.trans hsome) (hhistory ▸ hplace) (hflags ▸ hin)
        (hkeeps.listed.trans hlisted) (List.perm_nil.mp (hjobs ▸ hkeeps.unfinished))
        (List.perm_nil.mp (hresults ▸ hkeeps.results)) fun heq ↦ hwithdrawing (hsame.mp heq)
  | ready hsome hplace hin hlisted hjobs hresults hwithdrawing hnot =>
      exact .ready (hlink.trans hsome) (hhistory ▸ hplace)
        (fun hi ↦ hflags ▸ hin (hkeeps.quiet hi)) (hkeeps.listed.trans hlisted)
        (List.perm_nil.mp (hjobs ▸ hkeeps.unfinished))
        (List.perm_nil.mp (hresults ▸ hkeeps.results)) (fun heq ↦ hwithdrawing (hsame.mp heq))
        fun hr ↦ hnot (hreports _ hr)
  | waiting hsome hplace hzero hlisted hjobs hresults hnot hjob =>
      exact .waiting (hlink.trans hsome) (hhistory ▸ hplace)
        (fun hw ↦ hflags ▸ hzero fun heq ↦ hw (hsame.mpr heq)) (hkeeps.listed.trans hlisted)
        (List.perm_singleton.mp (hjobs ▸ hkeeps.unfinished))
        (List.perm_nil.mp (hresults ▸ hkeeps.results)) (fun hr ↦ hnot (hreports _ hr))
        (hhistory ▸ hjob)
  | finished hsome hplace hzero hlisted hjobs hresults hnot hjob =>
      exact .finished (hlink.trans hsome) (hhistory ▸ hplace)
        (fun hw ↦ hflags ▸ hzero fun heq ↦ hw (hsame.mpr heq)) (hkeeps.listed.trans hlisted)
        (List.perm_nil.mp (hjobs ▸ hkeeps.unfinished))
        (List.perm_singleton.mp (hresults ▸ hkeeps.results)) (fun hr ↦ hnot (hreports _ hr))
        (hhistory ▸ hjob)

/-- A job that no worker has finished has its link, and is its only job. -/
theorem Held.unfinished {i : ℕ} (h : s.Held i) {job : ProcJob} (hjob : job ∈ s.unfinishedOf i) :
    ∃ link, s.links i = some link ∧ (s.history i).place = .waiting ∧
      (s.withdrawing ≠ some i → s.flagsOf i = 0) ∧ s.listed.count i = 0 ∧
        s.unfinishedOf i = [job] ∧ s.resultsOf i = [] ∧ ¬ s.Reports link.fd ∧
          Current job link (s.history i) := by
  cases h with
  | gone _ _ hjobs => simp [hjobs] at hjob
  | idle _ _ _ _ hjobs => simp [hjobs] at hjob
  | ready _ _ _ _ hjobs => simp [hjobs] at hjob
  | finished _ _ _ _ hjobs => simp [hjobs] at hjob
  | @waiting link mine hlink hplace hflags hlisted hjobs hresults hreports hcurrent =>
      obtain rfl : job = mine := by simpa [hjobs] using hjob
      exact ⟨link, hlink, hplace, hflags, hlisted, hjobs, hresults, hreports, hcurrent⟩

/-- A result has its link, and there is no other. -/
theorem Held.result {i : ℕ} (h : s.Held i) {job : ProcJob} (hjob : job ∈ s.resultsOf i) :
    ∃ link, s.links i = some link ∧ (s.history i).place = .finished ∧
      (s.withdrawing ≠ some i → s.flagsOf i = 0) ∧ s.listed.count i = 0 ∧
        s.unfinishedOf i = [] ∧ s.resultsOf i = [job] ∧ ¬ s.Reports link.fd ∧
          Current job link (s.history i) := by
  cases h with
  | gone _ _ _ hresults => simp [hresults] at hjob
  | idle _ _ _ _ _ hresults => simp [hresults] at hjob
  | ready _ _ _ _ _ hresults => simp [hresults] at hjob
  | waiting _ _ _ _ _ hresults => simp [hresults] at hjob
  | @finished link mine hlink hplace hflags hlisted hjobs hresults hreports hcurrent =>
      obtain rfl : job = mine := by simpa [hresults] using hjob
      exact ⟨link, hlink, hplace, hflags, hlisted, hjobs, hresults, hreports, hcurrent⟩

theorem mem_unfinished {p : PoolId} {job : ProcJob}
    (hjob : job ∈ (s.pools p).jobs ∨ job ∈ (s.pools p).running) : job ∈ s.unfinished := by
  cases p <;> rcases hjob with hjob | hjob <;> simp [NetworkServer.unfinished, hjob]

theorem mem_results {p : PoolId} {job : ProcJob} (hjob : job ∈ (s.pools p).results) :
    job ∈ s.results := by
  cases p <;> simp [NetworkServer.results, hjob]

theorem Custody.unfinished (hs : Custody S s) {job : ProcJob} (hjob : job ∈ s.unfinished) :
    ∃ link, s.links job.link = some link ∧ (s.history job.link).place = .waiting ∧
      (s.withdrawing ≠ some job.link → s.flagsOf job.link = 0) ∧ s.listed.count job.link = 0 ∧
        s.unfinishedOf job.link = [job] ∧ s.resultsOf job.link = [] ∧ ¬ s.Reports link.fd ∧
          Current job link (s.history job.link) :=
  (hs.held job.link).unfinished (List.mem_filter.mpr ⟨hjob, decide_eq_true rfl⟩)

theorem Custody.result (hs : Custody S s) {job : ProcJob} (hjob : job ∈ s.results) :
    ∃ link, s.links job.link = some link ∧ (s.history job.link).place = .finished ∧
      (s.withdrawing ≠ some job.link → s.flagsOf job.link = 0) ∧ s.listed.count job.link = 0 ∧
        s.unfinishedOf job.link = [] ∧ s.resultsOf job.link = [job] ∧ ¬ s.Reports link.fd ∧
          Current job link (s.history job.link) :=
  (hs.held job.link).result (List.mem_filter.mpr ⟨hjob, decide_eq_true rfl⟩)

/-! ## Changes of one link -/

/-- Only the link `id` has changed, which is now `c`. -/
structure Edits (S : Setup) (s s' : NetworkServer) (id : ℕ) (c : Conn) : Prop where
  wired : Wired S s'
  lists : SameLists s s'
  reports : ∀ fd, s'.Reports fd → s.Reports fd
  others : ∀ i, i ≠ id → s'.conn i = s.conn i
  conn : s'.conn id = c

variable {id : ℕ} {link link' : Link} {flags : Flags} {h : History} {c c' : Conn}

theorem Edits.trans (he : Edits S s s' id c) (he' : Edits S s' s'' id c') :
    Edits S s s'' id c' :=
  ⟨he'.wired, he.lists.trans he'.lists, fun fd hr ↦ he.reports fd (he'.reports fd hr),
    fun i hi ↦ (he'.others i hi).trans (he.others i hi), he'.conn⟩

theorem conn_some (hc : s.conn id = ⟨some link, flags, h⟩) :
    s.links id = some link ∧ s.fdes.sFlags link.fd = flags ∧ s.history id = h := by
  have hlink : s.links id = some link := congrArg Conn.link hc
  refine ⟨hlink, ?_, congrArg Conn.history hc⟩
  have hflags : s.flagsOf id = flags := congrArg Conn.flags hc
  rwa [flagsOf, hlink] at hflags

theorem conn_eq (hlink : s.links id = some link) :
    s.conn id = ⟨some link, s.fdes.sFlags link.fd, s.history id⟩ := by
  rw [conn, flagsOf, hlink]
  rfl

theorem Wired.store (hw : Wired S s) (hc : s.conn id = ⟨some link, flags, h⟩)
    (hfd : link'.fd = link.fd) (h' : History) :
    Edits S s (s.store id link' h') id ⟨some link', flags, h'⟩ := by
  obtain ⟨hlink, hflags, -⟩ := conn_some hc
  have hself : (s.store id link' h').links id = some link' := Function.update_self ..
  have hother {i : ℕ} (hi : i ≠ id) : (s.store id link' h').links i = s.links i :=
    Function.update_of_ne hi ..
  -- a link before with the same descriptor
  have hold {i : ℕ} {l : Link} (hl : (s.store id link' h').links i = some l) :
      ∃ l₀, s.links i = some l₀ ∧ l.fd = l₀.fd := by
    by_cases hi : i = id
    · subst hi
      obtain rfl : link' = l := Option.some.inj (hself.symm.trans hl)
      exact ⟨link, hlink, hfd⟩
    · exact ⟨l, (hother hi).symm.trans hl, rfl⟩
  have howns {fd ptr : ℕ} (ho : Owns S s fd ptr) : Owns S (s.store id link' h') fd ptr := by
    refine ho.imp_right fun ⟨l, hl, hlfd⟩ ↦ ?_
    by_cases hi : ptr = id
    · subst hi
      obtain rfl : link = l := Option.some.inj (hlink.symm.trans hl)
      exact ⟨link', hself, hfd.trans hlfd⟩
    · exact ⟨l, (hother hi).trans hl, hlfd⟩
  have hsome (i : ℕ) : ((s.store id link' h').links i).isSome = (s.links i).isSome := by
    by_cases hi : i = id
    · rw [hi, hself, hlink]
      rfl
    · rw [hother hi]
  refine ⟨⟨hw.table, hw.mirrors, hw.alive, fun hl ↦ ?_, ?_, fun hl ↦ ?_, fun hl hl' heq ↦ ?_,
    fun fd hfd ↦ howns (hw.owned fd hfd), hw.nodup, hw.made, fun hr ↦ howns (hw.reported hr),
    hw.second, hw.start⟩, ⟨rfl, rfl, rfl, rfl⟩, fun _ hr ↦ hr, fun i hi ↦ ?_, ?_⟩
  · obtain ⟨l₀, hl₀, -⟩ := hold hl
    exact hw.range hl₀
  · simp only [hsome]
    exact hw.count
  · obtain ⟨l₀, hl₀, hsame⟩ := hold hl
    exact hsame ▸ hw.client hl₀
  · obtain ⟨l₀, hl₀, hsame⟩ := hold hl
    obtain ⟨l₁, hl₁, hsame'⟩ := hold hl'
    exact hw.apart hl₀ hl₁ (by rw [← hsame, ← hsame', heq])
  · rw [conn, conn, flagsOf, flagsOf, hother hi]
    exact congrArg (Conn.mk _ _) (Function.update_of_ne hi ..)
  · rw [conn_eq hself, hfd]
    exact congr (congrArg (Conn.mk _) hflags) (Function.update_self ..)

theorem Wired.resubscribe (hw : Wired S s) (hc : s.conn id = ⟨some link, flags, h⟩) {e : Epoll}
    {new : Flags} {ptr : ℕ} (he : Epoll.Changed s.fdes e link.fd new ptr)
    (hptr : ptr = id ∨ ptr = (s.fdes.table.look link.fd).dataPtr)
    (hnew : new ≠ 0 → ptr = id ∨ flags ≠ 0) :
    Edits S s { s with fdes := e } id ⟨some link, new, h⟩ := by
  obtain ⟨hlink, hflags, hhistory⟩ := conn_some hc
  have hsame {fd : ℕ} (hfd : fd ≠ link.fd) : e.sFlags fd = s.fdes.sFlags fd := by
    rw [he.flags, Function.update_of_ne hfd]
  have hevents (fd : ℕ) : (e.table.look fd).events = (s.fdes.table.look fd).events := by
    by_cases hfd : fd = link.fd
    · rw [hfd, he.events]
    · rw [he.others fd hfd]
  have hkept {fd p : ℕ} (hp : s.fdes.table.events[fd]? = some p) :
      e.table.events[fd]? = some p := by
    obtain ⟨hlt, heq⟩ := List.getElem?_eq_some_iff.mp hp
    rw [List.prefix_iff_getElem?.mp he.kept fd hlt, heq]
  have hreports {fd : ℕ} (hr : ({ s with fdes := e } : NetworkServer).Reports fd) :
      s.Reports fd := by
    obtain ⟨p, hp, hentry, hin⟩ := hr
    obtain ⟨fd₀, hfd₀⟩ := hw.made p hp
    -- the object knows its descriptor
    obtain rfl : fd₀ = fd := by rw [← he.wf.own (hkept hfd₀), ← he.wf.own hentry]
    exact ⟨p, hp, hfd₀, hevents fd₀ ▸ hin⟩
  have hown {fd : ℕ} (ho : Owns S s fd (s.fdes.table.look fd).dataPtr) :
      Owns S { s with fdes := e } fd (e.table.look fd).dataPtr := by
    by_cases hfd : fd = link.fd
    · rw [hfd, he.data]
      rcases hptr with rfl | rfl
      · exact .inr ⟨link, hlink, rfl⟩
      · exact hfd ▸ ho
    · rw [he.others fd hfd]
      exact ho
  refine ⟨⟨he.wf, he.mirrors, hw.alive, hw.range, hw.count, hw.client, hw.apart, fun fd hne ↦ ?_,
    hw.nodup, fun p hp ↦ ?_, fun hr ↦ hown (hw.reported (hreports hr)), hw.second, hw.start⟩,
    ⟨rfl, rfl, rfl, rfl⟩, fun _ hr ↦ hreports hr, fun i hi ↦ ?_, ?_⟩
  · by_cases hfd : fd = link.fd
    · subst hfd
      change e.sFlags link.fd ≠ 0 at hne
      rw [he.flags, Function.update_self] at hne
      rcases hnew hne with hid | hold
      · change Owns S { s with fdes := e } link.fd (e.table.look link.fd).dataPtr
        rw [he.data, hid]
        exact .inr ⟨link, hlink, rfl⟩
      · exact hown (hw.owned _ (hflags.symm ▸ hold))
    · exact hown (hw.owned fd (hsame hfd ▸ hne))
  · obtain ⟨fd, hfd⟩ := hw.made p hp
    exact ⟨fd, hkept hfd⟩
  · have hflagsOf : ({ s with fdes := e } : NetworkServer).flagsOf i = s.flagsOf i := by
      rw [flagsOf, flagsOf]
      cases hl : s.links i with
      | none => rfl
      | some l => exact hsame fun heq ↦ hi (hw.apart hl hlink heq)
    rw [conn, conn, hflagsOf]
  · rw [conn_eq (s := { s with fdes := e }) hlink]
    change Conn.mk _ (e.sFlags link.fd) (s.history id) = _
    rw [he.flags, Function.update_self, hhistory]

theorem Wired.watch (hw : Wired S s) (hc : s.conn id = ⟨some link, flags, h⟩) {flag : Flags}
    (hflag : flag.Single) :
    Edits S s (s.watch flag id link) id ⟨some link, flags ||| flag, h⟩ := by
  obtain ⟨hlink, hflags, -⟩ := conn_some hc
  have he := hw.mirrors.set_changed hw.table link.fd hflag 1 id
  rw [hflags] at he
  refine hw.resubscribe hc he ?_ fun _ ↦ ?_
  · split
    · exact .inr rfl
    · exact .inl rfl
  · split
    · next hhas =>
      refine .inr fun hzero ↦ hhas ?_
      rw [hzero]
      simp
    · exact .inl rfl

theorem Wired.unwatch (hw : Wired S s) (hc : s.conn id = ⟨some link, flags, h⟩) (flag : Flags) :
    Edits S s (s.unwatch flag link) id ⟨some link, flags &&& ~~~flag, h⟩ := by
  obtain ⟨hlink, hflags, -⟩ := conn_some hc
  have he := hw.mirrors.clr_changed hw.table link.fd flag
  rw [hflags] at he
  refine hw.resubscribe hc he (.inr rfl) fun hne ↦ .inr fun hzero ↦ hne ?_
  rw [hzero]
  simp

theorem Wired.withdraw (hw : Wired S s) (hc : s.conn id = ⟨some link, flags, h⟩) :
    Edits S s (s.withdraw link) id ⟨some link, 0, h⟩ :=
  hw.resubscribe hc (hw.mirrors.del_changed hw.table link.fd) (.inr rfl) fun hne ↦ absurd rfl hne

/-- A link may go when the events do not report it any more. -/
theorem Wired.deleteLink (hw : Wired S s) (hc : s.conn id = ⟨some link, flags, h⟩)
    (hnot : ¬ s.Reports link.fd) :
    Edits S s (s.deleteLink id link) id ⟨none, 0, h⟩ := by
  have hedit := hw.withdraw hc
  have hquiet : ¬ (s.withdraw link).Reports link.fd := fun hr ↦ hnot (hedit.reports _ hr)
  obtain ⟨hlink, hflags, hhistory⟩ := conn_some hedit.conn
  obtain ⟨hw', hlists, hreports, hothers, -⟩ := hedit
  have hdelete : s.deleteLink id link = { s.withdraw link with
      linkCount := (s.withdraw link).linkCount - 1
      links := Function.update (s.withdraw link).links id none } := rfl
  rw [hdelete]
  generalize s.withdraw link = r at *
  have hself : Function.update r.links id none id = none := Function.update_self ..
  have hother {i : ℕ} (hi : i ≠ id) : Function.update r.links id none i = r.links i :=
    Function.update_of_ne hi ..
  have hold {i : ℕ} {l : Link} (hl : Function.update r.links id none i = some l) :
      i ≠ id ∧ r.links i = some l := by
    by_cases hi : i = id
    · subst hi
      cases hself.symm.trans hl
    · exact ⟨hi, (hother hi).symm.trans hl⟩
  have hown {fd ptr : ℕ} (hfd : fd ≠ link.fd) (ho : Owns S r fd ptr) :
      Owns S { r with linkCount := r.linkCount - 1, links := Function.update r.links id none } fd
        ptr := by
    refine ho.imp_right fun ⟨l, hl, hlfd⟩ ↦ ⟨l, (hother fun heq ↦ hfd ?_).trans hl, hlfd⟩
    subst heq
    obtain rfl : link = l := Option.some.inj (hlink.symm.trans hl)
    exact hlfd.symm
  refine ⟨⟨hw'.table, hw'.mirrors, hw'.alive, fun hl ↦ hw'.range (hold hl).2, ?_,
    fun hl ↦ hw'.client (hold hl).2, fun hl hl' heq ↦ hw'.apart (hold hl).2 (hold hl').2 heq,
    fun fd hne ↦ hown (fun heq ↦ hne (heq ▸ hflags)) (hw'.owned fd hne), hw'.nodup, hw'.made,
    fun {fd} hr ↦ hown (fun heq ↦ hquiet (heq ▸ hr)) (hw'.reported hr), hw'.second, hw'.start⟩,
    ⟨hlists.pc, hlists.first, hlists.second, hlists.pools⟩, hreports, fun i hi ↦ ?_, ?_⟩
  · have herase : (Finset.range r.next).filter
        (fun i ↦ (Function.update r.links id none i).isSome = true) =
        ((Finset.range r.next).filter fun i ↦ (r.links i).isSome = true).erase id := by
      ext i
      rw [Finset.mem_filter, Finset.mem_erase, Finset.mem_filter]
      by_cases hi : i = id
      · simp [hi]
      · simp [hi]
    have hmem : id ∈ (Finset.range r.next).filter fun i ↦ (r.links i).isSome = true := by
      rw [Finset.mem_filter, hlink, Finset.mem_range]
      exact ⟨(hw'.range hlink).2, rfl⟩
    have hpos := Finset.card_pos.mpr ⟨id, hmem⟩
    simp only
    rw [herase, Finset.card_erase_of_mem hmem, hw'.count]
    omega
  · rw [← hothers i hi, conn, conn, flagsOf, flagsOf]
    simp only
    rw [hother hi]
  · rw [conn, flagsOf]
    simp only
    rw [hself, hhistory]
    rfl

end NetworkServer

end GeminiDB
