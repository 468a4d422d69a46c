import GeminiDB.Net.Moves

/-!
# Runs of the server

The steps that move no link from list to list, and the induction over a run: in
every state reached each link has one holder, and what the moves of a link keep
is kept.
-/

namespace GeminiDB

namespace NetworkServer

variable {S : Setup} {s s' : NetworkServer} {id : ℕ} {link : Link}

/-! ## The other steps -/

theorem wait_steps (hs : Custody S s) (hpc : s.pc = .top) {reports : List (ℕ × Flags)}
    (hreported : s.Reported reports) {a : Action} :
    Steps S a s
      { s with fdes := (s.fdes.wait reports).2, pc := .events (s.fdes.wait reports).1 } := by
  have hw := hs.wired
  have hwait := hw.mirrors.waited hw.table hreported.1 hreported.2
  generalize s.fdes.wait reports = r at hwait ⊢
  have hconn (i : ℕ) : ({ s with fdes := r.2, pc := .events r.1 } : NetworkServer).conn i =
      s.conn i := by
    rw [conn, conn, flagsOf, flagsOf]
    dsimp only
    rw [hwait.flags]
  have hown {fd : ℕ} (ho : Owns S s fd (s.fdes.table.look fd).dataPtr) :
      Owns S { s with fdes := r.2, pc := .events r.1 } fd (r.2.table.look fd).dataPtr := by
    rw [hwait.data]
    exact ho
  -- what is reported was subscribed to
  have hasked {fd : ℕ}
      (hr : ({ s with fdes := r.2, pc := .events r.1 } : NetworkServer).Reports fd) :
      s.fdes.sFlags fd &&& fdeventIn ≠ 0 := by
    obtain ⟨p, hp, hfd, hin⟩ := hr
    exact hwait.asked p hp fd hfd hin
  have hsub {fd : ℕ} (hin : s.fdes.sFlags fd &&& fdeventIn ≠ 0) : s.fdes.sFlags fd ≠ 0 := by
    intro hzero
    rw [hzero] at hin
    simp at hin
  have hempty := hw.second (.inl hpc)
  refine ⟨⟨⟨hwait.wf, hwait.mirrors, by simp, hw.range, hw.count, hw.client, hw.apart,
    fun fd hne ↦ hown (hw.owned fd ?_), hwait.nodup, hwait.made,
    fun hr ↦ hown (hw.owned _ (hsub (hasked hr))), fun _ ↦ hempty, hw.start⟩, fun i ↦ ?_⟩,
    fun i ↦ .inl (hconn i)⟩
  · change r.2.sFlags fd ≠ 0 at hne
    rwa [hwait.flags] at hne
  · have hflags : ({ s with fdes := r.2, pc := .events r.1 } : NetworkServer).flagsOf i =
        s.flagsOf i := congrArg Conn.flags (hconn i)
    have hlisted : ({ s with fdes := r.2, pc := .events r.1 } : NetworkServer).listed =
        s.listed := by
      simp only [listed, todo, hpc]
    have hnot : ({ s with fdes := r.2, pc := .events r.1 } : NetworkServer).withdrawing ≠
        some i := by simp [withdrawing]
    have hwithdrawing : s.withdrawing ≠ some i := by simp [withdrawing, hpc]
    have hunasked {link : Link} (hlink : s.links i = some link)
        (hin : s.flagsOf i &&& fdeventIn = 0) :
        ¬ ({ s with fdes := r.2, pc := .events r.1 } : NetworkServer).Reports link.fd := by
      intro hr
      rw [flagsOf, hlink] at hin
      exact hasked hr hin
    cases hs.held i with
    | gone hlink hcount hjobs hresults _ =>
        exact .gone hlink (hlisted ▸ hcount) hjobs hresults hnot
    | idle hlink hplace hin hcount hjobs hresults _ =>
        exact .idle hlink hplace (hflags ▸ hin) (hlisted ▸ hcount) hjobs hresults hnot
    | ready hlink hplace hin hcount hjobs hresults _ _ =>
        have hquiet : i ∈ s.quiet := by
          have hmem := List.count_pos_iff.mp (by rw [hcount]; exact Nat.one_pos)
          rw [listed, todo, hpc, hempty, List.append_nil] at hmem
          rwa [quiet, hpc]
        exact .ready hlink hplace (fun _ ↦ hflags ▸ hin hquiet) (hlisted ▸ hcount) hjobs hresults
          hnot (hunasked hlink (hin hquiet))
    | waiting hlink hplace hzero hcount hjobs hresults _ hjob =>
        exact .waiting hlink hplace (fun _ ↦ hflags ▸ hzero hwithdrawing) (hlisted ▸ hcount) hjobs
          hresults (hunasked hlink (by rw [hzero hwithdrawing]; simp)) hjob
    | finished hlink hplace hzero hcount hjobs hresults _ hjob =>
        exact .finished hlink hplace (fun _ ↦ hflags ▸ hzero hwithdrawing) (hlisted ▸ hcount) hjobs
          hresults (hunasked hlink (by rw [hzero hwithdrawing]; simp)) hjob

theorem withdraw_steps (hs : Custody S s) {rest : List ℕ} (hpc : s.pc = .withdraw id rest) :
    ∃ link, s.links id = some link ∧
      Steps S .withdraw s { s.withdraw link with pc := .ready rest } := by
  have hthis : s.withdrawing = some id := by rw [withdrawing, hpc]
  have hlive : ∃ link, s.links id = some link ∧
      ((s.history id).place = .waiting ∨ (s.history id).place = .finished) := by
    cases hs.held id with
    | gone _ _ _ _ hnot => exact absurd hthis hnot
    | idle _ _ _ _ _ _ hnot => exact absurd hthis hnot
    | ready _ _ _ _ _ _ hnot _ => exact absurd hthis hnot
    | waiting hlink hplace => exact ⟨_, hlink, .inl hplace⟩
    | finished hlink hplace => exact ⟨_, hlink, .inr hplace⟩
  obtain ⟨link, hlink, hplace⟩ := hlive
  have hc : s.conn id = _ := conn_eq hlink
  have hedit := hs.wired.withdraw hc
  have hgo := hedit.wired.goto (show Pc.ready rest ≠ .crashed by simp)
    (List.nil_sublist _) (by simp)
  have hpc' : (s.withdraw link).pc = .withdraw id rest := hpc
  refine ⟨link, hlink, ⟨hgo.1, fun i ↦ ?_⟩, fun i ↦ ?_⟩
  · have hkeeps (hi : i ≠ id) : Keeps s { s.withdraw link with pc := .ready rest } i := by
      refine (hedit.lists.keeps i).trans ⟨?_, fun hmem ↦ ?_, .rfl, .rfl, ?_⟩
      · simp only [listed, todo, hpc']
      · simpa only [quiet, hpc'] using hmem
      · simp [withdrawing, hpc', Ne.symm hi]
    have hreports (fd : ℕ) : ¬ ({ s.withdraw link with pc := .ready rest } :
        NetworkServer).Reports fd := no_reports rfl fd
    by_cases hi : i = id
    · subst hi
      have hlink' : (s.withdraw link).links i = some link := hlink
      have hzero : (s.withdraw link).flagsOf i = 0 := congrArg Conn.flags hedit.conn
      have hlisted : ({ s.withdraw link with pc := .ready rest } : NetworkServer).listed =
          s.listed := by
        simp only [listed, todo, hpc]
        rfl
      cases hs.held i with
      | gone _ _ _ _ hnot => exact absurd hthis hnot
      | idle _ _ _ _ _ _ hnot => exact absurd hthis hnot
      | ready _ _ _ _ _ _ hnot _ => exact absurd hthis hnot
      | waiting hl hp _ hcount hjobs hresults _ hjob =>
          exact .waiting hl hp (fun _ ↦ hzero) (hlisted ▸ hcount) hjobs hresults (hreports _) hjob
      | finished hl hp _ hcount hjobs hresults _ hjob =>
          exact .finished hl hp (fun _ ↦ hzero) (hlisted ▸ hcount) hjobs hresults (hreports _) hjob
    · exact (hs.held i).frame (hedit.others i hi) (hkeeps hi)
        fun fd hr ↦ absurd hr (hreports fd)
  · by_cases hi : i = id
    · subst hi
      refine .inr ?_
      have hconn : ({ s.withdraw link with pc := .ready rest } : NetworkServer).conn i =
          ⟨some link, 0, s.history i⟩ := hedit.conn
      rw [hconn, hc]
      exact ⟨hthis, .withdraw hplace⟩
    · exact .inl (hedit.others i hi)

theorem take_steps (hs : Custody S s) {p : PoolId} (htake : s.take S p = some s') {a : Action} :
    Steps S a s s' := by
  rw [take] at htake
  split at htake
  · cases htake
  · next job jobs hfirst =>
    split at htake
    · cases htake
      have hw := hs.wired.withPools (Function.update s.pools p
        { s.pools p with jobs := jobs, running := (s.pools p).running ++ [job] })
      generalize hr : ({ s with
          pools := Function.update s.pools p
            { s.pools p with jobs := jobs, running := (s.pools p).running ++ [job] } } :
          NetworkServer) = r at hw ⊢
      have hunfinished : r.unfinished.Perm ([] ++ s.unfinished) := by
        rw [← hr]
        refine unfinished_perm (fun q hq ↦ Function.update_of_ne hq ..) ?_
        simp only [Function.update_self, hfirst, List.nil_append]
        rw [← List.append_assoc]
        exact List.perm_append_singleton ..
      have hresults : r.results = s.results := by
        rw [← hr]
        exact results_update rfl
      refine hw.steps hs.held ?_ ?_ fun i ↦
        ⟨?_, ?_, hunfinished.filter _, by rw [resultsOf, resultsOf, hresults], ?_⟩
      all_goals subst hr
      · exact fun _ hr ↦ hr
      · exact fun _ ↦ rfl
      · rfl
      · exact fun hmem ↦ hmem
      · exact .rfl
    · cases htake

theorem request_send (allocs : ℕ → Int → Bool) (resp : List Bytes) (link : Link) :
    (link.send allocs resp).2.request = link.request := by
  rw [Link.send]
  split <;> rfl

theorem request_write (writes : List WriteResult) (link : Link) :
    (link.write writes).2.request = link.request := rfl

theorem finished_spec (hs : Custody S s) {p : PoolId} {k : ℕ} {job done : ProcJob}
    (hjob : (s.pools p).running[k]? = some job)
    (hdone : done.link = job.link ∧ done.calls = job.calls ∧ done.request = job.request)
    (hlink : s.links job.link = some link) {link' : Link} (hfd : link'.fd = link.fd)
    (hkept : link'.request = link.request) {h' : History} (hplace : h'.place = .finished)
    (hsame : h'.calls = (s.history job.link).calls) :
    Served S s { s.store job.link link' h' with
      pools := Function.update s.pools p
        { s.pools p with
          running := (s.pools p).running.eraseIdx k
          results := (s.pools p).results ++ [done] } } job.link
      ⟨some link', s.fdes.sFlags link.fd, h'⟩ := by
  obtain ⟨hid, hcalls, hrequest⟩ := hdone
  have hc : s.conn job.link = _ := conn_eq hlink
  have hedit := hs.wired.store hc hfd h'
  generalize hr : ({ s.store job.link link' h' with
      pools := Function.update s.pools p
        { s.pools p with
          running := (s.pools p).running.eraseIdx k
          results := (s.pools p).results ++ [done] } } : NetworkServer) = r
  have hunfinished : s.unfinished.Perm ([job] ++ r.unfinished) := by
    rw [← hr]
    refine unfinished_perm (fun q hq ↦ (Function.update_of_ne hq ..).symm) ?_
    obtain ⟨hlt, heq⟩ := List.getElem?_eq_some_iff.mp hjob
    have herase := (List.getElem_cons_eraseIdx_perm hlt).symm
    rw [heq] at herase
    simp only [Function.update_self]
    exact (herase.append_left _).trans (List.perm_append_comm_assoc _ [job] _)
  have hresults : r.results.Perm ([done] ++ s.results) := by
    rw [← hr]
    refine results_perm (fun q hq ↦ Function.update_of_ne hq ..) ?_
    simp only [Function.update_self]
    exact List.perm_append_comm
  have hmine := filter_perm_self hunfinished
  have hothers (i : ℕ) (hi : i ≠ job.link) : r.conn i = s.conn i := by
    rw [← hr]
    exact hedit.others i hi
  have hconn : r.conn job.link = ⟨some link', s.fdes.sFlags link.fd, h'⟩ := by
    rw [← hr]
    exact hedit.conn
  have hlists : r.pc = s.pc ∧ r.listed = s.listed ∧ r.quiet = s.quiet ∧
      r.withdrawing = s.withdrawing := by
    rw [← hr]
    exact ⟨rfl, rfl, rfl, rfl⟩
  obtain ⟨hpc, hlisted, hquiet, hwithdrawing⟩ := hlists
  have hreports (fd : ℕ) (hrep : r.Reports fd) : s.Reports fd := by
    rw [← hr] at hrep
    exact hrep
  have hw : Wired S r := by
    rw [← hr]
    exact hedit.wired.withPools _
  refine ⟨hw, ?_, hreports, hothers, fun i hi ↦ ⟨by rw [hlisted], fun hmem ↦ hquiet ▸ hmem,
    (filter_perm_of_ne hunfinished hi).symm, filter_perm_of_ne hresults (hid ▸ hi),
    by rw [hwithdrawing]⟩, hconn⟩
  obtain ⟨l, hl, -, hflags, hcount, hjobs, hnone, hnot, hcurrent⟩ :=
    (hs.held job.link).unfinished (hmine.mem_iff.mpr List.mem_cons_self)
  obtain rfl : link = l := Option.some.inj (hlink.symm.trans hl)
  have hhistory : r.history job.link = h' := congrArg Conn.history hconn
  have hrest : r.unfinishedOf job.link = [] := by
    have hlength := hmine.length_eq
    change (s.unfinishedOf job.link).length = _ at hlength
    rw [hjobs, List.length_singleton, List.length_cons] at hlength
    exact List.length_eq_zero_iff.mp (by rw [unfinishedOf]; omega)
  have hqueued : r.resultsOf job.link = [done] := by
    have hperm := filter_perm_self hresults
    rw [hid] at hperm
    exact List.perm_singleton.mp (hperm.trans (.of_eq (congrArg _ hnone)))
  refine .finished (congrArg Conn.link hconn) (hhistory ▸ hplace) (fun hnot' ↦ ?_)
    (hlisted ▸ hcount) hrest hqueued (fun hrep ↦ hnot (hfd ▸ hreports _ hrep))
    ⟨by rw [hhistory, hcalls, hsame, hcurrent.calls],
      by rw [hrequest, hkept, hcurrent.request]⟩
  have hold := hflags (hwithdrawing ▸ hnot')
  rw [flagsOf, hlink] at hold
  exact (congrArg Conn.flags hconn).trans hold

theorem work_steps (hs : Custody S s) {p : PoolId} {k : ℕ} {o : World}
    (hwork : s.work p k o = some s') : Steps S (.work p k o) s s' := by
  rw [work] at hwork
  split at hwork
  · cases hwork
  · next job hjob =>
    obtain ⟨link, hlink, hplace, -⟩ :=
      hs.unfinished (mem_unfinished (.inr (List.mem_of_getElem? hjob)))
    rw [hlink] at hwork
    cases hwork
    refine (finished_spec hs hjob ?_ hlink ?_ ?_ ?_ ?_).steps hs.held ?_ ?_
    · exact ⟨rfl, rfl, rfl⟩
    · split
      · rw [fd_write, fd_send]
      · rw [fd_send]
    · split
      · rw [request_write, request_send]
      · rw [request_send]
    · rfl
    · rfl
    · rw [acting, hjob]
      rfl
    · rw [conn_eq hlink]
      refine .work hplace rfl ?_
      by_cases hwrite : (link.send o.appends o.resp).1 ≠ -1 ∧
          (job.cmd.map Command.flags).getD 0 &&& Command.flagRead ≠ 0
      · rw [if_pos hwrite, if_pos hwrite]
        exact .inr ⟨rfl, rfl⟩
      · rw [if_neg hwrite, if_neg hwrite]
        exact .inl ⟨rfl, rfl⟩

/-- A worker takes the first job of its pool. -/
theorem step_take {p : PoolId} (h : s.step S (.take p) = some s') :
    ∃ job jobs, (s.pools p).jobs = job :: jobs ∧ (s.pools p).running.length < S.workers p ∧
      s' = { s with
        pools := Function.update s.pools p
          { s.pools p with jobs := jobs, running := (s.pools p).running ++ [job] } } := by
  simp only [step] at h
  split at h
  · cases h
  · rw [take] at h
    split at h
    · cases h
    · next job jobs hjobs =>
      split at h
      · next hroom => exact ⟨job, jobs, hjobs, hroom, (Option.some.inj h).symm⟩
      · cases h

/-- The handlers that run in this step return one of the two results. -/
def Action.Registered : Action → Prop
  | .event o => o.Registered
  | .ready o => o.Registered
  | .work _ _ o => o.Registered
  | _ => True

instance : DecidablePred Action.Registered
  | .event o => inferInstanceAs (Decidable o.Registered)
  | .ready o => inferInstanceAs (Decidable o.Registered)
  | .work _ _ o => inferInstanceAs (Decidable o.Registered)
  | .wait _ => inferInstanceAs (Decidable True)
  | .withdraw => inferInstanceAs (Decidable True)
  | .take _ => inferInstanceAs (Decidable True)

theorem Custody.step (hs : Custody S s) {a : Action} (ha : a.Registered)
    (hstep : NetworkServer.step S s a = some s') : Steps S a s s' := by
  cases a with
  | wait reports =>
      simp only [NetworkServer.step] at hstep
      split at hstep
      · next hgo =>
        cases hstep
        exact wait_steps hs hgo.1 hgo.2
      · cases hstep
  | event o =>
      simp only [NetworkServer.step] at hstep
      split at hstep
      · next hpc =>
        cases hstep
        have hgo := hs.wired.goto (show Pc.ready s.readyList ≠ .crashed by simp)
          (List.nil_sublist _) (by simp)
        exact hgo.1.steps hs.held hgo.2 (fun _ ↦ rfl) fun i ↦
          ⟨by simp only [listed, todo, hpc], fun hmem ↦ by simpa only [quiet, hpc] using hmem, .rfl,
            .rfl, by simp only [withdrawing, hpc]⟩
      · next p batch hpc =>
        split at hstep
        · next hsock => exact event_steps hs hpc hsock hstep
        · cases hstep
      · cases hstep
  | ready o =>
      simp only [NetworkServer.step] at hstep
      split at hstep
      · next hpc =>
        cases hstep
        have hw := hs.wired
        have hnot (fd : ℕ) : ¬ ({ s with
            readyList := s.readyList2, readyList2 := [], pc := .top } : NetworkServer).Reports
            fd := by
          rintro ⟨p, hp, -⟩
          cases hp
        have hw' : Wired S { s with readyList := s.readyList2, readyList2 := [], pc := .top } :=
          ⟨hw.table, hw.mirrors, by simp, hw.range, hw.count, hw.client, hw.apart, hw.owned,
            List.nodup_nil, fun p hp ↦ (by cases hp), fun hr ↦ absurd hr (hnot _), fun _ ↦ rfl,
            hw.start⟩
        exact hw'.steps hs.held (fun fd hr ↦ absurd hr (hnot fd)) (fun _ ↦ rfl) fun i ↦
          ⟨by simp [listed, todo, hpc], fun hmem ↦ by simpa only [quiet, hpc] using hmem, .rfl,
            .rfl, by simp only [withdrawing, hpc]⟩
      · next id rest hpc =>
        cases hstep
        obtain ⟨c, hserved, hmove⟩ := readyLink_spec hs hpc ha
        exact hserved.steps hs.held (by rw [acting, hpc]) hmove
      · cases hstep
  | withdraw =>
      simp only [NetworkServer.step] at hstep
      split at hstep
      · next id rest hpc =>
        obtain ⟨link, hlink, hsteps⟩ := withdraw_steps hs hpc
        rw [hlink] at hstep
        cases hstep
        exact hsteps
      · cases hstep
  | take p =>
      simp only [NetworkServer.step, if_neg hs.wired.alive] at hstep
      exact take_steps hs hstep
  | work p k o =>
      simp only [NetworkServer.step, if_neg hs.wired.alive] at hstep
      exact work_steps hs hstep

/-! ## Runs -/

theorem custody_init (S : Setup) : Custody S (init S) := by
  have hdistinct := S.distinct
  simp only [List.nodup_cons, List.mem_cons, List.not_mem_nil, or_false, not_or] at hdistinct
  obtain ⟨⟨hsr, hsw⟩, hrw, -⟩ := hdistinct
  -- a descriptor that has no flags yet gets the data of the call
  have hset {e : Epoll} (hmirrors : e.Mirrors) (hwf : e.table.Wf) (fd ptr : ℕ)
      (hnone : e.sFlags fd = 0) :
      Epoll.Changed e (Epoll.set true fd fdeventIn 0 ptr e).next fd fdeventIn ptr := by
    have hchanged := hmirrors.set_changed hwf fd Flags.single_in 0 ptr
    rw [hnone] at hchanged
    simpa using hchanged
  have hserv := hset Epoll.mirrors_init FdeTable.wf_init S.servFd servPtr rfl
  have hreader := hset hserv.mirrors hserv.wf S.readerFd readerPtr
    (by rw [hserv.flags, Function.update_of_ne (Ne.symm hsr)]; rfl)
  have hwriter := hset hreader.mirrors hreader.wf S.writerFd writerPtr
    (by rw [hreader.flags, Function.update_of_ne (Ne.symm hrw), hserv.flags,
      Function.update_of_ne (Ne.symm hsw)]; rfl)
  have hbatch (fd : ℕ) : ¬ (init S).Reports fd := by
    rintro ⟨p, hp, -⟩
    cases hp
  refine ⟨⟨hwriter.wf, hwriter.mirrors, by simp [init], fun hl ↦ (by cases hl), by simp [init],
    fun hl ↦ (by cases hl), fun hl ↦ (by cases hl), fun fd hne ↦ .inl ?_, List.nodup_nil,
    fun p hp ↦ (by cases hp), fun hr ↦ absurd hr (hbatch _), fun _ ↦ rfl, le_rfl⟩, fun id ↦
    .gone rfl rfl rfl rfl (by simp [withdrawing, init])⟩
  change (init S).fdes.sFlags fd ≠ 0 at hne
  simp only [List.mem_cons, Prod.mk.injEq, List.not_mem_nil, or_false]
  rw [init] at hne ⊢
  dsimp only at hne ⊢
  by_cases hw : fd = S.writerFd
  · exact .inr (.inr ⟨hw, hw ▸ hwriter.data⟩)
  · rw [hwriter.others fd hw]
    rw [hwriter.flags, Function.update_of_ne hw] at hne
    by_cases hr : fd = S.readerFd
    · exact .inr (.inl ⟨hr, hr ▸ hreader.data⟩)
    · rw [hreader.others fd hr]
      rw [hreader.flags, Function.update_of_ne hr] at hne
      by_cases hs : fd = S.servFd
      · exact .inl ⟨hs, hs ▸ hserv.data⟩
      · rw [hserv.flags, Function.update_of_ne hs] at hne
        exact absurd rfl hne

/-- The states that the server reaches when its handlers return `PROC_OK` or `PROC_ERROR`. -/
def Reached (S : Setup) (s : NetworkServer) : Prop :=
  Machine.ReachableVia (step S) (fun _ a ↦ a.Registered) (init S) s

theorem Reached.custody (hs : Reached S s) : Custody S s :=
  hs.invariant (custody_init S) fun _ _ _ hs ha hstep ↦ (hs.step ha hstep).1

/-- What holds of every link that is not there yet and is kept by the moves of allowed
actions holds of every link. -/
theorem conn_invariant {allowed : NetworkServer → Action → Prop} {P : Conn → Prop}
    (hregistered : ∀ s a, allowed s a → a.Registered) (hnone : P ⟨none, 0, History.init⟩)
    (hmove : ∀ s a id c, Custody S s → allowed s a → s.acting a = some id → P (s.conn id) →
      Move S a (s.conn id) c → P c)
    (hs : Machine.ReachableVia (step S) allowed (init S) s) (id : ℕ) : P (s.conn id) := by
  have hboth : Custody S s ∧ ∀ id, P (s.conn id) := by
    refine hs.invariant (P := fun s ↦ Custody S s ∧ ∀ id, P (s.conn id))
      ⟨custody_init S, fun _ ↦ hnone⟩ fun s a t hP hallowed hstep ↦ ?_
    obtain ⟨hcustody, hconn⟩ := hP.1.step (hregistered s a hallowed) hstep
    refine ⟨hcustody, fun id ↦ ?_⟩
    rcases hconn id with hsame | ⟨hact, hmoved⟩
    · exact hsame ▸ hP.2 id
    · exact hmove s a id _ hP.1 hallowed hact (hP.2 id) hmoved
  exact hboth.2 id

/-- A server with three commands and one worker in each pool. -/
def smallSetup : Setup where
  procMap := fun name ↦
    if name = ascii "get" then some ⟨Command.flagRead ||| Command.flagThread⟩
    else if name = ascii "set" then some ⟨Command.flagWrite ||| Command.flagThread⟩
    else if name = ascii "ping" then some ⟨Command.flagRead⟩
    else none
  servFd := 3
  readerFd := 4
  writerFd := 5
  workers := fun _ ↦ 1
  distinct := by decide

/-- Memory is there, handlers answer `ok`, and sockets neither give nor take a byte. -/
def quietWorld : World := ⟨none, fun _ ↦ true, fun _ _ ↦ true, [], [], procOk, [ascii "ok"]⟩

end NetworkServer

end GeminiDB
