import GeminiDB.Net.Runs

/-!
# The pipes of the pools

The listening socket and the pipes of the two pools stay registered for reading, with
their data, whatever becomes of the clients. So an object that the loop finds in a batch
belongs to a pool for good or never.
-/

namespace GeminiDB

/-- The descriptor that announces the results of the pool. -/
def PoolId.fd (S : Setup) : PoolId → ℕ
  | .reader => S.readerFd
  | .writer => S.writerFd

def PoolId.ptr : PoolId → ℕ
  | .reader => readerPtr
  | .writer => writerPtr

namespace NetworkServer

/-- The descriptors of the server itself, with their data. -/
def own (S : Setup) : List (ℕ × ℕ) :=
  [(S.servFd, servPtr), (S.readerFd, readerPtr), (S.writerFd, writerPtr)]

theorem own_ptr {S : Setup} {fd fd' ptr : ℕ} (h : (fd, ptr) ∈ own S) (h' : (fd', ptr) ∈ own S) :
    fd = fd' := by
  simp only [own, List.mem_cons, Prod.mk.injEq, List.not_mem_nil, or_false, servPtr, readerPtr,
    writerPtr] at h h'
  omega

theorem own_fd {S : Setup} {fd ptr ptr' : ℕ} (h : (fd, ptr) ∈ own S) (h' : (fd, ptr') ∈ own S) :
    ptr = ptr' := by
  have hdistinct := S.distinct
  simp only [List.nodup_cons, List.mem_cons, List.not_mem_nil, or_false, not_or] at hdistinct
  simp only [own, List.mem_cons, Prod.mk.injEq, List.not_mem_nil, or_false] at h h'
  omega

theorem own_lt {S : Setup} {fd ptr : ℕ} (h : (fd, ptr) ∈ own S) : 0 < ptr ∧ ptr < 4 := by
  simp only [own, List.mem_cons, Prod.mk.injEq, List.not_mem_nil, or_false, servPtr, readerPtr,
    writerPtr] at h
  omega

theorem pool_own (S : Setup) (p : PoolId) : (p.fd S, p.ptr) ∈ own S := by
  cases p <;> simp [own, PoolId.fd, PoolId.ptr]

/-- The descriptors of the server are registered for reading, and only they have its data. -/
structure Posted (S : Setup) (t : FdeTable) : Prop where
  wf : t.Wf
  own : ∀ {fd ptr}, (fd, ptr) ∈ own S → t.sFlags fd = fdeventIn ∧ (t.look fd).dataPtr = ptr
  client : ∀ {fd}, fd ∉ (NetworkServer.own S).map Prod.fst →
    (t.look fd).dataPtr = 0 ∨ 4 ≤ (t.look fd).dataPtr

/-- What is kept of the events table. -/
def Posts (S : Setup) (e e' : Epoll) : Prop :=
  Posted S e.table → Posted S e'.table ∧ e.table.events <+: e'.table.events

variable {S : Setup} {e e' e'' : Epoll} {fd : ℕ}

theorem Posts.refl (e : Epoll) : Posts S e e := fun h ↦ ⟨h, List.prefix_rfl⟩

theorem Posts.trans (h : Posts S e e') (h' : Posts S e' e'') : Posts S e e'' := by
  intro hposted
  obtain ⟨hposted', hkept⟩ := h hposted
  obtain ⟨hposted'', hkept'⟩ := h' hposted'
  exact ⟨hposted'', hkept.trans hkept'⟩

/-- A new object of a client is nothing to the server's own descriptors. -/
theorem posts_update (hfd : fd ∉ (own S).map Prod.fst) {new : Fdevent} (hwf : e'.table.Wf)
    (hkept : e.table.events <+: e'.table.events)
    (hlook : e'.table.look = Function.update e.table.look fd new)
    (hptr : new.dataPtr = (e.table.look fd).dataPtr ∨ 4 ≤ new.dataPtr) : Posts S e e' := by
  intro h
  refine ⟨⟨hwf, fun {i ptr} hown ↦ ?_, fun {i} hi ↦ ?_⟩, hkept⟩
  · have hne : i ≠ fd := by
      rintro rfl
      exact hfd (List.mem_map_of_mem hown)
    rw [FdeTable.sFlags, hlook, Function.update_of_ne hne]
    exact h.own hown
  · rw [hlook]
    by_cases heq : i = fd
    · subst heq
      rw [Function.update_self]
      rcases hptr with hsame | hlarge
      · rw [hsame]
        exact h.client hi
      · exact .inr hlarge
    · rw [Function.update_of_ne heq]
      exact h.client hi

theorem posts_quiet {r : Epoll.Called} (hr : e.table.Wf → Epoll.Quiet e r) : Posts S e r.next := by
  intro h
  have hquiet := hr h.wf
  refine ⟨⟨hquiet.wf, fun hown ↦ ?_, fun hi ↦ ?_⟩, hquiet.kept⟩
  · rw [FdeTable.sFlags, hquiet.look]
    exact h.own hown
  · rw [hquiet.look]
    exact h.client hi

theorem posts_set (hfd : fd ∉ (own S).map Prod.fst) (flags : Flags) (num : Int) {ptr : ℕ}
    (hptr : 4 ≤ ptr) (e : Epoll) : Posts S e (Epoll.set true fd flags num ptr e).next := by
  intro h
  have hspec := Epoll.set_spec h.wf true fd flags num ptr
  split at hspec
  · exact posts_quiet (fun _ ↦ hspec) h
  · exact posts_update hfd hspec.wf hspec.kept hspec.look (.inr hptr) h

theorem posts_clr (hfd : fd ∉ (own S).map Prod.fst) (flags : Flags) (e : Epoll) :
    Posts S e (Epoll.clr true fd flags e).next := by
  intro h
  have hspec := Epoll.clr_spec h.wf true fd flags
  split at hspec
  · exact posts_quiet (fun _ ↦ hspec) h
  · exact posts_update hfd hspec.wf hspec.kept hspec.look (.inl rfl) h

theorem posts_del (hfd : fd ∉ (own S).map Prod.fst) (e : Epoll) :
    Posts S e (Epoll.del true fd e).next := by
  intro h
  have hspec := Epoll.del_spec h.wf true fd
  split at hspec
  · obtain ⟨hwf, hlook, hkept, -⟩ := hspec
    exact posts_update hfd hwf hkept hlook (.inl rfl) h
  · rw [hspec.2]
    exact ⟨h, List.prefix_rfl⟩

/-- An object that is in the table has data of the server just when it is the server's. -/
theorem Posted.ptr_iff {t : FdeTable} (h : Posted S t) {p ptr : ℕ} (hp : t.events[fd]? = some p)
    {own : ℕ} (hown : (own, ptr) ∈ NetworkServer.own S) : (t.heap p).dataPtr = ptr ↔ fd = own := by
  rw [← FdeTable.look_eq hp]
  constructor
  · intro hptr
    by_cases hmem : fd ∈ (NetworkServer.own S).map Prod.fst
    · obtain ⟨⟨fd', ptr'⟩, hmine, rfl⟩ := List.mem_map.mp hmem
      obtain rfl := (h.own hmine).2.symm.trans hptr
      exact own_ptr hmine hown
    · have := own_lt hown
      have := h.client hmem
      omega
  · rintro rfl
    exact (h.own hown).2

/-- The data of the server stay with their objects. -/
theorem Posts.ptr_iff (h : Posts S e e') (hposted : Posted S e.table) {p ptr own : ℕ}
    (hown : (own, ptr) ∈ NetworkServer.own S) (hp : ∃ fd : ℕ, e.table.events[fd]? = some p) :
    (e'.table.heap p).dataPtr = ptr ↔ (e.table.heap p).dataPtr = ptr := by
  obtain ⟨fd, hfd⟩ := hp
  obtain ⟨hposted', hkept⟩ := h hposted
  exact (hposted'.ptr_iff (Epoll.getElem?_of_prefix hkept hfd) hown).trans
    (hposted.ptr_iff hfd hown).symm

/-! ## Waiting -/

theorem waitLoop_fst (epes : List EpollEvent) (t : FdeTable) :
    (Epoll.waitLoop epes t).1 = epes.map EpollEvent.ptr ∧
      (Epoll.waitLoop epes t).2.events = t.events := by
  induction epes generalizing t with
  | nil => exact ⟨rfl, rfl⟩
  | cons epe epes ih =>
      obtain ⟨hptrs, hevents⟩ := ih (t.write epe.ptr
        { t.heap epe.ptr with events := readyEvents epe.events })
      rw [Epoll.waitLoop]
      exact ⟨congrArg (epe.ptr :: ·) hptrs, hevents⟩

/-- `wait` returns an object for each report, that of its descriptor. -/
theorem wait_batch (hm : e.Mirrors) {reports : List (ℕ × Flags)}
    (hreported : ∀ r ∈ reports, ∃ epe ∈ e.interest r.1,
      r.2 &&& ~~~(epe.events ||| epollErr ||| epollHup) = 0) :
    (e.wait reports).1.length = reports.length ∧
      ∀ p ∈ (e.wait reports).1, ∃ r ∈ reports, (e.wait reports).2.table.events[r.1]? = some p := by
  rw [Epoll.wait]
  dsimp only
  obtain ⟨hptrs, hevents⟩ := waitLoop_fst (reports.filterMap fun r ↦
    (e.interest r.1).map fun epe ↦ { epe with events := r.2 }) e.table
  rw [hptrs, hevents]
  constructor
  · rw [List.length_map, List.length_filterMap_eq_countP, List.countP_eq_length]
    intro r hr
    obtain ⟨epe, hepe, -⟩ := hreported r hr
    rw [Option.mem_def.mp hepe]
    rfl
  · intro p hp
    obtain ⟨epe', hepe', rfl⟩ := List.mem_map.mp hp
    obtain ⟨r, hr, hmap⟩ := List.mem_filterMap.mp hepe'
    obtain ⟨epe, hepe, rfl⟩ := Option.map_eq_some_iff.mp hmap
    exact ⟨r, hr, (hm.own _ _ hepe).1⟩

theorem posts_wait (hm : e.Mirrors) {reports : List (ℕ × Flags)}
    (hnodup : (reports.map Prod.fst).Nodup)
    (hreported : ∀ r ∈ reports, ∃ epe ∈ e.interest r.1,
      r.2 &&& ~~~(epe.events ||| epollErr ||| epollHup) = 0) : Posts S e (e.wait reports).2 := by
  intro h
  have hwaited := hm.waited h.wf hnodup hreported
  refine ⟨⟨hwaited.wf, fun hown ↦ ?_, fun hi ↦ ?_⟩, ?_⟩
  · rw [hwaited.data]
    exact ⟨(congrFun hwaited.flags _).trans (h.own hown).1, (h.own hown).2⟩
  · rw [hwaited.data]
    exact h.client hi
  · rw [Epoll.wait]
    exact (waitLoop_fst ..).2 ▸ List.prefix_rfl

theorem posted_init (S : Setup) : Posted S (init S).fdes.table := by
  have hdistinct := S.distinct
  simp only [List.nodup_cons, List.mem_cons, List.not_mem_nil, or_false, not_or] at hdistinct
  obtain ⟨⟨hsr, hsw⟩, hrw, -⟩ := hdistinct
  have hset {e : Epoll} (hmirrors : e.Mirrors) (hwf : e.table.Wf) (fd ptr : ℕ)
      (hnone : e.sFlags fd = 0) :
      Epoll.Changed e (Epoll.set true fd fdeventIn 0 ptr e).next fd fdeventIn ptr := by
    have hchanged := hmirrors.set_changed hwf fd Flags.single_in 0 ptr
    rw [hnone] at hchanged
    simpa using hchanged
  have hserv := hset Epoll.mirrors_init FdeTable.wf_init S.servFd servPtr rfl
  have hreader := hset hserv.mirrors hserv.wf S.readerFd readerPtr
    (by rw [hserv.flags, Function.update_of_ne (Ne.symm hsr)]; rfl)
  have hwriter := hset hreader.mirrors hreader.wf S.writerFd writerPtr
    (by rw [hreader.flags, Function.update_of_ne (Ne.symm hrw), hserv.flags,
      Function.update_of_ne (Ne.symm hsw)]; rfl)
  refine ⟨hwriter.wf, fun {fd ptr} hown ↦ ?_, fun {fd} hfd ↦ ?_⟩
  · change (init S).fdes.sFlags fd = fdeventIn ∧ _
    rw [init]
    dsimp only
    rw [hwriter.flags, hreader.flags, hserv.flags]
    simp only [own, List.mem_cons, Prod.mk.injEq, List.not_mem_nil, or_false] at hown
    rcases hown with ⟨rfl, rfl⟩ | ⟨rfl, rfl⟩ | ⟨rfl, rfl⟩
    · rw [hwriter.others _ hsw, hreader.others _ hsr, Function.update_of_ne hsw,
        Function.update_of_ne hsr, Function.update_self]
      exact ⟨rfl, hserv.data⟩
    · rw [hwriter.others _ hrw, Function.update_of_ne hrw, Function.update_self]
      exact ⟨rfl, hreader.data⟩
    · rw [Function.update_self]
      exact ⟨rfl, hwriter.data⟩
  · simp only [own, List.map_cons, List.map_nil, List.mem_cons, List.not_mem_nil, or_false,
      not_or] at hfd
    rw [init]
    dsimp only
    rw [hwriter.others _ hfd.2.2, hreader.others _ hfd.2.1, hserv.others _ hfd.1]
    exact .inl rfl

end NetworkServer

end GeminiDB
