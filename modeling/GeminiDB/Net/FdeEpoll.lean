import GeminiDB.Net.Fde

/-!
# The epoll backend (`net/fde_epoll.cpp`)

The kernel keeps a registration for some descriptors and takes `EPOLL_CTL_ADD`
for the others only, `EPOLL_CTL_MOD` and `EPOLL_CTL_DEL` for these. `Fdevents`
chooses the operation by the flags it has stored. A call of `epoll_ctl` may
also fail for a reason of the kernel's own; it then changes nothing there.
-/

namespace GeminiDB

def epollIn : Flags := 1
def epollPri : Flags := 2
def epollOut : Flags := 4
def epollErr : Flags := 8
def epollHup : Flags := 16

structure EpollEvent where
  events : Flags
  ptr : ℕ

inductive CtlOp where
  | add
  | mod
  | del
deriving DecidableEq

/-- The arguments of a call of `epoll_ctl`. -/
structure Ctl where
  op : CtlOp
  fd : ℕ
  event : EpollEvent

/-- What the kernel has registered. -/
abbrev Interest := ℕ → Option EpollEvent

def Ctl.Legal (c : Ctl) (interest : Interest) : Prop :=
  (interest c.fd).isSome = true ↔ c.op ≠ .add

instance (c : Ctl) (interest : Interest) : Decidable (c.Legal interest) :=
  inferInstanceAs (Decidable (_ ↔ _))

/-- `epoll_ctl`; `ok` says that the kernel has no reason of its own to fail. -/
def epollCtl (ok : Bool) (c : Ctl) (interest : Interest) : Int × Interest :=
  if ok = true ∧ c.Legal interest then
    (0, Function.update interest c.fd (if c.op = .del then none else some c.event))
  else (-1, interest)

/-- The bits that `set` and `clr` hand to the kernel. -/
def epollEvents (sFlags : Flags) : Flags :=
  (if sFlags &&& fdeventIn ≠ 0 then epollIn else 0) |||
    (if sFlags &&& fdeventOut ≠ 0 then epollOut else 0)

/-- The ready events `wait` stores for what the kernel reports. -/
def readyEvents (events : Flags) : Flags :=
  (if events &&& epollIn ≠ 0 then fdeventIn else 0) |||
    (if events &&& epollPri ≠ 0 then fdeventIn else 0) |||
      (if events &&& epollOut ≠ 0 then fdeventOut else 0) |||
        (if events &&& epollHup ≠ 0 then fdeventErr else 0) |||
          (if events &&& epollErr ≠ 0 then fdeventErr else 0)

/-- `Fdevents` with the kernel's side of its `ep_fd`. -/
structure Epoll where
  table : FdeTable
  interest : Interest

namespace Epoll

/-- The return value of a call, the call of `epoll_ctl` it made, and the state after it. -/
structure Called where
  ret : Int
  ctl : Option Ctl
  next : Epoll

def init : Epoll := ⟨FdeTable.init, fun _ ↦ none⟩

/-- The end of `set` and `clr`: the object is stored already when `epoll_ctl` is called. -/
def control (ok : Bool) (op : CtlOp) (fd p : ℕ) (fde : Fdevent) (s : Epoll) : Called :=
  let ctl : Ctl := ⟨op, fd, ⟨epollEvents fde.sFlags, p⟩⟩
  let r := epollCtl ok ctl s.interest
  ⟨if r.1 = -1 then -1 else 0, some ctl, ⟨s.table.write p fde, r.2⟩⟩

def isset (fd : ℕ) (flag : Flags) (s : Epoll) : Bool × Epoll :=
  let g := s.table.getFde fd
  ((g.2.heap g.1).sFlags &&& flag ≠ 0, { s with table := g.2 })

def set (ok : Bool) (fd : ℕ) (flags : Flags) (dataNum : Int) (dataPtr : ℕ) (s : Epoll) : Called :=
  let g := s.table.getFde fd
  let fde := g.2.heap g.1
  if fde.sFlags &&& flags ≠ 0 then ⟨0, none, { s with table := g.2 }⟩
  else
    control ok (if fde.sFlags ≠ 0 then .mod else .add) fd g.1
      { fde with sFlags := fde.sFlags ||| flags, dataNum := dataNum, dataPtr := dataPtr }
      { s with table := g.2 }

def del (ok : Bool) (fd : ℕ) (s : Epoll) : Called :=
  let ctl : Ctl := ⟨.del, fd, ⟨0, 0⟩⟩
  let r := epollCtl ok ctl s.interest
  if r.1 = -1 then ⟨-1, some ctl, { s with interest := r.2 }⟩
  else
    let g := s.table.getFde fd
    ⟨0, some ctl, ⟨g.2.write g.1 { g.2.heap g.1 with sFlags := fdeventNone }, r.2⟩⟩

def clr (ok : Bool) (fd : ℕ) (flags : Flags) (s : Epoll) : Called :=
  let g := s.table.getFde fd
  let fde := g.2.heap g.1
  if fde.sFlags &&& flags = 0 then ⟨0, none, { s with table := g.2 }⟩
  else
    let sFlags := fde.sFlags &&& ~~~flags
    control ok (if sFlags ≠ 0 then .mod else .del) fd g.1 { fde with sFlags := sFlags }
      { s with table := g.2 }

/-- The loop of `wait` over what `epoll_wait` has filled in: the ready objects. -/
def waitLoop : List EpollEvent → FdeTable → List ℕ × FdeTable
  | [], t => ([], t)
  | epe :: epes, t =>
      let fde := t.heap epe.ptr
      let r := waitLoop epes (t.write epe.ptr { fde with events := readyEvents epe.events })
      (epe.ptr :: r.1, r.2)

/-- `wait`, where `epoll_wait` reports some registered descriptors with their events. -/
def wait (reports : List (ℕ × Flags)) (s : Epoll) : List ℕ × Epoll :=
  let r := waitLoop (reports.filterMap fun r ↦
    (s.interest r.1).map fun e ↦ { e with events := r.2 }) s.table
  (r.1, { s with table := r.2 })

inductive Call where
  | set (fd : ℕ) (flags : Flags) (dataNum : Int) (dataPtr : ℕ)
  | clr (fd : ℕ) (flags : Flags)
  | del (fd : ℕ)

def call (ok : Bool) : Call → Epoll → Called
  | .set fd flags dataNum dataPtr => set ok fd flags dataNum dataPtr
  | .clr fd flags => clr ok fd flags
  | .del fd => del ok fd

/-- A call, or that the program closes a descriptor; the kernel then forgets it. -/
inductive Action where
  | call (ok : Bool) (c : Call)
  | close (fd : ℕ)

def step (s : Epoll) : Action → Option Epoll
  | .call ok c => some (call ok c s).next
  | .close fd => some { s with interest := Function.update s.interest fd none }

/-! ## What a call does -/

variable {s : Epoll}

def sFlags (s : Epoll) : ℕ → Flags := s.table.sFlags

/-- A call that finds nothing to do. -/
structure Quiet (s : Epoll) (r : Called) : Prop where
  wf : r.next.table.Wf
  look : r.next.table.look = s.table.look
  kept : s.table.events <+: r.next.table.events
  ret : r.ret = 0
  ctl : r.ctl = none
  interest : r.next.interest = s.interest

/-- A call that stores the object `new` of `fd` and asks the kernel for `op`. -/
structure Controls (s : Epoll) (r : Called) (ok : Bool) (op : CtlOp) (fd : ℕ) (new : Fdevent) :
    Prop where
  wf : r.next.table.Wf
  look : r.next.table.look = Function.update s.table.look fd new
  kept : s.table.events <+: r.next.table.events
  asked : ∃ p, r.next.table.events[fd]? = some p ∧
    r.ctl = some ⟨op, fd, ⟨epollEvents new.sFlags, p⟩⟩ ∧
    r.ret = (epollCtl ok ⟨op, fd, ⟨epollEvents new.sFlags, p⟩⟩ s.interest).1 ∧
    r.next.interest = (epollCtl ok ⟨op, fd, ⟨epollEvents new.sFlags, p⟩⟩ s.interest).2

theorem Quiet.flags {r : Called} (h : Quiet s r) : r.next.sFlags = s.sFlags := by
  apply funext
  intro fd
  rw [sFlags, sFlags, FdeTable.sFlags, FdeTable.sFlags, h.look]

theorem Controls.flags {r : Called} {ok : Bool} {op : CtlOp} {fd : ℕ} {new : Fdevent}
    (h : Controls s r ok op fd new) : r.next.sFlags = Function.update s.sFlags fd new.sFlags :=
  FdeTable.sFlags_update h.look

theorem epollCtl_ret (ok : Bool) (c : Ctl) (interest : Interest) :
    (if (epollCtl ok c interest).1 = -1 then -1 else 0) = (epollCtl ok c interest).1 := by
  rw [epollCtl]
  split <;> rfl

theorem control_spec (h : s.table.Wf) {fd : ℕ} {fde : Fdevent} (hfd : fde.fd = fd) (ok : Bool)
    (op : CtlOp) :
    Controls s (control ok op fd (s.table.getFde fd).1 fde
      { s with table := (s.table.getFde fd).2 }) ok op fd fde := by
  obtain ⟨hwf, hlook, hfront⟩ := h.change hfd
  exact ⟨hwf, hlook, hfront, _, (h.getFde fd).2.2.2, rfl, epollCtl_ret .., rfl⟩

theorem quiet_getFde (h : s.table.Wf) (fd : ℕ) :
    Quiet s ⟨0, none, { s with table := (s.table.getFde fd).2 }⟩ := by
  obtain ⟨hwf, hlook, hfront, -⟩ := h.getFde fd
  exact ⟨hwf, hlook, hfront, rfl, rfl, rfl⟩

theorem set_spec (h : s.table.Wf) (ok : Bool) (fd : ℕ) (flags : Flags) (dataNum : Int)
    (dataPtr : ℕ) :
    if s.sFlags fd &&& flags ≠ 0 then Quiet s (set ok fd flags dataNum dataPtr s)
    else Controls s (set ok fd flags dataNum dataPtr s) ok
      (if s.sFlags fd ≠ 0 then .mod else .add) fd
      { s.table.look fd with
        sFlags := s.sFlags fd ||| flags, dataNum := dataNum, dataPtr := dataPtr } := by
  obtain ⟨hheap, hfd⟩ := h.heap_getFde fd
  rw [set, hheap]
  split
  · rename_i hhas
    rw [if_pos (show (s.table.look fd).sFlags &&& flags ≠ 0 from hhas)]
    exact quiet_getFde h fd
  · rename_i hnew
    rw [if_neg (show ¬ (s.table.look fd).sFlags &&& flags ≠ 0 from hnew)]
    refine control_spec h ?_ ok _
    exact hfd

theorem clr_spec (h : s.table.Wf) (ok : Bool) (fd : ℕ) (flags : Flags) :
    if s.sFlags fd &&& flags = 0 then Quiet s (clr ok fd flags s)
    else Controls s (clr ok fd flags s) ok
      (if s.sFlags fd &&& ~~~flags ≠ 0 then .mod else .del) fd
      { s.table.look fd with sFlags := s.sFlags fd &&& ~~~flags } := by
  obtain ⟨hheap, hfd⟩ := h.heap_getFde fd
  rw [clr, hheap]
  split
  · rename_i hnot
    rw [if_pos (show (s.table.look fd).sFlags &&& flags = 0 from hnot)]
    exact quiet_getFde h fd
  · rename_i hhas
    rw [if_neg (show ¬ (s.table.look fd).sFlags &&& flags = 0 from hhas)]
    refine control_spec h ?_ ok _
    exact hfd

/-! ## The kernel's side -/

/-- Registered are the descriptors with flags, with these, and with their own object. -/
structure Mirrors (s : Epoll) : Prop where
  registered : ∀ fd, (s.interest fd).isSome = true ↔ s.sFlags fd ≠ 0
  events : ∀ fd e, s.interest fd = some e → e.events = epollEvents (s.sFlags fd)
  own : ∀ fd e, s.interest fd = some e →
    s.table.events[fd]? = some e.ptr ∧ (s.table.heap e.ptr).fd = fd

theorem mirrors_init : init.Mirrors :=
  ⟨fun fd ↦ by simp [init, sFlags, FdeTable.sFlags_init], fun fd e h ↦ (by cases h),
    fun fd e h ↦ (by cases h)⟩

theorem getElem?_of_prefix {l l' : List ℕ} (h : l <+: l') {i p : ℕ} (hp : l[i]? = some p) :
    l'[i]? = some p := by
  obtain ⟨more, rfl⟩ := h
  have hlt := (List.getElem?_eq_some_iff.mp hp).1
  rw [List.getElem?_append_left hlt, hp]

theorem Mirrors.same (h : s.Mirrors) {s' : Epoll} (hwf : s'.table.Wf)
    (hflags : s'.sFlags = s.sFlags) (hkept : s.table.events <+: s'.table.events)
    (hinterest : s'.interest = s.interest) : s'.Mirrors := by
  refine ⟨fun fd ↦ ?_, fun fd e he ↦ ?_, fun fd e he ↦ ?_⟩
  · rw [hinterest, hflags]
    exact h.registered fd
  · rw [hinterest] at he
    rw [hflags]
    exact h.events fd e he
  · rw [hinterest] at he
    have hp := getElem?_of_prefix hkept (h.own fd e he).1
    exact ⟨hp, hwf.own hp⟩

theorem Mirrors.quiet (h : s.Mirrors) {r : Called} (hr : Quiet s r) : r.next.Mirrors :=
  h.same hr.wf hr.flags hr.kept hr.interest

/-- Registering the new flags keeps both sides alike. -/
theorem Mirrors.update (h : s.Mirrors) {s' : Epoll} (hwf : s'.table.Wf) {fd : ℕ} {new : Flags}
    (hflags : s'.sFlags = Function.update s.sFlags fd new)
    (hkept : s.table.events <+: s'.table.events) {e : Option EpollEvent}
    (hinterest : s'.interest = Function.update s.interest fd e)
    (hsome : e.isSome = true ↔ new ≠ 0)
    (he : ∀ e', e = some e' → e'.events = epollEvents new ∧ s'.table.events[fd]? = some e'.ptr) :
    s'.Mirrors := by
  refine ⟨fun fd' ↦ ?_, fun fd' e' hfd' ↦ ?_, fun fd' e' hfd' ↦ ?_⟩
  · rw [hinterest, hflags]
    by_cases heq : fd' = fd
    · rw [heq, Function.update_self, Function.update_self]
      exact hsome
    · rw [Function.update_of_ne heq, Function.update_of_ne heq]
      exact h.registered fd'
  · rw [hinterest] at hfd'
    rw [hflags]
    by_cases heq : fd' = fd
    · rw [heq, Function.update_self] at hfd' ⊢
      exact (he e' hfd').1
    · rw [Function.update_of_ne heq] at hfd' ⊢
      exact h.events fd' e' hfd'
  · suffices s'.table.events[fd']? = some e'.ptr from ⟨this, hwf.own this⟩
    rw [hinterest] at hfd'
    by_cases heq : fd' = fd
    · rw [heq, Function.update_self] at hfd'
      rw [heq]
      exact (he e' hfd').2
    · rw [Function.update_of_ne heq] at hfd'
      exact getElem?_of_prefix hkept (h.own fd' e' hfd').1

/-- Under the mirror, an operation chosen by the flags is legal, and the mirror is kept. -/
theorem Mirrors.controls (h : s.Mirrors) {r : Called} {op : CtlOp} {fd : ℕ} {new : Fdevent}
    (hr : Controls s r true op fd new) (hadd : op = .add ↔ s.sFlags fd = 0)
    (hdel : op = .del ↔ new.sFlags = 0) :
    r.ret = 0 ∧ r.next.Mirrors ∧ ∀ c, r.ctl = some c → c.Legal s.interest := by
  obtain ⟨p, hp, hctl, hret, hinterest⟩ := hr.asked
  have hlegal : Ctl.Legal ⟨op, fd, ⟨epollEvents new.sFlags, p⟩⟩ s.interest :=
    (h.registered fd).trans (not_congr hadd.symm)
  rw [epollCtl, if_pos ⟨rfl, hlegal⟩] at hret hinterest
  refine ⟨hret, h.update hr.wf hr.flags hr.kept hinterest ?_ ?_, ?_⟩
  · by_cases hop : op = .del
    · rw [if_pos hop]
      simp [hdel.mp hop]
    · rw [if_neg hop]
      simpa using mt hdel.mpr hop
  · intro e he
    by_cases hop : op = .del
    · rw [if_pos hop] at he
      cases he
    · rw [if_neg hop] at he
      obtain rfl := Option.some.inj he
      exact ⟨rfl, hp⟩
  · intro c hc
    rw [hctl] at hc
    exact Option.some.inj hc ▸ hlegal

/-- When the kernel fails, only the stored flags change. -/
theorem Controls.fails {r : Called} {op : CtlOp} {fd : ℕ} {new : Fdevent}
    (hr : Controls s r false op fd new) : r.ret = -1 ∧ r.next.interest = s.interest := by
  obtain ⟨p, -, -, hret, hinterest⟩ := hr.asked
  rw [epollCtl, if_neg (by simp)] at hret hinterest
  exact ⟨hret, hinterest⟩

/-- `del` clears the flags once the kernel has dropped the descriptor. -/
theorem del_spec (h : s.table.Wf) (ok : Bool) (fd : ℕ) :
    if ok = true ∧ Ctl.Legal ⟨.del, fd, ⟨0, 0⟩⟩ s.interest then
      (del ok fd s).next.table.Wf ∧ (del ok fd s).next.table.look =
          Function.update s.table.look fd { s.table.look fd with sFlags := fdeventNone } ∧
        s.table.events <+: (del ok fd s).next.table.events ∧ (del ok fd s).ret = 0 ∧
          (del ok fd s).next.interest = Function.update s.interest fd none
    else (del ok fd s).ret = -1 ∧ (del ok fd s).next = s := by
  obtain ⟨hheap, hfd⟩ := h.heap_getFde fd
  by_cases hok : ok = true ∧ Ctl.Legal ⟨.del, fd, ⟨0, 0⟩⟩ s.interest
  · have hctl : epollCtl ok ⟨.del, fd, ⟨0, 0⟩⟩ s.interest =
        (0, Function.update s.interest fd none) := if_pos hok
    rw [if_pos hok]
    simp only [del, hctl, hheap]
    obtain ⟨hwf, hlook, hfront⟩ := h.change
      (show ({ s.table.look fd with sFlags := fdeventNone } : Fdevent).fd = fd from hfd)
    exact ⟨hwf, hlook, hfront, rfl, rfl⟩
  · have hctl : epollCtl ok ⟨.del, fd, ⟨0, 0⟩⟩ s.interest = (-1, s.interest) := if_neg hok
    rw [if_neg hok]
    simp only [del, hctl]
    exact ⟨rfl, rfl⟩

theorem Mirrors.del (h : s.Mirrors) (hwf : s.table.Wf) (ok : Bool) (fd : ℕ) :
    let r := del ok fd s
    r.next.table.Wf ∧ r.next.Mirrors ∧ (r.ret = -1 → r.next.sFlags = s.sFlags) := by
  have hspec := del_spec hwf ok fd
  split at hspec
  · obtain ⟨hwf', hlook, hfront, hret, hinterest⟩ := hspec
    refine ⟨hwf', h.update hwf' (FdeTable.sFlags_update hlook) hfront hinterest ?_ ?_, ?_⟩
    · exact iff_of_false (by simp) (not_not.mpr rfl)
    · rintro e' ⟨⟩
    · intro hfail
      rw [hret] at hfail
      cases hfail
  · obtain ⟨hret, hnext⟩ := hspec
    dsimp only
    rw [hnext]
    exact ⟨hwf, h, fun _ ↦ rfl⟩

/-- The flags that all callers pass. -/
def Call.InOut : Call → Prop
  | .set _ flags _ _ => flags = fdeventIn ∨ flags = fdeventOut
  | .clr _ flags => flags = fdeventIn ∨ flags = fdeventOut
  | .del _ => True

/-- A call of theirs, the kernel having no reason of its own to fail. -/
def Regular (_ : Epoll) : Action → Prop
  | .call ok c => ok = true ∧ c.InOut
  | .close _ => False

theorem Mirrors.set (h : s.Mirrors) (hwf : s.table.Wf) (fd : ℕ) {flags : Flags}
    (hflags : flags ≠ 0) (dataNum : Int) (dataPtr : ℕ) :
    let r := set true fd flags dataNum dataPtr s
    r.next.table.Wf ∧ r.ret = 0 ∧ r.next.Mirrors ∧ ∀ c, r.ctl = some c → c.Legal s.interest := by
  have hspec := set_spec hwf true fd flags dataNum dataPtr
  split at hspec
  · exact ⟨hspec.wf, hspec.ret, h.quiet hspec, fun c hc ↦ by rw [hspec.ctl] at hc; cases hc⟩
  · refine ⟨hspec.wf, h.controls hspec ?_ ?_⟩
    · by_cases hold : s.sFlags fd = 0 <;> simp [hold]
    · refine iff_of_false ?_ (Flags.or_ne_zero hflags)
      split <;> simp

theorem Mirrors.clr (h : s.Mirrors) (hwf : s.table.Wf) (fd : ℕ) (flags : Flags) :
    let r := clr true fd flags s
    r.next.table.Wf ∧ r.ret = 0 ∧ r.next.Mirrors ∧ ∀ c, r.ctl = some c → c.Legal s.interest := by
  have hspec := clr_spec hwf true fd flags
  split at hspec
  · exact ⟨hspec.wf, hspec.ret, h.quiet hspec, fun c hc ↦ by rw [hspec.ctl] at hc; cases hc⟩
  · rename_i hhas
    refine ⟨hspec.wf, h.controls hspec ?_ ?_⟩
    · refine iff_of_false ?_ fun hzero ↦ hhas (by rw [hzero]; simp)
      split <;> simp
    · by_cases hnew : s.sFlags fd &&& ~~~flags = 0 <;> simp [hnew]

/-- What a call on `fd` that is not about the flag `g` leaves alone. -/
structure Fair (s : Epoll) (r : Called) (fd : ℕ) (g : Flags) : Prop where
  legal : ∀ c, r.ctl = some c → c.Legal s.interest
  other : r.next.sFlags fd &&& g = s.sFlags fd &&& g
  others : ∀ fd', fd' ≠ fd → r.next.sFlags fd' = s.sFlags fd'

theorem Fair.of_same {s : Epoll} {r : Called} {fd : ℕ} {g : Flags}
    (hlegal : ∀ c, r.ctl = some c → c.Legal s.interest) (h : r.next.sFlags = s.sFlags) :
    Fair s r fd g :=
  ⟨hlegal, by rw [h], fun fd' _ ↦ by rw [h]⟩

theorem Fair.of_update {s : Epoll} {r : Called} {fd : ℕ} {flags g : Flags}
    (hlegal : ∀ c, r.ctl = some c → c.Legal s.interest)
    (h : r.next.sFlags = Function.update s.sFlags fd flags)
    (hflags : flags &&& g = s.sFlags fd &&& g) : Fair s r fd g where
  legal := hlegal
  other := by rw [h, Function.update_self, hflags]
  others := by
    intro fd' hne
    rw [h, Function.update_of_ne hne]

theorem disjoint_in_out {f g : Flags}
    (h : f = fdeventIn ∧ g = fdeventOut ∨ f = fdeventOut ∧ g = fdeventIn) :
    f ≠ 0 ∧ f &&& g = 0 := by
  rcases h with ⟨rfl, rfl⟩ | ⟨rfl, rfl⟩ <;> decide

theorem Mirrors.set_fair (h : s.Mirrors) (hwf : s.table.Wf) (fd : ℕ) {f g : Flags} (hf : f ≠ 0)
    (hdisjoint : f &&& g = 0) (dataNum : Int) (dataPtr : ℕ) :
    Fair s (Epoll.set true fd f dataNum dataPtr s) fd g ∧
      (Epoll.set true fd f dataNum dataPtr s).next.sFlags fd &&& f ≠ 0 := by
  have hlegal := (h.set hwf fd hf dataNum dataPtr).2.2.2
  have hspec := set_spec hwf true fd f dataNum dataPtr
  split at hspec
  · rename_i hhas
    refine ⟨.of_same hlegal hspec.flags, ?_⟩
    rwa [hspec.flags]
  · refine ⟨.of_update hlegal hspec.flags (Flags.or_and_of_disjoint hdisjoint), ?_⟩
    rwa [hspec.flags, Function.update_self, Flags.or_and_right]

theorem Mirrors.clr_fair (h : s.Mirrors) (hwf : s.table.Wf) (fd : ℕ) {f g : Flags}
    (hdisjoint : f &&& g = 0) :
    Fair s (Epoll.clr true fd f s) fd g ∧ (Epoll.clr true fd f s).next.sFlags fd &&& f = 0 := by
  have hlegal := (h.clr hwf fd f).2.2.2
  have hspec := clr_spec hwf true fd f
  split at hspec
  · rename_i hhas
    refine ⟨.of_same hlegal hspec.flags, ?_⟩
    rwa [hspec.flags]
  · refine ⟨.of_update hlegal hspec.flags (Flags.and_not_and_of_disjoint hdisjoint), ?_⟩
    rw [hspec.flags, Function.update_self, Flags.and_not_and_right]

theorem Mirrors.step (h : s.Mirrors) (hwf : s.table.Wf) {a : Action} (ha : Regular s a)
    {s' : Epoll} (hstep : Epoll.step s a = some s') : s'.table.Wf ∧ s'.Mirrors := by
  have hinout {f : Flags} (hf : f = fdeventIn ∨ f = fdeventOut) : f ≠ 0 := by
    rcases hf with rfl | rfl <;> decide
  cases a with
  | close fd => exact ha.elim
  | call ok c =>
      obtain ⟨rfl, hc⟩ := ha
      obtain rfl := Option.some.inj hstep
      cases c with
      | set fd flags dataNum dataPtr =>
          have hset := h.set hwf fd (hinout hc) dataNum dataPtr
          exact ⟨hset.1, hset.2.2.1⟩
      | clr fd flags =>
          have hclr := h.clr hwf fd flags
          exact ⟨hclr.1, hclr.2.2.1⟩
      | del fd =>
          have hdel := h.del hwf true fd
          exact ⟨hdel.1, hdel.2.1⟩

/-- After any calls the kernel has what the flags say, under the right object, and `set`
and `clr` subscribe and unsubscribe with legal operations. -/
theorem reachable_mirrors (h : Machine.ReachableVia step Regular init s) :
    s.Mirrors ∧ ∀ fd f g, f = fdeventIn ∧ g = fdeventOut ∨ f = fdeventOut ∧ g = fdeventIn →
      (∀ dataNum dataPtr, Fair s (set true fd f dataNum dataPtr s) fd g ∧
        (set true fd f dataNum dataPtr s).next.sFlags fd &&& f ≠ 0) ∧
      Fair s (clr true fd f s) fd g ∧ (clr true fd f s).next.sFlags fd &&& f = 0 := by
  obtain ⟨hwf, hmirrors⟩ :=
    h.invariant (P := fun s ↦ s.table.Wf ∧ s.Mirrors) ⟨FdeTable.wf_init, mirrors_init⟩
      fun s a t hs ha ht ↦ hs.2.step hs.1 ha ht
  refine ⟨hmirrors, fun fd f g hfg ↦ ?_⟩
  obtain ⟨hf, hdisjoint⟩ := disjoint_in_out hfg
  exact ⟨hmirrors.set_fair hwf fd hf hdisjoint, hmirrors.clr_fair hwf fd hdisjoint⟩

theorem reachable_mirrors_subscribed :
    let s := (set true 7 fdeventIn 1 3 init).next
    s.Mirrors ∧ ∀ fd f g, f = fdeventIn ∧ g = fdeventOut ∨ f = fdeventOut ∧ g = fdeventIn →
      (∀ dataNum dataPtr, Fair s (set true fd f dataNum dataPtr s) fd g ∧
        (set true fd f dataNum dataPtr s).next.sFlags fd &&& f ≠ 0) ∧
      Fair s (clr true fd f s) fd g ∧ (clr true fd f s).next.sFlags fd &&& f = 0 :=
  reachable_mirrors ((Machine.ReachableVia.refl step Regular init).step
    (a := .call true (.set 7 fdeventIn 1 3)) ⟨rfl, .inl rfl⟩ rfl)

/-! ## Failing calls -/

/-- A call that fails changes no flags, the flags are what the kernel has afterwards, and
`set` asks the kernel for every flag that is not registered. -/
def Good (s : Epoll) (a : Action) : Prop :=
  (∀ ok c, a = .call ok c → (call ok c s).ret = -1 → (call ok c s).next.sFlags = s.sFlags) ∧
    ∀ s', step s a = some s' → s'.Mirrors ∧
      ∀ fd f, f = fdeventIn ∨ f = fdeventOut →
        (∀ e, s'.interest fd = some e → e.events &&& f = 0) →
          ∀ ok dataNum dataPtr, (set ok fd f dataNum dataPtr s').ctl.isSome = true

/-- `set` and `clr` do not meet a failure when they have flags to change, `set` without flags
registers nothing, and no descriptor with flags is closed. -/
def Allowed (s : Epoll) : Action → Prop
  | .call ok (.set fd flags _ _) => s.sFlags fd &&& flags = 0 →
      if flags = 0 then s.sFlags fd = 0 → ok = false else ok = true
  | .call ok (.clr fd flags) => s.sFlags fd &&& flags ≠ 0 → ok = true
  | .call _ (.del _) => True
  | .close fd => s.sFlags fd = 0

/-- A flag the kernel does not have is not stored either, so that `set` does not stop early. -/
theorem Mirrors.asks (h : s.Mirrors) (hwf : s.table.Wf) {fd : ℕ} {f : Flags}
    (hf : f = fdeventIn ∨ f = fdeventOut)
    (hlacks : ∀ e, s.interest fd = some e → e.events &&& f = 0) (ok : Bool) (dataNum : Int)
    (dataPtr : ℕ) : (Epoll.set ok fd f dataNum dataPtr s).ctl.isSome = true := by
  have hnot : s.sFlags fd &&& f = 0 := by
    cases he : s.interest fd with
    | none =>
        have hzero : s.sFlags fd = 0 := by
          by_contra hne
          have := (h.registered fd).mpr hne
          rw [he] at this
          cases this
        rw [hzero]
        simp
    | some e =>
        have hevents := hlacks e he
        rw [h.events fd e he, epollEvents] at hevents
        by_contra hhas
        rcases hf with rfl | rfl
        · rw [if_pos hhas] at hevents
          revert hevents
          split <;> decide
        · rw [if_pos hhas] at hevents
          revert hevents
          split <;> decide
  have hspec := set_spec hwf ok fd f dataNum dataPtr
  rw [if_neg (not_not.mpr hnot)] at hspec
  obtain ⟨p, -, hctl, -⟩ := hspec.asked
  rw [hctl]
  rfl

theorem Mirrors.set_allowed (h : s.Mirrors) (hwf : s.table.Wf) {ok : Bool} {fd : ℕ} {flags : Flags}
    {dataNum : Int} {dataPtr : ℕ} (ha : Allowed s (.call ok (.set fd flags dataNum dataPtr))) :
    let r := Epoll.set ok fd flags dataNum dataPtr s
    r.next.table.Wf ∧ r.next.Mirrors ∧ (r.ret = -1 → r.next.sFlags = s.sFlags) := by
  have hspec := set_spec hwf ok fd flags dataNum dataPtr
  by_cases hnew : s.sFlags fd &&& flags = 0
  · rw [if_neg (not_not.mpr hnew)] at hspec
    have hok := ha hnew
    by_cases hflags : flags = 0
    · rw [if_pos hflags] at hok
      subst hflags
      have hsame : Function.update s.sFlags fd (s.sFlags fd ||| 0) = s.sFlags := by
        simp
      cases ok with
      | false =>
          have hkept := hspec.flags.trans hsame
          exact ⟨hspec.wf, h.same hspec.wf hkept hspec.kept hspec.fails.2, fun _ ↦ hkept⟩
      | true =>
          have hold : s.sFlags fd ≠ 0 := fun hzero ↦ absurd (hok hzero) (by decide)
          rw [if_pos hold] at hspec
          obtain ⟨hret, hmirrors, -⟩ := h.controls hspec (iff_of_false (by decide) hold)
            (iff_of_false (by decide) (by simpa using hold))
          exact ⟨hspec.wf, hmirrors, fun hfail ↦ by rw [hret] at hfail; cases hfail⟩
    · rw [if_neg hflags] at hok
      subst hok
      obtain ⟨hwf', hret, hmirrors, -⟩ := h.set hwf fd hflags dataNum dataPtr
      exact ⟨hwf', hmirrors, fun hfail ↦ by rw [hret] at hfail; cases hfail⟩
  · rw [if_pos hnew] at hspec
    exact ⟨hspec.wf, h.quiet hspec, fun _ ↦ hspec.flags⟩

theorem Mirrors.clr_allowed (h : s.Mirrors) (hwf : s.table.Wf) {ok : Bool} {fd : ℕ} {flags : Flags}
    (ha : Allowed s (.call ok (.clr fd flags))) :
    let r := Epoll.clr ok fd flags s
    r.next.table.Wf ∧ r.next.Mirrors ∧ (r.ret = -1 → r.next.sFlags = s.sFlags) := by
  by_cases hhas : s.sFlags fd &&& flags = 0
  · have hspec := clr_spec hwf ok fd flags
    rw [if_pos hhas] at hspec
    exact ⟨hspec.wf, h.quiet hspec, fun _ ↦ hspec.flags⟩
  · obtain rfl := ha hhas
    obtain ⟨hwf', hret, hmirrors, -⟩ := h.clr hwf fd flags
    exact ⟨hwf', hmirrors, fun hfail ↦ by rw [hret] at hfail; cases hfail⟩

theorem Mirrors.close (h : s.Mirrors) (hwf : s.table.Wf) {fd : ℕ} (hzero : s.sFlags fd = 0) :
    Mirrors { s with interest := Function.update s.interest fd none } := by
  have hflags : s.sFlags = Function.update s.sFlags fd 0 := by
    rw [← hzero, Function.update_eq_self]
  exact h.update hwf hflags List.prefix_rfl rfl (by simp) (by rintro e' ⟨⟩)

theorem Mirrors.allowed (h : s.Mirrors) (hwf : s.table.Wf) {a : Action} (ha : Allowed s a)
    {s' : Epoll} (hstep : Epoll.step s a = some s') :
    s'.table.Wf ∧ s'.Mirrors ∧ ∀ ok c, a = .call ok c → (call ok c s).ret = -1 →
      (call ok c s).next.sFlags = s.sFlags := by
  cases a with
  | close fd =>
      obtain rfl := Option.some.inj hstep
      exact ⟨hwf, h.close hwf ha, fun ok c hc ↦ by cases hc⟩
  | call ok c =>
      obtain rfl := Option.some.inj hstep
      suffices (call ok c s).next.table.Wf ∧ (call ok c s).next.Mirrors ∧
          ((call ok c s).ret = -1 → (call ok c s).next.sFlags = s.sFlags) by
        refine ⟨this.1, this.2.1, ?_⟩
        rintro _ _ ⟨⟩
        exact this.2.2
      cases c with
      | set fd flags dataNum dataPtr => exact h.set_allowed hwf ha
      | clr fd flags => exact h.clr_allowed hwf ha
      | del fd => exact h.del hwf ok fd

/-- A failing kernel meets `set` and `clr` after they stored other flags. -/
theorem Controls.not_good {ok : Bool} {c : Call} {op : CtlOp} {fd : ℕ} {new : Fdevent}
    (hr : Controls s (call ok c s) ok op fd new) (hok : ok ≠ true)
    (hnew : new.sFlags ≠ s.sFlags fd) :
    ¬ Good s (.call ok c) := by
  obtain rfl : ok = false := Bool.not_eq_true _ ▸ hok
  intro hgood
  have hkept := congrFun (hgood.1 false c rfl hr.fails.1) fd
  rw [hr.flags, Function.update_self] at hkept
  exact hnew hkept

theorem Mirrors.allowed_of_good (h : s.Mirrors) (hwf : s.table.Wf) {a : Action} (hgood : Good s a) :
    Allowed s a := by
  cases a with
  | close fd =>
      have hmirrors := (hgood.2 _ rfl).1.registered fd
      by_contra hne
      have := hmirrors.mpr hne
      simp at this
  | call ok c =>
      cases c with
      | del fd => trivial
      | clr fd flags =>
          intro hhas
          have hspec := clr_spec hwf ok fd flags
          rw [if_neg hhas] at hspec
          by_contra hok
          refine Controls.not_good hspec hok (fun heq ↦ hhas ?_) hgood
          rw [← heq, Flags.and_not_and_right]
      | set fd flags dataNum dataPtr =>
          intro hnew
          have hspec := set_spec hwf ok fd flags dataNum dataPtr
          rw [if_neg (not_not.mpr hnew)] at hspec
          by_cases hflags : flags = 0
          · rw [if_pos hflags]
            intro hzero
            by_contra hok
            obtain rfl : ok = true := by simpa using hok
            obtain ⟨p, -, -, -, hinterest⟩ := hspec.asked
            have hnone : s.interest fd = none := by
              cases he : s.interest fd with
              | none => rfl
              | some e => exact absurd hzero ((h.registered fd).mp (by rw [he]; rfl))
            have hlegal : Ctl.Legal ⟨.add, fd, ⟨epollEvents (s.sFlags fd ||| flags), p⟩⟩
                s.interest := by simp [Ctl.Legal, hnone]
            rw [if_neg (not_not.mpr hzero), epollCtl, if_pos ⟨rfl, hlegal⟩] at hinterest
            have hmirrors := ((hgood.2 _ rfl).1.registered fd).mp
              (by rw [call, hinterest]; simp)
            apply hmirrors
            rw [call, hspec.flags, Function.update_self, hzero, hflags]
            rfl
          · rw [if_neg hflags]
            by_contra hok
            refine Controls.not_good hspec hok (fun heq ↦ hflags ?_) hgood
            rw [← heq, Flags.or_and_right] at hnew
            exact hnew

theorem good_iff_allowed (hwf : s.table.Wf) (h : s.Mirrors) (a : Action) :
    Good s a ↔ Allowed s a := by
  refine ⟨h.allowed_of_good hwf, fun ha ↦ ⟨fun ok c hc ↦ ?_, fun s' hstep ↦ ?_⟩⟩
  · subst hc
    exact (h.allowed hwf ha rfl).2.2 ok c rfl
  · obtain ⟨hwf', hmirrors, -⟩ := h.allowed hwf ha hstep
    exact ⟨hmirrors, fun fd f hf hlacks ok num ptr ↦ hmirrors.asks hwf' hf hlacks ok num ptr⟩

/-- In a run, no failing call changes the flags and these are always what the kernel has,
just when every step is allowed. -/
theorem flags_kept_iff (as : List Action) :
    (∀ bs a, bs ++ [a] <+: as → ∀ s, Machine.run step init bs = some s → Good s a) ↔
      ∀ bs a, bs ++ [a] <+: as → ∀ s, Machine.run step init bs = some s → Allowed s a :=
  Machine.forall_steps_iff (P := fun s ↦ s.table.Wf ∧ s.Mirrors)
    ⟨FdeTable.wf_init, mirrors_init⟩
    (fun _ _ _ hs ha ht ↦ ⟨(hs.2.allowed hs.1 ha ht).1, (hs.2.allowed hs.1 ha ht).2.1⟩)
    (fun _ a hs ↦ good_iff_allowed hs.1 hs.2 a) as

/-- The first `set` of a descriptor fails; the flag is stored all the same. -/
theorem not_flags_kept :
    ¬ ∀ as : List Action, ∀ bs a, bs ++ [a] <+: as →
      ∀ s, Machine.run step init bs = some s → Good s a := by
  intro hall
  have hgood := hall [.call false (.set 7 fdeventIn 1 3)] [] _ (List.prefix_refl _) init rfl
  have hkept := congrFun (hgood.1 false (.set 7 fdeventIn 1 3) rfl (by decide +kernel)) 7
  exact absurd hkept (by decide +kernel)

/-! ## What the event loop relies on -/

/-- Only the flags and the data of `fd` are other ones. -/
structure Changed (s s' : Epoll) (fd : ℕ) (new : Flags) (ptr : ℕ) : Prop where
  wf : s'.table.Wf
  mirrors : s'.Mirrors
  kept : s.table.events <+: s'.table.events
  flags : s'.sFlags = Function.update s.sFlags fd new
  others : ∀ i, i ≠ fd → s'.table.look i = s.table.look i
  events : (s'.table.look fd).events = (s.table.look fd).events
  data : (s'.table.look fd).dataPtr = ptr

theorem Quiet.changed {r : Called} (h : Quiet s r) (hm : s.Mirrors) (fd : ℕ) :
    Changed s r.next fd (s.sFlags fd) (s.table.look fd).dataPtr :=
  ⟨h.wf, hm.quiet h, h.kept, by rw [h.flags, Function.update_eq_self], fun i _ ↦ by rw [h.look],
    by rw [h.look], by rw [h.look]⟩

theorem Controls.changed {r : Called} {ok : Bool} {op : CtlOp} {fd : ℕ} {new : Fdevent}
    (h : Controls s r ok op fd new) (hm : r.next.Mirrors)
    (hevents : new.events = (s.table.look fd).events) :
    Changed s r.next fd new.sFlags new.dataPtr :=
  ⟨h.wf, hm, h.kept, h.flags, fun i hi ↦ by rw [h.look, Function.update_of_ne hi],
    by rw [h.look, Function.update_self, hevents], by rw [h.look, Function.update_self]⟩

theorem Mirrors.set_changed (h : s.Mirrors) (hwf : s.table.Wf) (fd : ℕ) {f : Flags}
    (hf : f.Single) (dataNum : Int) (dataPtr : ℕ) :
    Changed s (Epoll.set true fd f dataNum dataPtr s).next fd (s.sFlags fd ||| f)
      (if s.sFlags fd &&& f ≠ 0 then (s.table.look fd).dataPtr else dataPtr) := by
  have hspec := set_spec hwf true fd f dataNum dataPtr
  split at hspec
  · rename_i hhas
    rw [if_pos hhas, hf.or_eq hhas]
    exact hspec.changed h fd
  · rename_i hnew
    rw [if_neg hnew]
    exact hspec.changed (h.set hwf fd hf.ne_zero dataNum dataPtr).2.2.1 rfl

theorem Mirrors.clr_changed (h : s.Mirrors) (hwf : s.table.Wf) (fd : ℕ) (f : Flags) :
    Changed s (Epoll.clr true fd f s).next fd (s.sFlags fd &&& ~~~f)
      (s.table.look fd).dataPtr := by
  have hspec := clr_spec hwf true fd f
  split at hspec
  · rename_i hnot
    rw [Flags.and_not_eq hnot]
    exact hspec.changed h fd
  · exact hspec.changed (h.clr hwf fd f).2.2.1 rfl

theorem Mirrors.del_changed (h : s.Mirrors) (hwf : s.table.Wf) (fd : ℕ) :
    Changed s (Epoll.del true fd s).next fd 0 (s.table.look fd).dataPtr := by
  have hmirrors := (h.del hwf true fd).2.1
  have hspec := del_spec hwf true fd
  split at hspec
  · obtain ⟨hwf', hlook, hfront, -, -⟩ := hspec
    exact ⟨hwf', hmirrors, hfront, FdeTable.sFlags_update hlook,
      fun i hi ↦ by rw [hlook, Function.update_of_ne hi],
      by rw [hlook, Function.update_self], by rw [hlook, Function.update_self]⟩
  · rename_i hlegal
    have hzero : s.sFlags fd = 0 := by
      by_contra hne
      exact hlegal ⟨rfl, iff_of_true ((h.registered fd).mpr hne) fun heq ↦ by cases heq⟩
    rw [hspec.2]
    exact ⟨hwf, h, List.prefix_rfl, by rw [← hzero, Function.update_eq_self], fun _ _ ↦ rfl, rfl,
      rfl⟩

/-- Without a subscription to it `FDEVENT_IN` is not reported. -/
theorem readyEvents_in {events asked : Flags}
    (h : events &&& ~~~(epollEvents asked ||| epollErr ||| epollHup) = 0)
    (hin : readyEvents events &&& fdeventIn ≠ 0) : asked &&& fdeventIn ≠ 0 := by
  by_contra hnot
  have hbit {mask b : Flags} (hmask : events &&& mask = 0) (hb : mask &&& b = b) :
      events &&& b = 0 := by
    rw [← hb, ← BitVec.and_assoc, hmask]
    simp
  obtain ⟨mask, hmask, hone, htwo⟩ : ∃ mask : Flags, events &&& mask = 0 ∧
      mask &&& epollIn = epollIn ∧ mask &&& epollPri = epollPri := by
    rw [epollEvents, if_neg (not_not.mpr hnot)] at h
    refine ⟨_, h, ?_, ?_⟩
    · split <;> decide
    · split <;> decide
  apply hin
  rw [readyEvents, if_neg (not_not.mpr (hbit hmask hone)), if_neg (not_not.mpr (hbit hmask htwo))]
  split <;> split <;> split <;> decide

theorem waitLoop_spec {epes : List EpollEvent} {t : FdeTable} (hwf : t.Wf)
    (hown : ∀ e ∈ epes, ∃ fd : ℕ, t.events[fd]? = some e.ptr)
    (hnodup : (epes.map EpollEvent.ptr).Nodup) :
    (waitLoop epes t).2.Wf ∧ (waitLoop epes t).1 = epes.map EpollEvent.ptr ∧
      (waitLoop epes t).2.events = t.events ∧
      (∀ fd, ∃ events, (waitLoop epes t).2.look fd = { t.look fd with events := events }) ∧
      (∀ e ∈ epes, ((waitLoop epes t).2.heap e.ptr).events = readyEvents e.events) ∧
      ∀ p, p ∉ epes.map EpollEvent.ptr → (waitLoop epes t).2.heap p = t.heap p := by
  induction epes generalizing t with
  | nil => exact ⟨hwf, rfl, rfl, fun fd ↦ ⟨(t.look fd).events, rfl⟩, by simp, fun _ _ ↦ rfl⟩
  | cons e epes ih =>
      obtain ⟨hnotin, hnodup⟩ := List.nodup_cons.mp hnodup
      obtain ⟨fd, hp⟩ := hown e List.mem_cons_self
      obtain ⟨hwf', hlook⟩ := hwf.write hp
        (show ({ t.heap e.ptr with events := readyEvents e.events } : Fdevent).fd = fd from
          hwf.own hp)
      obtain ⟨hwf'', hptrs, hevents, hsame, hready, hrest⟩ :=
        ih hwf' (fun e' he' ↦ hown e' (List.mem_cons_of_mem e he')) hnodup
      rw [waitLoop]
      refine ⟨hwf'', by rw [hptrs, List.map_cons], hevents, fun i ↦ ?_, fun e' he' ↦ ?_,
        fun p hp' ↦ ?_⟩
      · obtain ⟨events, heq⟩ := hsame i
        rw [heq, hlook]
        by_cases hi : i = fd
        · rw [hi, Function.update_self, FdeTable.look_eq hp]
          exact ⟨events, rfl⟩
        · rw [Function.update_of_ne hi]
          exact ⟨events, rfl⟩
      · rcases List.mem_cons.mp he' with rfl | he'
        · rw [hrest _ hnotin, FdeTable.heap_write_self]
        · exact hready e' he'
      · rw [List.map_cons, List.mem_cons, not_or] at hp'
        rw [hrest p hp'.2, FdeTable.heap_write_of_ne hp'.1]

/-- What `wait` leaves alone, and that it reports registered descriptors once. -/
structure Waited (s : Epoll) (r : List ℕ × Epoll) : Prop where
  wf : r.2.table.Wf
  mirrors : r.2.Mirrors
  flags : r.2.sFlags = s.sFlags
  data : ∀ fd, (r.2.table.look fd).dataPtr = (s.table.look fd).dataPtr
  nodup : r.1.Nodup
  made : ∀ p ∈ r.1, ∃ fd : ℕ, r.2.table.events[fd]? = some p
  asked : ∀ p ∈ r.1, ∀ fd : ℕ, r.2.table.events[fd]? = some p →
    (r.2.table.look fd).events &&& fdeventIn ≠ 0 → s.sFlags fd &&& fdeventIn ≠ 0

theorem Mirrors.waited (h : s.Mirrors) (hwf : s.table.Wf) {reports : List (ℕ × Flags)}
    (hnodup : (reports.map Prod.fst).Nodup)
    (hasked : ∀ r ∈ reports, ∃ e ∈ s.interest r.1,
      r.2 &&& ~~~(e.events ||| epollErr ||| epollHup) = 0) :
    Waited s (s.wait reports) := by
  rw [wait]
  generalize hepes : (reports.filterMap fun r ↦
    (s.interest r.1).map fun e ↦ { e with events := r.2 }) = epes
  have hfrom {e' : EpollEvent} (he' : e' ∈ epes) : ∃ fd : ℕ, s.table.events[fd]? = some e'.ptr ∧
      e'.events &&& ~~~(epollEvents (s.sFlags fd) ||| epollErr ||| epollHup) = 0 := by
    rw [← hepes] at he'
    obtain ⟨r, hr, he⟩ := List.mem_filterMap.mp he'
    obtain ⟨e, hinterest, rfl⟩ := Option.map_eq_some_iff.mp he
    obtain ⟨e₀, he₀, hbits⟩ := hasked r hr
    obtain rfl : e₀ = e := Option.some.inj (he₀.symm.trans hinterest)
    exact ⟨r.1, (h.own _ _ hinterest).1, h.events _ _ hinterest ▸ hbits⟩
  have hptrs : (epes.map EpollEvent.ptr).Nodup := by
    rw [← hepes, List.Nodup, List.pairwise_map, List.pairwise_filterMap]
    rw [List.Nodup, List.pairwise_map] at hnodup
    refine hnodup.imp fun {r r'} hne e he e' he' heq ↦ hne ?_
    obtain ⟨a, ha, rfl⟩ := Option.map_eq_some_iff.mp he
    obtain ⟨a', ha', rfl⟩ := Option.map_eq_some_iff.mp he'
    rw [← (h.own _ _ ha).2, ← (h.own _ _ ha').2]
    exact congrArg (fun p ↦ (s.table.heap p).fd) heq
  obtain ⟨hwf', hfst, hevents, hsame, hready, -⟩ :=
    waitLoop_spec hwf (fun e he ↦ (hfrom he).imp fun _ hfd ↦ hfd.1) hptrs
  generalize waitLoop epes s.table = r at hwf' hfst hevents hsame hready ⊢
  have hflags : ({ s with table := r.2 } : Epoll).sFlags = s.sFlags := by
    funext fd
    obtain ⟨events, heq⟩ := hsame fd
    change (r.2.look fd).sFlags = (s.table.look fd).sFlags
    rw [heq]
  have hmem {p : ℕ} (hp : p ∈ r.1) : ∃ e ∈ epes, e.ptr = p := by
    rw [hfst] at hp
    exact List.mem_map.mp hp
  refine ⟨hwf', h.same hwf' hflags (hevents ▸ List.prefix_rfl) rfl, hflags, fun fd ↦ ?_,
    hfst ▸ hptrs, fun p hp ↦ ?_, fun p hp fd hfd hin ↦ ?_⟩
  · obtain ⟨events, heq⟩ := hsame fd
    change (r.2.look fd).dataPtr = _
    rw [heq]
  · obtain ⟨e, he, rfl⟩ := hmem hp
    obtain ⟨fd, hfd, -⟩ := hfrom he
    exact ⟨fd, hevents ▸ hfd⟩
  · obtain ⟨e, he, rfl⟩ := hmem hp
    obtain ⟨fd', hfd', hbits⟩ := hfrom he
    change r.2.events[fd]? = some e.ptr at hfd
    rw [hevents] at hfd
    obtain rfl : fd = fd' := by rw [← hwf.own hfd, ← hwf.own hfd']
    change (r.2.look fd).events &&& fdeventIn ≠ 0 at hin
    rw [FdeTable.look_eq (hevents ▸ hfd), hready e he] at hin
    exact readyEvents_in hbits hin

end Epoll

end GeminiDB
