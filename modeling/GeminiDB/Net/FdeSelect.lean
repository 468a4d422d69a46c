import GeminiDB.Net.Fde
import Mathlib.Data.Finset.Card

/-!
# The select backend (`net/fde_select.cpp`)

`select` is told which descriptors to look at by two sets of bits and by the
largest descriptor, `maxfd`, which `del` and `clr` lower past the objects
without flags. Indices of `events` and of the sets of bits are checked here: a
call that leaves them has no result.
-/

namespace GeminiDB

def fdSetsize : ℕ := 1024

structure Select where
  table : FdeTable
  maxfd : Int
  readset : Finset ℕ
  writeset : Finset ℕ

/-- What `select` comes back with: an error, or the descriptors left in the two sets. -/
inductive Selected where
  | failed (interrupted : Bool)
  | ready (readset writeset : Finset ℕ)

namespace Select

def init : Select := ⟨FdeTable.init, -1, ∅, ∅⟩

/-- `FD_SET` -/
def fdSet (fd : ℕ) (set : Finset ℕ) : Option (Finset ℕ) :=
  if fd < fdSetsize then some (insert fd set) else none

/-- `FD_CLR` -/
def fdClr (fd : ℕ) (set : Finset ℕ) : Option (Finset ℕ) :=
  if fd < fdSetsize then some (set.erase fd) else none

def isset (fd : ℕ) (flag : Flags) (s : Select) : Bool × Select :=
  let g := s.table.getFde fd
  ((g.2.heap g.1).sFlags &&& flag ≠ 0, { s with table := g.2 })

def set (fd : ℕ) (flags : Flags) (dataNum : Int) (dataPtr : ℕ) (s : Select) :
    Option (Int × Select) :=
  if fd > fdSetsize - 1 then some (-1, s)
  else
    let g := s.table.getFde fd
    let fde := g.2.heap g.1
    if fde.sFlags &&& flags ≠ 0 then some (0, { s with table := g.2 })
    else
      (if flags &&& fdeventIn ≠ 0 then fdSet fd s.readset else some s.readset).bind fun readset ↦
        (if flags &&& fdeventOut ≠ 0 then fdSet fd s.writeset else some s.writeset).bind
            fun writeset ↦
          some (0, {
            table := g.2.write g.1
              { fde with sFlags := fde.sFlags ||| flags, dataNum := dataNum, dataPtr := dataPtr }
            maxfd := if fd > s.maxfd then fd else s.maxfd
            readset := readset
            writeset := writeset })

/-- The loop that lowers `maxfd`, from one less than its argument. At -1 `del` stops, while
`clr` looks at `events[-1]`. -/
def lower (stop : Option Int) (t : FdeTable) : ℕ → Option Int
  | 0 => stop
  | n + 1 => (t.events[n]?).bind fun p ↦
      if (t.heap p).sFlags = 0 then lower stop t n else some n

def del (fd : ℕ) (s : Select) : Option (Int × Select) :=
  (fdClr fd s.readset).bind fun readset ↦
    (fdClr fd s.writeset).bind fun writeset ↦
      let g := s.table.getFde fd
      let table := g.2.write g.1 { g.2.heap g.1 with sFlags := fdeventNone }
      (lower (some (-1)) table (s.maxfd + 1).toNat).map fun maxfd ↦
        (0, { table := table, maxfd := maxfd, readset := readset, writeset := writeset })

def clr (fd : ℕ) (flags : Flags) (s : Select) : Option (Int × Select) :=
  let g := s.table.getFde fd
  let fde := g.2.heap g.1
  if fde.sFlags &&& flags = 0 then some (0, { s with table := g.2 })
  else
    (if flags &&& fdeventIn ≠ 0 then fdClr fd s.readset else some s.readset).bind fun readset ↦
      (if flags &&& fdeventOut ≠ 0 then fdClr fd s.writeset else some s.writeset).bind
          fun writeset ↦
        let table := g.2.write g.1 { fde with sFlags := fde.sFlags &&& ~~~flags }
        (lower none table (s.maxfd + 1).toNat).map fun maxfd ↦
          (0, { table := table, maxfd := maxfd, readset := readset, writeset := writeset })

/-- The ready events of a descriptor. -/
def readyFlags (readset writeset : Finset ℕ) (fd : ℕ) : Flags :=
  (if fd ∈ readset then fdeventIn else fdeventNone) |||
    (if fd ∈ writeset then fdeventOut else fdeventNone)

/-- The loop of `wait` from `i` on, with the number of descriptors left. -/
def waitLoop (readset writeset : Finset ℕ) (ret : ℕ) :
    ℕ → ℕ → FdeTable → List ℕ → Option (List ℕ × FdeTable)
  | 0, _, t, readyEvents => some (readyEvents, t)
  | k + 1, i, t, readyEvents =>
      if readyEvents.length < ret then
        (t.events[i]?).bind fun p ↦
          if i < fdSetsize then
            let events := readyFlags readset writeset i
            waitLoop readset writeset ret k (i + 1) (t.write p { t.heap p with events := events })
              (if events ≠ 0 then readyEvents ++ [p] else readyEvents)
          else none
      else some (readyEvents, t)

/-- The list of ready objects, or `NULL`. -/
def wait (selected : Selected) (s : Select) : Option (Option (List ℕ) × Select) :=
  match selected with
  | .failed interrupted => some (if interrupted then some [] else none, s)
  | .ready readset writeset =>
      let ret := readset.card + writeset.card
      if 0 < ret then
        (waitLoop readset writeset ret (s.maxfd + 1).toNat 0 s.table []).map fun r ↦
          (some r.1, { s with table := r.2 })
      else some (some [], s)

inductive Call where
  | set (fd : ℕ) (flags : Flags) (dataNum : Int) (dataPtr : ℕ)
  | clr (fd : ℕ) (flags : Flags)
  | del (fd : ℕ)
  | wait (selected : Selected)

/-- The state after a call. -/
def after (s : Select) : Call → Option Select
  | .set fd flags dataNum dataPtr => (set fd flags dataNum dataPtr s).map Prod.snd
  | .clr fd flags => (clr fd flags s).map Prod.snd
  | .del fd => (del fd s).map Prod.snd
  | .wait selected => (wait selected s).map Prod.snd

/-- Descriptors are below `FD_SETSIZE`, and `select` reports descriptors it was asked for. -/
def Proper (s : Select) : Call → Prop
  | .set fd _ _ _ => fd < fdSetsize
  | .clr fd _ => fd < fdSetsize
  | .del fd => fd < fdSetsize
  | .wait (.failed _) => True
  | .wait (.ready readset writeset) => readset ⊆ s.readset ∧ writeset ⊆ s.writeset ∧
      ∀ fd ∈ readset ∪ writeset, (fd : Int) < s.maxfd + 1

instance (s : Select) (c : Call) : Decidable (Proper s c) :=
  match c with
  | .set _ _ _ _ => inferInstanceAs (Decidable (_ < _))
  | .clr _ _ => inferInstanceAs (Decidable (_ < _))
  | .del _ => inferInstanceAs (Decidable (_ < _))
  | .wait (.failed _) => inferInstanceAs (Decidable True)
  | .wait (.ready _ _) => inferInstanceAs (Decidable (_ ∧ _))

def step (s : Select) (c : Call) : Option Select := if Proper s c then after s c else none

/-! ## The invariant -/

variable {s : Select}

def sFlags (s : Select) : ℕ → Flags := s.table.sFlags

/-- `maxfd` is the largest descriptor with flags, or -1. -/
def Top (flags : ℕ → Flags) (maxfd : Int) : Prop :=
  (maxfd = -1 ∧ ∀ fd, flags fd = 0) ∨
    ∃ top : ℕ, maxfd = top ∧ flags top ≠ 0 ∧ ∀ fd, flags fd ≠ 0 → fd ≤ top

structure Inv (s : Select) : Prop where
  table : s.table.Wf
  top : Top s.sFlags s.maxfd
  read : ∀ fd, fd ∈ s.readset ↔ s.sFlags fd &&& fdeventIn ≠ 0
  write : ∀ fd, fd ∈ s.writeset ↔ s.sFlags fd &&& fdeventOut ≠ 0
  below : ∀ fd, s.sFlags fd ≠ 0 → fd < fdSetsize

theorem inv_init : init.Inv :=
  ⟨FdeTable.wf_init, .inl ⟨rfl, FdeTable.sFlags_init⟩,
    fun fd ↦ by simp [init, sFlags, FdeTable.sFlags_init],
    fun fd ↦ by simp [init, sFlags, FdeTable.sFlags_init],
    fun fd hne ↦ absurd (FdeTable.sFlags_init fd) hne⟩

theorem Top.le {flags : ℕ → Flags} {maxfd : Int} (h : Top flags maxfd) {fd : ℕ}
    (hfd : flags fd ≠ 0) : (fd : Int) ≤ maxfd := by
  rcases h with ⟨-, hzero⟩ | ⟨top, rfl, -, hle⟩
  · exact absurd (hzero fd) hfd
  · exact Int.ofNat_le.mpr (hle fd hfd)

/-- The descriptors up to `maxfd` have objects. -/
theorem Inv.length (h : s.Inv) : (s.maxfd + 1).toNat ≤ s.table.events.length := by
  rcases h.top with ⟨heq, -⟩ | ⟨top, heq, hne, -⟩
  · rw [heq]
    exact Nat.zero_le _
  · have hlt : top < s.table.events.length := by
      by_contra hge
      apply hne
      rw [sFlags, FdeTable.sFlags, FdeTable.look, List.getElem?_eq_none (not_lt.mp hge)]
      rfl
    omega

/-- The loop stops at the largest descriptor with flags, or runs through. -/
theorem lower_spec (stop : Option Int) (t : FdeTable) {n : ℕ} (hn : n ≤ t.events.length)
    (hflags : ∀ fd, t.sFlags fd ≠ 0 → fd < n) :
    (∃ top : ℕ, lower stop t n = some (top : Int) ∧ t.sFlags top ≠ 0 ∧
      ∀ fd, t.sFlags fd ≠ 0 → fd ≤ top) ∨
    (lower stop t n = stop ∧ ∀ fd, t.sFlags fd = 0) := by
  induction n with
  | zero =>
      refine .inr ⟨rfl, fun fd ↦ ?_⟩
      by_contra hne
      exact Nat.not_lt_zero fd (hflags fd hne)
  | succ n ih =>
      have hp := List.getElem?_eq_getElem (show n < t.events.length by omega)
      have hflag := FdeTable.sFlags_eq hp
      rw [lower, hp, Option.bind_some, ← hflag]
      by_cases hzero : t.sFlags n = 0
      · rw [if_pos hzero]
        apply ih (by omega)
        intro fd hne
        have hlt := hflags fd hne
        rcases Nat.lt_succ_iff_lt_or_eq.mp hlt with hlt | rfl
        · exact hlt
        · exact absurd hzero hne
      · rw [if_neg hzero]
        exact .inl ⟨n, rfl, hzero, fun fd hne ↦ Nat.lt_succ_iff.mp (hflags fd hne)⟩

theorem lower_top {stop : Option Int} {t : FdeTable} {n : ℕ} (hn : n ≤ t.events.length)
    (hflags : ∀ fd, t.sFlags fd ≠ 0 → fd < n)
    (hstop : stop = some (-1) ∨ ∃ fd, t.sFlags fd ≠ 0) :
    ∃ maxfd, lower stop t n = some maxfd ∧ Top t.sFlags maxfd := by
  rcases lower_spec stop t hn hflags with ⟨top, heq, hne, hle⟩ | ⟨heq, hzero⟩
  · exact ⟨top, heq, .inr ⟨top, rfl, hne, hle⟩⟩
  · rcases hstop with rfl | ⟨fd, hne⟩
    · exact ⟨-1, heq, .inl ⟨rfl, hzero⟩⟩
    · exact absurd (hzero fd) hne

/-! ## One call -/

theorem Top.set {f : ℕ → Flags} {maxfd : Int} (h : Top f maxfd) {fd : ℕ} {flags : Flags}
    (hflags : flags = 0 → (fd : Int) ≤ maxfd) :
    Top (Function.update f fd (f fd ||| flags))
      (if (fd : Int) > maxfd then (fd : Int) else maxfd) := by
  have hsub {i : ℕ} (hi : Function.update f fd (f fd ||| flags) i ≠ 0) : f i ≠ 0 ∨ i = fd := by
    by_cases heq : i = fd
    · exact .inr heq
    · rw [Function.update_of_ne heq] at hi
      exact .inl hi
  by_cases hgt : (fd : Int) > maxfd
  · rw [if_pos hgt]
    have hne : flags ≠ 0 := fun hzero ↦ absurd (hflags hzero) (by omega)
    refine .inr ⟨fd, rfl, ?_, fun i hi ↦ ?_⟩
    · rw [Function.update_self]
      exact Flags.or_ne_zero hne
    · rcases hsub hi with hi | rfl
      · have := h.le hi
        omega
      · exact le_rfl
  · rw [if_neg hgt]
    rcases h with ⟨rfl, -⟩ | ⟨top, rfl, hne, hle⟩
    · omega
    · refine .inr ⟨top, rfl, ?_, fun i hi ↦ ?_⟩
      · by_cases heq : top = fd
        · rw [heq, Function.update_self]
          rw [heq] at hne
          exact fun hzero ↦ hne (BitVec.or_eq_zero_iff.mp hzero).1
        · rwa [Function.update_of_ne heq]
      · rcases hsub hi with hi | rfl
        · exact hle i hi
        · omega

theorem fdSet_spec {b : Flags} (hb : b.Single) {fd : ℕ} (hfd : fd < fdSetsize) {f : ℕ → Flags}
    {set : Finset ℕ} (hset : ∀ i, i ∈ set ↔ f i &&& b ≠ 0) (flags : Flags) :
    ∃ set', (if flags &&& b ≠ 0 then fdSet fd set else some set) = some set' ∧
      ∀ i, i ∈ set' ↔ Function.update f fd (f fd ||| flags) i &&& b ≠ 0 := by
  by_cases hflag : flags &&& b ≠ 0
  · refine ⟨insert fd set, by rw [if_pos hflag, fdSet, if_pos hfd], fun i ↦ ?_⟩
    rw [Finset.mem_insert]
    by_cases heq : i = fd
    · rw [heq, Function.update_self, hb.or]
      exact iff_of_true (.inl rfl) (.inr hflag)
    · rw [Function.update_of_ne heq, ← hset i]
      simp [heq]
  · refine ⟨set, if_neg hflag, fun i ↦ ?_⟩
    by_cases heq : i = fd
    · rw [heq, Function.update_self, hb.or, or_iff_left hflag]
      exact hset fd
    · rw [Function.update_of_ne heq]
      exact hset i

theorem fdClr_spec {b : Flags} (hb : b.Single) {fd : ℕ} (hfd : fd < fdSetsize) {f : ℕ → Flags}
    {set : Finset ℕ} (hset : ∀ i, i ∈ set ↔ f i &&& b ≠ 0) (flags : Flags) :
    ∃ set', (if flags &&& b ≠ 0 then fdClr fd set else some set) = some set' ∧
      ∀ i, i ∈ set' ↔ Function.update f fd (f fd &&& ~~~flags) i &&& b ≠ 0 := by
  by_cases hflag : flags &&& b ≠ 0
  · refine ⟨set.erase fd, by rw [if_pos hflag, fdClr, if_pos hfd], fun i ↦ ?_⟩
    rw [Finset.mem_erase]
    by_cases heq : i = fd
    · rw [heq, Function.update_self, hb.and_not]
      exact iff_of_false (fun hne ↦ hne.1 rfl) fun hne ↦ hne.2 hflag
    · rw [Function.update_of_ne heq, ← hset i]
      exact and_iff_right heq
  · refine ⟨set, if_neg hflag, fun i ↦ ?_⟩
    by_cases heq : i = fd
    · rw [heq, Function.update_self, hb.and_not, and_iff_left hflag]
      exact hset fd
    · rw [Function.update_of_ne heq]
      exact hset i

theorem Inv.heap_getFde (h : s.Inv) (fd : ℕ) :
    ((s.table.getFde fd).2.heap (s.table.getFde fd).1).sFlags = s.sFlags fd ∧
      ((s.table.getFde fd).2.heap (s.table.getFde fd).1).fd = fd := by
  obtain ⟨hheap, hfd⟩ := h.table.heap_getFde fd
  rw [hheap]
  exact ⟨rfl, hfd⟩

theorem Inv.getFde (h : s.Inv) (fd : ℕ) : Inv { s with table := (s.table.getFde fd).2 } := by
  obtain ⟨hwf, hlook, -, -⟩ := h.table.getFde fd
  have heq : sFlags { s with table := (s.table.getFde fd).2 } = s.sFlags :=
    funext fun i ↦ congrArg Fdevent.sFlags (congrFun hlook i)
  exact ⟨hwf, by rw [heq]; exact h.top, by rw [heq]; exact h.read, by rw [heq]; exact h.write,
    by rw [heq]; exact h.below⟩

theorem Inv.stored (h : s.Inv) {fd : ℕ} (fde : Fdevent) {flags : Flags} (hfd : fde.fd = fd)
    (hflags : fde.sFlags = flags) :
    ((s.table.getFde fd).2.write (s.table.getFde fd).1 fde).Wf ∧
      ((s.table.getFde fd).2.write (s.table.getFde fd).1 fde).sFlags =
        Function.update s.sFlags fd flags ∧
      s.table.events <+: ((s.table.getFde fd).2.write (s.table.getFde fd).1 fde).events := by
  obtain ⟨hwf, hlook, hfront⟩ := h.table.change hfd
  exact ⟨hwf, hflags ▸ FdeTable.sFlags_update hlook, hfront⟩

theorem Inv.set_new (h : s.Inv) {fd : ℕ} (hfd : fd < fdSetsize) {flags : Flags}
    (hnew : s.sFlags fd &&& flags = 0) (dataNum : Int) (dataPtr : ℕ) :
    ∃ s', set fd flags dataNum dataPtr s = some (0, s') ∧ s'.table.Wf ∧
      s'.sFlags = Function.update s.sFlags fd (s.sFlags fd ||| flags) ∧
        s'.maxfd = (if (fd : Int) > s.maxfd then (fd : Int) else s.maxfd) ∧
          (∀ i, i ∈ s'.readset ↔ s'.sFlags i &&& fdeventIn ≠ 0) ∧
            ∀ i, i ∈ s'.writeset ↔ s'.sFlags i &&& fdeventOut ≠ 0 := by
  obtain ⟨hflags, hown⟩ := h.heap_getFde fd
  obtain ⟨readset, hread, hmemr⟩ := fdSet_spec Flags.single_in hfd h.read flags
  obtain ⟨writeset, hwrite, hmemw⟩ := fdSet_spec Flags.single_out hfd h.write flags
  generalize hfde : (s.table.getFde fd).2.heap (s.table.getFde fd).1 = fde at hflags hown
  obtain ⟨hwf, hall, -⟩ := h.stored
    { fde with sFlags := fde.sFlags ||| flags, dataNum := dataNum, dataPtr := dataPtr } hown
    (congrArg (· ||| flags) hflags)
  rw [Select.set, if_neg (by omega)]
  dsimp only
  rw [hfde, if_neg (by rw [hflags]; exact not_not.mpr hnew), hread, Option.bind_some, hwrite,
    Option.bind_some]
  exact ⟨_, rfl, hwf, hall, rfl, fun i ↦ (hmemr i).trans (by rw [← hall]; rfl),
    fun i ↦ (hmemw i).trans (by rw [← hall]; rfl)⟩

theorem Inv.set (h : s.Inv) {fd : ℕ} (hfd : fd < fdSetsize) {flags : Flags}
    (hflags : flags = 0 → (fd : Int) ≤ s.maxfd) (dataNum : Int) (dataPtr : ℕ) :
    ∃ ret s', Select.set fd flags dataNum dataPtr s = some (ret, s') ∧ s'.Inv := by
  by_cases hnew : s.sFlags fd &&& flags = 0
  · obtain ⟨s', heq, hwf, hupdate, hmax, hread, hwrite⟩ := h.set_new hfd hnew dataNum dataPtr
    refine ⟨0, s', heq, hwf, ?_, hread, hwrite, fun i hi ↦ ?_⟩
    · rw [hupdate, hmax]
      exact h.top.set hflags
    · rw [hupdate] at hi
      by_cases heq : i = fd
      · exact heq ▸ hfd
      · rw [Function.update_of_ne heq] at hi
        exact h.below i hi
  · rw [Select.set, if_neg (by omega)]
    dsimp only
    rw [(h.heap_getFde fd).1, if_pos hnew]
    exact ⟨0, _, rfl, h.getFde fd⟩

/-- `clr` and `del` lower `maxfd` to the largest descriptor that still has flags. -/
theorem Inv.lowered (h : s.Inv) {t : FdeTable} (hfront : s.table.events <+: t.events)
    {fd : ℕ} {new : Flags} (hflags : t.sFlags = Function.update s.sFlags fd new)
    (hless : new ≠ 0 → s.sFlags fd ≠ 0) {stop : Option Int}
    (hstop : stop = some (-1) ∨ ∃ i, t.sFlags i ≠ 0) :
    ∃ maxfd, lower stop t (s.maxfd + 1).toNat = some maxfd ∧ Top t.sFlags maxfd ∧
      ∀ i, t.sFlags i ≠ 0 → i < fdSetsize := by
  have hsub {i : ℕ} (hi : t.sFlags i ≠ 0) : s.sFlags i ≠ 0 := by
    rw [hflags] at hi
    by_cases heq : i = fd
    · rw [heq, Function.update_self] at hi
      exact heq ▸ hless hi
    · rwa [Function.update_of_ne heq] at hi
  obtain ⟨maxfd, hmax, htop⟩ := lower_top (h.length.trans hfront.length_le)
    (fun i hi ↦ by have := h.top.le (hsub hi); omega) hstop
  exact ⟨maxfd, hmax, htop, fun i hi ↦ h.below i (hsub hi)⟩

theorem Inv.clr (h : s.Inv) {fd : ℕ} (hfd : fd < fdSetsize) {flags : Flags}
    (hlast : s.sFlags fd &&& flags ≠ 0 →
      ∃ i, Function.update s.sFlags fd (s.sFlags fd &&& ~~~flags) i ≠ 0) :
    ∃ ret s', Select.clr fd flags s = some (ret, s') ∧ s'.Inv := by
  obtain ⟨hflags, hown⟩ := h.heap_getFde fd
  by_cases hhas : s.sFlags fd &&& flags = 0
  · rw [Select.clr]
    dsimp only
    rw [hflags, if_pos hhas]
    exact ⟨0, _, rfl, h.getFde fd⟩
  · obtain ⟨readset, hread, hmemr⟩ := fdClr_spec Flags.single_in hfd h.read flags
    obtain ⟨writeset, hwrite, hmemw⟩ := fdClr_spec Flags.single_out hfd h.write flags
    generalize hfde : (s.table.getFde fd).2.heap (s.table.getFde fd).1 = fde at hflags hown
    obtain ⟨hwf, hall, hfront⟩ := h.stored { fde with sFlags := fde.sFlags &&& ~~~flags } hown
      (congrArg (· &&& ~~~flags) hflags)
    obtain ⟨maxfd, hmax, htop, hbelow⟩ := h.lowered hfront hall
      (fun hne hzero ↦ hne (by simp [hzero])) (.inr (by rw [hall]; exact hlast hhas))
    rw [Select.clr]
    dsimp only
    rw [hfde, if_neg (by rw [hflags]; exact hhas), hread, Option.bind_some, hwrite,
      Option.bind_some, hmax]
    exact ⟨0, _, rfl, hwf, htop, fun i ↦ (hmemr i).trans (by rw [← hall]; rfl),
      fun i ↦ (hmemw i).trans (by rw [← hall]; rfl), hbelow⟩

theorem Inv.del (h : s.Inv) {fd : ℕ} (hfd : fd < fdSetsize) :
    ∃ ret s', Select.del fd s = some (ret, s') ∧ s'.Inv := by
  obtain ⟨-, hown⟩ := h.heap_getFde fd
  generalize hfde : (s.table.getFde fd).2.heap (s.table.getFde fd).1 = fde at hown
  obtain ⟨hwf, hall, hfront⟩ := h.stored { fde with sFlags := fdeventNone } hown rfl
  obtain ⟨maxfd, hmax, htop, hbelow⟩ := h.lowered hfront hall
    (fun hne ↦ absurd rfl hne) (.inl rfl)
  have hmem {b : Flags} {set : Finset ℕ} (hset : ∀ i, i ∈ set ↔ s.sFlags i &&& b ≠ 0) (i : ℕ) :
      i ∈ set.erase fd ↔ Function.update s.sFlags fd fdeventNone i &&& b ≠ 0 := by
    rw [Finset.mem_erase]
    by_cases heq : i = fd
    · rw [heq, Function.update_self]
      exact iff_of_false (fun hne ↦ hne.1 rfl) fun hne ↦ hne (by simp [fdeventNone])
    · rw [Function.update_of_ne heq, ← hset i]
      exact and_iff_right heq
  rw [Select.del, fdClr, if_pos hfd, Option.bind_some, fdClr, if_pos hfd, Option.bind_some]
  dsimp only
  rw [hfde, hmax]
  exact ⟨0, _, rfl, hwf, htop, fun i ↦ (hmem h.read i).trans (by rw [← hall]; rfl),
    fun i ↦ (hmem h.write i).trans (by rw [← hall]; rfl), hbelow⟩

/-! ## The loop of `wait` -/

/-- The objects of the descriptors `fds`, each with the events it is ready for. -/
def Found (t : FdeTable) (readset writeset : Finset ℕ) : List ℕ → List ℕ → Prop :=
  List.Forall₂ fun fd p ↦ t.events[fd]? = some p ∧ (t.heap p).fd = fd ∧
    (t.heap p).events = readyFlags readset writeset fd

theorem readyFlags_ne_zero {r w : Finset ℕ} {fd : ℕ} :
    readyFlags r w fd ≠ 0 ↔ fd ∈ r ∪ w := by
  rw [readyFlags, Finset.mem_union]
  by_cases hr : fd ∈ r <;> by_cases hw : fd ∈ w <;> simp only [hr, hw] <;> decide

theorem Found.write {t : FdeTable} {r w : Finset ℕ} {fds ready : List ℕ} (h : Found t r w fds ready)
    (hwf : t.Wf) {i p : ℕ} (hp : t.events[i]? = some p) (hi : i ∉ fds) (fde : Fdevent) :
    Found (t.write p fde) r w fds ready := by
  induction h with
  | nil => exact .nil
  | @cons fd q fds ready hhead htail ih =>
      obtain ⟨hne, hi⟩ := not_or.mp (mt List.mem_cons.mpr hi)
      obtain ⟨hq, hfd, hevents⟩ := hhead
      have hqp : q ≠ p := fun heq ↦ hne (by rw [← hwf.own hp, ← heq, hfd])
      have hother := FdeTable.heap_write_of_ne hqp fde t
      exact .cons ⟨hq, by rw [hother, hfd], by rw [hother, hevents]⟩ (ih hi)

/-- From `i` on the loop finds the ready descriptors in order, until there are `ret` of them. -/
theorem waitLoop_spec (r w : Finset ℕ) (ret : ℕ) {k i : ℕ} {t : FdeTable} {ready : List ℕ}
    (hwf : t.Wf) (hlength : i + k ≤ t.events.length) (hsize : i + k ≤ fdSetsize)
    (hready : Found t r w ((List.range i).filter (· ∈ r ∪ w)) ready) :
    ∃ ready' t' j, waitLoop r w ret k i t ready = some (ready', t') ∧ t'.Wf ∧
      t'.sFlags = t.sFlags ∧ t'.events = t.events ∧
        Found t' r w ((List.range j).filter (· ∈ r ∪ w)) ready' ∧
          (j = i + k ∨ ret ≤ ready'.length) := by
  induction k generalizing i t ready with
  | zero => exact ⟨ready, t, i, rfl, hwf, rfl, rfl, hready, .inl rfl⟩
  | succ k ih =>
      by_cases hmore : ready.length < ret
      · have hp := List.getElem?_eq_getElem (show i < t.events.length by omega)
        generalize t.events[i] = p at hp
        obtain ⟨hwf', hlook⟩ := hwf.write hp
          (show ({ t.heap p with events := readyFlags r w i } : Fdevent).fd = i from hwf.own hp)
        have hsame : Function.update t.sFlags i (t.heap p).sFlags = t.sFlags := by
          rw [← FdeTable.sFlags_eq hp, Function.update_eq_self]
        have hold := hready.write hwf hp (by simp)
          { t.heap p with events := readyFlags r w i }
        have hnext : Found (t.write p { t.heap p with events := readyFlags r w i }) r w
            ((List.range (i + 1)).filter (· ∈ r ∪ w))
            (if readyFlags r w i ≠ 0 then ready ++ [p] else ready) := by
          rw [List.range_succ, List.filter_append]
          by_cases hbits : readyFlags r w i ≠ 0
          · rw [if_pos hbits, List.filter_cons_of_pos (by simpa using readyFlags_ne_zero.mp hbits)]
            refine List.rel_append hold (.cons ⟨hp, ?_, ?_⟩ .nil)
            · rw [FdeTable.heap_write_self]
              exact hwf.own hp
            · rw [FdeTable.heap_write_self]
          · rw [if_neg hbits, List.filter_cons_of_neg
              (by simpa using mt readyFlags_ne_zero.mpr hbits), List.filter_nil, List.append_nil]
            exact hold
        obtain ⟨ready', t', j, heq, hwf'', hflags', hevents, hfound, hend⟩ :=
          ih hwf' (by rw [FdeTable.events_write]; omega) (by omega) hnext
        rw [waitLoop, if_pos hmore, hp, Option.bind_some, if_pos (by omega)]
        exact ⟨ready', t', j, heq, hwf'',
          hflags'.trans ((FdeTable.sFlags_update hlook).trans hsame), hevents, hfound, by omega⟩
      · rw [waitLoop, if_neg hmore]
        exact ⟨ready, t, i, rfl, hwf, rfl, rfl, hready, .inr (by omega)⟩

/-- `wait` returns each ready descriptor once, with its ready events. -/
def Reports (t : FdeTable) (readset writeset : Finset ℕ) (readyEvents : List ℕ) : Prop :=
  ∃ fds : List ℕ, fds.Nodup ∧ (∀ fd, fd ∈ fds ↔ fd ∈ readset ∪ writeset) ∧
    Found t readset writeset fds readyEvents

theorem Inv.events (h : s.Inv) {t : FdeTable} (hwf : t.Wf) (hflags : t.sFlags = s.table.sFlags) :
    Inv { s with table := t } := by
  have heq : sFlags { s with table := t } = s.sFlags := hflags
  exact ⟨hwf, by rw [heq]; exact h.top, by rw [heq]; exact h.read, by rw [heq]; exact h.write,
    by rw [heq]; exact h.below⟩

theorem Inv.wait (h : s.Inv) {r w : Finset ℕ}
    (hasked : ∀ fd ∈ r ∪ w, (fd : Int) < s.maxfd + 1) :
    ∃ readyEvents s', Select.wait (.ready r w) s = some (some readyEvents, s') ∧ s'.Inv ∧
      Reports s'.table r w readyEvents := by
  rw [Select.wait]
  by_cases hret : 0 < r.card + w.card
  · obtain ⟨ready, t, j, heq, hwf, hflags, -, hfound, hend⟩ :=
      waitLoop_spec r w (r.card + w.card) (k := (s.maxfd + 1).toNat) (i := 0) h.table
        (by have := h.length; omega) (by
          rcases h.top with ⟨hmax, -⟩ | ⟨top, hmax, hne, -⟩
          · rw [hmax]
            exact Nat.zero_le _
          · have := h.below top hne
            omega) .nil
    rw [if_pos hret, heq]
    refine ⟨ready, _, rfl, h.events hwf hflags, _, List.nodup_range.filter _, fun fd ↦ ?_, hfound⟩
    rcases hend with hj | hcount
    · rw [List.mem_filter, List.mem_range, decide_eq_true_iff]
      apply and_iff_right_of_imp
      intro hfd
      have := hasked fd hfd
      omega
    · -- As many as `select` counted bits, hence all of them.
      have hsub : ((List.range j).filter (· ∈ r ∪ w)).toFinset ⊆ r ∪ w := fun i hi ↦ by
        simpa using (List.mem_filter.mp (List.mem_toFinset.mp hi)).2
      have hcard : (r ∪ w).card ≤ ((List.range j).filter (· ∈ r ∪ w)).toFinset.card := by
        rw [List.toFinset_card_of_nodup (List.nodup_range.filter _), hfound.length_eq]
        exact (Finset.card_union_le r w).trans hcount
      rw [← List.mem_toFinset, Finset.eq_of_subset_of_card_le hsub hcard]
  · obtain ⟨hr, hw⟩ : r = ∅ ∧ w = ∅ := by
      rw [← Finset.card_eq_zero, ← Finset.card_eq_zero]
      omega
    subst hr hw
    exact ⟨[], s, rfl, h, [], List.nodup_nil, by simp, .nil⟩

/-! ## Runs -/

/-- A call stays in range and leaves `maxfd` and the two sets as the flags have them, and
`wait` returns what `select` reported. -/
def Good (s : Select) (c : Call) : Prop :=
  Proper s c → (∃ s', after s c = some s' ∧ Top s'.sFlags s'.maxfd ∧
      (∀ fd, fd ∈ s'.readset ↔ s'.sFlags fd &&& fdeventIn ≠ 0) ∧
        ∀ fd, fd ∈ s'.writeset ↔ s'.sFlags fd &&& fdeventOut ≠ 0) ∧
    ∀ r w, c = .wait (.ready r w) → ∃ readyEvents s',
      wait (.ready r w) s = some (some readyEvents, s') ∧ Reports s'.table r w readyEvents

/-- `set` without flags does not go beyond `maxfd`, and `clr` leaves some flag of some
descriptor. -/
def Allowed (s : Select) (c : Call) : Prop :=
  Proper s c → match c with
    | .set fd flags _ _ => flags = 0 → (fd : Int) ≤ s.maxfd
    | .clr fd flags => s.sFlags fd &&& flags ≠ 0 →
        s.sFlags fd &&& ~~~flags ≠ 0 ∨ ∃ fd', fd' ≠ fd ∧ s.sFlags fd' ≠ 0
    | .del _ => True
    | .wait _ => True

theorem update_ne_zero_iff {f : ℕ → Flags} {fd : ℕ} {new : Flags} :
    (∃ i, Function.update f fd new i ≠ 0) ↔ new ≠ 0 ∨ ∃ i, i ≠ fd ∧ f i ≠ 0 := by
  constructor
  · rintro ⟨i, hi⟩
    by_cases heq : i = fd
    · rw [heq, Function.update_self] at hi
      exact .inl hi
    · rw [Function.update_of_ne heq] at hi
      exact .inr ⟨i, heq, hi⟩
  · rintro (hnew | ⟨i, hne, hi⟩)
    · exact ⟨fd, by rwa [Function.update_self]⟩
    · exact ⟨i, by rwa [Function.update_of_ne hne]⟩

theorem Inv.allowed (h : s.Inv) {c : Call} (hc : Proper s c) (ha : Allowed s c) :
    (∃ s', after s c = some s' ∧ s'.Inv) ∧
      ∀ r w, c = .wait (.ready r w) → ∃ readyEvents s',
        Select.wait (.ready r w) s = some (some readyEvents, s') ∧
          Reports s'.table r w readyEvents := by
  cases c with
  | set fd flags dataNum dataPtr =>
      obtain ⟨ret, s', heq, hinv⟩ := h.set hc (ha hc) dataNum dataPtr
      exact ⟨⟨s', by rw [after, heq]; rfl, hinv⟩, fun r w hrw ↦ by cases hrw⟩
  | clr fd flags =>
      obtain ⟨ret, s', heq, hinv⟩ := h.clr hc fun hhas ↦ update_ne_zero_iff.mpr (ha hc hhas)
      exact ⟨⟨s', by rw [after, heq]; rfl, hinv⟩, fun r w hrw ↦ by cases hrw⟩
  | del fd =>
      obtain ⟨ret, s', heq, hinv⟩ := h.del hc
      exact ⟨⟨s', by rw [after, heq]; rfl, hinv⟩, fun r w hrw ↦ by cases hrw⟩
  | wait selected =>
      cases selected with
      | failed interrupted =>
          exact ⟨⟨s, rfl, h⟩, fun r w hrw ↦ by cases hrw⟩
      | ready r w =>
          obtain ⟨readyEvents, s', heq, hinv, hreports⟩ := h.wait hc.2.2
          refine ⟨⟨s', by rw [after, heq]; rfl, hinv⟩, ?_⟩
          rintro _ _ ⟨⟩
          exact ⟨readyEvents, s', heq, hreports⟩

/-- Without a flag left the loop of `clr` runs into `events[-1]`. -/
theorem Inv.clr_last (h : s.Inv) {fd : ℕ} {flags : Flags} (hhas : s.sFlags fd &&& flags ≠ 0)
    (hlast : ∀ i, Function.update s.sFlags fd (s.sFlags fd &&& ~~~flags) i = 0) :
    Select.clr fd flags s = none := by
  obtain ⟨hflags, hown⟩ := h.heap_getFde fd
  generalize hfde : (s.table.getFde fd).2.heap (s.table.getFde fd).1 = fde at hflags hown
  obtain ⟨-, hall, hfront⟩ := h.stored { fde with sFlags := fde.sFlags &&& ~~~flags } hown
    (congrArg (· &&& ~~~flags) hflags)
  have hzero (i : ℕ) := (congrFun hall i).trans (hlast i)
  rw [Select.clr]
  dsimp only
  rw [hfde, if_neg (by rw [hflags]; exact hhas)]
  rcases lower_spec none _ (h.length.trans hfront.length_le) (fun i hi ↦ absurd (hzero i) hi) with
    ⟨top, -, hne, -⟩ | ⟨hnone, -⟩
  · exact absurd (hzero top) hne
  · rw [hnone]
    cases hr : (if flags &&& fdeventIn ≠ 0 then fdClr fd s.readset else some s.readset) with
    | none => rfl
    | some readset =>
        cases hw : (if flags &&& fdeventOut ≠ 0 then fdClr fd s.writeset else some s.writeset) with
        | none => rfl
        | some writeset => rfl

theorem Inv.allowed_of_good (h : s.Inv) {c : Call} (hgood : Good s c) : Allowed s c := by
  intro hc
  obtain ⟨⟨s', hafter, htop, -⟩, -⟩ := hgood hc
  cases c with
  | set fd flags dataNum dataPtr =>
      intro hzero
      by_contra hgt
      subst hzero
      have hnew : s.sFlags fd &&& 0 = 0 := by simp
      obtain ⟨t, heq, -, hflags, hmax, -⟩ := h.set_new hc hnew dataNum dataPtr
      obtain rfl : t = s' := by
        rw [after, heq] at hafter
        exact Option.some.inj hafter
      have hnone : s.sFlags fd = 0 := by
        by_contra hne
        exact hgt (h.top.le hne)
      rw [if_pos (not_le.mp hgt)] at hmax
      rw [hflags, hmax, hnone] at htop
      rcases htop with ⟨hneg, -⟩ | ⟨top, heq, hne, -⟩
      · omega
      · obtain rfl := Int.ofNat_inj.mp heq
        exact hne (by rw [Function.update_self]; simp)
  | clr fd flags =>
      intro hhas
      by_contra hnot
      have hlast (i : ℕ) : Function.update s.sFlags fd (s.sFlags fd &&& ~~~flags) i = 0 := by
        by_contra hne
        exact hnot (update_ne_zero_iff.mp ⟨i, hne⟩)
      rw [after, h.clr_last hhas hlast] at hafter
      cases hafter
  | del fd => trivial
  | wait selected => trivial

theorem Inv.good_iff_allowed (h : s.Inv) (c : Call) : Good s c ↔ Allowed s c := by
  refine ⟨h.allowed_of_good, fun ha hc ↦ ?_⟩
  obtain ⟨⟨s', hafter, hinv⟩, hwait⟩ := h.allowed hc ha
  exact ⟨⟨s', hafter, hinv.top, hinv.read, hinv.write⟩, hwait⟩

/-- In a run of proper calls all is as it should be just when every call is allowed. -/
theorem maxfd_correct_iff (calls : List Call) :
    (∀ before c, before ++ [c] <+: calls →
      ∀ s, Machine.run step init before = some s → Good s c) ↔
    ∀ before c, before ++ [c] <+: calls →
      ∀ s, Machine.run step init before = some s → Allowed s c := by
  refine Machine.forall_steps_iff (P := Inv) inv_init (fun s c t hs ha hstep ↦ ?_)
    (fun _ c hs ↦ hs.good_iff_allowed c) calls
  rw [step] at hstep
  split at hstep
  · rename_i hproper
    obtain ⟨⟨s', hafter, hinv⟩, -⟩ := hs.allowed hproper ha
    rw [hafter] at hstep
    exact Option.some.inj hstep ▸ hinv
  · cases hstep

/-- One subscription, and its end by `clr`. -/
theorem not_maxfd_correct :
    ¬ ∀ calls : List Call, ∀ before c, before ++ [c] <+: calls →
      ∀ s, Machine.run step init before = some s → Good s c := by
  intro hall
  have hrun : (Machine.run step init [.set 5 fdeventIn 0 0]).isSome = true := by decide +kernel
  obtain ⟨s, hs⟩ := Option.isSome_iff_exists.mp hrun
  have hgood := hall [.set 5 fdeventIn 0 0, .clr 5 fdeventIn] [.set 5 fdeventIn 0 0] _
    (List.prefix_refl _) s hs
  obtain ⟨s', hs', -⟩ := (hgood (show 5 < fdSetsize by decide)).1
  have hnone : (Machine.run step init [.set 5 fdeventIn 0 0]).bind
      (after · (.clr 5 fdeventIn)) = none := by decide +kernel
  rw [hs, Option.bind_some, hs'] at hnone
  cases hnone

end Select

end GeminiDB
