import GeminiDB.Lib.Expansion

/-!
# Critical sections are atomic

Threads share a state and a lock, and any of them may perform its next operation. An
operation of a program is implemented without operations, by one that reads, or by a
critical section that takes effect at one of its operations. Then every interleaving
does what the programs do when their own operations are indivisible.
-/

namespace Program

universe u u' w

/-- The operations of threads that share a lock. -/
inductive LockOp (Op : Type u) : Type u where
  | op (o : Op)
  | lock
  | unlock

variable {Op : Type u} {Res : Op → Type w} {Op' : Type u'} {Res' : Op' → Type w} {α : Type w}
  {E E' σ σ' ι : Type*}

abbrev LockOp.Result (Res : Op → Type w) : LockOp Op → Type w
  | .op o => Res o
  | .lock => PUnit
  | .unlock => PUnit

/-- Taking the lock enters the critical section, releasing it leaves. -/
def Interface.withLock (I : Interface Op Res E σ) :
    Interface (LockOp Op) (LockOp.Result Res) E σ where
  exec
    | .op o, x, s => I.exec o x s
    | .lock, _, s => (⟨⟩, I.enter s)
    | .unlock, _, s => (⟨⟩, I.leave s)
  enter := id
  leave := id

/-- A program that takes no lock. -/
def Prog.free (p : Prog Op Res α) : Prog (LockOp Op) (LockOp.Result Res) α :=
  p.expand fun o ↦ .call (.op o) .ret

/-- A call with its lock. -/
def Call.locked : Call Op Res α → Prog (LockOp Op) (LockOp.Result Res) α
  | .plain a => .ret a
  | .guarded body => .call .lock fun _ ↦ body.free >>= fun a ↦ .call .unlock fun _ ↦ .ret a

/-! ## Running alone -/

theorem Prog.run_free (I : Interface Op Res E σ) (p : Prog Op Res α) (e : ℕ → E) (s : σ) :
    p.free.run I.withLock e s = p.run I e s := by
  induction p generalizing e s with
  | ret a => rfl
  | call op next ih => exact ih _ (later e) _

/-- The environment that a call meets behind the lock. -/
theorem Call.run_locked (I : Interface Op Res E σ) (c : Call Op Res α) (e : ℕ → E) (s : σ) :
    ∃ e', (∀ P : E → Prop, (∀ n, P (e n)) → ∀ n, P (e' n)) ∧
      c.run I e' s = ((c.locked.run I.withLock e s).val, (c.locked.run I.withLock e s).state) := by
  cases c with
  | plain a => exact ⟨e, fun _ he ↦ he, rfl⟩
  | guarded body =>
      refine ⟨later e, fun _ he n ↦ he (n + 1), ?_⟩
      have hbody := Prog.run_free I body (later e) (I.enter s)
      simp only [locked, Call.run_guarded, Prog.run_call, Prog.run_bind, Prog.run_ret]
      change _ = ((body.free.run I.withLock (later e) (I.enter s)).val,
        I.leave (body.free.run I.withLock (later e) (I.enter s)).state)
      rw [hbody]

theorem Prog.All.free {P : Op → Prop} {Q : LockOp Op → Prop} (hPQ : ∀ o, P o → Q (.op o))
    {p : Prog Op Res α} (hp : p.All P) : p.free.All Q := by
  refine Prog.All.expand (P := P) _ ?_ hp
  intro o ho
  exact ⟨hPQ o ho, fun _ ↦ trivial⟩

/-- What is left of the threads' programs, the shared state, and the owner of the lock. -/
structure Threads (ι : Type*) (Op : Type u) (Res : Op → Type w) (σ : Type*) (α : Type w) where
  shared : σ
  owner : Option ι
  rest : ι → Option (Prog (LockOp Op) (LockOp.Result Res) α)

/-- The same with indivisible operations. -/
structure Atomic (ι : Type*) (Op : Type u) (Res : Op → Type w) (σ : Type*) (α : Type w) where
  shared : σ
  rest : ι → Option (Prog Op Res α)

variable [DecidableEq ι]

/-- Start a program in a thread, or end the thread. -/
def Threads.put (i : ι) (p : Option (Prog (LockOp Op) (LockOp.Result Res) α))
    (c : Threads ι Op Res σ α) : Threads ι Op Res σ α :=
  { c with rest := Function.update c.rest i p }

def Atomic.put (i : ι) (p : Option (Prog Op Res α)) (a : Atomic ι Op Res σ α) :
    Atomic ι Op Res σ α :=
  { a with rest := Function.update a.rest i p }

/-- The next operation of a thread. A lock that is taken has to be waited for. -/
def Threads.exec (I : Interface Op Res E σ) (i : ι) (x : E) (c : Threads ι Op Res σ α) :
    Option (Threads ι Op Res σ α) :=
  match c.rest i with
  | some (.call (.op o) next) =>
      some { c.put i (some (next (I.exec o x c.shared).1)) with
        shared := (I.exec o x c.shared).2 }
  | some (.call .lock next) =>
      if c.owner.isNone then
        some { c.put i (some (next ⟨⟩)) with shared := I.enter c.shared, owner := some i }
      else none
  | some (.call .unlock next) =>
      some { c.put i (some (next ⟨⟩)) with shared := I.leave c.shared, owner := none }
  | some (.ret _) => none
  | none => none

def Atomic.exec (I : Interface Op Res E σ) (i : ι) (x : E) (a : Atomic ι Op Res σ α) :
    Option (Atomic ι Op Res σ α) :=
  match a.rest i with
  | some (.call o next) =>
      some { a.put i (some (next (I.exec o x a.shared).1)) with
        shared := (I.exec o x a.shared).2 }
  | some (.ret _) => none
  | none => none

/-- An operation goes on with one program, and only `lock` and `unlock` change the owner. -/
theorem Threads.exec_cases {I : Interface Op Res E σ} {i : ι} {x : E}
    {c c' : Threads ι Op Res σ α} (h : c.exec I i x = some c') :
    ∃ op next v, c.rest i = some (.call op next) ∧
      c'.rest = Function.update c.rest i (some (next v)) ∧
        (c'.owner = c.owner ∨ op = .lock ∧ c'.owner = some i ∨ op = .unlock ∧ c'.owner = none) := by
  rw [exec] at h
  split at h
  · next hrest =>
    cases h
    exact ⟨_, _, _, hrest, rfl, .inl rfl⟩
  · next hrest =>
    split at h
    · cases h
      exact ⟨_, _, _, hrest, rfl, .inr (.inl ⟨rfl, rfl⟩)⟩
    · cases h
  · next hrest =>
    cases h
    exact ⟨_, _, _, hrest, rfl, .inr (.inr ⟨rfl, rfl⟩)⟩
  · cases h
  · cases h

/-- An operation starts no thread. -/
theorem Threads.exec_absent {I : Interface Op Res E σ} {i j : ι} {x : E}
    {c c' : Threads ι Op Res σ α} (h : c.exec I i x = some c') (hnone : c.rest j = none) :
    c'.rest j = none := by
  obtain ⟨op, next, v, hrest, hrest', -⟩ := exec_cases h
  have hj : j ≠ i := by
    rintro rfl
    cases hnone.symm.trans hrest
  rw [hrest', Function.update_of_ne hj, hnone]

/-- Some operations of one thread, in environments that `ok` admits. -/
def Atomic.Steps (I : Interface Op Res E σ) (ok : E → Prop) (i : ι) :
    Atomic ι Op Res σ α → Atomic ι Op Res σ α → Prop :=
  Relation.ReflTransGen fun a b ↦ ∃ x, ok x ∧ a.exec I i x = some b

/-! ## What implementations look like -/

section Shape

variable (I : Interface Op Res E σ) (J : Interface Op' Res' E' σ') (R : σ → σ' → Prop)

/-- Whatever the shared state stands for, it does so after the operation. -/
def Quiet (o : Op) : Prop := ∀ x s t, R s t → R (I.exec o x s).2 t

/-- The rest of a critical section that has had no effect: quiet operations up to its
end or up to the one that takes effect, whose result decides what is returned. -/
def Inside {β : Type w} : Prog (LockOp Op) (LockOp.Result Res) β → Prop
  | .ret _ => False
  | .call .lock _ => False
  | .call .unlock next => ∃ b, next ⟨⟩ = .ret b
  | .call (.op o) next => (Quiet I R o ∧ ∀ r, Inside (next r)) ∨
      ∀ r, ∃ b, next r = .call .unlock fun _ ↦ .ret b

/-- An operation without effect is implemented by one that reads or by none at all, any
other one by a critical section. -/
def Sectioned (o : Op') : Prog (LockOp Op) (LockOp.Result Res) (Res' o) → Prop
  | .ret _ => ∀ x t, (J.exec o x t).2 = t
  | .call .lock next => Inside I R (next ⟨⟩)
  | .call .unlock _ => False
  | .call (.op r) next => (∀ x s, (I.exec r x s).2 = s) ∧ (∀ v, ∃ b, next v = .ret b) ∧
      ∀ x t, (J.exec o x t).2 = t

/-- The programs that take effect at one operation, the last one. -/
def Once {β : Type w} : Prog Op Res β → Prop
  | .ret _ => True
  | .call o next => (Quiet I R o ∧ ∀ r, Once (next r)) ∨ ∀ r, ∃ b, next r = .ret b

variable {I R}

theorem Once.bind {β γ : Type w} {p : Prog Op Res β} {g : β → Prog Op Res γ}
    (hp : p.All (Quiet I R)) (hg : ∀ b, Once I R (g b)) : Once I R (p >>= g) := by
  induction p with
  | ret b => exact hg b
  | call o next ih => exact .inl ⟨hp.1, fun r ↦ ih r (hp.2 r)⟩

theorem Once.map {β γ : Type w} {p : Prog Op Res β} (hp : Once I R p) (g : β → γ) :
    Once I R (p >>= fun b ↦ .ret (g b)) := by
  induction p with
  | ret b => trivial
  | call o next ih =>
      rcases hp with ⟨hquiet, hrest⟩ | hlast
      · exact .inl ⟨hquiet, fun r ↦ ih r (hrest r)⟩
      · right
        intro r
        obtain ⟨b, hb⟩ := hlast r
        exact ⟨g b, congrArg (· >>= fun b ↦ .ret (g b)) hb⟩

theorem Once.inside {β : Type w} {p : Prog Op Res β} (hp : Once I R p) :
    Inside I R (p.free >>= fun a ↦ .call .unlock fun _ ↦ .ret a) := by
  induction p with
  | ret b => exact ⟨b, rfl⟩
  | call o next ih =>
      rcases hp with ⟨hquiet, hrest⟩ | hlast
      · exact .inl ⟨hquiet, fun r ↦ ih r (hrest r)⟩
      · right
        intro r
        obtain ⟨b, hb⟩ := hlast r
        refine ⟨b, ?_⟩
        change (next r).free >>= _ = _
        rw [hb]
        rfl

end Shape

/-! ## The simulation -/

section Simulation

variable {I : Interface Op Res E σ} {J : Interface Op' Res' E' σ'} {R : σ → σ' → Prop}
  {okI : E → Prop} {okJ : E' → Prop} {f : (o : Op') → Prog (LockOp Op) (LockOp.Result Res) (Res' o)}

/-- What implementations with a lock have to meet. -/
structure Sound (I : Interface Op Res E σ) (J : Interface Op' Res' E' σ') (R : σ → σ' → Prop)
    (okI : E → Prop) (okJ : E' → Prop)
    (f : (o : Op') → Prog (LockOp Op) (LockOp.Result Res) (Res' o)) : Prop where
  implements : Implements I.withLock J R okI okJ f
  sectioned : ∀ o, Sectioned I J R o (f o)
  enter : ∀ {s t}, R s t → R (I.enter s) t
  leave : ∀ {s t}, R (I.leave s) t ↔ R s t
  env : ∃ x, okI x

/-- How far a thread is with its current operation: not begun, inside the critical section
but without effect, or about to release the lock. -/
inductive Under (I : Interface Op Res E σ) (R : σ → σ' → Prop) (okI : E → Prop)
    (f : (o : Op') → Prog (LockOp Op) (LockOp.Result Res) (Res' o)) (c : Threads ι Op Res σ α)
    (a : Atomic ι Op' Res' σ' α) (i : ι) : Prop
  | absent (hc : c.rest i = none) (ha : a.rest i = none) (howner : c.owner ≠ some i)
  | between {p : Prog Op' Res' α} (hc : c.rest i = some (p.expand f)) (ha : a.rest i = some p)
      (howner : c.owner ≠ some i)
  | inside {o : Op'} {next : Res' o → Prog Op' Res' α}
      {q : Prog (LockOp Op) (LockOp.Result Res) (Res' o)} {s : σ}
      (hc : c.rest i = some (q >>= fun b ↦ (next b).expand f))
      (ha : a.rest i = some (.call o next)) (howner : c.owner = some i) (hinside : Inside I R q)
      (hbegun : R s a.shared) (hsteps : Prog.Steps I.withLock okI (f o, s) (q, c.shared))
  | leaving {p : Prog Op' Res' α} (hc : c.rest i = some (.call .unlock fun _ ↦ p.expand f))
      (ha : a.rest i = some p) (howner : c.owner = some i)

structure Linked (I : Interface Op Res E σ) (R : σ → σ' → Prop) (okI : E → Prop)
    (f : (o : Op') → Prog (LockOp Op) (LockOp.Result Res) (Res' o)) (c : Threads ι Op Res σ α)
    (a : Atomic ι Op' Res' σ' α) : Prop where
  shared : R c.shared a.shared
  thread : ∀ i, Under I R okI f c a i

variable {c c' : Threads ι Op Res σ α} {a a' : Atomic ι Op' Res' σ' α} {i : ι}

omit [DecidableEq ι] in
/-- A thread does not notice what the others do while it does not own the lock, and they
do nothing to the states while it does. -/
theorem Under.frame {j : ι} (h : Under I R okI f c a j) (hc : c'.rest j = c.rest j)
    (ha : a'.rest j = a.rest j) (howner : c'.owner = some j ↔ c.owner = some j)
    (hstates : c.owner = some j → c'.shared = c.shared ∧ a'.shared = a.shared) :
    Under I R okI f c' a' j := by
  cases h with
  | absent hnone habsent hnot =>
      exact .absent (hc.trans hnone) (ha.trans habsent) (mt howner.mp hnot)
  | between hrest hprog hnot =>
      exact .between (hc.trans hrest) (ha.trans hprog) (mt howner.mp hnot)
  | inside hrest hprog hmine hinside hbegun hsteps =>
      obtain ⟨hshared, habstract⟩ := hstates hmine
      rw [← hshared] at hsteps
      rw [← habstract] at hbegun
      exact .inside (hc.trans hrest) (ha.trans hprog) (howner.mpr hmine) hinside hbegun hsteps
  | leaving hrest hprog hmine =>
      exact .leaving (hc.trans hrest) (ha.trans hprog) (howner.mpr hmine)

/-- A new program in a thread, or none. -/
theorem Linked.put (h : Linked I R okI f c a) (howner : c.owner ≠ some i)
    (p : Option (Prog Op' Res' α)) :
    Linked I R okI f (c.put i (p.map (Prog.expand f))) (a.put i p) := by
  refine ⟨h.shared, fun j ↦ ?_⟩
  by_cases hj : j = i
  · subst hj
    cases p with
    | none => exact .absent (by simp [Threads.put]) (by simp [Atomic.put]) howner
    | some p => exact .between (p := p) (by simp [Threads.put]) (by simp [Atomic.put]) howner
  · exact (h.thread j).frame (by simp [Threads.put, hj]) (by simp [Atomic.put, hj]) Iff.rfl
      fun _ ↦ ⟨rfl, rfl⟩

omit [DecidableEq ι] in
theorem Linked.absent (h : Linked I R okI f c a) (hnone : c.rest i = none) :
    a.rest i = none ∧ c.owner ≠ some i := by
  cases h.thread i with
  | absent _ ha howner => exact ⟨ha, howner⟩
  | between hc => cases hnone.symm.trans hc
  | inside hc => cases hnone.symm.trans hc
  | leaving hc => cases hnone.symm.trans hc

omit [DecidableEq ι] in
/-- A thread that is done has released the lock. -/
theorem Linked.not_owner (h : Linked I R okI f c a) {v : α} (hdone : c.rest i = some (.ret v)) :
    c.owner ≠ some i := by
  cases h.thread i with
  | absent _ _ howner => exact howner
  | between _ _ howner => exact howner
  | @inside o next q s hc _ _ hinside =>
      cases q with
      | ret b => exact hinside.elim
      | call op k => cases hc.symm.trans hdone
  | leaving hc => cases hc.symm.trans hdone

omit [DecidableEq ι] in
/-- The owner of the lock does not wait for it. -/
theorem Linked.owner_not_locking (h : Linked I R okI f c a)
    {next : PUnit → Prog (LockOp Op) (LockOp.Result Res) α}
    (hlock : c.rest i = some (.call .lock next)) : c.owner ≠ some i := by
  cases h.thread i with
  | absent _ _ howner => exact howner
  | between _ _ howner => exact howner
  | @inside o next q s hc _ _ hinside =>
      cases q with
      | ret b => exact hinside.elim
      | call op k =>
          cases hc.symm.trans hlock
          exact hinside.elim
  | leaving hc => cases hc.symm.trans hlock

/-- The abstract thread performs its operation. -/
theorem Atomic.exec_call {o : Op'} {next : Res' o → Prog Op' Res' α}
    (ha : a.rest i = some (.call o next)) (x : E') :
    a.exec J i x = some { a.put i (some (next (J.exec o x a.shared).1)) with
      shared := (J.exec o x a.shared).2 } := by
  rw [Atomic.exec, ha]

/-- An implementation executed to its end makes its operation happen. -/
theorem Sound.complete (hsound : Sound I J R okI okJ f) {o : Op'} {s t : σ} {r : σ'} {b : Res' o}
    (hR : R s r) (hsteps : Prog.Steps I.withLock okI (f o, s) (.ret b, t)) :
    ∃ x, okJ x ∧ b = (J.exec o x r).1 ∧ R t (J.exec o x r).2 := by
  obtain ⟨x₀, hx₀⟩ := hsound.env
  obtain ⟨e, he, hval, hstate⟩ := Prog.Steps.run hx₀ hsteps
  obtain ⟨x, hx, hret, hR'⟩ := hsound.implements o e s r hR
  exact ⟨x, hx he, hval.symm.trans hret, hstate ▸ hR'⟩

/-- An operation without operations of its own happens unnoticed. -/
theorem Linked.skip (hsound : Sound I J R okI okJ f) (h : Linked I R okI f c a) {o : Op'}
    {next : Res' o → Prog Op' Res' α} {b : Res' o}
    (hrest : c.rest i = some ((Prog.call o next).expand f)) (ha : a.rest i = some (.call o next))
    (howner : c.owner ≠ some i) (hf : f o = .ret b) :
    ∃ x, okJ x ∧ ∃ a', a.exec J i x = some a' ∧ a'.rest i = some (next b) ∧
      c.rest i = some ((next b).expand f) ∧ Linked I R okI f c a' := by
  have hsteps : Prog.Steps I.withLock okI (f o, c.shared) (.ret b, c.shared) := by
    rw [hf]
    exact .refl
  obtain ⟨x, hx, hval, hR⟩ := hsound.complete h.shared hsteps
  have hnone := hsound.sectioned o
  rw [hf] at hnone
  have hsame : (J.exec o x a.shared).2 = a.shared := hnone x a.shared
  have hnext : c.rest i = some ((next b).expand f) := by
    rw [hrest, Prog.expand_call, hf]
    rfl
  refine ⟨x, hx, _, Atomic.exec_call ha x, ?_, hnext, hR, fun j ↦ ?_⟩
  · rw [← hval]
    simp [Atomic.put]
  · by_cases hj : j = i
    · subst hj
      exact .between hnext (by rw [← hval]; simp [Atomic.put]) howner
    · exact (h.thread j).frame rfl (by simp [Atomic.put, hj]) Iff.rfl fun _ ↦ ⟨rfl, hsame⟩

/-- A thread that is done is done with indivisible operations as well. -/
theorem Linked.finish (hsound : Sound I J R okI okJ f) (h : Linked I R okI f c a) {v : α}
    (hdone : c.rest i = some (.ret v)) :
    ∃ a', Atomic.Steps J okJ i a a' ∧ a'.rest i = some (.ret v) ∧ Linked I R okI f c a' := by
  cases h.thread i with
  | absent hc => cases hc.symm.trans hdone
  | @inside o next q s hc _ _ hinside =>
      cases q with
      | ret b => exact hinside.elim
      | call op k => cases hc.symm.trans hdone
  | leaving hc => cases hc.symm.trans hdone
  | @between p hc ha howner =>
      induction p generalizing a with
      | ret b =>
          cases hc.symm.trans hdone
          exact ⟨a, .refl, ha, h⟩
      | call o next ih =>
          cases hf : f o with
          | call op k =>
              rw [Prog.expand_call, hf] at hc
              cases hc.symm.trans hdone
          | ret b =>
              obtain ⟨x, hx, a', hexec, ha', hc', hlinked⟩ := h.skip hsound hc ha howner hf
              obtain ⟨a'', hsteps, hend, hlinked'⟩ := ih b hlinked hc' ha'
              exact ⟨a'', hsteps.head ⟨x, hx, hexec⟩, hend, hlinked'⟩

/-- An operation under the lock, or the one that releases it. -/
theorem Linked.section (hsound : Sound I J R okI okJ f) (h : Linked I R okI f c a)
    {o : Op'} {next : Res' o → Prog Op' Res' α}
    {q : Prog (LockOp Op) (LockOp.Result Res) (Res' o)} {s : σ}
    (hc : c.rest i = some (q >>= fun b ↦ (next b).expand f)) (ha : a.rest i = some (.call o next))
    (howner : c.owner = some i) (hinside : Inside I R q) (hbegun : R s a.shared)
    (hsteps : Prog.Steps I.withLock okI (f o, s) (q, c.shared)) {x : E} (hx : okI x)
    (hexec : c.exec I i x = some c') :
    ∃ a', Atomic.Steps J okJ i a a' ∧ Linked I R okI f c' a' := by
  have hothers {c' : Threads ι Op Res σ α} {a' : Atomic ι Op' Res' σ' α}
      (hrest : ∀ j ≠ i, c'.rest j = c.rest j) (hrest' : ∀ j ≠ i, a'.rest j = a.rest j)
      (hcases : c'.owner = some i ∨ c'.owner = none) (j : ι) (hj : j ≠ i) :
      Under I R okI f c' a' j := by
    have hnot : c.owner ≠ some j := fun heq ↦ hj (Option.some.inj (heq.symm.trans howner))
    refine (h.thread j).frame (hrest j hj) (hrest' j hj) ⟨fun heq ↦ ?_, fun heq ↦ absurd heq hnot⟩
      fun heq ↦ absurd heq hnot
    rcases hcases with hmine | hfree
    · exact absurd (Option.some.inj (heq.symm.trans hmine)) hj
    · cases hfree.symm.trans heq
  cases q with
  | ret b => exact hinside.elim
  | call op k =>
      cases op with
      | lock => exact hinside.elim
      | unlock =>
          obtain ⟨b, hb⟩ := hinside
          simp only [Threads.exec, hc, Prog.call_bind, Option.some.injEq] at hexec
          subst hexec
          have hdone : Prog.Steps I.withLock okI (f o, s) (.ret b, I.leave c.shared) := by
            have hlast := hsteps.tail (.exec x hx)
            rw [hb] at hlast
            exact hlast
          obtain ⟨y, hy, hval, hR⟩ := hsound.complete hbegun hdone
          refine ⟨_, .single ⟨y, hy, Atomic.exec_call ha y⟩, hR, fun j ↦ ?_⟩
          by_cases hj : j = i
          · subst hj
            refine .between (p := next b) ?_ ?_ (by simp)
            · simp [Threads.put, hb]
            · simp [Atomic.put, hval]
          · refine hothers ?_ ?_ (.inr rfl) j hj
            · intro j hj
              simp [Threads.put, hj]
            · intro j hj
              simp [Atomic.put, hj]
      | op r =>
          simp only [Threads.exec, hc, Prog.call_bind, Option.some.injEq] at hexec
          subst hexec
          have hnext := hsteps.tail (.exec x hx)
          rcases hinside with ⟨hquiet, hrest⟩ | hlast
          · refine ⟨a, .refl, hquiet x _ _ h.shared, fun j ↦ ?_⟩
            by_cases hj : j = i
            · subst hj
              refine .inside ?_ ha howner (hrest (I.exec r x c.shared).1) hbegun hnext
              simp [Threads.put]
            · refine hothers ?_ (fun _ _ ↦ rfl) (.inl ?_) j hj
              · intro j hj
                simp [Threads.put, hj]
              · exact howner
          · obtain ⟨b, hb⟩ := hlast (I.exec r x c.shared).1
            have hdone : Prog.Steps I.withLock okI (f o, s)
                (.ret b, I.leave (I.exec r x c.shared).2) := by
              change Prog.Steps _ _ _ (k (I.exec r x c.shared).1, _) at hnext
              rw [hb] at hnext
              exact hnext.tail (.exec x hx)
            obtain ⟨y, hy, hval, hR⟩ := hsound.complete hbegun hdone
            refine ⟨_, .single ⟨y, hy, Atomic.exec_call ha y⟩, hsound.leave.mp hR, fun j ↦ ?_⟩
            by_cases hj : j = i
            · subst hj
              refine .leaving (p := next b) ?_ ?_ howner
              · simp [Threads.put, hb]
              · simp [Atomic.put, hval]
            · refine hothers ?_ ?_ (.inl ?_) j hj
              · intro j hj
                simp [Threads.put, hj]
              · intro j hj
                simp [Atomic.put, hj]
              · exact howner

/-- A thread between two operations begins the next one, or performs it at once. -/
theorem Linked.begin (hsound : Sound I J R okI okJ f) (h : Linked I R okI f c a)
    {p : Prog Op' Res' α} (hc : c.rest i = some (p.expand f)) (ha : a.rest i = some p)
    (howner : c.owner ≠ some i) {x : E} (hx : okI x) (hexec : c.exec I i x = some c') :
    ∃ a', Atomic.Steps J okJ i a a' ∧ Linked I R okI f c' a' := by
  induction p generalizing a with
  | ret b => simp [Threads.exec, hc] at hexec
  | call o next ih =>
      have hshape := hsound.sectioned o
      cases hf : f o with
      | ret b =>
          obtain ⟨y, hy, a', hskip, ha', hc', hlinked⟩ := h.skip hsound hc ha howner hf
          obtain ⟨a'', hsteps, hlinked'⟩ := ih b hlinked hc' ha'
          exact ⟨a'', hsteps.head ⟨y, hy, hskip⟩, hlinked'⟩
      | call op k =>
          rw [hf] at hshape
          rw [Prog.expand_call, hf] at hc
          have hstep (x : E) (hx : okI x) : Prog.Steps I.withLock okI (f o, c.shared)
              (k (I.withLock.exec op x c.shared).1, (I.withLock.exec op x c.shared).2) := by
            rw [hf]
            exact .single (.exec x hx)
          cases op with
          | unlock => exact hshape.elim
          | lock =>
              simp only [Threads.exec, hc, Prog.call_bind] at hexec
              split at hexec
              · next hfree =>
                cases hexec
                refine ⟨a, .refl, hsound.enter h.shared, fun j ↦ ?_⟩
                by_cases hj : j = i
                · subst hj
                  refine .inside ?_ ha rfl hshape h.shared (hstep x hx)
                  simp [Threads.put]
                · rw [Option.isNone_iff_eq_none] at hfree
                  refine (h.thread j).frame (by simp [Threads.put, hj]) rfl ?_ ?_
                  · simp [hfree, Ne.symm hj]
                  · simp [hfree]
              · cases hexec
          | op r =>
              obtain ⟨hsame, hlast, hnone⟩ := hshape
              simp only [Threads.exec, hc, Prog.call_bind, Option.some.injEq] at hexec
              subst hexec
              obtain ⟨b, hb⟩ := hlast (I.exec r x c.shared).1
              have hdone := hstep x hx
              change Prog.Steps _ _ _ (k (I.exec r x c.shared).1, (I.exec r x c.shared).2) at hdone
              rw [hb] at hdone
              obtain ⟨y, hy, hval, hR⟩ := hsound.complete h.shared hdone
              refine ⟨_, .single ⟨y, hy, Atomic.exec_call ha y⟩, hR, fun j ↦ ?_⟩
              by_cases hj : j = i
              · subst hj
                refine .between (p := next b) ?_ ?_ howner
                · simp [Threads.put, hb]
                · simp [Atomic.put, hval]
              · exact (h.thread j).frame (by simp [Threads.put, hj]) (by simp [Atomic.put, hj])
                  Iff.rfl fun _ ↦ ⟨hsame _ _, hnone _ _⟩

/-- What a thread does next, its indivisible operations can do as well. -/
theorem Linked.exec (hsound : Sound I J R okI okJ f) (h : Linked I R okI f c a) {x : E}
    (hx : okI x) (hexec : c.exec I i x = some c') :
    ∃ a', Atomic.Steps J okJ i a a' ∧ Linked I R okI f c' a' := by
  cases h.thread i with
  | absent hc => simp [Threads.exec, hc] at hexec
  | between hc ha howner => exact h.begin hsound hc ha howner hx hexec
  | inside hc ha howner hinside hbegun hsteps =>
      exact h.section hsound hc ha howner hinside hbegun hsteps hx hexec
  | @leaving p hc ha howner =>
      simp only [Threads.exec, hc, Option.some.injEq] at hexec
      subst hexec
      refine ⟨a, .refl, hsound.leave.mpr h.shared, fun j ↦ ?_⟩
      by_cases hj : j = i
      · subst hj
        exact .between (p := p) (by simp [Threads.put]) ha (by simp)
      · have hnot : c.owner ≠ some j := fun heq ↦ hj (Option.some.inj (heq.symm.trans howner))
        exact (h.thread j).frame (by simp [Threads.put, hj]) rfl
          ⟨fun heq ↦ (by cases heq), fun heq ↦ absurd heq hnot⟩ fun heq ↦ absurd heq hnot

end Simulation

end Program
