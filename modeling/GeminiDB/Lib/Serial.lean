import GeminiDB.Lib.Machine
import GeminiDB.Lib.Program

/-!
# Interleaved calls and their serial order

Threads execute their calls step by step: acquire the lock, enter, one
operation after another, leave, release. Any thread may move next. The calls
are recorded in the order in which they took the lock, and every interleaving
is shown to agree with running the recorded calls one after another.

The invariant compares the shared state with the serial state by letting the
thread that holds the lock finish alone.
-/

namespace Program.Serial

universe u v w

variable {Op : Type u} {Res : Op → Type v} {α : Type w} {E σ ι : Type*}

/-! ## Serial execution -/

/-- The entries that belong to `i`, in order. -/
def select [DecidableEq ι] {β : Type*} (i : ι) (l : List (ι × β)) : List β :=
  (l.filter fun p ↦ p.1 = i).map Prod.snd

section Select

variable [DecidableEq ι] {β : Type*}

@[simp] theorem select_nil (i : ι) : select i ([] : List (ι × β)) = [] := rfl

@[simp] theorem select_append (i : ι) (l m : List (ι × β)) :
    select i (l ++ m) = select i l ++ select i m := by
  simp [select]

@[simp] theorem select_self (i : ι) (b : β) : select i [(i, b)] = [b] := by
  simp [select]

theorem mem_select {i : ι} {b : β} {l : List (ι × β)} : b ∈ select i l ↔ (i, b) ∈ l := by
  simp [select]

theorem select_of_ne {i j : ι} (h : j ≠ i) (b : β) : select i [(j, b)] = [] := by
  simp [select, h]

end Select

variable (I : Interface Op Res E σ)

/-- Run the recorded tasks one after another. -/
def serial : List (ι × Task Op Res E α) → σ → List (ι × α) × σ
  | [], s => ([], s)
  | (i, t) :: ts, s => ((i, (t.run I s).1) :: (serial ts (t.run I s).2).1,
      (serial ts (t.run I s).2).2)

theorem serial_concat (ts : List (ι × Task Op Res E α)) (i : ι) (t : Task Op Res E α) (s : σ) :
    serial I (ts ++ [(i, t)]) s =
      ((serial I ts s).1 ++ [(i, (t.run I (serial I ts s).2).1)],
        (t.run I (serial I ts s).2).2) := by
  induction ts generalizing s with
  | nil => rfl
  | cons p ts ih => simp [serial, ih]

/-! ## Interleaved execution -/

/-- Where a thread stands in its current call: between calls; the lock taken
but `enter` not yet run; inside; or past `leave` with the lock still held. -/
inductive Control (Op : Type u) (Res : Op → Type v) (E : Type*) (α : Type w) where
  | idle
  | entering (body : Prog Op Res α) (env : ℕ → E)
  | inside (rest : Prog Op Res α) (env : ℕ → E)
  | leaving (a : α)

structure Thread (Op : Type u) (Res : Op → Type v) (E : Type*) (α : Type w) where
  todo : List (Task Op Res E α)
  control : Control Op Res E α
  returned : List α

/-- The shared state, the lock, the threads, and the record of the calls in the
order in which they took the lock (a call that takes no lock is recorded when
it returns). -/
structure Config (Op : Type u) (Res : Op → Type v) (E : Type*) (σ : Type*) (ι : Type*)
    (α : Type w) where
  shared : σ
  owner : Option ι
  threads : ι → Thread Op Res E α
  order : List (ι × Task Op Res E α)

def start (programs : ι → List (Task Op Res E α)) (s : σ) : Config Op Res E σ ι α :=
  ⟨s, none, fun i ↦ ⟨programs i, .idle, []⟩, []⟩

variable [DecidableEq ι]

/-- Thread `i` makes its next step, when it can. -/
def step (c : Config Op Res E σ ι α) (i : ι) : Option (Config Op Res E σ ι α) :=
  let th := c.threads i
  match th.control with
  | .idle =>
      match th.todo with
      | [] => none
      | t :: rest =>
          match t.call with
          | .plain a => some { c with
              threads := Function.update c.threads i ⟨rest, .idle, th.returned ++ [a]⟩
              order := c.order ++ [(i, t)] }
          | .guarded body =>
              if c.owner.isNone then some { c with
                owner := some i
                threads := Function.update c.threads i ⟨rest, .entering body t.env, th.returned⟩
                order := c.order ++ [(i, t)] }
              else none
  | .entering body e => some { c with
      shared := I.enter c.shared
      threads := Function.update c.threads i { th with control := .inside body e } }
  | .inside (.call op next) e => some { c with
      shared := (I.exec op (e 0) c.shared).2
      threads := Function.update c.threads i
        { th with control := .inside (next (I.exec op (e 0) c.shared).1) (later e) } }
  | .inside (.ret a) _ => some { c with
      shared := I.leave c.shared
      threads := Function.update c.threads i { th with control := .leaving a } }
  | .leaving a => some { c with
      owner := none
      threads := Function.update c.threads i ⟨th.todo, .idle, th.returned ++ [a]⟩ }

/-! ## The invariant -/

/-- The result and the state when the current call runs to its end alone. -/
def finish : Control Op Res E α → σ → Option α × σ
  | .idle, s => (none, s)
  | .entering body e, s =>
      (some ((Call.guarded body).run I e s).1, ((Call.guarded body).run I e s).2)
  | .inside rest e, s => (some (rest.run I e s).val, I.leave (rest.run I e s).state)
  | .leaving a, s => (some a, s)

/-- The shared state once the thread that holds the lock has finished. -/
def settled (c : Config Op Res E σ ι α) : σ :=
  match c.owner with
  | none => c.shared
  | some i => (finish I (c.threads i).control c.shared).2

/-- The results of thread `i`, that of its current call included. -/
def results (c : Config Op Res E σ ι α) (i : ι) : List α :=
  (c.threads i).returned ++ (finish I (c.threads i).control c.shared).1.toList

structure Consistent (programs : ι → List (Task Op Res E α)) (init : σ)
    (c : Config Op Res E σ ι α) : Prop where
  idle_of_not_owner : ∀ i, c.owner ≠ some i → (c.threads i).control = .idle
  not_idle_of_owner : ∀ i, c.owner = some i → (c.threads i).control ≠ .idle
  settled_eq : settled I c = (serial I c.order init).2
  results_eq : ∀ i, results I c i = select i (serial I c.order init).1
  calls_eq : ∀ i, select i c.order ++ (c.threads i).todo = programs i

variable {I}

theorem consistent_start (programs : ι → List (Task Op Res E α)) (s : σ) :
    Consistent I programs s (start programs s) where
  idle_of_not_owner _ _ := rfl
  not_idle_of_owner _ h := by simp [start] at h
  settled_eq := rfl
  results_eq _ := rfl
  calls_eq _ := rfl

/-- A step of the thread that holds the lock which changes neither the way its
call ends nor anything recorded. -/
theorem Consistent.advance {programs : ι → List (Task Op Res E α)} {init : σ}
    {c : Config Op Res E σ ι α} (h : Consistent I programs init c) {i : ι}
    (hbusy : (c.threads i).control ≠ .idle) {s : σ} {k : Control Op Res E α} (hk : k ≠ .idle)
    (hfinish : finish I k s = finish I (c.threads i).control c.shared) :
    Consistent I programs init { c with
      shared := s
      threads := Function.update c.threads i { c.threads i with control := k } } := by
  have howner : c.owner = some i := by
    by_contra hne
    exact hbusy (h.idle_of_not_owner i hne)
  refine ⟨?_, ?_, ?_, ?_, ?_⟩
  · intro j hj
    have hji : j ≠ i := fun heq ↦ hj (heq ▸ howner)
    simpa [hji] using h.idle_of_not_owner j hj
  · intro j hj
    have hji : j = i := Option.some.inj (hj.symm.trans howner)
    simpa [hji] using hk
  · have hs := h.settled_eq
    simp only [settled, howner] at hs ⊢
    simpa [hfinish] using hs
  · intro j
    have hr := h.results_eq j
    by_cases hji : j = i
    · subst hji
      simpa [results, hfinish] using hr
    · have hidle := h.idle_of_not_owner j (by simp [howner, Ne.symm hji])
      simpa [results, hji, hidle, finish] using hr
  · intro j
    by_cases hji : j = i
    · subst hji
      simpa using h.calls_eq j
    · simpa [hji] using h.calls_eq j

theorem Consistent.settled_of_free {programs : ι → List (Task Op Res E α)} {init : σ}
    {c : Config Op Res E σ ι α} (h : Consistent I programs init c) (hfree : c.owner = none) :
    c.shared = (serial I c.order init).2 := by
  simpa [settled, hfree] using h.settled_eq

section Moves

variable {programs : ι → List (Task Op Res E α)} {init : σ} {c c' : Config Op Res E σ ι α} {i : ι}
  {t : Task Op Res E α} {rest : List (Task Op Res E α)}

/-- A call that is recorded is not to be made any more. -/
theorem Consistent.calls_start (h : Consistent I programs init c)
    (htodo : (c.threads i).todo = t :: rest) {th : Thread Op Res E α} (hth : th.todo = rest)
    (j : ι) :
    select j (c.order ++ [(i, t)]) ++ (Function.update c.threads i th j).todo = programs j := by
  have hc := h.calls_eq j
  by_cases hji : j = i
  · subst hji
    simpa [htodo, hth] using hc
  · simpa [hji, select_of_ne (Ne.symm hji)] using hc

/-- A call that takes no lock returns at once. -/
theorem Consistent.plain (h : Consistent I programs init c)
    (hidle : (c.threads i).control = .idle) (htodo : (c.threads i).todo = t :: rest) {a : α}
    (hcall : t.call = .plain a) :
    Consistent I programs init { c with
      threads := Function.update c.threads i ⟨rest, .idle, (c.threads i).returned ++ [a]⟩
      order := c.order ++ [(i, t)] } := by
  have hnot : c.owner ≠ some i := fun ho ↦ h.not_idle_of_owner i ho hidle
  have hrun : ∀ s, t.run I s = (a, s) := by simp [Task.run, hcall]
  refine ⟨?_, ?_, ?_, ?_, h.calls_start htodo rfl⟩
  · intro j hj
    by_cases hji : j = i
    · simp [hji]
    · simpa [hji] using h.idle_of_not_owner j hj
  · intro j hj
    have hji : j ≠ i := fun heq ↦ hnot (heq ▸ hj)
    simpa [hji] using h.not_idle_of_owner j hj
  · rw [serial_concat, hrun]
    have hs := h.settled_eq
    cases ho : c.owner with
    | none => simpa [settled, ho] using hs
    | some k =>
        have hki : k ≠ i := fun heq ↦ hnot (heq ▸ ho)
        simpa [settled, ho, hki] using hs
  · intro j
    have hr := h.results_eq j
    rw [serial_concat, hrun, select_append, ← hr]
    by_cases hji : j = i
    · subst hji
      simp [results, hidle, finish]
    · simp [results, hji, select_of_ne (Ne.symm hji)]

/-- The thread that takes the lock finishes its call as if it ran alone from here. -/
theorem Consistent.lock (h : Consistent I programs init c) (hfree : c.owner = none)
    (htodo : (c.threads i).todo = t :: rest) {body : Prog Op Res α}
    (hcall : t.call = .guarded body) :
    Consistent I programs init { c with
      owner := some i
      threads := Function.update c.threads i ⟨rest, .entering body t.env, (c.threads i).returned⟩
      order := c.order ++ [(i, t)] } := by
  have hshared := h.settled_of_free hfree
  have hidle : ∀ j, (c.threads j).control = .idle := fun j ↦
    h.idle_of_not_owner j (by simp [hfree])
  have hrun : ∀ s, t.run I s = (Call.guarded body).run I t.env s := by simp [Task.run, hcall]
  refine ⟨?_, ?_, ?_, ?_, h.calls_start htodo rfl⟩
  · intro j hj
    have hji : j ≠ i := fun heq ↦ hj (heq ▸ rfl)
    simpa [hji] using hidle j
  · intro j hj
    have hji : i = j := Option.some.inj hj
    simp [← hji]
  · rw [serial_concat, ← hshared, hrun]
    simp [settled, finish]
  · intro j
    have hr := h.results_eq j
    rw [serial_concat, select_append, ← hr, ← hshared, hrun]
    by_cases hji : j = i
    · subst hji
      simp [results, hidle j, finish]
    · simp [results, hji, hidle j, finish, select_of_ne (Ne.symm hji)]

theorem Consistent.unlock (h : Consistent I programs init c) {a : α}
    (hleaving : (c.threads i).control = .leaving a) :
    Consistent I programs init { c with
      owner := none
      threads := Function.update c.threads i
        ⟨(c.threads i).todo, .idle, (c.threads i).returned ++ [a]⟩ } := by
  have howner : c.owner = some i := by
    by_contra hne
    have hidle := h.idle_of_not_owner i hne
    simp [hleaving] at hidle
  refine ⟨?_, ?_, ?_, ?_, ?_⟩
  · intro j _
    by_cases hji : j = i
    · simp [hji]
    · simpa [hji] using h.idle_of_not_owner j (by simp [howner, Ne.symm hji])
  · intro j hj
    simp at hj
  · have hs := h.settled_eq
    simpa [settled, howner, hleaving, finish] using hs
  · intro j
    have hr := h.results_eq j
    by_cases hji : j = i
    · subst hji
      simpa [results, hleaving, finish] using hr
    · simpa [results, hji] using hr
  · intro j
    by_cases hji : j = i
    · subst hji
      simpa using h.calls_eq j
    · simpa [hji] using h.calls_eq j

/-- One step of any thread keeps the invariant; the cases are the positions in
a call. -/
theorem Consistent.step (h : Consistent I programs init c)
    (hstep : Serial.step I c i = some c') : Consistent I programs init c' := by
  cases hctl : (c.threads i).control with
  | idle =>
      cases htodo : (c.threads i).todo with
      | nil => simp [Serial.step, hctl, htodo] at hstep
      | cons t rest =>
          cases hcall : t.call with
          | plain a =>
              simp only [Serial.step, hctl, htodo, hcall, Option.some.injEq] at hstep
              subst hstep
              exact h.plain hctl htodo hcall
          | guarded body =>
              cases ho : c.owner with
              | some k => simp [Serial.step, hctl, htodo, hcall, ho] at hstep
              | none =>
                  simp only [Serial.step, hctl, htodo, hcall, ho, Option.isNone_none, if_true,
                    Option.some.injEq] at hstep
                  subst hstep
                  exact h.lock ho htodo hcall
  | entering body e =>
      simp only [Serial.step, hctl, Option.some.injEq] at hstep
      subst hstep
      exact h.advance (by simp [hctl]) (by simp) (by simp [hctl, finish])
  | inside rest e =>
      cases rest with
      | ret a =>
          simp only [Serial.step, hctl, Option.some.injEq] at hstep
          subst hstep
          exact h.advance (by simp [hctl]) (by simp) (by simp [hctl, finish])
      | call op next =>
          simp only [Serial.step, hctl, Option.some.injEq] at hstep
          subst hstep
          exact h.advance (by simp [hctl]) (by simp) (by simp [hctl, finish])
  | leaving a =>
      simp only [Serial.step, hctl, Option.some.injEq] at hstep
      subst hstep
      exact h.unlock hctl

end Moves

theorem consistent_of_reachable {programs : ι → List (Task Op Res E α)} {init : σ}
    {c : Config Op Res E σ ι α}
    (h : Machine.Reachable (Serial.step I) (start programs init) c) :
    Consistent I programs init c :=
  h.invariant (consistent_start programs init) fun _ _ _ hs ht ↦ hs.step ht

/-- Whenever no thread holds the lock, the shared state, the results every
thread has seen and the calls it has made are those of the serial execution in
lock order. -/
theorem serializable {programs : ι → List (Task Op Res E α)} {init : σ}
    {c : Config Op Res E σ ι α}
    (h : Machine.Reachable (Serial.step I) (start programs init) c) (hfree : c.owner = none) :
    c.shared = (serial I c.order init).2 ∧
      ∀ i, (c.threads i).returned = select i (serial I c.order init).1 ∧
        select i c.order ++ (c.threads i).todo = programs i := by
  have hc := consistent_of_reachable h
  refine ⟨hc.settled_of_free hfree, fun i ↦ ⟨?_, hc.calls_eq i⟩⟩
  have hidle := hc.idle_of_not_owner i (by simp [hfree])
  simpa [results, hidle, finish] using hc.results_eq i

end Program.Serial
