import Mathlib.Algebra.GroupWithZero.Nat
import Mathlib.Data.List.Basic
import GeminiDB.Lib.Machine

/-!
# Worker pools (`thread.h`)

One thread pushes jobs into a queue with a mutex and a condition variable, the
workers pop them, process them and push them into the result queue, whose pipe
carries one byte for each item, and one thread pops the results. A step is what
one thread does while it holds a mutex, a wait, or a read or write of the pipe.
-/

namespace GeminiDB

/-- Where the thread is that calls `WorkerPool::push`. -/
inductive ProducerPc (J : Type*) where
  | idle
  | locking (job : J)
  | inserting (job : J)
  | unlocking
  | signalling

/-- Where a worker is in the loop of `_run_worker`. It holds the mutex of the jobs
in `checking` and `unlocking`, that of the results in `inserting`, `writing` and
`releasing`. -/
inductive WorkerPc (J : Type*) where
  | locking
  | checking
  | waiting
  | unlocking (job : J)
  | calling (job : J)
  | resultLocking (job : J)
  | inserting (job : J)
  | writing
  | releasing

/-- Where the thread is that calls `WorkerPool::pop`; `failed` is the exit for an
empty result queue. -/
inductive ConsumerPc where
  | reading
  | locking
  | taking
  | unlocking
  | failed
  deriving DecidableEq

/-- A pool and its threads. The last five fields are histories: the jobs for which
`push` was called, taken off the queue, given to `proc` of a worker, entered into
the results and popped from them. -/
structure WorkerPool (J : Type*) where
  jobs : List J
  jobsLocked : Bool
  results : List J
  resultsLocked : Bool
  pipe : ℕ
  producer : ProducerPc J
  workers : List (WorkerPc J)
  consumer : ConsumerPc
  pushed : List J
  taken : List J
  given : List (ℕ × J)
  entered : List J
  left : List J

inductive PoolStep (J : Type*) where
  | push (job : J)
  | producer
  | signal (waiter : Option ℕ)
  | worker (i : ℕ)
  | wake (i : ℕ)
  | consumer

namespace WorkerPc

variable {J : Type*}

def isWaiting : WorkerPc J → Bool
  | waiting => true
  | _ => false

/-- On the way to the jobs. -/
def isHeading : WorkerPc J → Bool
  | locking => true
  | checking => true
  | _ => false

def holdsJobs : WorkerPc J → Bool
  | checking => true
  | unlocking _ => true
  | _ => false

def holdsResults : WorkerPc J → Bool
  | inserting _ => true
  | writing => true
  | releasing => true
  | _ => false

def isWriting : WorkerPc J → Bool
  | writing => true
  | _ => false

/-- The job taken off the queue and not yet given to `proc`. -/
def fetched : WorkerPc J → List J
  | unlocking job => [job]
  | calling job => [job]
  | _ => []

/-- The job processed and not yet among the results. -/
def finished : WorkerPc J → List J
  | resultLocking job => [job]
  | inserting job => [job]
  | _ => []

/-- How many steps are left before the thread waits, with those it causes. -/
def effort : WorkerPc J → ℕ
  | waiting => 0
  | checking => 1
  | locking => 2
  | releasing => 3
  | writing => 8
  | inserting _ => 9
  | resultLocking _ => 10
  | calling _ => 11
  | unlocking _ => 12

end WorkerPc

namespace ProducerPc

variable {J : Type*}

def hand : ProducerPc J → List J
  | locking job => [job]
  | inserting job => [job]
  | _ => []

def holdsJobs : ProducerPc J → ℕ
  | inserting _ => 1
  | unlocking => 1
  | _ => 0

/-- A signal for a job that is in the queue. -/
def owesSignal : ProducerPc J → ℕ
  | unlocking => 1
  | signalling => 1
  | _ => 0

def effort : ProducerPc J → ℕ
  | idle => 0
  | signalling => 3
  | unlocking => 4
  | inserting _ => 17
  | locking _ => 18

end ProducerPc

namespace ConsumerPc

def holdsResults : ConsumerPc → ℕ
  | taking => 1
  | unlocking => 1
  | _ => 0

/-- A byte read whose item is not yet taken. -/
def owes : ConsumerPc → ℕ
  | locking => 1
  | taking => 1
  | _ => 0

def effort : ConsumerPc → ℕ
  | unlocking => 1
  | taking => 2
  | locking => 3
  | _ => 0

end ConsumerPc

/-- What an action may add to the steps that are left, itself included. -/
def PoolStep.cost {J : Type*} : PoolStep J → ℕ
  | .push _ => 19
  | .wake _ => 3
  | _ => 0

namespace WorkerPool

variable {J : Type*}

/-- A pool after `start(n)`. -/
def start (J : Type*) (n : ℕ) : WorkerPool J where
  jobs := []
  jobsLocked := false
  results := []
  resultsLocked := false
  pipe := 0
  producer := .idle
  workers := List.replicate n .locking
  consumer := .reading
  pushed := []
  taken := []
  given := []
  entered := []
  left := []

/-- The next step of worker `i`. -/
def workerStep (s : WorkerPool J) (i : ℕ) : WorkerPc J → Option (WorkerPool J)
  | .locking =>
      if s.jobsLocked then none
      else some { s with jobsLocked := true, workers := s.workers.set i .checking }
  | .checking =>
      match s.jobs with
      | [] => some { s with jobsLocked := false, workers := s.workers.set i .waiting }
      | job :: jobs => some { s with
          jobs := jobs, taken := s.taken ++ [job], workers := s.workers.set i (.unlocking job) }
  | .waiting => none
  | .unlocking job => some { s with jobsLocked := false, workers := s.workers.set i (.calling job) }
  | .calling job => some { s with
      given := s.given ++ [(i, job)], workers := s.workers.set i (.resultLocking job) }
  | .resultLocking job =>
      if s.resultsLocked then none
      else some { s with resultsLocked := true, workers := s.workers.set i (.inserting job) }
  | .inserting job => some { s with
      results := s.results ++ [job], entered := s.entered ++ [job],
      workers := s.workers.set i .writing }
  | .writing => some { s with pipe := s.pipe + 1, workers := s.workers.set i .releasing }
  | .releasing => some { s with resultsLocked := false, workers := s.workers.set i .locking }

/-- A waiting worker goes for the mutex again. -/
def wakeUp (s : WorkerPool J) (i : ℕ) : Option (WorkerPool J) :=
  match s.workers[i]? with
  | some .waiting => some { s with workers := s.workers.set i .locking }
  | _ => none

def producerStep (s : WorkerPool J) : ProducerPc J → Option (WorkerPool J)
  | .locking job =>
      if s.jobsLocked then none else some { s with jobsLocked := true, producer := .inserting job }
  | .inserting job => some { s with jobs := s.jobs ++ [job], producer := .unlocking }
  | .unlocking => some { s with jobsLocked := false, producer := .signalling }
  | _ => none

def consumerStep (s : WorkerPool J) : ConsumerPc → Option (WorkerPool J)
  | .reading =>
      if s.pipe = 0 then none else some { s with pipe := s.pipe - 1, consumer := .locking }
  | .locking =>
      if s.resultsLocked then none else some { s with resultsLocked := true, consumer := .taking }
  | .taking =>
      match s.results with
      | [] => some { s with resultsLocked := false, consumer := .failed }
      | job :: results => some { s with
          results := results, left := s.left ++ [job], consumer := .unlocking }
  | .unlocking => some { s with resultsLocked := false, consumer := .reading }
  | .failed => none

/-- A `signal` wakes a waiting worker if there is one; `wake` is a spurious
wake-up. -/
def step (s : WorkerPool J) : PoolStep J → Option (WorkerPool J)
  | .push job =>
      match s.producer with
      | .idle => some { s with producer := .locking job, pushed := s.pushed ++ [job] }
      | _ => none
  | .producer => s.producerStep s.producer
  | .signal waiter =>
      match s.producer with
      | .signalling =>
          match waiter with
          | none =>
              if s.workers.any WorkerPc.isWaiting then none else some { s with producer := .idle }
          | some i => { s with producer := .idle }.wakeUp i
      | _ => none
  | .worker i => s.workers[i]?.bind (s.workerStep i)
  | .wake i => s.wakeUp i
  | .consumer => s.consumerStep s.consumer

/-- The jobs that `push` was called for and that no worker has been given. -/
def waitingJobs (s : WorkerPool J) : List J :=
  s.workers.flatMap WorkerPc.fetched ++ s.jobs ++ s.producer.hand

/-- The jobs that workers have been given and that are not yet among the results. -/
def activeJobs (s : WorkerPool J) : List J := s.workers.flatMap WorkerPc.finished

/-- Nothing but another call of `push` or a spurious wake-up can happen. -/
def Quiescent (s : WorkerPool J) : Prop :=
  s.step .producer = none ∧ (∀ waiter, s.step (.signal waiter) = none) ∧
    (∀ i, s.step (.worker i) = none) ∧ s.step .consumer = none

/-- A bound on the steps left without another `push` or spurious wake-up. -/
def effort (s : WorkerPool J) : ℕ :=
  s.producer.effort + (s.workers.map WorkerPc.effort).sum + 12 * s.jobs.length + 4 * s.pipe +
    s.consumer.effort

/-- What the threads hold, owe and have in hand accounts for all jobs. -/
structure Inv (s : WorkerPool J) : Prop where
  jobsLock : s.producer.holdsJobs + s.workers.countP WorkerPc.holdsJobs = s.jobsLocked.toNat
  resultsLock :
    s.consumer.holdsResults + s.workers.countP WorkerPc.holdsResults = s.resultsLocked.toNat
  queue : s.pushed = s.taken ++ s.jobs ++ s.producer.hand
  fetched : s.taken.Perm (s.given.map Prod.snd ++ s.workers.flatMap WorkerPc.fetched)
  finished : (s.given.map Prod.snd).Perm (s.entered ++ s.workers.flatMap WorkerPc.finished)
  left : s.entered = s.left ++ s.results
  pipe : s.pipe + s.consumer.owes + s.workers.countP WorkerPc.isWriting = s.results.length
  ok : s.consumer ≠ .failed
  signals : 0 < s.workers.countP WorkerPc.isWaiting →
    s.jobs.length ≤ s.workers.countP WorkerPc.isHeading + s.producer.owesSignal
  fifo : s.workers.length = 1 →
    s.taken = s.given.map Prod.snd ++ s.workers.flatMap WorkerPc.fetched ∧
      s.given.map Prod.snd = s.entered ++ s.workers.flatMap WorkerPc.finished

theorem inv_start (n : ℕ) : (start J n).Inv := by
  have hnil (f : WorkerPc J → List J) (hf : f .locking = []) :
      (List.replicate n WorkerPc.locking).flatMap f = [] := by
    simp [List.flatMap_eq_nil_iff, List.mem_replicate, hf]
  have hfetched := hnil WorkerPc.fetched rfl
  have hfinished := hnil WorkerPc.finished rfl
  exact {
    jobsLock := by simp [start, WorkerPc.holdsJobs, ProducerPc.holdsJobs]
    resultsLock := by simp [start, WorkerPc.holdsResults, ConsumerPc.holdsResults]
    queue := by simp [start, ProducerPc.hand]
    fetched := by simp [start, hfetched]
    finished := by simp [start, hfinished]
    left := by simp [start]
    pipe := by simp [start, WorkerPc.isWriting, ConsumerPc.owes]
    ok := by simp [start]
    signals := by simp [start]
    fifo := by simp [start, hfetched, hfinished] }

theorem exists_split {α : Type*} {l : List α} {i : ℕ} {a : α} (h : l[i]? = some a) :
    ∃ pre post, l = pre ++ a :: post ∧ ∀ b, l.set i b = pre ++ b :: post := by
  obtain ⟨hi, rfl⟩ := List.getElem?_eq_some_iff.mp h
  refine ⟨l.take i, l.drop (i + 1), by simp, fun b ↦ ?_⟩
  rw [List.set_eq_take_append_cons_drop, if_pos hi]

theorem perm_insert {α : Type*} {a : α} {l m p q : List α} (h : l.Perm (m ++ (p ++ q))) :
    (l ++ [a]).Perm (m ++ (p ++ a :: q)) := by
  have hmiddle : (a :: (m ++ (p ++ q))).Perm (m ++ (p ++ a :: q)) := by
    simpa only [List.append_assoc] using (@List.perm_middle _ a (m ++ p) q).symm
  exact ((List.perm_append_singleton a l).trans (h.cons a)).trans hmiddle

theorem perm_move {α : Type*} {a : α} {l m p q : List α} (h : l.Perm (m ++ (p ++ a :: q))) :
    l.Perm (m ++ a :: (p ++ q)) :=
  h.trans (List.perm_middle.append_left m)

theorem eq_nil_of_length {α : Type*} {pre post : List α} (h : pre.length + (post.length + 1) = 1) :
    pre = [] ∧ post = [] :=
  ⟨List.length_eq_zero_iff.mp (by omega), List.length_eq_zero_iff.mp (by omega)⟩

theorem locked_of_holder {locked : Bool} {n : ℕ} (h : n = locked.toNat) (hpos : 0 < n) :
    locked = true := by
  cases locked with
  | false => exact absurd h (Nat.ne_of_gt hpos)
  | true => rfl

theorem Inv.jobsLocked_of_mem {s : WorkerPool J} (h : s.Inv) {pc : WorkerPc J}
    (hmem : pc ∈ s.workers) (hpc : pc.holdsJobs = true) : s.jobsLocked = true :=
  locked_of_holder h.jobsLock
    (Nat.lt_of_lt_of_le (List.countP_pos_iff.mpr ⟨pc, hmem, hpc⟩) (Nat.le_add_left _ _))

theorem Inv.resultsLocked_of_mem {s : WorkerPool J} (h : s.Inv) {pc : WorkerPc J}
    (hmem : pc ∈ s.workers) (hpc : pc.holdsResults = true) : s.resultsLocked = true :=
  locked_of_holder h.resultsLock
    (Nat.lt_of_lt_of_le (List.countP_pos_iff.mpr ⟨pc, hmem, hpc⟩) (Nat.le_add_left _ _))

/-- One worker moves, and the counts move with it. -/
theorem Inv.workerStep {s t : WorkerPool J} (h : s.Inv) {i : ℕ} {pc : WorkerPc J}
    (hpc : s.workers[i]? = some pc) (hstep : s.workerStep i pc = some t) : t.Inv := by
  obtain ⟨pre, post, hworkers, hset⟩ := exists_split hpc
  have hjobsHeld := h.jobsLocked_of_mem (List.mem_of_getElem? hpc)
  have hresultsHeld := h.resultsLocked_of_mem (List.mem_of_getElem? hpc)
  obtain ⟨hjobs, hresults, hqueue, hfetched, hfinished, hleft, hpipe, hok, hsignals, hfifo⟩ := h
  rw [hworkers] at hjobs hresults hfetched hfinished hpipe hsignals hfifo
  cases pc <;> simp only [WorkerPool.workerStep, hset] at hstep <;>
    simp only [List.countP_append, List.countP_cons, List.flatMap_append, List.flatMap_cons,
      List.length_append, List.length_cons, WorkerPc.holdsJobs, WorkerPc.holdsResults,
      WorkerPc.fetched, WorkerPc.finished, WorkerPc.isWriting, WorkerPc.isWaiting,
      WorkerPc.isHeading, Bool.false_eq_true, if_false, if_true, List.nil_append,
      List.singleton_append, Nat.add_zero] at hjobs hresults hfetched hfinished hpipe hsignals hfifo
  case waiting => cases hstep
  case' locking =>
    simp only [Option.ite_none_left_eq_some, Option.some.injEq, Bool.not_eq_true] at hstep
    obtain ⟨hfree, rfl⟩ := hstep
    rw [hfree, Bool.toNat_false] at hjobs
  case' resultLocking =>
    simp only [Option.ite_none_left_eq_some, Option.some.injEq, Bool.not_eq_true] at hstep
    obtain ⟨hfree, rfl⟩ := hstep
    rw [hfree, Bool.toNat_false] at hresults
  case' unlocking =>
    rw [hjobsHeld rfl, Bool.toNat_true] at hjobs
    cases hstep
  case' releasing =>
    rw [hresultsHeld rfl, Bool.toNat_true] at hresults
    cases hstep
  case' calling job =>
    cases hstep
    replace hfetched := perm_move hfetched
    replace hfinished := perm_insert (a := job) hfinished
  case' inserting job =>
    cases hstep
    replace hfinished := perm_move hfinished
    have hleft' : s.entered ++ [job] = s.left ++ (s.results ++ [job]) := by
      rw [hleft, List.append_assoc]
  case' writing => cases hstep
  case' checking =>
    rcases hitems : s.jobs with _ | ⟨job, jobs⟩ <;>
      simp only [hitems, List.append_assoc, List.cons_append, List.length_cons,
        Option.some.injEq] at hqueue hsignals hstep <;> subst hstep
  case' checking.nil => rw [hjobsHeld rfl, Bool.toNat_true] at hjobs
  case' checking.cons => replace hfetched := perm_insert (a := job) hfetched
  all_goals
    constructor <;>
      simp only [List.countP_append, List.countP_cons, List.flatMap_append, List.flatMap_cons,
        List.length_append, List.length_cons, WorkerPc.holdsJobs, WorkerPc.holdsResults,
        WorkerPc.fetched, WorkerPc.finished, WorkerPc.isWriting, WorkerPc.isWaiting,
        WorkerPc.isHeading, Bool.false_eq_true, if_false, if_true, List.nil_append,
        List.singleton_append, Nat.add_zero, Bool.toNat_true, Bool.toNat_false, List.map_append,
        List.map_cons, List.map_nil, List.length_nil, List.append_assoc] at * <;>
      first
      | assumption
      | omega
      -- a single worker has no neighbours
      | intro hone; obtain ⟨rfl, rfl⟩ := eq_nil_of_length hone; simpa using hfifo hone

theorem wakeUp_split {s t : WorkerPool J} {i : ℕ} (h : s.wakeUp i = some t) :
    ∃ pre post, s.workers = pre ++ .waiting :: post ∧
      t = { s with workers := pre ++ .locking :: post } := by
  unfold wakeUp at h
  split at h
  · next hpc =>
      obtain ⟨pre, post, hworkers, hset⟩ := exists_split hpc
      rw [hset, Option.some.injEq] at h
      exact ⟨pre, post, hworkers, h.symm⟩
  · cases h

/-- A worker that waited goes for the mutex: a spurious wake-up, or the signal that
the other thread owed. -/
theorem Inv.woken {s : WorkerPool J} (h : s.Inv) {pre post : List (WorkerPc J)}
    (hworkers : s.workers = pre ++ WorkerPc.waiting :: post) {producer : ProducerPc J}
    (hhand : producer.hand = s.producer.hand) (hholds : producer.holdsJobs = s.producer.holdsJobs)
    (howes : s.producer.owesSignal ≤ producer.owesSignal + 1) :
    ({ s with producer := producer, workers := pre ++ WorkerPc.locking :: post }).Inv := by
  have hcount (p : WorkerPc J → Bool) (hp : p .locking = p .waiting) :
      (pre ++ WorkerPc.locking :: post).countP p = s.workers.countP p := by
    rw [hworkers]
    simp only [List.countP_append, List.countP_cons, hp]
  have hflat (f : WorkerPc J → List J) (hf : f .locking = f .waiting) :
      (pre ++ WorkerPc.locking :: post).flatMap f = s.workers.flatMap f := by
    rw [hworkers]
    simp only [List.flatMap_append, List.flatMap_cons, hf]
  have hlen : (pre ++ WorkerPc.locking :: post).length = s.workers.length := by
    rw [hworkers, List.length_append, List.length_append]
    rfl
  have hsignals := h.signals
  rw [hworkers] at hsignals
  simp only [List.countP_append, List.countP_cons, WorkerPc.isWaiting, WorkerPc.isHeading,
    Bool.false_eq_true, if_false, if_true] at hsignals
  exact {
    jobsLock := by rw [hholds, hcount _ rfl, h.jobsLock]
    resultsLock := by rw [hcount _ rfl, h.resultsLock]
    queue := by rw [hhand, h.queue]
    fetched := by rw [hflat _ rfl]; exact h.fetched
    finished := by rw [hflat _ rfl]; exact h.finished
    left := h.left
    pipe := by rw [hcount _ rfl, h.pipe]
    ok := h.ok
    signals := fun hpos ↦ by
      have hhead : (pre ++ WorkerPc.locking :: post).countP WorkerPc.isHeading =
          pre.countP WorkerPc.isHeading + (post.countP WorkerPc.isHeading + 1) := by
        rw [List.countP_append, List.countP_cons]
        rfl
      simp only [hhead]
      omega
    fifo := by rw [hlen, hflat _ rfl, hflat _ rfl]; exact h.fifo }

theorem Inv.wakeUp {s t : WorkerPool J} (h : s.Inv) {i : ℕ} (hstep : s.wakeUp i = some t) :
    t.Inv := by
  obtain ⟨pre, post, hworkers, rfl⟩ := wakeUp_split hstep
  exact h.woken hworkers rfl rfl (Nat.le_succ _)

theorem Inv.signal {s t : WorkerPool J} (h : s.Inv) {waiter : Option ℕ}
    (hstep : s.step (.signal waiter) = some t) : t.Inv := by
  simp only [step] at hstep
  split at hstep
  next hproducer =>
    cases waiter with
    | none =>
        simp only [Option.ite_none_left_eq_some, Option.some.injEq] at hstep
        obtain ⟨hnone, rfl⟩ := hstep
        have hwaiting : s.workers.countP WorkerPc.isWaiting = 0 := by
          rw [List.countP_eq_zero]
          exact fun pc hpc hw ↦ hnone (List.any_eq_true.mpr ⟨pc, hpc, hw⟩)
        exact { h with
          jobsLock := by rw [← h.jobsLock, hproducer]; rfl
          queue := by rw [h.queue, hproducer]; rfl
          signals := fun hpos ↦ absurd hwaiting (Nat.ne_of_gt hpos) }
    | some i =>
        obtain ⟨pre, post, hworkers, rfl⟩ := wakeUp_split hstep
        have howes : s.producer.owesSignal ≤ (ProducerPc.idle : ProducerPc J).owesSignal + 1 := by
          rw [hproducer]
          exact Nat.le_refl 1
        exact h.woken hworkers (by rw [hproducer]; rfl) (by rw [hproducer]; rfl) howes
  · cases hstep

theorem Inv.push {s t : WorkerPool J} (h : s.Inv) {job : J}
    (hstep : s.step (.push job) = some t) : t.Inv := by
  simp only [step] at hstep
  split at hstep
  next hproducer =>
    cases hstep
    exact { h with
      jobsLock := by rw [← h.jobsLock, hproducer]; rfl
      queue := by rw [h.queue, hproducer]; simp only [ProducerPc.hand, List.append_nil]
      signals := by have := h.signals; rwa [hproducer] at this }
  · cases hstep

theorem Inv.producerStep {s t : WorkerPool J} (h : s.Inv)
    (hstep : s.producerStep s.producer = some t) : t.Inv := by
  have hjobs := h.jobsLock
  have hqueue := h.queue
  have hsignals := h.signals
  cases hproducer : s.producer with
  | idle | signalling => rw [hproducer] at hstep; cases hstep
  | locking job =>
      rw [hproducer] at hstep hjobs hqueue hsignals
      simp only [WorkerPool.producerStep, Option.ite_none_left_eq_some, Option.some.injEq,
        Bool.not_eq_true] at hstep
      obtain ⟨hfree, rfl⟩ := hstep
      rw [hfree, Bool.toNat_false] at hjobs
      exact { h with
        jobsLock := by
          simp only [ProducerPc.holdsJobs, Bool.toNat_true] at hjobs ⊢
          omega
        queue := hqueue
        signals := hsignals }
  | inserting job =>
      rw [hproducer] at hstep hjobs hqueue hsignals
      cases hstep
      exact { h with
        jobsLock := hjobs
        queue := by simpa only [ProducerPc.hand, List.append_assoc, List.append_nil] using hqueue
        signals := fun hpos ↦ by
          have := hsignals hpos
          simp only [ProducerPc.owesSignal, List.length_append, List.length_singleton] at this ⊢
          omega }
  | unlocking =>
      rw [hproducer] at hstep hjobs hqueue hsignals
      cases hstep
      have hheld := locked_of_holder hjobs (Nat.add_pos_left Nat.one_pos _)
      rw [hheld, Bool.toNat_true] at hjobs
      exact { h with
        jobsLock := by
          simp only [ProducerPc.holdsJobs, Bool.toNat_false] at hjobs ⊢
          omega
        queue := hqueue
        signals := hsignals }

theorem Inv.consumerStep {s t : WorkerPool J} (h : s.Inv)
    (hstep : s.consumerStep s.consumer = some t) : t.Inv := by
  have hresults := h.resultsLock
  have hpipe := h.pipe
  cases hconsumer : s.consumer with
  | reading =>
      rw [hconsumer] at hstep hresults hpipe
      simp only [WorkerPool.consumerStep, Option.ite_none_left_eq_some, Option.some.injEq] at hstep
      obtain ⟨hbyte, rfl⟩ := hstep
      exact { h with
        resultsLock := hresults
        pipe := by
          simp only [ConsumerPc.owes] at hpipe ⊢
          omega
        ok := ConsumerPc.noConfusion }
  | locking =>
      rw [hconsumer] at hstep hresults hpipe
      simp only [WorkerPool.consumerStep, Option.ite_none_left_eq_some, Option.some.injEq,
        Bool.not_eq_true] at hstep
      obtain ⟨hfree, rfl⟩ := hstep
      rw [hfree, Bool.toNat_false] at hresults
      exact { h with
        resultsLock := by
          simp only [ConsumerPc.holdsResults, Bool.toNat_true] at hresults ⊢
          omega
        pipe := hpipe
        ok := ConsumerPc.noConfusion }
  | taking =>
      rw [hconsumer] at hstep hresults hpipe
      simp only [WorkerPool.consumerStep] at hstep
      cases hitems : s.results with
      | nil =>
          -- the byte that was read stands for an item
          simp only [hitems, List.length_nil, ConsumerPc.owes] at hpipe
          omega
      | cons job results =>
          simp only [hitems, Option.some.injEq] at hstep
          subst hstep
          exact { h with
            resultsLock := hresults
            left := by rw [h.left, hitems, List.append_assoc]; rfl
            pipe := by
              simp only [hitems, ConsumerPc.owes, List.length_cons] at hpipe ⊢
              omega
            ok := ConsumerPc.noConfusion }
  | unlocking =>
      rw [hconsumer] at hstep hresults hpipe
      cases hstep
      have hheld := locked_of_holder hresults (Nat.add_pos_left Nat.one_pos _)
      rw [hheld, Bool.toNat_true] at hresults
      exact { h with
        resultsLock := by
          simp only [ConsumerPc.holdsResults, Bool.toNat_false] at hresults ⊢
          omega
        pipe := hpipe
        ok := ConsumerPc.noConfusion }
  | failed => exact absurd hconsumer h.ok

theorem Inv.step {s t : WorkerPool J} {a : PoolStep J} (h : s.Inv) (hstep : s.step a = some t) :
    t.Inv := by
  cases a with
  | push job => exact h.push hstep
  | producer => exact h.producerStep hstep
  | signal waiter => exact h.signal hstep
  | worker i =>
      obtain ⟨pc, hpc, hworker⟩ := Option.bind_eq_some_iff.mp hstep
      exact h.workerStep hpc hworker
  | wake i => exact h.wakeUp hstep
  | consumer => exact h.consumerStep hstep

theorem inv_of_reachable {n : ℕ} {s : WorkerPool J} (h : Machine.Reachable step (start J n) s) :
    s.Inv :=
  h.invariant (inv_start n) fun _ _ _ hinv hstep ↦ hinv.step hstep

/-! ## When nothing can move -/

theorem Quiescent.worker {s : WorkerPool J} (hq : s.Quiescent) {pc : WorkerPc J}
    (hmem : pc ∈ s.workers) :
    pc = .waiting ∨ (pc = .locking ∧ s.jobsLocked = true) ∨
      ((∃ job, pc = .resultLocking job) ∧ s.resultsLocked = true) := by
  obtain ⟨i, hi⟩ := List.mem_iff_getElem?.mp hmem
  have hstep : s.workerStep i pc = none := by simpa [step, hi] using hq.2.2.1 i
  cases pc with
  | locking => simpa [workerStep] using hstep
  | checking =>
      simp only [workerStep] at hstep
      split at hstep <;> cases hstep
  | waiting => exact .inl rfl
  | resultLocking job => simpa [workerStep] using hstep
  | unlocking job | calling job | inserting job | writing | releasing => cases hstep

theorem Quiescent.producer {s : WorkerPool J} (hq : s.Quiescent) :
    s.producer = .idle ∨ ((∃ job, s.producer = .locking job) ∧ s.jobsLocked = true) := by
  have hstep : s.producerStep s.producer = none := hq.1
  have hsignal := hq.2.1
  cases hproducer : s.producer with
  | idle => exact .inl rfl
  | locking job =>
      rw [hproducer] at hstep
      exact .inr ⟨⟨job, rfl⟩, by simpa [producerStep] using hstep⟩
  | inserting job | unlocking => rw [hproducer] at hstep; cases hstep
  | signalling =>
      by_cases hwaits : s.workers.any WorkerPc.isWaiting = true
      · obtain ⟨pc, hmem, hpc⟩ := List.any_eq_true.mp hwaits
        obtain ⟨i, hi⟩ := List.mem_iff_getElem?.mp hmem
        have hwaiting : pc = .waiting := by cases pc <;> first | rfl | cases hpc
        have := hsignal (some i)
        simp [step, hproducer, wakeUp, hi, hwaiting] at this
      · have := hsignal none
        simp [step, hproducer, hwaits] at this

theorem Quiescent.consumer {s : WorkerPool J} (hq : s.Quiescent) (hok : s.consumer ≠ .failed) :
    (s.consumer = .reading ∧ s.pipe = 0) ∨ (s.consumer = .locking ∧ s.resultsLocked = true) := by
  have hstep : s.consumerStep s.consumer = none := hq.2.2.2
  cases hconsumer : s.consumer with
  | reading =>
      rw [hconsumer] at hstep
      exact .inl ⟨rfl, by simpa [consumerStep] using hstep⟩
  | locking =>
      rw [hconsumer] at hstep
      exact .inr ⟨rfl, by simpa [consumerStep] using hstep⟩
  | taking =>
      rw [hconsumer] at hstep
      simp only [consumerStep] at hstep
      split at hstep <;> cases hstep
  | unlocking => rw [hconsumer] at hstep; cases hstep
  | failed => exact absurd hconsumer hok

theorem Inv.jobsFree {s : WorkerPool J} (h : s.Inv) (hq : s.Quiescent) : s.jobsLocked = false := by
  have hworkers : s.workers.countP WorkerPc.holdsJobs = 0 := by
    rw [List.countP_eq_zero]
    intro pc hmem
    obtain rfl | ⟨rfl, -⟩ | ⟨⟨job, rfl⟩, -⟩ := hq.worker hmem <;> exact Bool.false_ne_true
  have hproducer : s.producer.holdsJobs = 0 := by
    obtain hidle | ⟨⟨job, hlocking⟩, -⟩ := hq.producer
    · rw [hidle]; rfl
    · rw [hlocking]; rfl
  have hlock := h.jobsLock
  rw [hworkers, hproducer] at hlock
  exact Bool.toNat_eq_zero.mp hlock.symm

theorem Inv.resultsFree {s : WorkerPool J} (h : s.Inv) (hq : s.Quiescent) :
    s.resultsLocked = false := by
  have hworkers : s.workers.countP WorkerPc.holdsResults = 0 := by
    rw [List.countP_eq_zero]
    intro pc hmem
    obtain rfl | ⟨rfl, -⟩ | ⟨⟨job, rfl⟩, -⟩ := hq.worker hmem <;> exact Bool.false_ne_true
  have hconsumer : s.consumer.holdsResults = 0 := by
    obtain ⟨hreading, -⟩ | ⟨hlocking, -⟩ := hq.consumer h.ok
    · rw [hreading]; rfl
    · rw [hlocking]; rfl
  have hlock := h.resultsLock
  rw [hworkers, hconsumer] at hlock
  exact Bool.toNat_eq_zero.mp hlock.symm

theorem Inv.worker_waiting {s : WorkerPool J} (h : s.Inv) (hq : s.Quiescent) {pc : WorkerPc J}
    (hmem : pc ∈ s.workers) : pc = .waiting := by
  obtain hwaiting | ⟨-, hlocked⟩ | ⟨-, hlocked⟩ := hq.worker hmem
  · exact hwaiting
  · rw [h.jobsFree hq] at hlocked; cases hlocked
  · rw [h.resultsFree hq] at hlocked; cases hlocked

/-- When nothing can move, no job is left in either queue or in anyone's hands. -/
theorem Inv.empty_of_quiescent {s : WorkerPool J} (h : s.Inv) (hq : s.Quiescent)
    (hworkers : s.workers ≠ []) :
    s.waitingJobs = [] ∧ s.activeJobs = [] ∧ s.results = [] := by
  have hidle : s.producer = .idle := by
    obtain hidle | ⟨-, hlocked⟩ := hq.producer
    · exact hidle
    · rw [h.jobsFree hq] at hlocked; cases hlocked
  have hreading : s.consumer = .reading ∧ s.pipe = 0 := by
    obtain hreading | ⟨-, hlocked⟩ := hq.consumer h.ok
    · exact hreading
    · rw [h.resultsFree hq] at hlocked; cases hlocked
  have hall (f : WorkerPc J → List J) (hf : f .waiting = []) : s.workers.flatMap f = [] := by
    rw [List.flatMap_eq_nil_iff]
    intro pc hmem
    rw [h.worker_waiting hq hmem, hf]
  have hnone (p : WorkerPc J → Bool) (hp : p .waiting = false) : s.workers.countP p = 0 := by
    rw [List.countP_eq_zero]
    intro pc hmem
    rw [h.worker_waiting hq hmem, hp]
    exact Bool.false_ne_true
  have hwaiting : 0 < s.workers.countP WorkerPc.isWaiting := by
    obtain ⟨pc, hmem⟩ := List.exists_mem_of_ne_nil _ hworkers
    exact List.countP_pos_iff.mpr ⟨pc, hmem, by rw [h.worker_waiting hq hmem]; rfl⟩
  have hjobs : s.jobs = [] := by
    have hle := h.signals hwaiting
    rw [hnone _ rfl, hidle] at hle
    exact List.length_eq_zero_iff.mp (Nat.le_zero.mp hle)
  have hresults : s.results = [] := by
    have hpipe := h.pipe
    rw [hnone _ rfl, hreading.1, hreading.2] at hpipe
    exact List.length_eq_zero_iff.mp hpipe.symm
  exact ⟨by rw [waitingJobs, hall WorkerPc.fetched rfl, hjobs, hidle]; rfl, hall _ rfl, hresults⟩

/-! ## How much is left to do -/

theorem effort_workerStep {s t : WorkerPool J} {i : ℕ} {pc : WorkerPc J}
    (hpc : s.workers[i]? = some pc) (hstep : s.workerStep i pc = some t) :
    t.effort < s.effort := by
  obtain ⟨pre, post, hworkers, hset⟩ := exists_split hpc
  have hsum (pc : WorkerPc J) : ((pre ++ pc :: post).map WorkerPc.effort).sum =
      (pre.map WorkerPc.effort).sum + (pc.effort + (post.map WorkerPc.effort).sum) := by
    rw [List.map_append, List.sum_append, List.map_cons, List.sum_cons]
  cases pc <;> simp only [workerStep, hset] at hstep
  case locking | resultLocking =>
    simp only [Option.ite_none_left_eq_some, Option.some.injEq] at hstep
    obtain ⟨-, rfl⟩ := hstep
    simp only [effort, hworkers, hsum, WorkerPc.effort]
    omega
  case checking =>
    rcases hitems : s.jobs with _ | ⟨job, jobs⟩ <;>
      simp only [hitems, Option.some.injEq] at hstep <;> subst hstep <;>
      simp only [effort, hworkers, hsum, WorkerPc.effort, hitems, List.length_cons,
        List.length_nil] <;> omega
  case waiting => cases hstep
  all_goals
    cases hstep
    simp only [effort, hworkers, hsum, WorkerPc.effort]
    omega

theorem effort_wakeUp {s t : WorkerPool J} {i : ℕ} (hstep : s.wakeUp i = some t) :
    t.effort = s.effort + 2 := by
  obtain ⟨pre, post, hworkers, rfl⟩ := wakeUp_split hstep
  simp only [effort, hworkers, List.map_append, List.sum_append, List.map_cons, List.sum_cons,
    WorkerPc.effort]
  omega

theorem effort_producerStep {s t : WorkerPool J} (hstep : s.producerStep s.producer = some t) :
    t.effort < s.effort := by
  cases hproducer : s.producer with
  | idle | signalling => rw [hproducer] at hstep; cases hstep
  | locking job =>
      rw [hproducer] at hstep
      simp only [producerStep, Option.ite_none_left_eq_some, Option.some.injEq] at hstep
      obtain ⟨-, rfl⟩ := hstep
      simp only [effort, hproducer, ProducerPc.effort]
      omega
  | inserting job | unlocking =>
      rw [hproducer] at hstep
      cases hstep
      simp only [effort, hproducer, ProducerPc.effort, List.length_append, List.length_singleton]
      omega

theorem effort_consumerStep {s t : WorkerPool J} (hstep : s.consumerStep s.consumer = some t) :
    t.effort < s.effort := by
  cases hconsumer : s.consumer with
  | reading | locking =>
      rw [hconsumer] at hstep
      simp only [consumerStep, Option.ite_none_left_eq_some, Option.some.injEq] at hstep
      obtain ⟨hfree, rfl⟩ := hstep
      simp only [effort, hconsumer, ConsumerPc.effort]
      omega
  | taking =>
      rw [hconsumer] at hstep
      simp only [consumerStep] at hstep
      split at hstep <;> cases hstep <;> simp only [effort, hconsumer, ConsumerPc.effort] <;> omega
  | unlocking =>
      rw [hconsumer] at hstep
      cases hstep
      simp only [effort, hconsumer, ConsumerPc.effort]
      omega
  | failed => rw [hconsumer] at hstep; cases hstep

theorem effort_signal {s t : WorkerPool J} {waiter : Option ℕ}
    (hstep : s.step (.signal waiter) = some t) : t.effort < s.effort := by
  simp only [step] at hstep
  split at hstep
  next hproducer =>
    cases waiter with
    | none =>
        simp only [Option.ite_none_left_eq_some, Option.some.injEq] at hstep
        obtain ⟨-, rfl⟩ := hstep
        simp only [effort, hproducer, ProducerPc.effort]
        omega
    | some i =>
        rw [effort_wakeUp hstep]
        simp only [effort, hproducer, ProducerPc.effort]
        omega
  · cases hstep

theorem effort_step {s t : WorkerPool J} {a : PoolStep J} (hstep : s.step a = some t) :
    t.effort + 1 ≤ s.effort + a.cost := by
  cases a with
  | push job =>
      simp only [step] at hstep
      split at hstep
      next hproducer =>
        cases hstep
        simp only [effort, hproducer, ProducerPc.effort, PoolStep.cost]
        omega
      · cases hstep
  | producer => exact effort_producerStep hstep
  | signal waiter => exact effort_signal hstep
  | worker i =>
      obtain ⟨pc, hpc, hworker⟩ := Option.bind_eq_some_iff.mp hstep
      exact effort_workerStep hpc hworker
  | wake i => exact Nat.le_of_eq (congrArg (· + 1) (effort_wakeUp hstep))
  | consumer => exact effort_consumerStep hstep

/-- Without another `push` or spurious wake-up the pool comes to rest. -/
theorem length_run_le_effort {s t : WorkerPool J} {as : List (PoolStep J)}
    (h : Machine.run step s as = some t) :
    t.effort + as.length ≤ s.effort + (as.map PoolStep.cost).sum :=
  Machine.length_run_le (fun _ _ _ ↦ effort_step) h

/-! ## Exactly once -/

theorem length_workerStep {s t : WorkerPool J} {i : ℕ} {pc : WorkerPc J}
    (hstep : s.workerStep i pc = some t) : t.workers.length = s.workers.length := by
  cases pc <;> simp only [workerStep] at hstep <;> (try split at hstep) <;> cases hstep <;> simp

theorem length_step {s t : WorkerPool J} {a : PoolStep J} (hstep : s.step a = some t) :
    t.workers.length = s.workers.length := by
  cases a with
  | push job =>
      simp only [step] at hstep
      split at hstep <;> cases hstep
      rfl
  | producer =>
      simp only [step] at hstep
      unfold producerStep at hstep
      split at hstep <;> (try split at hstep) <;> cases hstep <;> rfl
  | signal waiter =>
      simp only [step] at hstep
      split at hstep
      · cases waiter with
        | none =>
            simp only [Option.ite_none_left_eq_some, Option.some.injEq] at hstep
            rw [← hstep.2]
        | some i =>
            obtain ⟨pre, post, hworkers, rfl⟩ := wakeUp_split hstep
            simp only at hworkers
            simp [hworkers]
      · cases hstep
  | worker i =>
      obtain ⟨pc, -, hworker⟩ := Option.bind_eq_some_iff.mp hstep
      exact length_workerStep hworker
  | wake i =>
      obtain ⟨pre, post, hworkers, rfl⟩ := wakeUp_split hstep
      simp [hworkers]
  | consumer =>
      simp only [step] at hstep
      unfold consumerStep at hstep
      split at hstep <;> (try split at hstep) <;> cases hstep <;> rfl

theorem length_workers {n : ℕ} {s : WorkerPool J} (h : Machine.Reachable step (start J n) s) :
    s.workers.length = n :=
  h.invariant (P := fun s ↦ s.workers.length = n) List.length_replicate
    fun _ _ _ hlen hstep ↦ (length_step hstep).trans hlen

theorem Inv.pushed_perm {s : WorkerPool J} (h : s.Inv) :
    s.pushed.Perm (s.given.map Prod.snd ++ s.waitingJobs) := by
  have hfetched := (h.fetched.append_right s.jobs).append_right s.producer.hand
  rw [h.queue]
  simpa [waitingJobs, List.append_assoc] using hfetched

theorem Inv.pushed_eq {s : WorkerPool J} (h : s.Inv) (hone : s.workers.length = 1) :
    s.pushed = s.given.map Prod.snd ++ s.waitingJobs := by
  rw [h.queue, (h.fifo hone).1, waitingJobs]
  simp only [List.append_assoc]

/-- A pool gives every pushed job to one worker, the results take it in once and
give it out once, in the order of the pushes if there is one worker. A byte of the
pipe stands for every item of the results, but for an item whose worker is about
to write its byte. When nothing can move, every job has left, and without another
`push` or wake-up the pool gets there in `s.effort` steps. -/
theorem exactly_once {n : ℕ} {s : WorkerPool J} (h : Machine.Reachable step (start J n) s) :
    s.pushed.Perm (s.given.map Prod.snd ++ s.waitingJobs) ∧
    (s.given.map Prod.snd).Perm (s.entered ++ s.activeJobs) ∧
    s.entered = s.left ++ s.results ∧
    s.pipe + s.consumer.owes + s.workers.countP WorkerPc.isWriting = s.results.length ∧
    s.consumer ≠ .failed ∧
    (n = 1 → s.pushed = s.given.map Prod.snd ++ s.waitingJobs ∧
      s.given.map Prod.snd = s.entered ++ s.activeJobs) ∧
    (0 < n → s.Quiescent → s.pushed.Perm (s.given.map Prod.snd) ∧ s.pushed.Perm s.left) ∧
    ∀ as t, Machine.run step s as = some t →
      t.effort + as.length ≤ s.effort + (as.map PoolStep.cost).sum := by
  have hinv := inv_of_reachable h
  have hlen := length_workers h
  refine ⟨hinv.pushed_perm, hinv.finished, hinv.left, hinv.pipe, hinv.ok, ?_, ?_,
    fun _ _ ↦ length_run_le_effort⟩
  · intro hone
    rw [← hlen] at hone
    exact ⟨hinv.pushed_eq hone, (hinv.fifo hone).2⟩
  · intro hpos hquiescent
    rw [← hlen] at hpos
    obtain ⟨hwaiting, hactive, hresults⟩ :=
      hinv.empty_of_quiescent hquiescent (List.ne_nil_of_length_pos hpos)
    have hpushed := hinv.pushed_perm
    have hfinished := hinv.finished
    have hleft := hinv.left
    rw [hwaiting, List.append_nil] at hpushed
    rw [hresults, List.append_nil] at hleft
    rw [activeJobs] at hactive
    rw [hactive, List.append_nil, hleft] at hfinished
    exact ⟨hpushed, hpushed.trans hfinished⟩

/-- Two workers after job 7 went through and both waited. -/
def served : WorkerPool ℕ where
  jobs := []
  jobsLocked := false
  results := []
  resultsLocked := false
  pipe := 0
  producer := .idle
  workers := [.waiting, .waiting]
  consumer := .reading
  pushed := [7]
  taken := [7]
  given := [(1, 7)]
  entered := [7]
  left := [7]

theorem run_served : Machine.run step (start ℕ 2)
    [.worker 0, .worker 0, .worker 1, .worker 1, .push 7, .producer, .producer, .producer,
      .signal (some 1), .worker 1, .worker 1, .worker 1, .worker 1, .worker 1, .worker 1,
      .worker 1, .consumer, .worker 1, .consumer, .consumer, .worker 1, .consumer,
      .worker 1] = some served :=
  rfl

theorem quiescent_served : served.Quiescent :=
  ⟨rfl, fun _ ↦ rfl, fun i ↦ match i with | 0 | 1 | _ + 2 => rfl, rfl⟩

theorem exactly_once_served :
    served.pushed.Perm (served.given.map Prod.snd) ∧ served.pushed.Perm served.left := by
  obtain ⟨-, -, -, -, -, -, hrest, -⟩ := exactly_once (Machine.reachable_of_run run_served)
  exact hrest (by decide) quiescent_served

end WorkerPool

end GeminiDB
