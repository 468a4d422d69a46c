import GeminiDB.Serv.System

/-!
# What the server is for

A service for any number of clients, with one request of each under way. A request is
asked, its handler goes through its moments one by one, between those of the others, and
its response is the reply. Whatever the event loop, the workers, the lock and the store
do, they do what this service does.
-/

namespace GeminiDB

open Program

/-- The handlers under way, the requests without a reply, and what has happened. -/
structure Spec where
  atomic : Atomic ℕ Moment Moment.Result Database (Option Response)
  asked : ℕ → Option Request
  log : List Event

def Event.visible : Event → Bool
  | .moment _ _ _ => false
  | _ => true

/-- The requests of a link. -/
def requestsOf (id : ℕ) (log : List Event) : List Request :=
  log.filterMap fun
    | .request i req => if i = id then some req else none
    | _ => none

/-- The requests of a link with their replies. -/
def repliesOf (id : ℕ) (log : List Event) : List (Request × Response) :=
  log.filterMap fun
    | .reply i req resp => if i = id then some (req, resp) else none
    | _ => none

section Log

variable (id : ℕ) (log log' : List Event)

@[simp] theorem requestsOf_append :
    requestsOf id (log ++ log') = requestsOf id log ++ requestsOf id log' :=
  List.filterMap_append

@[simp] theorem repliesOf_append :
    repliesOf id (log ++ log') = repliesOf id log ++ repliesOf id log' :=
  List.filterMap_append

end Log

namespace Spec

def init : Spec := ⟨⟨Database.empty, fun _ ↦ none⟩, fun _ ↦ none, []⟩

/-- With `strict`, no moment fails. -/
inductive Step (strict : Bool) : Spec → Spec → Prop
  | request {t : Spec} (id : ℕ) (req : Request) (hfree : t.asked id = none) :
      Step strict t { t with
        asked := Function.update t.asked id (some req)
        log := t.log ++ [.request id req] }
  | start {t : Spec} (id : ℕ) {req : Request} (r : Report) (hasked : t.asked id = some req)
      (hrest : t.atomic.rest id = none) :
      Step strict t { t with atomic := t.atomic.put id (some (moments (handler r req))) }
  | moment {t : Spec} (id : ℕ) {m : Moment}
      {next : m.Result → Prog Moment Moment.Result (Option Response)} (x : Option Bytes)
      (hx : AdmitsMoment strict x) (hrest : t.atomic.rest id = some (.call m next)) :
      Step strict t { t with
        atomic :=
          { t.atomic.put id (some (next (Database.moments.exec m x t.atomic.shared).1)) with
            shared := (Database.moments.exec m x t.atomic.shared).2 }
        log := t.log ++ [.moment id m x] }
  | reply {t : Spec} (id : ℕ) {req : Request} {resp : Response} (hasked : t.asked id = some req)
      (hrest : t.atomic.rest id = some (.ret (some resp))) :
      Step strict t { t with
        atomic := t.atomic.put id none
        asked := Function.update t.asked id none
        log := t.log ++ [.reply id req resp] }

def Steps (strict : Bool) : Spec → Spec → Prop := Relation.ReflTransGen (Step strict)

/-- What the service can come to. -/
def Reached (strict : Bool) (t : Spec) : Prop := Steps strict init t

/-- Indivisible operations of one handler are steps of the service. -/
theorem steps_of_atomic {strict : Bool} {id : ℕ} {t : Spec}
    {a : Atomic ℕ Moment Moment.Result Database (Option Response)}
    (h : Atomic.Steps Database.moments (AdmitsMoment strict) id t.atomic a) :
    ∃ t' ext, Steps strict t t' ∧ t'.atomic = a ∧ t'.asked = t.asked ∧
      t'.log = t.log ++ ext ∧ ext.filter Event.visible = [] ∧
        ∀ {i m x}, .moment i m x ∈ ext → ∃ p, t.atomic.rest i = some p ∧
          ∀ P : Moment → Prop, p.All P → P m := by
  -- what is left of the program has the moments of the program
  suffices hmore : ∃ t' ext, Steps strict t t' ∧ t'.atomic = a ∧ t'.asked = t.asked ∧
      t'.log = t.log ++ ext ∧ ext.filter Event.visible = [] ∧
        (∀ {i m x}, .moment i m x ∈ ext → ∃ p, t.atomic.rest i = some p ∧
          ∀ P : Moment → Prop, p.All P → P m) ∧
        ∀ q, a.rest id = some q → ∃ p, t.atomic.rest id = some p ∧
          ∀ P : Moment → Prop, p.All P → q.All P by
    obtain ⟨t', ext, hsteps, hatomic, hasked, hlog, hsilent, hmoments, -⟩ := hmore
    exact ⟨t', ext, hsteps, hatomic, hasked, hlog, hsilent, hmoments⟩
  induction h with
  | refl =>
      exact ⟨t, [], .refl, rfl, rfl, (List.append_nil _).symm, rfl,
        fun h ↦ absurd h List.not_mem_nil, fun q hq ↦ ⟨q, hq, fun _ h ↦ h⟩⟩
  | tail _ hstep ih =>
      obtain ⟨t', ext, hsteps, rfl, hasked, hlog, hsilent, hmoments, hrest'⟩ := ih
      obtain ⟨x, hx, hexec⟩ := hstep
      rw [Atomic.exec] at hexec
      split at hexec
      · next m next hrest =>
        cases hexec
        obtain ⟨p, hp, hall⟩ := hrest' _ hrest
        refine ⟨_, ext ++ [.moment id m x], hsteps.tail (.moment id x hx hrest), rfl, hasked, ?_,
          ?_, fun hmem ↦ ?_, fun q hq ↦ ⟨p, hp, fun P hP ↦ ?_⟩⟩
        · rw [hlog, List.append_assoc]
        · rw [List.filter_append, hsilent]
          rfl
        · rcases List.mem_append.mp hmem with hold | hnew
          · exact hmoments hold
          · cases List.mem_singleton.mp hnew
            exact ⟨p, hp, fun P hP ↦ (hall P hP).1⟩
        · cases (Function.update_self ..).symm.trans hq
          exact (hall P hP).2 _
      · cases hexec
      · cases hexec

end Spec

end GeminiDB
