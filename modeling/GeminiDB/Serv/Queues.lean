import GeminiDB.Serv.Order

/-!
# What becomes of the items

Queues hold what was pushed and not popped yet. As the writes are a sequential run in the
order of their replies, this can be read off the replies: no item is lost or given out
twice, and a queue that is only pushed to at its back and popped from at its front gives
the items out in the order in which they were pushed.
-/

namespace GeminiDB

open Program SeqDeque
open scoped List

/-- The end that a function pushes to. -/
def Proc.pushSide : Proc → Option Side
  | procQpush | procQpushBack => some .back
  | procQpushFront => some .front
  | _ => none

/-- The end that a function pops from. -/
def Proc.popSide : Proc → Option Side
  | procQpop | procQpopFront => some .front
  | procQpopBack => some .back
  | _ => none

namespace Request

/-- The function that handles the request. -/
def proc (req : Request) : Option Proc :=
  (procMap.getProc (req.headD [])).map ProcMap.Entry.proc

def PushesTo (name : Bytes) (req : Request) : Prop :=
  (req.proc.bind Proc.pushSide).isSome = true ∧ req.arg 1 = name

def PopsFrom (name : Bytes) (req : Request) : Prop :=
  (req.proc.bind Proc.popSide).isSome = true ∧ req.arg 1 = name

instance (name : Bytes) (req : Request) : Decidable (req.PushesTo name) :=
  inferInstanceAs (Decidable (_ ∧ _))

instance (name : Bytes) (req : Request) : Decidable (req.PopsFrom name) :=
  inferInstanceAs (Decidable (_ ∧ _))

end Request

/-- The items that an acknowledged request has pushed. -/
def pushed (name : Bytes) (p : ℕ × Request × Response) : List Bytes :=
  if p.2.1.PushesTo name ∧ p.2.2.head? = some (ascii "ok") then p.2.1.drop 2 else []

/-- The items that a reply gives out. -/
def popped (name : Bytes) (p : ℕ × Request × Response) : List Bytes :=
  if p.2.1.PopsFrom name ∧ p.2.2.head? = some (ascii "ok") then p.2.2.tail else []

namespace Database

def items (d : Database) (name : Bytes) : List Bytes := (d.queues name).items

/-- The mutating calls alone. -/
def mutations : Interface Mutation (fun _ ↦ Int × Bytes) Unit Database :=
  ⟨fun m _ d ↦ d.mutate m, id, id⟩

/-! ## One call -/

theorem items_push (d : Database) (name item : Bytes) (side : Side) :
    ((d.push name item side).1.1 = -1 ∧ (d.push name item side).2 = d) ∨
      ((d.push name item side).1.1 ≠ -1 ∧ ∀ other, (d.push name item side).2.items other =
        if other = name then side.extend [item] (d.items name) else d.items other) := by
  by_cases hrange : (d.queues name).next qitemSeqInit.toNat side ≤ qitemMinSeq.toNat ∨
      qitemMaxSeq.toNat ≤ (d.queues name).next qitemSeqInit.toNat side
  · have hpush : d.queues.push name item side = ((-1, []), d.queues) := if_pos hrange
    left
    cases d
    simp [push, hpush]
  · right
    have hpush : d.queues.push name item side = ((((d.queues name).items.length + 1 : Int), []),
        Function.update d.queues name ((d.queues name).push qitemSeqInit.toNat item side)) :=
      if_neg hrange
    refine ⟨?_, fun other ↦ ?_⟩
    · simp only [push, hpush]
      omega
    · simp only [push, hpush, items]
      by_cases hother : other = name
      · subst hother
        have hextend := extend_push qitemSeqInit.toNat item (d.queues other) side []
        simpa [Side.extend] using hextend
      · simp [hother]

theorem items_pop (d : Database) (name item : Bytes) (side : Side) :
    ((d.pop name item side).1.1 = 0 ∧ (d.pop name item side).2 = d) ∨
      ∃ found, (d.pop name item side).1 = (1, found) ∧
        side.view (d.items name) = found :: side.view ((d.pop name item side).2.items name) ∧
          ∀ other, other ≠ name → (d.pop name item side).2.items other = d.items other := by
  cases hpeek : (d.queues name).peek side with
  | none =>
      left
      have hpop : d.queues.pop name item side = ((0, item), d.queues) := by
        rw [Deques.pop, hpeek]
      cases d
      simp [pop, hpop]
  | some found =>
      right
      have hpop : d.queues.pop name item side =
          ((1, found), Function.update d.queues name ((d.queues name).pop side)) := by
        rw [Deques.pop, hpeek]
      refine ⟨found, ?_, ?_, fun other hother ↦ ?_⟩
      · simp only [pop, hpop]
      · rw [peek_eq_head?] at hpeek
        obtain ⟨rest, hrest⟩ := List.head?_eq_some_iff.mp hpeek
        simp only [pop, hpop, items, Function.update_self, view_pop, hrest, List.tail_cons]
      · simp only [pop, hpop, items, Function.update_of_ne hother]

/-! ## One request -/

variable {d : Database} {name : Bytes}

/-- A push request that does not fail adds all of its items. -/
theorem run_qpushLoop (side : Side) (name : Bytes) (items : List Bytes) (size : Int) (e : ℕ → Unit)
    (d : Database) :
    let out := (qpushLoop side name items size).run mutations e d
    (∀ other, other ≠ name → out.state.items other = d.items other) ∧
      (out.val = [ascii "error"] ∨ out.val.head? = some (ascii "ok") ∧
        out.state.items name = side.extend items (d.items name)) := by
  induction items generalizing size e d with
  | nil =>
      refine ⟨fun _ _ ↦ rfl, .inr ⟨rfl, ?_⟩⟩
      simp [Side.extend, qpushLoop]
  | cons item items ih =>
      have hcall : (callPush side name item).run mutations e d =
          ⟨(d.push name item side).1, later e, (d.push name item side).2⟩ := by
        cases side <;> rfl
      simp only [qpushLoop, Prog.run_bind, hcall]
      rcases d.items_push name item side with ⟨herr, hsame⟩ | ⟨hok, hitems⟩
      · rw [if_pos herr, hsame]
        exact ⟨fun _ _ ↦ rfl, .inl rfl⟩
      · rw [if_neg hok]
        obtain ⟨hothers, hval⟩ := ih (d.push name item side).1.1 (later e) (d.push name item side).2
        refine ⟨fun other hother ↦ ?_, ?_⟩
        · rw [hothers other hother, hitems, if_neg hother]
        · rcases hval with herr | ⟨hhead, hall⟩
          · exact .inl herr
          · refine .inr ⟨hhead, ?_⟩
            rw [hall, hitems, if_pos rfl]
            simp [Side.extend]

/-- A pop request gives out the items that it removes. -/
theorem run_qpopLoop (side : Side) (name : Bytes) (size : ℕ) (item : Bytes) (resp : Response)
    (e : ℕ → Unit) (d : Database) :
    let out := (qpopLoop side name size item resp).run mutations e d
    (∀ other, other ≠ name → out.state.items other = d.items other) ∧
      ∃ taken, out.val = resp ++ taken ∧
        side.view (d.items name) = taken ++ side.view (out.state.items name) := by
  induction size generalizing item resp e d with
  | zero => exact ⟨fun _ _ ↦ rfl, [], (List.append_nil _).symm, rfl⟩
  | succ size ih =>
      have hcall : (callPop side name item).run mutations e d =
          ⟨(d.pop name item side).1, later e, (d.pop name item side).2⟩ := by
        cases side <;> rfl
      simp only [qpopLoop, Prog.run_bind, hcall]
      rcases d.items_pop name item side with ⟨hzero, hsame⟩ | ⟨found, hval, hview, hothers⟩
      · rw [if_pos hzero.le, hsame]
        exact ⟨fun _ _ ↦ rfl, [], (List.append_nil _).symm, rfl⟩
      · have hone : ¬ (1 : Int) ≤ 0 := by decide
        rw [hval, if_neg hone]
        obtain ⟨hrest, taken, hout, hitems⟩ :=
          ih found (resp ++ [found]) (later e) (d.pop name item side).2
        refine ⟨fun other hother ↦ (hrest other hother).trans (hothers other hother),
          found :: taken, ?_, ?_⟩
        · rw [hout]
          simp
        · rw [hview, hitems]
          rfl

theorem run_ofHandler (h : Handler Response) (e : ℕ → Unit) (d : Database) :
    ((Api.ofHandler h).run api (fun _ ↦ none) d).val = some (h.run mutations e d).val ∧
      ((Api.ofHandler h).run api (fun _ ↦ none) d).state = (h.run mutations e d).state := by
  rw [Api.ofHandler]
  induction h generalizing e d with
  | ret resp => exact ⟨rfl, rfl⟩
  | call m next ih => exact ih (d.mutate m).1 (later e) (d.mutate m).2

/-- What a request and its reply say of a queue. -/
inductive Moves (name : Bytes) (p : ℕ × Request × Response) (xs ys : List Bytes) : Prop
  | keep (hpushed : pushed name p = []) (hpopped : popped name p = []) (h : ys = xs)
  | push (side : Side) (hside : p.2.1.proc.bind Proc.pushSide = some side)
      (hname : p.2.1.arg 1 = name) (hpopped : popped name p = [])
      (h : ys = side.extend (pushed name p) xs)
  | pop (side : Side) (hside : p.2.1.proc.bind Proc.popSide = some side)
      (hname : p.2.1.arg 1 = name) (hpushed : pushed name p = [])
      (h : side.view xs = popped name p ++ side.view ys)

section Answer

variable {d' : Database} {r : Report} {id : ℕ} {req : Request} {resp : Response}

theorem handler_of_some {proc : Proc} (hproc : req.proc = some proc) (r : Report) :
    handler r req = proc.api r req := by
  obtain ⟨cmd, hcmd, rfl⟩ := Option.map_eq_some_iff.mp hproc
  rw [handler, hcmd]

/-- The functions that are neither pushes nor pops. -/
theorem api_spares {proc : Proc} (hpush : proc.pushSide = none) (hpop : proc.popSide = none)
    (r : Report) (req : Request) :
    (proc.api r req).All fun c ↦ ∀ d : Database, (d.call c).2.queues = d.queues := by
  have hset {key val : Bytes} (d : Database) : (d.mutate (.set key val)).2.queues = d.queues := by
    rw [mutate]
    split <;> rfl
  have hmultiSet {kvs : List Bytes} {offset : ℕ} (d : Database) :
      (d.mutate (.multiSet kvs offset)).2.queues = d.queues := by
    rw [mutate]
    split <;> rfl
  cases proc with
  | procSet => exact Proc.all_checkParams ⟨hset, fun _ ↦ trivial⟩
  | procDel => exact Proc.all_checkParams ⟨fun _ ↦ rfl, fun _ ↦ trivial⟩
  | procMultiSet =>
      rw [Proc.api, Api.procMultiSet]
      split
      · trivial
      · exact ⟨hmultiSet, fun _ ↦ trivial⟩
  | procMultiDel => exact Proc.all_checkParams ⟨fun _ ↦ rfl, fun _ ↦ trivial⟩
  | procQpush => cases hpush
  | procQpushFront => cases hpush
  | procQpushBack => cases hpush
  | procQpop => cases hpop
  | procQpopFront => cases hpop
  | procQpopBack => cases hpop
  | _ =>
      refine (Proc.all_reads rfl r req).mono fun c hc ↦ ?_
      cases c with
      | mutate m => exact hc.elim
      | _ => exact fun _ ↦ rfl

theorem api_push {proc : Proc} {side : Side} (h : proc.pushSide = some side) (r : Report)
    (req : Request) : proc.api r req = Api.ofHandler (procQpushFunc req side) := by
  cases proc <;> cases h <;> rfl

theorem api_pop {proc : Proc} {side : Side} (h : proc.popSide = some side) (r : Report)
    (req : Request) : proc.api r req = Api.ofHandler (procQpopFunc req side) := by
  cases proc <;> cases h <;> rfl

theorem popSide_of_pushSide {proc : Proc} {side : Side} (h : proc.pushSide = some side) :
    proc.popSide = none := by
  cases proc <;> first | rfl | cases h

theorem wrongNumber_head : wrongNumber.head? ≠ some (ascii "ok") := by decide

/-- A push request, alone. -/
theorem run_procQpushFunc (req : Request) (side : Side) (e : ℕ → Unit) (d : Database) :
    let out := (procQpushFunc req side).run mutations e d
    (∀ other, other ≠ req.arg 1 → out.state.items other = d.items other) ∧
      (out.val = [ascii "error"] ∨ out.val = wrongNumber ∧ out.state = d ∨
        out.val.head? = some (ascii "ok") ∧
          out.state.items (req.arg 1) = side.extend (req.drop 2) (d.items (req.arg 1))) := by
  rw [procQpushFunc]
  split
  · exact ⟨fun _ _ ↦ rfl, .inr (.inl ⟨rfl, rfl⟩)⟩
  · obtain ⟨hothers, hval⟩ := run_qpushLoop side (req.arg 1) (req.drop 2) 0 e d
    exact ⟨hothers, hval.imp_right .inr⟩

/-- A pop request, alone. -/
theorem run_procQpopFunc (req : Request) (side : Side) (e : ℕ → Unit) (d : Database) :
    let out := (procQpopFunc req side).run mutations e d
    (∀ other, other ≠ req.arg 1 → out.state.items other = d.items other) ∧
      ((out.val.head? ≠ some (ascii "ok") ∧ out.state = d) ∨
        ∃ taken, out.val = ascii "ok" :: taken ∧
          side.view (d.items (req.arg 1)) =
            taken ++ side.view (out.state.items (req.arg 1))) := by
  rw [procQpopFunc]
  split
  · exact ⟨fun _ _ ↦ rfl, .inl ⟨wrongNumber_head, rfl⟩⟩
  · split
    · have hcall : (callPop side (req.arg 1) []).run mutations e d =
          ⟨(d.pop (req.arg 1) [] side).1, later e, (d.pop (req.arg 1) [] side).2⟩ := by
        cases side <;> rfl
      simp only [Prog.run_bind, hcall]
      rcases d.items_pop (req.arg 1) [] side with ⟨hzero, hsame⟩ | ⟨found, hval, hview, hothers⟩
      · rw [hsame, hzero]
        have hnot : [ascii "not_found"].head? ≠ some (ascii "ok") := by decide
        exact ⟨fun _ _ ↦ rfl, .inl ⟨hnot, rfl⟩⟩
      · rw [hval]
        exact ⟨hothers, .inr ⟨[found], rfl, hview⟩⟩
    · obtain ⟨hothers, taken, hval, hview⟩ := run_qpopLoop side (req.arg 1) (popCount req).toNat []
        [ascii "ok"] e d
      exact ⟨hothers, .inr ⟨taken, hval, hview⟩⟩

/-- A push request moves the items that it asks for, or none when it is refused. -/
theorem moves_push {proc : Proc} {side : Side} (hproc : req.proc = some proc)
    (hpush : proc.pushSide = some side) (hanswer : d.answer r req = (some resp, d'))
    (hwhole : req.PushesTo name → resp ≠ [ascii "error"]) :
    Moves name (id, req, resp) (d.items name) (d'.items name) := by
  obtain ⟨hval, rfl⟩ := Prod.mk.inj hanswer
  have hside : req.proc.bind Proc.pushSide = some side := by rw [hproc, Option.bind_some, hpush]
  have hpopped : popped name (id, req, resp) = [] := if_neg fun h ↦ by
    simpa [Request.PopsFrom, hproc, popSide_of_pushSide hpush] using h.1
  obtain ⟨hothers, hcases⟩ := run_procQpushFunc req side (fun _ ↦ ()) d
  obtain ⟨hrun, hstate⟩ := run_ofHandler (procQpushFunc req side) (fun _ ↦ ()) d
  rw [handler_of_some hproc, api_push hpush] at hval ⊢
  rw [hstate]
  rw [Option.some.inj (hrun.symm.trans hval)] at hcases
  by_cases hname : req.arg 1 = name
  · subst hname
    have hpushes : req.PushesTo (req.arg 1) := ⟨by rw [hside]; rfl, rfl⟩
    rcases hcases with herror | ⟨rfl, hsame⟩ | ⟨hok, hitems⟩
    · exact absurd herror (hwhole hpushes)
    · exact .keep (if_neg fun h ↦ wrongNumber_head h.2) hpopped (by rw [hsame])
    · refine .push side hside rfl hpopped (hitems.trans ?_)
      rw [pushed, if_pos ⟨hpushes, hok⟩]
  · exact .keep (if_neg fun h ↦ hname h.1.2) hpopped (hothers name (Ne.symm hname))

/-- A pop request moves the items that its reply lists. -/
theorem moves_pop {proc : Proc} {side : Side} (hproc : req.proc = some proc)
    (hpush : proc.pushSide = none) (hpop : proc.popSide = some side)
    (hanswer : d.answer r req = (some resp, d')) :
    Moves name (id, req, resp) (d.items name) (d'.items name) := by
  obtain ⟨hval, rfl⟩ := Prod.mk.inj hanswer
  have hside : req.proc.bind Proc.popSide = some side := by rw [hproc, Option.bind_some, hpop]
  have hpushed : pushed name (id, req, resp) = [] := if_neg fun h ↦ by
    simpa [Request.PushesTo, hproc, hpush] using h.1
  obtain ⟨hothers, hcases⟩ := run_procQpopFunc req side (fun _ ↦ ()) d
  obtain ⟨hrun, hstate⟩ := run_ofHandler (procQpopFunc req side) (fun _ ↦ ()) d
  rw [handler_of_some hproc, api_pop hpop] at hval ⊢
  rw [hstate]
  rw [Option.some.inj (hrun.symm.trans hval)] at hcases
  by_cases hname : req.arg 1 = name
  · subst hname
    rcases hcases with ⟨hnot, hsame⟩ | ⟨taken, rfl, hview⟩
    · exact .keep hpushed (if_neg fun h ↦ hnot h.2) (by rw [hsame])
    · refine .pop side hside rfl hpushed (hview.trans ?_)
      have hpops : req.PopsFrom (req.arg 1) := ⟨by rw [hside]; rfl, rfl⟩
      rw [popped, if_pos ⟨hpops, rfl⟩]
      rfl
  · exact .keep hpushed (if_neg fun h ↦ hname h.1.2) (hothers name (Ne.symm hname))

/-- A request that is not refused moves items as it and its reply say. -/
theorem answer_moves (hanswer : d.answer r req = (some resp, d'))
    (hwhole : req.PushesTo name → resp ≠ [ascii "error"]) :
    Moves name (id, req, resp) (d.items name) (d'.items name) := by
  have hsame (hpush : req.proc.bind Proc.pushSide = none)
      (hpop : req.proc.bind Proc.popSide = none) (hqueues : d'.queues = d.queues) :
      Moves name (id, req, resp) (d.items name) (d'.items name) := by
    refine .keep (if_neg fun h ↦ ?_) (if_neg fun h ↦ ?_) (by rw [items, hqueues, items])
    · simpa [Request.PushesTo, hpush] using h.1
    · simpa [Request.PopsFrom, hpop] using h.1
  cases hproc : req.proc with
  | none =>
      have hcmd : procMap.getProc (req.headD []) = none := Option.map_eq_none_iff.mp hproc
      refine hsame (by rw [hproc]; rfl) (by rw [hproc]; rfl) ?_
      obtain ⟨-, rfl⟩ := Prod.mk.inj hanswer
      rw [handler, hcmd]
      rfl
  | some proc =>
      cases hpush : proc.pushSide with
      | some side => exact moves_push hproc hpush hanswer hwhole
      | none =>
          cases hpop : proc.popSide with
          | some side => exact moves_pop hproc hpush hpop hanswer
          | none =>
              refine hsame (by rw [hproc]; exact hpush) (by rw [hproc]; exact hpop) ?_
              obtain ⟨-, rfl⟩ := Prod.mk.inj hanswer
              rw [handler_of_some hproc]
              refine Prog.All.invariant api (Q := fun d' ↦ d'.queues = d.queues)
                (fun c x s hc hs ↦ ?_) (api_spares hpush hpop r req) (fun _ ↦ none) rfl
              cases x with
              | none => exact (hc s).trans hs
              | some junk => exact hs

end Answer

namespace Moves

variable {p : ℕ × Request × Response} {xs ys : List Bytes}

theorem conserves (h : Moves name p xs ys) : (popped name p ++ ys).Perm (xs ++ pushed name p) := by
  have hview (side : Side) (zs : List Bytes) : (side.view zs).Perm zs := by
    cases side with
    | front => exact .refl _
    | back => exact List.reverse_perm zs
  cases h with
  | keep hpushed hpopped hsame => rw [hpushed, hpopped, hsame, List.append_nil, List.nil_append]
  | push side hside hname hpopped hextend =>
      rw [hpopped, hextend, List.nil_append]
      refine (hview side _).trans (.trans ?_ List.perm_append_comm)
      exact (List.reverse_perm _).append (hview side _)
  | pop side hside hname hpushed hpop =>
      rw [hpushed, List.append_nil]
      refine .trans ?_ (hview side xs)
      rw [hpop]
      exact ((hview side ys).symm).append_left _

/-- At the back they come, and at the front they leave. -/
theorem in_order (h : Moves name p xs ys)
    (hends : p.2.1.arg 1 = name → p.2.1.proc.bind Proc.pushSide ≠ some .front ∧
      p.2.1.proc.bind Proc.popSide ≠ some .back) :
    popped name p ++ ys = xs ++ pushed name p := by
  cases h with
  | keep hpushed hpopped hsame => rw [hpushed, hpopped, hsame, List.append_nil, List.nil_append]
  | push side hside hname hpopped hextend =>
      cases side with
      | front => exact absurd hside (hends hname).1
      | back =>
          rw [hpopped, hextend]
          simp [Side.extend, Side.view]
  | pop side hside hname hpushed hpop =>
      cases side with
      | front =>
          rw [hpushed, List.append_nil]
          exact hpop.symm
      | back => exact absurd hside (hends hname).2

end Moves

end Database

/-! ## All requests -/

/-- No push to the queue was refused. -/
def Whole (name : Bytes) (pairs : List (ℕ × Request × Response)) : Prop :=
  ∀ p ∈ pairs, p.2.1.PushesTo name → p.2.2 ≠ [ascii "error"]

/-- The queue is pushed to at its back and popped from at its front. -/
def OneWay (name : Bytes) (pairs : List (ℕ × Request × Response)) : Prop :=
  ∀ p ∈ pairs, p.2.1.arg 1 = name → p.2.1.proc.bind Proc.pushSide ≠ some .front ∧
    p.2.1.proc.bind Proc.popSide ≠ some .back

instance (name : Bytes) (pairs : List (ℕ × Request × Response)) : Decidable (Whole name pairs) :=
  inferInstanceAs (Decidable (∀ p ∈ pairs, _ → _))

instance (name : Bytes) (pairs : List (ℕ × Request × Response)) : Decidable (OneWay name pairs) :=
  inferInstanceAs (Decidable (∀ p ∈ pairs, _ → _ ∧ _))

section Serves

variable {d d' : Database} {name : Bytes} {pairs : List (ℕ × Request × Response)}

theorem Serves.conserves (h : Serves d pairs d') (hwhole : Whole name pairs) :
    (pairs.flatMap (popped name) ++ d'.items name).Perm
      (d.items name ++ pairs.flatMap (pushed name)) := by
  induction h with
  | nil => simp
  | @cons d d₁ d' id req resp rest r hanswer _ ih =>
      have hmoves : Database.Moves name (id, req, resp) (d.items name) (d₁.items name) :=
        Database.answer_moves hanswer (hwhole _ List.mem_cons_self)
      have hrest := ih fun p hp ↦ hwhole p (List.mem_cons_of_mem _ hp)
      rw [List.flatMap_cons, List.flatMap_cons]
      calc
        _ = popped name (id, req, resp) ++ (rest.flatMap (popped name) ++ d'.items name) := by
          rw [List.append_assoc]
        _ ~ popped name (id, req, resp) ++ (d₁.items name ++ rest.flatMap (pushed name)) :=
          hrest.append_left _
        _ = popped name (id, req, resp) ++ d₁.items name ++ rest.flatMap (pushed name) := by
          rw [List.append_assoc]
        _ ~ d.items name ++ pushed name (id, req, resp) ++ rest.flatMap (pushed name) :=
          hmoves.conserves.append_right _
        _ = _ := by rw [List.append_assoc]

theorem Serves.in_order (h : Serves d pairs d') (hwhole : Whole name pairs)
    (hends : OneWay name pairs) :
    pairs.flatMap (popped name) ++ d'.items name =
      d.items name ++ pairs.flatMap (pushed name) := by
  induction h with
  | nil => simp
  | @cons d d₁ d' id req resp rest r hanswer _ ih =>
      have hmoves : Database.Moves name (id, req, resp) (d.items name) (d₁.items name) :=
        Database.answer_moves hanswer (hwhole _ List.mem_cons_self)
      have hrest := ih (fun p hp ↦ hwhole p (List.mem_cons_of_mem _ hp))
        fun p hp ↦ hends p (List.mem_cons_of_mem _ hp)
      rw [List.flatMap_cons, List.flatMap_cons, List.append_assoc, hrest, ← List.append_assoc,
        hmoves.in_order (hends _ List.mem_cons_self), List.append_assoc]

end Serves

/-! ## The queues of the server -/

variable {fds : Descriptors} {s : System} {name : Bytes}

theorem Represents.contains {db : Store} {d : Database}
    (h : Represents db d) (name : Bytes) : Contains db name (d.items name) :=
  ⟨d.queues name, (represents_iff.mp h).2.1 name, rfl⟩

/-- Two clients: one pushes two items, then the other one pops an item. -/
def pushThenPop : List System.Action :=
  setThenGet.take 9 ++
    [.event { calmWorld with reads := [.bytes (ascii "5\nqpush\n1\nq\n1\na\n1\nb\n\n")] },
      .event { calmWorld with reads := [.bytes (ascii "4\nqpop\n1\nq\n\n")] },
      .event calmWorld, .ready calmWorld (smallReport 2), .withdraw,
      .take .writer (smallReport 2)] ++
    List.replicate 17 (.access 4 ((), false)) ++
    [.work .writer 0 calmWorld, .ready calmWorld (smallReport 2), .withdraw,
      .take .writer (smallReport 2)] ++
    List.replicate 9 (.access 5 ((), false)) ++ [.work .writer 0 calmWorld]

def pushThenPopWrites : List (ℕ × Request × Response) :=
  [(4, [ascii "qpush", ascii "q", ascii "a", ascii "b"], [ascii "ok", ascii "2"]),
    (5, [ascii "qpop", ascii "q"], [ascii "ok", ascii "a"])]

theorem pushThenPop_reached : ∃ s : System, s.Reached smallFds true ∧
    writes s.log = pushThenPopWrites ∧ (s.net.pools .writer).running = [] := by
  obtain ⟨s, hrun, hs⟩ := (Option.any_eq_true ..).mp
    (show (Machine.runVia (System.step smallFds) (fun _ a ↦ a.Admitted true)
      (System.init smallFds) pushThenPop).any (fun s ↦ writes s.log = pushThenPopWrites ∧
        (s.net.pools .writer).running.length = 0) = true by decide +kernel)
  obtain ⟨hwrites, hidle⟩ := of_decide_eq_true hs
  exact ⟨s, Machine.reachableVia_of_run hrun, hwrites, List.length_eq_zero_iff.mp hidle⟩

/-- Every item that an acknowledged push has brought was given out by one reply or is still there,
and there is nothing else. -/
theorem System.items_conserved (h : s.Reached fds true) (hwhole : Whole name (writes s.log)) :
    ∃ items, ((writes s.log).flatMap (popped name) ++ items).Perm
        ((writes s.log).flatMap (pushed name)) ∧
      ((s.net.pools .writer).running = [] → Contains s.threads.shared.db name items) := by
  obtain ⟨log, d, hlog, hinOrder, hstore, hidle⟩ := h.ordered
  rw [← hlog, writes_filter] at hwhole ⊢
  refine ⟨d.items name, hinOrder.serves.conserves hwhole, fun hrunning ↦ ?_⟩
  rw [← hinOrder.closed (hidle hrunning)]
  exact hstore.contains name

theorem System.items_conserved_run : ∃ s : System, s.Reached smallFds true ∧
    ∃ items, ([ascii "a"] ++ items).Perm [ascii "a", ascii "b"] ∧
      Contains s.threads.shared.db (ascii "q") items := by
  obtain ⟨s, hreached, hwrites, hidle⟩ := pushThenPop_reached
  have hwhole : Whole (ascii "q") (writes s.log) := by
    rw [hwrites]
    decide +kernel
  obtain ⟨items, hitems, hstore⟩ := System.items_conserved hreached hwhole
  rw [hwrites] at hitems
  have hpopped : pushThenPopWrites.flatMap (popped (ascii "q")) = [ascii "a"] := by decide +kernel
  have hpushed : pushThenPopWrites.flatMap (pushed (ascii "q")) = [ascii "a", ascii "b"] := by
    decide +kernel
  rw [hpopped, hpushed] at hitems
  exact ⟨s, hreached, items, hitems, hstore hidle⟩

/-- A queue that is used one way gives its items out in the order in which they came. -/
theorem System.fifo (h : s.Reached fds true) (hwhole : Whole name (writes s.log))
    (hends : OneWay name (writes s.log)) :
    ∃ items, (writes s.log).flatMap (popped name) ++ items =
        (writes s.log).flatMap (pushed name) ∧
      ((s.net.pools .writer).running = [] → Contains s.threads.shared.db name items) := by
  obtain ⟨log, d, hlog, hinOrder, hstore, hidle⟩ := h.ordered
  rw [← hlog, writes_filter] at hwhole hends ⊢
  refine ⟨d.items name, hinOrder.serves.in_order hwhole hends, fun hrunning ↦ ?_⟩
  rw [← hinOrder.closed (hidle hrunning)]
  exact hstore.contains name

theorem System.fifo_run : ∃ s : System, s.Reached smallFds true ∧
    writes s.log = pushThenPopWrites ∧
      Contains s.threads.shared.db (ascii "q") [ascii "b"] := by
  obtain ⟨s, hreached, hwrites, hidle⟩ := pushThenPop_reached
  have hwhole : Whole (ascii "q") (writes s.log) := by
    rw [hwrites]
    decide +kernel
  have hends : OneWay (ascii "q") (writes s.log) := by
    rw [hwrites]
    decide +kernel
  obtain ⟨items, hitems, hstore⟩ := System.fifo hreached hwhole hends
  rw [hwrites] at hitems
  have hpopped : pushThenPopWrites.flatMap (popped (ascii "q")) = [ascii "a"] := by decide +kernel
  have hpushed : pushThenPopWrites.flatMap (pushed (ascii "q")) = [ascii "a", ascii "b"] := by
    decide +kernel
  rw [hpopped, hpushed] at hitems
  obtain rfl : items = [ascii "b"] := (List.cons.inj hitems).2
  exact ⟨s, hreached, hwrites, hstore hidle⟩

end GeminiDB
