import GeminiDB.Data.QueueShape
import GeminiDB.Net.Resp

/-!
# Handlers that make several calls

A handler is a program whose operations are whole calls of `GEMINIDBImpl`, each
of them a transaction of its own with its own accesses to leveldb. What one push
or pop does to the stored queues is summed up here, whatever its accesses meet.
-/

namespace GeminiDB

open Program WriteBatch SeqDeque

/-- The body of a handler. -/
abbrev Handler := Prog Mutation fun _ ↦ Int × Bytes

/-- The calls of a handler run one after another; the environment names each of
them and says which of its accesses fail. -/
def transactions {ι : Type} :
    Interface Mutation (fun _ ↦ Int × Bytes) (ι × (ℕ → Bool)) (BinlogQueue ι) where
  exec m e q := m.run e.1 e.2 q
  enter := id
  leave := id

/-- No access of any call fails. -/
def NoFailures {ι : Type} (e : ℕ → ι × (ℕ → Bool)) : Prop := ∀ k n, (e k).2 n = false

/-- The reply of `CHECK_NUM_PARAMS`. -/
def wrongNumber : Response := [ascii "client_error", ascii "wrong number of arguments"]

/-- `qpush_front` or `qpush_back`. -/
def callPush (side : Side) (name item : Bytes) : Handler (Int × Bytes) :=
  match side with
  | .front => .call (.qpushFront name item) .ret
  | .back => .call (.qpushBack name item) .ret

/-- `qpop_front` or `qpop_back`. -/
def callPop (side : Side) (name item : Bytes) : Handler (Int × Bytes) :=
  match side with
  | .front => .call (.qpopFront name item) .ret
  | .back => .call (.qpopBack name item) .ret

/-- The queue `name` holds `items`. -/
def Contains (db : Store) (name : Bytes) (items : List Bytes) : Prop :=
  ∃ d, Rep db name d ∧ d.items = items

theorem Contains.unique {db : Store} {name : Bytes} {xs ys : List Bytes}
    (hxs : Contains db name xs) (hys : Contains db name ys) : xs = ys := by
  obtain ⟨d, hd, rfl⟩ := hxs
  obtain ⟨d', hd', rfl⟩ := hys
  exact hd.items_eq hd'

/-! ## One call -/

section Run

variable {ι : Type} {q : BinlogQueue ι} {name : Bytes} {d : SeqDeque Bytes}

theorem Rep.popResult_dichotomy {db : Store} (h : Rep db name d) (item : Bytes) (side : Side)
    (f₀ f₁ f₂ f₃ : Bool) :
    let r := popResult db name item (endSeq side) f₀ f₁ f₂ f₃
    (r.1.1 ≤ 0 ∧ r.2 = db ∧ (r.1.1 = -1 ∨ r.1.1 = 0 ∧ d.items = [])) ∨
      ∃ found, d.peek side = some found ∧ r.1 = (1, found) ∧ Rep r.2 name (d.pop side) := by
  rcases popResult_of_failures db name item (endSeq side) f₀ f₁ f₂ f₃ with ⟨herr, hsame⟩ | hdone
  · exact .inl ⟨by rw [herr]; decide, hsame, .inl herr⟩
  · simp only [hdone, h.popResult_eq]
    cases hpeek : d.peek side with
    | none =>
        have hnil : d.items = [] := by
          by_contra hne
          have hsome := (d.peek_isSome side).mpr hne
          rw [hpeek] at hsome
          cases hsome
        exact .inl ⟨le_rfl, rfl, .inr ⟨rfl, hnil⟩⟩
    | some found =>
        have hne := items_ne_nil_of_peek hpeek
        exact .inr ⟨found, rfl, rfl, h.pop side hne⟩

/-- A pop in a handler: an error, an empty queue, or the item at the end, removed. -/
theorem Rep.callPop_cases (h : Rep q.db name d) (side : Side) (item : Bytes)
    (e : ℕ → ι × (ℕ → Bool)) :
    ∃ r : (Int × Bytes) × BinlogQueue ι,
      (callPop side name item).run transactions e q = ⟨r.1, later e, r.2⟩ ∧
      ((r.1.1 ≤ 0 ∧ r.2.db = q.db ∧
          (r.1.1 = -1 ∧ ¬ NoFailures e ∨ r.1.1 = 0 ∧ d.items = [])) ∨
        ∃ found, d.peek side = some found ∧ r.1 = (1, found) ∧ Rep r.2.db name (d.pop side)) := by
  have hrun : ∃ r : (Int × Bytes) × BinlogQueue ι,
      (callPop side name item).run transactions e q = ⟨r.1, later e, r.2⟩ ∧
      r = (qpop name item (endSeq side)).run binlogs (env (e 0).1 (e 0).2) q := by
    cases side <;> exact ⟨_, rfl, rfl⟩
  obtain ⟨r, hrun, heq⟩ := hrun
  obtain ⟨n₀, n₁, n₂, n₃, heffect⟩ := qpop_effect (e 0).1 (e 0).2 q name item (endSeq side)
  have hcases := h.popResult_dichotomy item side ((e 0).2 n₀) ((e 0).2 n₁) ((e 0).2 n₂)
    ((e 0).2 n₃)
  rw [← heffect, ← heq] at hcases
  refine ⟨r, hrun, hcases.imp (fun ⟨hle, hsame, hwhy⟩ ↦ ⟨hle, hsame, ?_⟩) id⟩
  refine hwhy.imp (fun herr ↦ ⟨herr, fun hnone ↦ ?_⟩) id
  -- without failures the pop answers 0 or 1
  rw [hnone, hnone, hnone, hnone, ← heq, h.popResult_eq] at heffect
  have hval := congrArg (fun r ↦ r.1.1) heffect
  simp only [effect] at hval
  rw [herr] at hval
  cases hpeek : d.peek side <;> simp [hpeek] at hval

/-- When a push of an item to `d` fails: its sequence number is out of range, or
one of the two `Get`s or the `Write` fails. -/
def PushFails (d : SeqDeque Bytes) (side : Side) (fails : ℕ → Bool) : Prop :=
  let size := if d.items = [] then 4 else 3
  d.next qitemSeqInit.toNat side ≤ qitemMinSeq.toNat ∨
    qitemMaxSeq.toNat ≤ d.next qitemSeqInit.toNat side ∨
    fails 0 = true ∨ fails size = true ∨ fails (size + 2) = true

instance (d : SeqDeque Bytes) (side : Side) (fails : ℕ → Bool) :
    Decidable (PushFails d side fails) := by
  unfold PushFails
  infer_instance

theorem Rep.qpush_effect (h : Rep q.db name d) (i : ι) (fails : ℕ → Bool) (item : Bytes)
    (side : Side) :
    let size := if d.items = [] then 4 else 3
    effect ((qpush name item (endSeq side)).run binlogs (env i fails) q) =
      pushResult q.db name item (endSeq side) (fails 0) (fails size) (fails (size + 2)) := by
  obtain ⟨size, hsize⟩ : ∃ size : ℕ, (if d.items = [] then 4 else 3) = size := ⟨_, rfl⟩
  simp only [hsize]
  have heffect := fun g size' hg hsize' ↦
    @qpush_effect_at ι i fails q name item (endSeq side) g size' hg hsize'
  by_cases hread : fails 0 = true
  · rw [heffect _ _ rfl rfl]
    rw [pushResult_of_failure _ _ _ _ (.inl hread), pushResult_of_failure _ _ _ _ (.inl hread)]
  · rw [Bool.not_eq_true] at hread
    have hends : endAccesses (if d.items = [] then (0, 0)
        else (1, UInt64.ofNat (d.edge side))) + 1 = size := by
      rw [← hsize]
      split <;> rfl
    have heffect := heffect (if d.items = [] then (0, 0) else (1, UInt64.ofNat (d.edge side))) _
      (by rw [hread]; exact h.readEnd side) rfl
    rw [hends] at heffect
    rw [heffect]
    by_cases hfail : fails size = true
    · rw [pushResult_of_failure _ _ _ _ (.inr (.inl hfail)),
        pushResult_of_failure _ _ _ _ (.inr (.inl hfail))]
    · rw [Bool.not_eq_true] at hfail
      have hlen := h.within.length_lt (by decide)
      have hmax : qitemMaxSeq.toNat = 2 ^ 63 - 1 := by decide
      have hpos : ¬ Int64.ofNat (d.items.length + 1) ≤ 0 := by
        rw [size_le_zero (by omega)]
        exact Nat.succ_ne_zero _
      rw [hfail, h.readSize, size_succ, sizeAccesses, if_neg hpos]

/-- A push in a handler fails and changes nothing, or adds the item and answers the
new length. -/
theorem Rep.callPush_cases (h : Rep q.db name d) (side : Side) (item : Bytes)
    (e : ℕ → ι × (ℕ → Bool)) :
    ∃ r : (Int × Bytes) × BinlogQueue ι,
      (callPush side name item).run transactions e q = ⟨r.1, later e, r.2⟩ ∧
      if PushFails d side (e 0).2 then r.1.1 = -1 ∧ r.2.db = q.db
      else r.1.1 = d.items.length + 1 ∧
        Rep r.2.db name (d.push qitemSeqInit.toNat item side) := by
  have hrun : ∃ r : Int64 × BinlogQueue ι,
      (callPush side name item).run transactions e q =
        ⟨(r.1.toInt, []), later e, r.2⟩ ∧
      r = (qpush name item (endSeq side)).run binlogs (env (e 0).1 (e 0).2) q := by
    cases side <;> exact ⟨_, by simp [callPush, transactions, Mutation.run, Mutation.call,
      qpushFront, qpushBack, endSeq], rfl⟩
  obtain ⟨⟨size, after⟩, hrun, heq⟩ := hrun
  refine ⟨((size.toInt, []), after), hrun, ?_⟩
  have heffect := h.qpush_effect (e 0).1 (e 0).2 item side
  rw [← heq] at heffect
  have herr : (-1 : Int64).toInt = -1 := by decide
  obtain ⟨size', hsize'⟩ : ∃ n : ℕ, (if d.items = [] then 4 else 3) = n := ⟨_, rfl⟩
  simp only [effect, PushFails, hsize'] at heffect ⊢
  by_cases hfault : (e 0).2 0 = true ∨ (e 0).2 size' = true ∨ (e 0).2 (size' + 2) = true
  · rw [if_pos (.inr (.inr hfault))]
    rw [pushResult_of_failure _ _ _ _ hfault] at heffect
    obtain ⟨rfl, hdb⟩ := Prod.mk.inj heffect
    exact ⟨herr, hdb⟩
  · simp only [hfault, or_false]
    simp only [not_or, Bool.not_eq_true] at hfault
    rw [hfault.1, hfault.2.1, hfault.2.2, h.pushResult_eq] at heffect
    split
    · next hrange =>
      rw [if_pos hrange] at heffect
      obtain ⟨rfl, hdb⟩ := Prod.mk.inj heffect
      exact ⟨herr, hdb⟩
    · next hrange =>
      rw [if_neg hrange] at heffect
      obtain ⟨hlo, hhi⟩ := not_or.mp hrange
      have hrep := h.push item side (lt_of_not_ge hlo) (lt_of_not_ge hhi)
      have hlen := hrep.length_lt
      rw [length_push] at hlen
      obtain ⟨rfl, hdb⟩ := Prod.mk.inj heffect
      rw [Int64.toInt_ofNat_of_lt hlen, hdb]
      exact ⟨by push_cast; rfl, hrep⟩

end Run

end GeminiDB
