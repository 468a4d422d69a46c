import GeminiDB.Data.QueueCalls

/-!
# The shape of the stored queues

Every mutating call, whatever its accesses to leveldb meet, leaves each queue
either without any key or with two end pointers, a size and exactly the items
between the pointers.
-/

namespace GeminiDB

open Program WriteBatch SeqDeque

/-! ## Failing calls -/

theorem pushResult_of_failure (db : Store) (name item : Bytes) (side : UInt64) {f₀ f₁ f₂ : Bool}
    (h : f₀ = true ∨ f₁ = true ∨ f₂ = true) :
    pushResult db name item side f₀ f₁ f₂ = (-1, db) := by
  simp only [pushResult]
  split
  · rfl
  · next hread =>
    rcases h with rfl | rfl | rfl
    · exact absurd (.inl rfl) hread
    · simp [pushCommit, lookup, readSize]
    · simp [pushCommit]

/-- A push whose accesses fail does nothing, or what it does when they succeed. -/
theorem pushResult_of_failures (db : Store) (name item : Bytes) (side : UInt64) (f₀ f₁ f₂ : Bool) :
    pushResult db name item side f₀ f₁ f₂ = (-1, db) ∨
      pushResult db name item side f₀ f₁ f₂ =
        pushResult db name item side false false false := by
  by_cases h : f₀ = true ∨ f₁ = true ∨ f₂ = true
  · exact .inl (pushResult_of_failure db name item side h)
  · simp only [not_or, Bool.not_eq_true] at h
    exact .inr (by rw [h.1, h.2.1, h.2.2])

/-- A pop whose accesses fail does nothing, or what it does when they succeed. -/
theorem popResult_of_failures (db : Store) (name item : Bytes) (side : UInt64)
    (f₀ f₁ f₂ f₃ : Bool) :
    ((popResult db name item side f₀ f₁ f₂ f₃).1.1 = -1 ∧
        (popResult db name item side f₀ f₁ f₂ f₃).2 = db) ∨
      popResult db name item side f₀ f₁ f₂ f₃ =
        popResult db name item side false false false false := by
  cases f₀ with
  | true => exact .inl (by simp [popResult, lookup, readUint64])
  | false =>
      cases f₁ with
      | true =>
          simp only [popResult]
          split
          · exact .inr rfl
          · split
            · exact .inr rfl
            · exact .inl ⟨rfl, rfl⟩
      | false =>
          simp only [popResult]
          split
          · exact .inr rfl
          · split
            · exact .inr rfl
            · cases lookup db (encodeQitemKey name
                (readUint64 (lookup db (encodeQitemKey name side) false)).2) false with
              | notFound => exact .inr rfl
              | error => exact .inr rfl
              | ok found =>
                  by_cases hfail : f₂ = true ∨ f₃ = true
                  · left
                    rcases hfail with rfl | rfl <;> simp [popCommit, lookup, readSize]
                  · simp only [not_or, Bool.not_eq_true] at hfail
                    exact .inr (by rw [hfail.1, hfail.2])

theorem RepAll.apply_kv {db : Store} {ds : Deques} (h : RepAll db ds)
    {es : List (Edit Bytes Bytes)} (hes : ∀ e ∈ es, ∃ key, e.key = encodeKvKey key) :
    RepAll (apply db es) ds := by
  refine fun name ↦ (h name).apply fun e he ↦ ?_
  obtain ⟨key, hkey⟩ := hes e he
  rw [hkey]
  rintro (heq | ⟨s, heq⟩)
  · exact encodeKvKey_ne_qsize key name heq
  · exact encodeKvKey_ne_qitem key name s heq

theorem RepAll.kvCommit {db : Store} {ds : Deques} (h : RepAll db ds) {ok : Int}
    {es : List (Edit Bytes Bytes)} (hes : ∀ e ∈ es, ∃ key, e.key = encodeKvKey key)
    (fails : Bool) : RepAll (kvCommit db ok es fails).2 ds := by
  cases fails with
  | true => exact h
  | false => exact h.apply_kv hes

/-! ## The invariant -/

/-- The store represents some family of deques. -/
def Queues (db : Store) : Prop := ∃ ds, RepAll db ds

theorem queues_push {db : Store} (h : Queues db) (name item : Bytes) (side : Side)
    (f₀ f₁ f₂ : Bool) : Queues (pushResult db name item (endSeq side) f₀ f₁ f₂).2 := by
  obtain ⟨ds, hrep⟩ := h
  rcases pushResult_of_failures db name item (endSeq side) f₀ f₁ f₂ with hsame | hdone
  · exact ⟨ds, by rwa [hsame]⟩
  · exact ⟨_, by rw [hdone]; exact (hrep.push name item side).2⟩

theorem queues_pop {db : Store} (h : Queues db) (name item : Bytes) (side : Side)
    (f₀ f₁ f₂ f₃ : Bool) : Queues (popResult db name item (endSeq side) f₀ f₁ f₂ f₃).2 := by
  obtain ⟨ds, hrep⟩ := h
  rcases popResult_of_failures db name item (endSeq side) f₀ f₁ f₂ f₃ with ⟨-, hsame⟩ | hdone
  · exact ⟨ds, by rwa [hsame]⟩
  · exact ⟨_, by rw [hdone]; exact (hrep.pop name item side).2⟩

theorem queues_outcome {db : Store} (h : Queues db) (f₀ f₁ f₂ f₃ : Bool) (m : Mutation) :
    Queues (m.outcome db f₀ f₁ f₂ f₃).2 := by
  obtain ⟨ds, hrep⟩ := h
  cases m with
  | set key val =>
      simp only [Mutation.outcome, setResult, Prod.map_snd, id]
      split
      · exact ⟨ds, hrep⟩
      · exact ⟨ds, hrep.kvCommit (fun e ↦ putEdits_key) f₀⟩
  | del key => exact ⟨ds, hrep.kvCommit (fun e ↦ deleteEdits_key) f₀⟩
  | multiSet kvs offset =>
      simp only [Mutation.outcome, multiSetResult, Prod.map_snd, id]
      split
      · exact ⟨ds, hrep.kvCommit (fun e ↦ putEdits_key) f₀⟩
      · exact ⟨ds, hrep⟩
  | multiDel keys offset => exact ⟨ds, hrep.kvCommit (fun e ↦ deleteEdits_key) f₀⟩
  | qpushFront name item => exact queues_push ⟨ds, hrep⟩ name item .front f₀ f₁ f₂
  | qpushBack name item => exact queues_push ⟨ds, hrep⟩ name item .back f₀ f₁ f₂
  | qpopFront name item => exact queues_pop ⟨ds, hrep⟩ name item .front f₀ f₁ f₂ f₃
  | qpopBack name item => exact queues_pop ⟨ds, hrep⟩ name item .back f₀ f₁ f₂ f₃

/-- One mutating call as a step of the store, whatever its accesses meet. -/
def mutate {ι : Type} (q : BinlogQueue ι) (call : ι × Mutation × (ℕ → Bool)) :
    Option (BinlogQueue ι) :=
  some (call.2.1.run call.1 call.2.2 q).2

theorem queues_of_reachable {ι : Type} {q : BinlogQueue ι}
    (h : Machine.Reachable mutate BinlogQueue.empty q) : Queues q.db := by
  apply h.invariant (P := fun q ↦ Queues q.db) ⟨_, repAll_empty⟩
  intro q call q' hq hstep
  obtain ⟨f₀, f₁, f₂, f₃, heffect⟩ := call.2.1.run_outcome call.1 call.2.2 q
  have hdb : q'.db = (call.2.1.outcome q.db f₀ f₁ f₂ f₃).2 := by
    rw [← heffect, ← Option.some.inj hstep]
    rfl
  rw [hdb]
  exact queues_outcome hq f₀ f₁ f₂ f₃ _

/-- Pushes at the back of an empty queue reach every length in the upper half of the
sequence numbers. -/
theorem reachable_length {ι : Type} (i : ι) (name item : Bytes) {n : ℕ} (h : n < 2 ^ 62) :
    ∃ (q : BinlogQueue ι) (d : SeqDeque Bytes), Machine.Reachable mutate BinlogQueue.empty q ∧
      Rep q.db name d ∧ d.items.length = n ∧
      (d.items ≠ [] → d.first = qitemSeqInit.toNat) := by
  have hinit : qitemSeqInit.toNat = 2 ^ 62 - 1 := by decide
  have hmin : qitemMinSeq.toNat = 10000 := by decide
  have hmax : qitemMaxSeq.toNat = 2 ^ 63 - 1 := by decide
  induction n with
  | zero => exact ⟨_, _, Machine.Reachable.refl _ _, rep_empty name, rfl, fun hne ↦ absurd rfl hne⟩
  | succ n ih =>
      obtain ⟨q, d, hreach, hrep, hlen, hfirst⟩ := ih (by omega)
      have hnext : d.next qitemSeqInit.toNat .back = 2 ^ 62 - 1 + n := by
        by_cases hnil : d.items = []
        · simp only [hnil, List.length_nil] at hlen
          simp [next, nextBack, hnil, hinit, ← hlen]
        · simp [next, nextBack, hnil, hfirst hnil, hlen, hinit]
      obtain ⟨_, _, _, heffect⟩ := qpush_effect i (fun _ ↦ false) q name item (endSeq .back)
      rw [hrep.pushResult_eq item .back, hnext, if_neg (by omega)] at heffect
      have hdb := congrArg Prod.snd heffect
      simp only [effect] at hdb
      have hpush := hrep.push item .back (by omega) (by omega)
      refine ⟨_, d.push qitemSeqInit.toNat item .back,
        hreach.step (a := (i, .qpushBack name item, fun _ ↦ false)) rfl, ?_,
        by rw [length_push, hlen], fun _ ↦ ?_⟩
      · rw [← hdb] at hpush
        rw [Mutation.run, Mutation.call, Call.run_map]
        exact hpush
      · by_cases hnil : d.items = []
        · simp [push, pushBack, hnil]
        · simp [push, pushBack, hnil, hfirst hnil]

/-! ## Drained and filled queues -/

/-- `seq` numbers an item, not an end pointer. -/
def IsItem (seq : UInt64) : Prop := seq ≠ qfrontSeq ∧ seq ≠ qbackSeq

/-- No key of the queue is present. -/
def Drained (db : Store) (name : Bytes) : Prop :=
  db (encodeQsizeKey name) = none ∧ db (encodeQitemKey name qfrontSeq) = none ∧
    db (encodeQitemKey name qbackSeq) = none ∧
    ∀ seq, IsItem seq → db (encodeQitemKey name seq) = none

/-- The queue holds exactly the items `f` to `b`. -/
def Spans (db : Store) (name : Bytes) (f b : UInt64) : Prop :=
  db (encodeQitemKey name qfrontSeq) = some (nativeBytes f) ∧
    db (encodeQitemKey name qbackSeq) = some (nativeBytes b) ∧
    (qitemMinSeq < f ∧ f ≤ b ∧ b < qitemMaxSeq) ∧
    db (encodeQsizeKey name) = some (nativeBytes (b - f + 1)) ∧
    ∀ seq, IsItem seq → ((db (encodeQitemKey name seq)).isSome ↔ f ≤ seq ∧ seq ≤ b)

theorem IsItem.ne_endSeq {seq : UInt64} (h : IsItem seq) (side : Side) : seq ≠ endSeq side := by
  cases side with
  | front => exact h.1
  | back => exact h.2

theorem Rep.drained {db : Store} {name : Bytes} {d : SeqDeque Bytes} (h : Rep db name d)
    (hnil : d.items = []) : Drained db name := by
  refine ⟨by rw [h.size, if_pos hnil], ?_, ?_, fun seq hseq ↦ ?_⟩
  · exact (h.edge .front).trans (if_pos hnil)
  · exact (h.edge .back).trans (if_pos hnil)
  · rw [h.item seq hseq.ne_endSeq, get?_of_nil hnil]

theorem Rep.spans {db : Store} {name : Bytes} {d : SeqDeque Bytes} (h : Rep db name d)
    (hne : d.items ≠ []) : Spans db name (UInt64.ofNat d.first) (UInt64.ofNat d.last) := by
  obtain ⟨n, hn⟩ : ∃ n, d.items.length = n + 1 :=
    ⟨d.items.length - 1, by have := List.length_pos_iff.mpr hne; omega⟩
  have hlast : d.last = d.first + n := by
    unfold last
    omega
  have hfirst : (UInt64.ofNat d.first).toNat = d.first := by
    rw [UInt64.toNat_ofNat']
    exact Nat.mod_eq_of_lt (h.edge_lt hne .front).2
  have hback : (UInt64.ofNat d.last).toNat = d.last := by
    rw [UInt64.toNat_ofNat']
    exact Nat.mod_eq_of_lt (h.edge_lt hne .back).2
  have hlo := (h.within hne .front).1
  have hhi := (h.within hne .back).2
  refine ⟨(h.edge .front).trans (if_neg hne), (h.edge .back).trans (if_neg hne), ⟨?_, ?_, ?_⟩, ?_,
    fun seq hseq ↦ ?_⟩
  · rw [UInt64.lt_iff_toNat_lt, hfirst]
    exact hlo
  · rw [UInt64.le_iff_toNat_le, hfirst, hback, hlast]
    omega
  · rw [UInt64.lt_iff_toNat_lt, hback]
    exact hhi
  · have hsize : UInt64.ofNat d.items.length = UInt64.ofNat d.last - UInt64.ofNat d.first + 1 := by
      rw [hn, hlast, UInt64.ofNat_add d.first n, UInt64.add_comm (UInt64.ofNat d.first),
        UInt64.add_sub_cancel,
        UInt64.ofNat_add]
      rfl
    rw [h.size, if_neg hne, hsize]
  · rw [h.item seq hseq.ne_endSeq, get?_isSome_iff, UInt64.le_iff_toNat_le, UInt64.le_iff_toNat_le,
      hfirst, hback, hlast, hn]
    omega

theorem not_drained_of_spans {db : Store} {name : Bytes} {f b : UInt64} (h : Spans db name f b) :
    ¬ Drained db name := by
  intro hdrained
  have hfront := h.1
  rw [hdrained.2.1] at hfront
  cases hfront

/-- In every reachable store each queue has exactly one of the two shapes. -/
theorem queue_shape {ι : Type} {q : BinlogQueue ι}
    (h : Machine.Reachable mutate BinlogQueue.empty q) (name : Bytes) :
    Xor (Drained q.db name) (∃ f b, Spans q.db name f b) := by
  obtain ⟨ds, hrep⟩ := queues_of_reachable h
  by_cases hnil : (ds name).items = []
  · have hdrained := (hrep name).drained hnil
    exact .inl ⟨hdrained, fun ⟨_, _, hspans⟩ ↦ not_drained_of_spans hspans hdrained⟩
  · have hspans := (hrep name).spans hnil
    exact .inr ⟨⟨_, _, hspans⟩, not_drained_of_spans hspans⟩

/-- After a push and a pop whose commit fails, the pushed item is still there. -/
theorem queue_shape_failed_pop :
    ∃ q : BinlogQueue ℕ, (q.db (encodeQitemKey [97] qitemSeqInit)).isSome ∧
      Xor (Drained q.db [97]) (∃ f b, Spans q.db [97] f b) := by
  let calls : List (ℕ × Mutation × (ℕ → Bool)) :=
    [(0, .qpushBack [97] [49], fun _ ↦ false), (1, .qpopFront [97] [], fun n ↦ n == 7)]
  have hrun : Machine.run mutate BinlogQueue.empty calls = some _ := rfl
  exact ⟨_, by decide, queue_shape (Machine.reachable_of_run hrun) [97]⟩

end GeminiDB
