import GeminiDB.Data.QueueEffect
import GeminiDB.Lib.SeqDeque

/-!
# The store as a family of deques

`Rep db name d` says that the keys of one queue hold the deque `d`. Pushes and
pops are shown to take a representation to a representation, whatever their
accesses to leveldb meet, and to leave the keys of every other queue alone.
-/

namespace GeminiDB

open WriteBatch SeqDeque

/-! ## Sequence numbers and sizes as natural numbers -/

theorem ofNat_succ_pred (n : ℕ) : UInt64.ofNat (n + 1) + -1 = UInt64.ofNat n := by
  have hinv : (1 : UInt64) + -1 = 0 := by decide
  calc UInt64.ofNat (n + 1) + -1 = UInt64.ofNat n + (1 + -1) := by
        rw [UInt64.ofNat_add, UInt64.add_assoc]
        rfl
    _ = UInt64.ofNat n := by rw [hinv, UInt64.add_zero]

theorem ofNat_le_minSeq {n : ℕ} (h : n < 2 ^ 64) :
    UInt64.ofNat n ≤ qitemMinSeq ↔ n ≤ qitemMinSeq.toNat := by
  rw [UInt64.le_iff_toNat_le, UInt64.toNat_ofNat', Nat.mod_eq_of_lt h]

theorem maxSeq_le_ofNat {n : ℕ} (h : n < 2 ^ 64) :
    qitemMaxSeq ≤ UInt64.ofNat n ↔ qitemMaxSeq.toNat ≤ n := by
  rw [UInt64.le_iff_toNat_le, UInt64.toNat_ofNat', Nat.mod_eq_of_lt h]

theorem eq_ofNat_iff {n : ℕ} (h : n < 2 ^ 64) (s : UInt64) : s = UInt64.ofNat n ↔ s.toNat = n := by
  rw [← UInt64.toNat_inj, UInt64.toNat_ofNat', Nat.mod_eq_of_lt h]

theorem size_ne_error {n : ℕ} (h : n < 2 ^ 63) : Int64.ofNat n ≠ -1 := by
  intro heq
  have hint := congrArg Int64.toInt heq
  rw [Int64.toInt_ofNat_of_lt h] at hint
  have herr : (-1 : Int64).toInt = -1 := by decide
  omega

theorem size_le_zero {n : ℕ} (h : n < 2 ^ 63) : Int64.ofNat n ≤ 0 ↔ n = 0 := by
  rw [Int64.le_iff_toInt_le, Int64.toInt_ofNat_of_lt h]
  simp

theorem size_succ (n : ℕ) : Int64.ofNat n + 1 = Int64.ofNat (n + 1) := by
  rw [Int64.ofNat_add]
  rfl

theorem size_pred (n : ℕ) : Int64.ofNat (n + 1) + -1 = Int64.ofNat n := by
  have hinv : (1 : Int64) + -1 = 0 := by decide
  rw [← size_succ, Int64.add_assoc, hinv, Int64.add_zero]

/-! ## Representation -/

/-- The key under which a queue keeps the sequence number of an end. -/
def endSeq : Side → UInt64
  | .front => qfrontSeq
  | .back => qbackSeq

theorem endSeq_inj {a b : Side} : endSeq a = endSeq b ↔ a = b := by
  cases a <;> cases b <;> decide

/-- A sequence number in range is not the number of an end pointer. -/
theorem ofNat_ne_endSeq {n : ℕ} (hlo : qitemMinSeq.toNat < n) (hhi : n < 2 ^ 64) (side : Side) :
    UInt64.ofNat n ≠ endSeq side := by
  intro heq
  rw [eq_comm, eq_ofNat_iff hhi] at heq
  rw [← heq] at hlo
  revert hlo
  cases side <;> decide

/-- `name` has the items of `d`, under the sequence numbers of `d`. -/
structure Rep (db : Store) (name : Bytes) (d : SeqDeque Bytes) : Prop where
  within : d.Within qitemMinSeq.toNat qitemMaxSeq.toNat
  size : db (encodeQsizeKey name) =
    if d.items = [] then none else some (nativeBytes (UInt64.ofNat d.items.length))
  edge : ∀ side, db (encodeQitemKey name (endSeq side)) =
    if d.items = [] then none else some (nativeBytes (UInt64.ofNat (d.edge side)))
  item : ∀ s, (∀ side, s ≠ endSeq side) → db (encodeQitemKey name s) = d.get? s.toNat

theorem rep_empty (name : Bytes) : Rep (fun _ ↦ none) name SeqDeque.empty :=
  ⟨by simp [Within], by simp, by simp, fun s _ ↦ (get?_of_nil rfl s.toNat).symm⟩

/-- The keys of a queue. -/
def OwnedBy (name key : Bytes) : Prop :=
  key = encodeQsizeKey name ∨ ∃ s, key = encodeQitemKey name s

theorem Rep.congr {db db' : Store} {name : Bytes} {d : SeqDeque Bytes} (h : Rep db name d)
    (hdb : ∀ key, OwnedBy name key → db' key = db key) : Rep db' name d where
  within := h.within
  size := by rw [hdb _ (.inl rfl), h.size]
  edge side := by rw [hdb _ (.inr ⟨_, rfl⟩), h.edge side]
  item s hs := by rw [hdb _ (.inr ⟨_, rfl⟩), h.item s hs]

theorem Rep.apply {db : Store} {name : Bytes} {d : SeqDeque Bytes} {es : List (Edit Bytes Bytes)}
    (h : Rep db name d) (hes : ∀ e ∈ es, ¬ OwnedBy name e.key) : Rep (apply db es) name d :=
  h.congr fun _ hkey ↦ apply_of_forall_ne fun e he heq ↦ hes e he (heq ▸ hkey)

theorem not_ownedBy_of_ne {n m key : Bytes} (h : OwnedBy n key) (hne : n ≠ m) :
    ¬ OwnedBy m key := by
  rcases h with rfl | ⟨s, rfl⟩
  · rintro (heq | ⟨t, heq⟩)
    · exact hne (encodeQsizeKey_inj.mp heq)
    · exact encodeQsizeKey_ne_qitem _ _ _ heq
  · rintro (heq | ⟨t, heq⟩)
    · exact encodeQsizeKey_ne_qitem _ _ _ heq.symm
    · exact hne (encodeQitemKey_inj.mp heq).1

namespace Rep

variable {db : Store} {name : Bytes} {d : SeqDeque Bytes}

theorem length_lt (h : Rep db name d) : d.items.length < 2 ^ 63 := by
  have hlt := h.within.length_lt (by decide)
  have hmax : qitemMaxSeq.toNat = 2 ^ 63 - 1 := by decide
  omega

theorem edge_lt (h : Rep db name d) (hne : d.items ≠ []) (side : Side) :
    qitemMinSeq.toNat < d.edge side ∧ d.edge side < 2 ^ 64 := by
  have hmax : qitemMaxSeq.toNat = 2 ^ 63 - 1 := by decide
  have hlt := h.within hne side
  omega

theorem first_pos (h : Rep db name d) (hne : d.items ≠ []) : 0 < d.first :=
  Nat.zero_lt_of_lt (h.within hne .front).1

theorem readEnd (h : Rep db name d) (side : Side) :
    readUint64 (lookup db (encodeQitemKey name (endSeq side)) false) =
      if d.items = [] then (0, 0) else (1, UInt64.ofNat (d.edge side)) := by
  have hend := h.edge side
  by_cases hnil : d.items = []
  · rw [lookup_of_none (by simpa [hnil] using hend)]
    simp [readUint64, hnil]
  · rw [lookup_of_some (by simpa only [hnil, if_false] using hend)]
    simp [readUint64, hnil]

theorem readSize (h : Rep db name d) :
    GeminiDB.readSize (lookup db (encodeQsizeKey name) false) = Int64.ofNat d.items.length := by
  have hsize := h.size
  by_cases hnil : d.items = []
  · rw [lookup_of_none (by simpa [hnil] using hsize)]
    simp [GeminiDB.readSize, hnil]
  · rw [lookup_of_some (by simpa only [hnil, if_false] using hsize)]
    simp [GeminiDB.readSize]

/-- An end item is where its end pointer says. -/
theorem lookup_edge (h : Rep db name d) (hne : d.items ≠ []) (side : Side) :
    db (encodeQitemKey name (UInt64.ofNat (d.edge side))) = d.peek side := by
  obtain ⟨hlo, hhi⟩ := h.edge_lt hne side
  have hnat : (UInt64.ofNat (d.edge side)).toNat = d.edge side := by
    rw [UInt64.toNat_ofNat', Nat.mod_eq_of_lt hhi]
  rw [h.item _ fun side' ↦ ofNat_ne_endSeq hlo hhi side', hnat, get?_edge hne]

theorem pushSeq_eq (h : Rep db name d) (side : Side) :
    pushSeq (endSeq side) (if d.items = [] then (0, 0) else (1, UInt64.ofNat (d.edge side))) =
      UInt64.ofNat (d.next qitemSeqInit.toNat side) := by
  by_cases hnil : d.items = []
  · cases side <;> simp [pushSeq, next, nextFront, nextBack, hnil]
  · cases side with
    | front =>
        obtain ⟨n, hn⟩ : ∃ n, d.first = n + 1 := ⟨d.first - 1, by have := h.first_pos hnil; omega⟩
        simp only [pushSeq, next, nextFront, hnil, endSeq, SeqDeque.edge, hn]
        exact ofNat_succ_pred n
    | back =>
        have hpos := List.length_pos_iff.mpr hnil
        have hlast : d.first + d.items.length = d.last + 1 := by
          unfold last
          omega
        have hback : (qbackSeq = qfrontSeq) = False := by decide
        simp only [pushSeq, next, nextBack, hnil, endSeq, SeqDeque.edge, hlast, hback]
        simp

theorem sizeEdits_succ {n : ℕ} (h : n + 1 < 2 ^ 63) (name : Bytes) :
    sizeEdits name (Int64.ofNat (n + 1)) =
      [.put (encodeQsizeKey name) (nativeBytes (UInt64.ofNat (n + 1)))] := by
  rw [sizeEdits, if_neg (by rw [size_le_zero h]; omega), Int64.toUInt64_ofNat']

theorem sizeEdits_zero (name : Bytes) : sizeEdits name (Int64.ofNat 0) =
    [.delete (encodeQsizeKey name), .delete (encodeQitemKey name qfrontSeq),
      .delete (encodeQitemKey name qbackSeq)] := by
  rw [sizeEdits, if_pos (by decide)]

/-- The edits of a push in range: the end pointers that move, the item, the size. -/
theorem pushEdits_eq (h : Rep db name d) (item : Bytes) (side : Side)
    (hlen : d.items.length + 1 < 2 ^ 63) :
    pushEdits name item (endSeq side)
      (if d.items = [] then (0, 0) else (1, UInt64.ofNat (d.edge side)))
      (Int64.ofNat (d.items.length + 1)) =
    (if d.items = [] then [.front, .back] else [side]).map (fun side' ↦
      .put (encodeQitemKey name (endSeq side'))
        (nativeBytes (UInt64.ofNat (d.next qitemSeqInit.toNat side)))) ++
    [.put (encodeQitemKey name (UInt64.ofNat (d.next qitemSeqInit.toNat side))) item,
      .put (encodeQsizeKey name) (nativeBytes (UInt64.ofNat (d.items.length + 1)))] := by
  rw [pushEdits, endEdits, h.pushSeq_eq, sizeEdits_succ hlen]
  by_cases hnil : d.items = [] <;> simp [hnil, endSeq]

theorem push (h : Rep db name d) (item : Bytes) (side : Side)
    (hlo : qitemMinSeq.toNat < d.next qitemSeqInit.toNat side)
    (hhi : d.next qitemSeqInit.toNat side < qitemMaxSeq.toNat) :
    Rep (WriteBatch.apply db (pushEdits name item (endSeq side)
      (if d.items = [] then (0, 0) else (1, UInt64.ofNat (d.edge side)))
      (Int64.ofNat (d.items.length + 1)))) name (d.push qitemSeqInit.toNat item side) := by
  have hmax : qitemMaxSeq.toNat = 2 ^ 63 - 1 := by decide
  have hwithin := h.within.push item hlo hhi
  have hlen : d.items.length + 1 < 2 ^ 63 := by
    have := hwithin.length_lt (by decide)
    rw [length_push] at this
    omega
  have hnext : d.next qitemSeqInit.toNat side < 2 ^ 64 := by omega
  have hseq := ofNat_ne_endSeq hlo hnext
  rw [h.pushEdits_eq item side hlen, apply_append]
  refine ⟨hwithin, ?_, fun side' ↦ ?_, fun s hs ↦ ?_⟩
  · simp only [apply_cons, apply_nil, Edit.key_put, Edit.result_put, Function.update_self,
      length_push, push_items_ne_nil, if_false]
  · have hitem := fun side' ↦ (hseq side').symm
    rw [edge_push h.first_pos]
    by_cases hnil : d.items = []
    · cases side' <;> simp [hnil, hitem, endSeq_inj]
    · by_cases heq : side' = side <;>
        simp [hnil, hitem, endSeq_inj, heq, h.edge]
  · rw [get?_push h.first_pos, ← h.item s hs]
    by_cases heq : s = UInt64.ofNat (d.next qitemSeqInit.toNat side)
    · rw [if_pos ((eq_ofNat_iff hnext s).mp heq)]
      simp [heq]
    · rw [if_neg (mt (eq_ofNat_iff hnext s).mpr heq)]
      by_cases hnil : d.items = [] <;> simp [heq, hnil, hs]

/-- The last item of a queue takes the three metadata keys with it. -/
theorem pop_last (h : Rep db name d) (side : Side) (hlen : d.items.length = 1) :
    Rep (WriteBatch.apply db (popEdits name (endSeq side) (UInt64.ofNat (d.edge side))
      (Int64.ofNat 0))) name (d.pop side) := by
  have hnil : (d.pop side).items = [] := List.eq_nil_of_length_eq_zero (by simp [hlen])
  have hne : d.items ≠ [] := by
    intro heq
    simp [heq] at hlen
  obtain ⟨hlo, hhi⟩ := h.edge_lt hne side
  have hpos : ¬ (Int64.ofNat 0 : Int64) > 0 := by decide
  simp only [popEdits, sizeEdits_zero, hpos, if_false]
  refine ⟨h.within.pop side, ?_, fun side' ↦ ?_, fun s hs ↦ ?_⟩
  · simp [hnil]
  · cases side' <;> simp [hnil, endSeq, Function.update_apply]
  · have hfront : s ≠ qfrontSeq := hs .front
    have hback : s ≠ qbackSeq := hs .back
    rw [get?_pop hne, ← h.item s hs]
    by_cases heq : s = UInt64.ofNat (d.edge side)
    · rw [if_pos ((eq_ofNat_iff hhi s).mp heq)]
      simp [heq, Function.update_apply]
    · rw [if_neg (mt (eq_ofNat_iff hhi s).mpr heq)]
      simp [heq, hfront, hback]

theorem ofNat_inner (side : Side) (hpos : 0 < d.last) :
    UInt64.ofNat (d.edge side) + (if endSeq side = qfrontSeq then 1 else -1) =
      UInt64.ofNat (d.inner side) := by
  cases side with
  | front => simp [endSeq, SeqDeque.edge, SeqDeque.inner]
  | back =>
      obtain ⟨n, hn⟩ : ∃ n, d.last = n + 1 := ⟨d.last - 1, by omega⟩
      have hback : (qbackSeq = qfrontSeq) = False := by decide
      simp only [endSeq, SeqDeque.edge, SeqDeque.inner, hn, hback, if_false]
      exact ofNat_succ_pred n

/-- A pop that leaves items behind moves one end pointer. -/
theorem pop_more (h : Rep db name d) (side : Side) {n : ℕ} (hlen : d.items.length = n + 2) :
    Rep (WriteBatch.apply db (popEdits name (endSeq side) (UInt64.ofNat (d.edge side))
      (Int64.ofNat (n + 1)))) name (d.pop side) := by
  have hlt := h.length_lt
  have hnil : (d.pop side).items ≠ [] := by
    rw [← List.length_pos_iff, length_pop]
    omega
  have hne : d.items ≠ [] := by
    intro heq
    simp [heq] at hlen
  obtain ⟨hlo, hhi⟩ := h.edge_lt hne side
  have hedge := ofNat_ne_endSeq hlo hhi
  have hpos : Int64.ofNat (n + 1) > 0 := by
    rw [gt_iff_lt, ← Int64.not_le, size_le_zero (by omega)]
    omega
  have hlast : 0 < d.last := by
    have hback := h.edge_lt hne .back
    simp only [SeqDeque.edge] at hback
    omega
  simp only [popEdits, sizeEdits_succ (show n + 1 < 2 ^ 63 by omega), hpos, if_true,
    ofNat_inner side hlast]
  refine ⟨h.within.pop side, ?_, fun side' ↦ ?_, fun s hs ↦ ?_⟩
  · have hsize : d.items.length - 1 = n + 1 := by omega
    simp only [length_pop, hsize, hnil, if_false]
    simp
  · have hitem := fun side' ↦ (hedge side').symm
    rw [edge_pop (by omega)]
    by_cases heq : side' = side <;> simp [hnil, hne, heq, hitem, endSeq_inj, h.edge]
  · have hend := hs side
    rw [get?_pop hne, ← h.item s hs]
    by_cases heq : s = UInt64.ofNat (d.edge side)
    · rw [if_pos ((eq_ofNat_iff hhi s).mp heq)]
      simp [heq, hedge]
    · rw [if_neg (mt (eq_ofNat_iff hhi s).mpr heq)]
      simp [heq, hend]

theorem pop (h : Rep db name d) (side : Side) (hne : d.items ≠ []) :
    Rep (WriteBatch.apply db (popEdits name (endSeq side) (UInt64.ofNat (d.edge side))
      (Int64.ofNat (d.items.length - 1)))) name (d.pop side) := by
  obtain ⟨n, hn⟩ : ∃ n, d.items.length = n + 1 :=
    ⟨d.items.length - 1, by have := List.length_pos_iff.mpr hne; omega⟩
  cases n with
  | zero => simpa only [hn] using h.pop_last side hn
  | succ n =>
      have hpred : n + 1 + 1 - 1 = n + 1 := by omega
      simpa only [hn, hpred] using h.pop_more side hn

/-- The keys of a queue determine its items. -/
theorem items_eq (h : Rep db name d) {d' : SeqDeque Bytes} (h' : Rep db name d') :
    d.items = d'.items := by
  have hsize := h.size.symm.trans h'.size
  by_cases hnil : d.items = []
  · by_cases hnil' : d'.items = []
    · rw [hnil, hnil']
    · simp [hnil, hnil'] at hsize
  · have hnil' : d'.items ≠ [] := fun heq ↦ by simp [hnil, heq] at hsize
    have hlen := h.length_lt
    have hlen' := h'.length_lt
    have hedge := (h.edge .front).symm.trans (h'.edge .front)
    obtain ⟨hlo, hhi⟩ := h.edge_lt hnil .front
    obtain ⟨-, hhi'⟩ := h'.edge_lt hnil' .front
    simp only [hnil, hnil', if_false, Option.some.injEq, nativeBytes_inj] at hsize hedge
    rw [← UInt64.toNat_inj, UInt64.toNat_ofNat', UInt64.toNat_ofNat', Nat.mod_eq_of_lt (by omega),
      Nat.mod_eq_of_lt (by omega)] at hsize
    rw [← UInt64.toNat_inj, UInt64.toNat_ofNat', UInt64.toNat_ofNat', Nat.mod_eq_of_lt hhi,
      Nat.mod_eq_of_lt hhi'] at hedge
    apply ext_get? hsize (fun _ ↦ hedge)
    intro s hle hlt
    have hback := h.edge_lt hnil .back
    simp only [SeqDeque.edge, last] at hlo hback
    have hs : s < 2 ^ 64 := by omega
    have hnat : (UInt64.ofNat s).toNat = s := by
      rw [UInt64.toNat_ofNat', Nat.mod_eq_of_lt hs]
    have hitem := ofNat_ne_endSeq (n := s) (by omega) hs
    rw [← hnat, ← h.item _ hitem, ← h'.item _ hitem]

/-! ## Results of pushes and pops -/

theorem next_lt (h : Rep db name d) (side : Side) : d.next qitemSeqInit.toNat side < 2 ^ 64 := by
  have hinit : qitemSeqInit.toNat < 2 ^ 64 := qitemSeqInit.toNat_lt
  have hmax : qitemMaxSeq.toNat = 2 ^ 63 - 1 := by decide
  by_cases hnil : d.items = []
  · cases side <;> simpa [next, nextFront, nextBack, hnil] using hinit
  · have hfront := h.within hnil .front
    have hback := h.within hnil .back
    simp only [SeqDeque.edge, last] at hfront hback
    cases side <;> simp only [next, nextFront, nextBack, hnil, if_false] <;> omega

theorem pushResult_eq (h : Rep db name d) (item : Bytes) (side : Side) :
    pushResult db name item (endSeq side) false false false =
      if d.next qitemSeqInit.toNat side ≤ qitemMinSeq.toNat ∨
          qitemMaxSeq.toNat ≤ d.next qitemSeqInit.toNat side then (-1, db)
      else (Int64.ofNat (d.items.length + 1), WriteBatch.apply db
        (pushEdits name item (endSeq side)
          (if d.items = [] then (0, 0) else (1, UInt64.ofNat (d.edge side)))
          (Int64.ofNat (d.items.length + 1)))) := by
  have hlen := h.length_lt
  have hnext := h.next_lt side
  have hread : (if d.items = [] then (0, 0)
      else (1, UInt64.ofNat (d.edge side)) : Int × UInt64).1 ≠ -1 := by
    split <;> simp
  simp only [pushResult, h.readEnd, h.readSize, h.pushSeq_eq, ofNat_le_minSeq hnext, ge_iff_le,
    maxSeq_le_ofNat hnext, hread, false_or]
  split
  · rfl
  · next hrange =>
    have hlen' : d.items.length + 1 < 2 ^ 63 := by
      obtain ⟨hlo, hhi⟩ := not_or.mp hrange
      have hlt := (h.within.push item (lt_of_not_ge hlo) (lt_of_not_ge hhi)).length_lt (by decide)
      have hmax : qitemMaxSeq.toNat = 2 ^ 63 - 1 := by decide
      rw [length_push] at hlt
      omega
    rw [pushCommit, size_succ, if_neg]
    exact not_or.mpr ⟨size_ne_error hlen, not_or.mpr ⟨size_ne_error hlen', Bool.false_ne_true⟩⟩

theorem popResult_eq (h : Rep db name d) (item : Bytes) (side : Side) :
    popResult db name item (endSeq side) false false false false =
      match d.peek side with
      | none => ((0, item), db)
      | some found => ((1, found), WriteBatch.apply db (popEdits name (endSeq side)
          (UInt64.ofNat (d.edge side)) (Int64.ofNat (d.items.length - 1)))) := by
  by_cases hnil : d.items = []
  · have hpeek : d.peek side = none := by cases side <;> simp [peek, hnil]
    simp [popResult, h.readEnd, hnil, hpeek]
  · obtain ⟨found, hfound⟩ := Option.isSome_iff_exists.mp ((peek_isSome d side).mpr hnil)
    have hitem := lookup_of_some ((h.lookup_edge hnil side).trans hfound)
    obtain ⟨n, hn⟩ : ∃ n, d.items.length = n + 1 :=
      ⟨d.items.length - 1, by have := List.length_pos_iff.mpr hnil; omega⟩
    have hlen := h.length_lt
    have hsize := size_ne_error hlen
    have hpred := size_ne_error (n := n) (by omega)
    have herr : ¬ (1 : Int) = -1 := by decide
    have hzero : ¬ (1 : Int) = 0 := by decide
    simp only [popResult, h.readEnd, hnil, herr, hzero, if_false, hitem, h.readSize, hfound,
      popCommit]
    rw [hn] at hsize ⊢
    rw [size_pred, if_neg (not_or.mpr ⟨hsize, not_or.mpr ⟨hpred, Bool.false_ne_true⟩⟩)]
    rfl

end Rep

/-! ## Other queues -/

theorem sizeEdits_owned {name : Bytes} {size : Int64} {e : Edit Bytes Bytes}
    (he : e ∈ sizeEdits name size) : OwnedBy name e.key := by
  unfold sizeEdits at he
  split at he
  · simp only [List.mem_cons, List.not_mem_nil, or_false] at he
    rcases he with rfl | rfl | rfl
    · exact .inl rfl
    · exact .inr ⟨_, rfl⟩
    · exact .inr ⟨_, rfl⟩
  · simp only [List.mem_singleton] at he
    exact .inl (by rw [he]; rfl)

theorem pushEdits_owned {name item : Bytes} {side : UInt64} {g : Int × UInt64} {size : Int64}
    {e : Edit Bytes Bytes} (he : e ∈ pushEdits name item side g size) : OwnedBy name e.key := by
  simp only [pushEdits, endEdits, List.mem_append, List.mem_cons] at he
  rcases he with he | rfl | he
  · split at he
    · simp only [List.mem_cons, List.not_mem_nil, or_false] at he
      rcases he with rfl | rfl <;> exact .inr ⟨_, rfl⟩
    · simp only [List.mem_singleton] at he
      exact .inr ⟨_, by rw [he]; rfl⟩
  · exact .inr ⟨_, rfl⟩
  · exact sizeEdits_owned he

theorem popEdits_owned {name : Bytes} {side seq : UInt64} {size : Int64} {e : Edit Bytes Bytes}
    (he : e ∈ popEdits name side seq size) : OwnedBy name e.key := by
  simp only [popEdits, List.cons_append, List.mem_cons, List.mem_append] at he
  rcases he with rfl | he | he
  · exact .inr ⟨_, rfl⟩
  · exact sizeEdits_owned he
  · split at he
    · simp only [List.mem_singleton] at he
      exact .inr ⟨_, by rw [he]; rfl⟩
    · simp at he

end GeminiDB
