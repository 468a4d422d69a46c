import GeminiDB.Data.Frame
import GeminiDB.Data.QueueShape

/-!
# Peeking beside the writer

`qfront` and `qback` run in reader threads, without the lock: between their two
`Get`s the writer may commit anything. The call follows the sequence number that
it read first, wherever the writer has taken the queue by then.
-/

namespace GeminiDB

open Program WriteBatch SeqDeque

/-! ## What a mutating call does to one deque -/

/-- The queue and the end that a call pops. -/
def Mutation.pops : Mutation → Option (Bytes × Side)
  | .qpopFront name _ => some (name, .front)
  | .qpopBack name _ => some (name, .back)
  | _ => none

/-- The queue, the item and the end of a push. -/
def Mutation.pushes : Mutation → Option (Bytes × Bytes × Side)
  | .qpushFront name item => some (name, item, .front)
  | .qpushBack name item => some (name, item, .back)
  | _ => none

theorem Rep.popResult_cases {db : Store} {name : Bytes} {d : SeqDeque Bytes} (h : Rep db name d)
    (item : Bytes) (side : Side) (f₀ f₁ f₂ f₃ : Bool) :
    let r := popResult db name item (endSeq side) f₀ f₁ f₂ f₃
    (r.1.1 = 1 ∧ d.items ≠ [] ∧ Rep r.2 name (d.pop side)) ∨ (r.1.1 ≠ 1 ∧ r.2 = db) := by
  rcases popResult_of_failures db name item (endSeq side) f₀ f₁ f₂ f₃ with ⟨herr, hsame⟩ | hdone
  · exact .inr ⟨by rw [herr]; decide, hsame⟩
  · simp only [hdone, h.popResult_eq]
    cases hpeek : d.peek side with
    | none => exact .inr ⟨by simp, rfl⟩
    | some found =>
        have hne := items_ne_nil_of_peek hpeek
        exact .inl ⟨rfl, hne, h.pop side hne⟩

theorem Rep.pushResult_cases {db : Store} {name : Bytes} {d : SeqDeque Bytes} (h : Rep db name d)
    (item : Bytes) (side : Side) (f₀ f₁ f₂ : Bool) :
    let r := pushResult db name item (endSeq side) f₀ f₁ f₂
    (r.1.toInt ≠ -1 ∧ Rep r.2 name (d.push qitemSeqInit.toNat item side)) ∨
      (r.1.toInt = -1 ∧ r.2 = db) := by
  have herr : (-1 : Int64).toInt = -1 := by decide
  rcases pushResult_of_failures db name item (endSeq side) f₀ f₁ f₂ with hsame | hdone
  · exact .inr (by rw [hsame]; exact ⟨herr, rfl⟩)
  · simp only [hdone, h.pushResult_eq]
    split
    · exact .inr ⟨herr, rfl⟩
    · next hrange =>
      obtain ⟨hlo, hhi⟩ := not_or.mp hrange
      have hrep := h.push item side (lt_of_not_ge hlo) (lt_of_not_ge hhi)
      have hlen := hrep.length_lt
      rw [length_push] at hlen
      refine .inl ⟨?_, hrep⟩
      rw [Int64.toInt_ofNat_of_lt hlen]
      omega

section Calls

variable {ι : Type} (name : Bytes)

/-- The call commits a pop of the queue at `side`. -/
def Pops (side : Side) (c : ι × Mutation × (ℕ → Bool)) (q : BinlogQueue ι) : Prop :=
  c.2.1.pops = some (name, side) ∧ (c.2.1.run c.1 c.2.2 q).1.1 = 1

/-- The call commits a push of `item` to the queue at `side`. -/
def Pushes (item : Bytes) (side : Side) (c : ι × Mutation × (ℕ → Bool)) (q : BinlogQueue ι) :
    Prop :=
  c.2.1.pushes = some (name, item, side) ∧ (c.2.1.run c.1 c.2.2 q).1.1 ≠ -1

variable {name}

/-- A call pops the deque of a queue, pushes to it or leaves it alone. -/
def DequeStep (name : Bytes) (d : SeqDeque Bytes) (c : ι × Mutation × (ℕ → Bool))
    (q : BinlogQueue ι) : Prop :=
  let db := (c.2.1.run c.1 c.2.2 q).2.db
  (∃ side, Pops name side c q ∧ d.items ≠ [] ∧ Rep db name (d.pop side)) ∨
  (∃ item side, Pushes name item side c q ∧ Rep db name (d.push qitemSeqInit.toNat item side)) ∨
  ((∀ side, ¬ Pops name side c q) ∧ (∀ item side, ¬ Pushes name item side c q) ∧ Rep db name d)

variable {q : BinlogQueue ι} {d : SeqDeque Bytes}

theorem dequeStep_of_pop (h : Rep q.db name d) {c : ι × Mutation × (ℕ → Bool)} {item : Bytes}
    {side : Side} (hpops : c.2.1.pops = some (name, side)) (hpushes : c.2.1.pushes = none)
    (houtcome : ∀ f₀ f₁ f₂ f₃, c.2.1.outcome q.db f₀ f₁ f₂ f₃ =
      popResult q.db name item (endSeq side) f₀ f₁ f₂ f₃) : DequeStep name d c q := by
  obtain ⟨f₀, f₁, f₂, f₃, heffect⟩ := c.2.1.run_outcome c.1 c.2.2 q
  rw [houtcome] at heffect
  have hcases := h.popResult_cases item side f₀ f₁ f₂ f₃
  simp only [← heffect] at hcases
  rcases hcases with ⟨hret, hne, hrep⟩ | ⟨hret, hsame⟩
  · exact .inl ⟨side, ⟨hpops, hret⟩, hne, hrep⟩
  · refine .inr (.inr ⟨fun _ hcommits ↦ hret hcommits.2, fun _ _ hcommits ↦ ?_, ?_⟩)
    · rw [Pushes, hpushes] at hcommits
      cases hcommits.1
    · exact h.congr fun key _ ↦ congrFun hsame key

theorem dequeStep_of_push (h : Rep q.db name d) {c : ι × Mutation × (ℕ → Bool)} {item : Bytes}
    {side : Side} (hpops : c.2.1.pops = none) (hpushes : c.2.1.pushes = some (name, item, side))
    (houtcome : ∀ f₀ f₁ f₂ f₃, c.2.1.outcome q.db f₀ f₁ f₂ f₃ =
      (pushResult q.db name item (endSeq side) f₀ f₁ f₂).map (·.toInt, []) id) :
    DequeStep name d c q := by
  obtain ⟨f₀, f₁, f₂, f₃, heffect⟩ := c.2.1.run_outcome c.1 c.2.2 q
  rw [houtcome] at heffect
  have hret := congrArg (fun r ↦ r.1.1) heffect
  have hdb := congrArg Prod.snd heffect
  simp only [effect, Prod.map_fst, Prod.map_snd, id] at hret hdb
  have hcases := h.pushResult_cases item side f₀ f₁ f₂
  simp only [← hret, ← hdb] at hcases
  rcases hcases with ⟨hne, hrep⟩ | ⟨herr, hsame⟩
  · exact .inr (.inl ⟨item, side, ⟨hpushes, hne⟩, hrep⟩)
  · refine .inr (.inr ⟨fun _ hcommits ↦ ?_, fun _ _ hcommits ↦ hcommits.2 herr, ?_⟩)
    · rw [Pops, hpops] at hcommits
      cases hcommits.1
    · exact h.congr fun key _ ↦ congrFun hsame key

theorem dequeStep_of_other (h : Rep q.db name d) {c : ι × Mutation × (ℕ → Bool)}
    (hqueue : c.2.1.queue ≠ some name) : DequeStep name d c q := by
  obtain ⟨i, m, fails⟩ := c
  refine .inr (.inr ⟨fun side hpops ↦ hqueue ?_, fun item side hpushes ↦ hqueue ?_, ?_⟩)
  · cases m <;> simp_all [Pops, Mutation.pops, Mutation.queue]
  · cases m <;> simp_all [Pushes, Mutation.pushes, Mutation.queue]
  · exact h.congr fun key hkey ↦ m.run_untouched i fails q (m.not_touches_queue hqueue hkey)

theorem Rep.dequeStep (h : Rep q.db name d) (c : ι × Mutation × (ℕ → Bool)) :
    DequeStep name d c q := by
  by_cases hqueue : c.2.1.queue = some name
  · obtain ⟨i, m, fails⟩ := c
    cases m with
    | set key val | del key | multiSet kvs offset | multiDel keys offset => cases hqueue
    | qpushFront n item => cases hqueue; exact dequeStep_of_push h rfl rfl fun _ _ _ _ ↦ rfl
    | qpushBack n item => cases hqueue; exact dequeStep_of_push h rfl rfl fun _ _ _ _ ↦ rfl
    | qpopFront n item => cases hqueue; exact dequeStep_of_pop h rfl rfl fun _ _ _ _ ↦ rfl
    | qpopBack n item => cases hqueue; exact dequeStep_of_pop h rfl rfl fun _ _ _ _ ↦ rfl
  · exact dequeStep_of_other h hqueue

end Calls

/-! ## The reader -/

/-- A call of `qfront` or `qback` under way: the store, what is left of the call,
and the committed states since its start. -/
structure Peek (ι : Type) where
  q : BinlogQueue ι
  call : Db (Int × Bytes)
  seen : List Store

/-- The writer commits a call, or the reader does its next `Get`. -/
inductive PeekStep (ι : Type) where
  | commit (c : ι × Mutation × (ℕ → Bool))
  | get (fails : Bool)

/-- `val` is the item that the end pointer of the queue refers to. -/
def AtEnd (db : Store) (name : Bytes) (side : Side) (val : Bytes) : Prop :=
  ∃ seq, db (encodeQitemKey name (endSeq side)) = some (nativeBytes seq) ∧
    db (encodeQitemKey name seq) = some val

/-- The answer 1 comes with an end item of a state seen during the call, and the
answer 0 means that one of them had no item. -/
def Linearizable (name : Bytes) (side : Side) (seen : List Store) (r : Int × Bytes) : Prop :=
  (r.1 = 1 → ∃ db ∈ seen, AtEnd db name side r.2) ∧ (r.1 = 0 → ∃ db ∈ seen, Drained db name)

/-- `qfront` or `qback`. -/
def peekCall (name item : Bytes) : Side → Db (Int × Bytes)
  | .front => qfront name item
  | .back => qback name item

namespace Peek

variable {ι : Type} (i : ι)

def start (q : BinlogQueue ι) (name item : Bytes) (side : Side) : Peek ι :=
  ⟨q, peekCall name item side, [q.db]⟩

def step (s : Peek ι) : PeekStep ι → Option (Peek ι)
  | .commit c =>
      let q := (c.2.1.run c.1 c.2.2 s.q).2
      some ⟨q, s.call, s.seen ++ [q.db]⟩
  | .get fails =>
      match s.call with
      | .ret _ => none
      | .call op next => some ⟨(exec op (i, fails) s.q).2, next (exec op (i, fails) s.q).1, s.seen⟩

/-- The answer if the writer commits nothing more before the call returns. -/
def answer (s : Peek ι) : Int × Bytes := (s.call.run binlogs (env i fun _ ↦ false) s.q).val

/-- A commit to the deque `d` pops item `seq` only if the queue is empty then or
was empty during the call, and pushes an item under this number only at the end
asked for, to an empty queue, or if the item was at this end during the call. -/
def Harmless (name : Bytes) (side : Side) (seen : List Store) (seq : UInt64) (d : SeqDeque Bytes)
    (c : ι × Mutation × (ℕ → Bool)) (q : BinlogQueue ι) : Prop :=
  (∀ side', Pops name side' c q → d.edge side' = seq.toNat →
    d.items.length = 1 ∨ ∃ db ∈ seen, Drained db name) ∧
  ∀ val side', Pushes name val side' c q → d.next qitemSeqInit.toNat side' = seq.toNat →
    side' = side ∨ d.items = [] ∨ ∃ db ∈ seen, AtEnd db name side val

/-- Between the two `Get`s, of which the first one read `seq`, every commit is
harmless. -/
def Undisturbed (name : Bytes) (side : Side) (s : Peek ι) : PeekStep ι → Prop
  | .get _ => True
  | .commit c => ∀ seq item d, s.call = qgetBySeq name seq item → Rep s.q.db name d →
      Harmless name side s.seen seq d c s.q

end Peek

/-! ## The two reads -/

/-- What `qget_by_seq` makes of a `Get`. -/
def readItem (val : Bytes) : GetResult → Int × Bytes
  | .ok found => (1, found)
  | .notFound => (0, val)
  | .error => (-1, val)

theorem qgetBySeq_eq (name : Bytes) (seq : UInt64) (val : Bytes) : qgetBySeq name seq val =
    .call (.get (encodeQitemKey name seq)) fun r ↦ .ret (readItem val r) := by
  simp only [qgetBySeq, ldbGet, Prog.call_bind, Prog.ret_bind]
  congr
  funext r
  cases r <;> rfl

theorem qgetBySeq_inj {name : Bytes} {seq seq' : UInt64} {item item' : Bytes}
    (h : qgetBySeq name seq item = qgetBySeq name seq' item') : seq = seq' := by
  rw [qgetBySeq_eq, qgetBySeq_eq] at h
  injection h with hop
  injection hop with hkey
  exact (encodeQitemKey_inj.mp hkey).2

/-- A peek after its first `Get`. -/
def afterEnd (name item : Bytes) (g : Int × UInt64) : Db (Int × Bytes) :=
  if g.1 = -1 then .ret (-1, item)
  else if g.1 = 0 then .ret (0, item)
  else qgetBySeq name g.2 item

theorem peekCall_eq (name item : Bytes) (side : Side) : peekCall name item side =
    .call (.get (encodeQitemKey name (endSeq side))) fun r ↦
      afterEnd name item (readUint64 r) := by
  have hside : peekCall name item side = qpeek name item (endSeq side) := by cases side <;> rfl
  simp only [hside, qpeek, qgetUint64, qgetBySeq_eq, Prog.call_bind, Prog.ret_bind]
  congr
  funext r
  cases r with
  | ok val =>
      by_cases hlen : val.length = 8 <;>
        simp [readItem, readUint64, afterEnd, hlen, qgetBySeq_eq]
  | notFound => rfl
  | error => rfl

namespace Rep

variable {db : Store} {name : Bytes} {d : SeqDeque Bytes}

theorem drained_iff (h : Rep db name d) : Drained db name ↔ d.items = [] := by
  refine ⟨fun hdrained ↦ ?_, h.drained⟩
  by_contra hne
  have hsize := h.size
  rw [hdrained.1, if_neg hne] at hsize
  cases hsize

theorem atEnd_iff (h : Rep db name d) (side : Side) (val : Bytes) :
    AtEnd db name side val ↔ d.peek side = some val := by
  constructor
  · rintro ⟨seq, hpointer, hitem⟩
    rw [h.edge side] at hpointer
    split at hpointer
    · cases hpointer
    · next hne =>
      rw [Option.some.injEq, nativeBytes_inj] at hpointer
      rwa [← hpointer, h.lookup_edge hne side] at hitem
  · intro hpeek
    have hne := items_ne_nil_of_peek hpeek
    exact ⟨_, (h.edge side).trans (if_neg hne), (h.lookup_edge hne side).trans hpeek⟩

theorem afterEnd (h : Rep db name d) (item : Bytes) (side : Side) :
    GeminiDB.afterEnd name item
        (readUint64 (lookup db (encodeQitemKey name (endSeq side)) false)) =
      if d.items = [] then .ret (0, item)
      else qgetBySeq name (UInt64.ofNat (d.edge side)) item := by
  rw [h.readEnd, GeminiDB.afterEnd]
  split <;> rfl

end Rep

theorem exists_mem_concat {α : Type} {P : α → Prop} {l : List α} {a : α} :
    (∃ x ∈ l ++ [a], P x) ↔ (∃ x ∈ l, P x) ∨ P a := by
  simp [or_and_right, exists_or]

theorem Linearizable.concat {name : Bytes} {side : Side} {seen : List Store} {r : Int × Bytes}
    (h : Linearizable name side seen r) (db : Store) : Linearizable name side (seen ++ [db]) r :=
  ⟨fun hret ↦ exists_mem_concat.mpr (.inl (h.1 hret)),
    fun hret ↦ exists_mem_concat.mpr (.inl (h.2 hret))⟩

theorem not_pushes_of_pops {ι : Type} {name val : Bytes} {side side' : Side} {q : BinlogQueue ι}
    {c : ι × Mutation × (ℕ → Bool)} (hpops : Pops name side c q) : ¬ Pushes name val side' c q := by
  intro hpushes
  obtain ⟨hpops, -⟩ := hpops
  obtain ⟨hpushes, -⟩ := hpushes
  obtain ⟨j, m, fails⟩ := c
  cases m <;> simp only [Mutation.pops, Mutation.pushes, reduceCtorEq] at hpops hpushes

namespace Peek

variable {ι : Type} {i : ι} {name item : Bytes} {side : Side}

/-- The call has both `Get`s before it, the second one, or none. -/
structure Inv (name item : Bytes) (side : Side) (s : Peek ι) : Prop where
  phase : s.call = peekCall name item side ∨
    (∃ seq, (∀ side', seq ≠ endSeq side') ∧ s.call = qgetBySeq name seq item) ∨
    ∃ r, s.call = .ret r
  stored : ∃ d, Rep s.q.db name d
  current : s.q.db ∈ s.seen

theorem answer_pending {s : Peek ι} {seq : UInt64} (h : s.call = qgetBySeq name seq item) :
    s.answer i = readItem item (lookup s.q.db (encodeQitemKey name seq) false) := by
  rw [answer, h, qgetBySeq_eq]
  rfl

theorem linearizable_item {db : Store} {key : Bytes} {seen : List Store} :
    Linearizable name side seen (readItem item (lookup db key false)) ↔
      (∀ val, db key = some val → ∃ st ∈ seen, AtEnd st name side val) ∧
        (db key = none → ∃ st ∈ seen, Drained st name) := by
  cases hkey : db key with
  | none => simp [lookup_of_none hkey, readItem, Linearizable]
  | some val => simp [lookup_of_some hkey, readItem, Linearizable]

/-- Before its first `Get` the call sees the queue as it is. -/
theorem linearizable_first {s : Peek ι} (h : s.Inv name item side)
    (hcall : s.call = peekCall name item side) :
    Linearizable name side s.seen (s.answer i) := by
  obtain ⟨d, hd⟩ := h.stored
  have hanswer : s.answer i = ((GeminiDB.afterEnd name item (readUint64 (lookup s.q.db
      (encodeQitemKey name (endSeq side)) false))).run binlogs (env i fun _ ↦ false) s.q).val := by
    rw [answer, hcall, peekCall_eq]
    rfl
  rw [hanswer, hd.afterEnd]
  split
  · next hnil => exact ⟨fun hret ↦ absurd hret (by simp), fun _ ↦ ⟨_, h.current, hd.drained hnil⟩⟩
  · next hne =>
    rw [qgetBySeq_eq]
    change Linearizable name side s.seen (readItem item (lookup s.q.db _ false))
    rw [linearizable_item, hd.lookup_edge hne]
    refine ⟨fun val hval ↦ ⟨_, h.current, (hd.atEnd_iff side val).mpr hval⟩, fun hnone ↦ ?_⟩
    have hsome := (d.peek_isSome side).mpr hne
    rw [hnone] at hsome
    cases hsome

/-- A `Get` that fails ends the call; another one does not change its answer. -/
theorem step_get {s t : Peek ι} {fails : Bool} (h : s.Inv name item side)
    (hstep : s.step i (.get fails) = some t) :
    t.Inv name item side ∧ t.seen = s.seen ∧ (t.answer i = s.answer i ∨ (t.answer i).1 = -1) := by
  obtain ⟨hphase, ⟨d, hd⟩, hcurrent⟩ := h
  rcases hphase with hcall | ⟨seq, hseq, hcall⟩ | ⟨r, hcall⟩
  · simp only [step, hcall, peekCall_eq, Option.some.injEq] at hstep
    subst hstep
    cases fails with
    | true => exact ⟨⟨.inr (.inr ⟨_, rfl⟩), ⟨d, hd⟩, hcurrent⟩, rfl, .inr rfl⟩
    | false =>
        have hanswer : answer i ⟨s.q, GeminiDB.afterEnd name item (readUint64
            (lookup s.q.db (encodeQitemKey name (endSeq side)) false)), s.seen⟩ = s.answer i := by
          rw [answer, answer, hcall, peekCall_eq]
          rfl
        refine ⟨⟨.inr ?_, ⟨d, hd⟩, hcurrent⟩, rfl, .inl hanswer⟩
        change (∃ seq, (∀ side', seq ≠ endSeq side') ∧ GeminiDB.afterEnd name item (readUint64
          (lookup s.q.db (encodeQitemKey name (endSeq side)) false)) = qgetBySeq name seq item) ∨ _
        rw [hd.afterEnd]
        split
        · next hnil => exact .inr ⟨_, (hd.afterEnd item side).trans (if_pos hnil)⟩
        · next hne =>
          obtain ⟨hlo, hhi⟩ := hd.edge_lt hne side
          exact .inl ⟨_, ofNat_ne_endSeq hlo hhi, rfl⟩
  · simp only [step, hcall, qgetBySeq_eq, Option.some.injEq] at hstep
    subst hstep
    refine ⟨⟨.inr (.inr ⟨_, rfl⟩), ⟨d, hd⟩, hcurrent⟩, rfl, ?_⟩
    rw [answer_pending hcall]
    cases fails with
    | false => exact .inl rfl
    | true => exact .inr rfl
  · simp only [step, hcall] at hstep
    cases hstep

section Commit

variable {seen : List Store} {q : BinlogQueue ι} {seq : UInt64} {d : SeqDeque Bytes}
  {c : ι × Mutation × (ℕ → Bool)} {db : Store}

/-- What the `Get` answers stays right when the commit does not touch the item. -/
theorem linearizable_untouched
    (hlin : Linearizable name side seen
      (readItem item (lookup q.db (encodeQitemKey name seq) false)))
    (hkey : db (encodeQitemKey name seq) = q.db (encodeQitemKey name seq)) :
    Linearizable name side (seen ++ [db])
      (readItem item (lookup db (encodeQitemKey name seq) false)) := by
  have hconcat := Linearizable.concat hlin db
  rw [linearizable_item] at hconcat ⊢
  rwa [hkey]

theorem linearizable_popped {side' : Side} (hpops : Pops name side' c q) (hne : d.items ≠ [])
    (hrep : Rep db name (d.pop side')) (hedge : seq.toNat = d.edge side')
    (hkey : db (encodeQitemKey name seq) = none) :
    Linearizable name side (seen ++ [db])
        (readItem item (lookup db (encodeQitemKey name seq) false)) ↔
      Harmless name side seen seq d c q := by
  rw [linearizable_item, exists_mem_concat, hrep.drained_iff, pop_items_eq_nil]
  have hpos := List.length_pos_iff.mpr hne
  constructor
  · rintro ⟨-, hnone⟩
    refine ⟨fun _ _ _ ↦ ?_, fun _ _ hpushes ↦ absurd hpushes (not_pushes_of_pops hpops)⟩
    exact (hnone hkey).elim .inr fun hle ↦ .inl (by omega)
  · rintro ⟨hpop, -⟩
    refine ⟨fun val hval ↦ ?_, fun _ ↦ ?_⟩
    · rw [hkey] at hval
      cases hval
    · exact (hpop side' hpops hedge.symm).elim (fun hone ↦ .inr (by omega)) .inl

theorem pushes_unique {val val' : Bytes} {side' side'' : Side} (h : Pushes name val side' c q)
    (h' : Pushes name val' side'' c q) : val' = val ∧ side'' = side' := by
  have hboth := h'.1.symm.trans h.1
  simpa using hboth

theorem linearizable_pushed (hd : Rep q.db name d) (hcurrent : q.db ∈ seen) {val : Bytes}
    {side' : Side} (hpushes : Pushes name val side' c q)
    (hrep : Rep db name (d.push qitemSeqInit.toNat val side'))
    (hnext : seq.toNat = d.next qitemSeqInit.toNat side')
    (hkey : db (encodeQitemKey name seq) = some val) :
    Linearizable name side (seen ++ [db])
        (readItem item (lookup db (encodeQitemKey name seq) false)) ↔
      Harmless name side seen seq d c q := by
  rw [linearizable_item]
  constructor
  · rintro ⟨hval, -⟩
    refine ⟨fun side'' hpops ↦ absurd hpushes (not_pushes_of_pops hpops),
      fun val' side'' hpushes' _ ↦ ?_⟩
    obtain ⟨rfl, rfl⟩ := pushes_unique hpushes hpushes'
    have hend := hval _ hkey
    rw [exists_mem_concat, hrep.atEnd_iff, peek_push] at hend
    rcases hend with hseen | hend
    · exact .inr (.inr hseen)
    · split at hend
      · next hempty => exact hempty.elim .inl fun hnil ↦ .inr (.inl hnil)
      · exact .inr (.inr ⟨_, hcurrent, (hd.atEnd_iff side val').mpr hend⟩)
  · rintro ⟨-, hpush⟩
    refine ⟨fun val' hval ↦ ?_, fun hnone ↦ ?_⟩
    · obtain rfl : val = val' := Option.some.inj (hkey.symm.trans hval)
      rw [exists_mem_concat, hrep.atEnd_iff, peek_push]
      rcases hpush val side' hpushes hnext.symm with hside | hnil | hseen
      · exact .inr (if_pos (.inl hside))
      · exact .inr (if_pos (.inr hnil))
      · exact .inl hseen
    · rw [hkey] at hnone
      cases hnone

/-- The second `Get` right after a commit answers well just when the commit was
harmless, if it would have answered well before. -/
theorem linearizable_commit_iff (hseq : ∀ side', seq ≠ endSeq side') (hd : Rep q.db name d)
    (hcurrent : q.db ∈ seen) (c : ι × Mutation × (ℕ → Bool))
    (hlin : Linearizable name side seen
      (readItem item (lookup q.db (encodeQitemKey name seq) false)))
    (hdb : (c.2.1.run c.1 c.2.2 q).2.db = db) :
    Linearizable name side (seen ++ [db])
        (readItem item (lookup db (encodeQitemKey name seq) false)) ↔
      Harmless name side seen seq d c q := by
  have hstep := hd.dequeStep c
  simp only [DequeStep, hdb] at hstep
  rcases hstep with ⟨side', hpops, hne, hrep⟩ | ⟨val, side', hpushes, hrep⟩ |
    ⟨hpops, hpushes, hrep⟩
  · have hkey := hrep.item seq hseq
    rw [get?_pop hne] at hkey
    by_cases hedge : seq.toNat = d.edge side'
    · rw [if_pos hedge] at hkey
      exact linearizable_popped hpops hne hrep hedge hkey
    · rw [if_neg hedge, ← hd.item seq hseq] at hkey
      refine iff_of_true (linearizable_untouched hlin hkey) ⟨fun side'' hpops' hedge' ↦ ?_,
        fun _ _ hpushes ↦ absurd hpushes (not_pushes_of_pops hpops)⟩
      have hside := hpops.1.symm.trans hpops'.1
      simp only [Option.some.injEq, Prod.mk.injEq, true_and] at hside
      exact absurd hedge'.symm (hside ▸ hedge)
  · have hkey := hrep.item seq hseq
    have hfirst : d.items ≠ [] → 0 < d.first := hd.first_pos
    rw [get?_push hfirst] at hkey
    by_cases hnext : seq.toNat = d.next qitemSeqInit.toNat side'
    · rw [if_pos hnext] at hkey
      exact linearizable_pushed hd hcurrent hpushes hrep hnext hkey
    · rw [if_neg hnext, ← hd.item seq hseq] at hkey
      refine iff_of_true (linearizable_untouched hlin hkey)
        ⟨fun side'' hpops ↦ absurd hpushes (not_pushes_of_pops hpops),
          fun val' side'' hpushes' hnext' ↦ absurd ?_ hnext⟩
      obtain ⟨-, rfl⟩ := pushes_unique hpushes hpushes'
      exact hnext'.symm
  · refine iff_of_true (linearizable_untouched hlin ?_) ⟨fun side' h ↦ absurd h (hpops side'),
      fun val side' h ↦ absurd h (hpushes val side')⟩
    rw [hrep.item seq hseq, hd.item seq hseq]

end Commit

theorem peekCall_ne_qgetBySeq (seq : UInt64) (item' : Bytes) :
    peekCall name item side ≠ qgetBySeq name seq item' := by
  intro h
  rw [peekCall_eq, qgetBySeq_eq] at h
  injection h with hop hnext
  injection hop with hkey
  obtain ⟨-, rfl⟩ := encodeQitemKey_inj.mp hkey
  -- a pointer that is found leads to another `Get`
  have hfound := congrFun hnext (GetResult.ok (nativeBytes 0))
  rw [show readUint64 (.ok (nativeBytes 0)) = (1, 0) by decide] at hfound
  change qgetBySeq name 0 item = _ at hfound
  rw [qgetBySeq_eq] at hfound
  cases hfound

theorem ret_ne_qgetBySeq (r : Int × Bytes) (seq : UInt64) :
    (.ret r : Db (Int × Bytes)) ≠ qgetBySeq name seq item := by
  rw [qgetBySeq_eq]
  exact fun h ↦ by cases h

theorem step_commit {s t : Peek ι} {c : ι × Mutation × (ℕ → Bool)}
    (hstep : s.step i (.commit c) = some t) :
    (c.2.1.run c.1 c.2.2 s.q).2 = t.q ∧ t.call = s.call ∧ t.seen = s.seen ++ [t.q.db] := by
  cases hstep
  exact ⟨rfl, rfl, rfl⟩

theorem Inv.commit {s t : Peek ι} {c : ι × Mutation × (ℕ → Bool)} (h : s.Inv name item side)
    (hstep : s.step i (.commit c) = some t) : t.Inv name item side := by
  cases hstep
  obtain ⟨d, hd⟩ := h.stored
  have hstored : ∃ d, Rep (c.2.1.run c.1 c.2.2 s.q).2.db name d := by
    rcases hd.dequeStep c with ⟨side', -, -, hrep⟩ | ⟨val, side', -, hrep⟩ | ⟨-, -, hrep⟩
    · exact ⟨_, hrep⟩
    · exact ⟨_, hrep⟩
    · exact ⟨_, hrep⟩
  exact ⟨h.phase, hstored, List.mem_append_right _ (List.mem_singleton_self _)⟩

theorem Inv.step {s t : Peek ι} {a : PeekStep ι} (h : s.Inv name item side)
    (hstep : s.step i a = some t) : t.Inv name item side := by
  cases a with
  | commit c => exact h.commit hstep
  | get fails => exact (step_get h hstep).1

/-- A step keeps the answer right just when it does not disturb the call. -/
theorem Inv.linearizable_step {s t : Peek ι} {a : PeekStep ι} (h : s.Inv name item side)
    (hstep : s.step i a = some t) (hlin : Linearizable name side s.seen (s.answer i)) :
    Linearizable name side t.seen (t.answer i) ↔ s.Undisturbed name side a := by
  cases a with
  | get fails =>
      obtain ⟨-, hseen, hsame | hfailed⟩ := step_get h hstep
      · exact iff_of_true (by rwa [hseen, hsame]) trivial
      · refine iff_of_true ⟨fun hret ↦ ?_, fun hret ↦ ?_⟩ trivial <;> rw [hfailed] at hret <;>
          cases hret
  | commit c =>
      have hnext := h.commit hstep
      obtain ⟨hq, hsame, hseen⟩ := step_commit hstep
      rcases h.phase with hcall | ⟨seq, hseq, hcall⟩ | ⟨r, hcall⟩
      · refine iff_of_true (linearizable_first hnext (hsame.trans hcall))
          fun seq item' d hcall' ↦ ?_
        exact absurd (hcall.symm.trans hcall') (peekCall_ne_qgetBySeq seq item')
      · rw [answer_pending hcall] at hlin
        rw [answer_pending (hsame.trans hcall), hseen]
        have hiff {d : SeqDeque Bytes} (hd : Rep s.q.db name d) :=
          linearizable_commit_iff hseq hd h.current c hlin (congrArg BinlogQueue.db hq)
        constructor
        · intro hlin' seq' item' d hcall' hd
          obtain rfl := qgetBySeq_inj (hcall.symm.trans hcall')
          exact (hiff hd).mp hlin'
        · intro hundisturbed
          obtain ⟨d, hd⟩ := h.stored
          exact (hiff hd).mpr (hundisturbed seq item d hcall hd)
      · refine iff_of_true ?_ fun seq item' d hcall' ↦ ?_
        · rw [answer, hcall] at hlin
          rw [answer, hsame, hcall, hseen]
          exact Linearizable.concat hlin _
        · exact absurd (hcall.symm.trans hcall') (ret_ne_qgetBySeq r seq)

/-! ## Whole runs -/

/-- Wherever a run of commits and `Get`s is cut, the call answers well from there
on its own, just when no commit of the run disturbed it. -/
theorem peek_linearizable_iff {q : BinlogQueue ι}
    (hq : Machine.Reachable mutate BinlogQueue.empty q) (i : ι) (name item : Bytes) (side : Side)
    (as : List (PeekStep ι)) :
    (∀ bs, bs <+: as → ∀ s, Machine.run (step i) (start q name item side) bs = some s →
      Linearizable name side s.seen (s.answer i)) ↔
    ∀ bs a, bs ++ [a] <+: as → ∀ s,
      Machine.run (step i) (start q name item side) bs = some s → s.Undisturbed name side a := by
  obtain ⟨ds, hrep⟩ := queues_of_reachable hq
  have hinit : (start q name item side).Inv name item side :=
    ⟨.inl rfl, ⟨_, hrep name⟩, List.mem_singleton_self _⟩
  refine Machine.forall_run_iff hinit (linearizable_first hinit rfl) (fun s a t h ↦ h.step)
    (fun s a t h hlin hstep ↦ h.linearizable_step hstep hlin) (fun s a hstuck ↦ ?_) as
  cases a with
  | get fails => trivial
  | commit c => cases hstuck

/-- A queue with two items. -/
def twoItems : BinlogQueue ℕ :=
  Mutation.runAll .empty
    [(0, .qpushBack [97] [49], fun _ ↦ false), (1, .qpushBack [97] [50], fun _ ↦ false)]

theorem reachable_twoItems : Machine.Reachable mutate BinlogQueue.empty twoItems :=
  Machine.reachable_of_run (show Machine.run mutate BinlogQueue.empty
    [(0, .qpushBack [97] [49], fun _ ↦ false), (1, .qpushBack [97] [50], fun _ ↦ false)] =
      some twoItems from rfl)

/-- A push at the other end does not disturb `qfront`. -/
theorem peek_linearizable_iff_push :
    (∀ bs, bs <+: [PeekStep.get false, .commit (2, .qpushBack [97] [51], fun _ ↦ false)] →
      ∀ s, Machine.run (step 0) (start twoItems [97] [] .front) bs = some s →
        Linearizable [97] .front s.seen (s.answer 0)) ↔
    ∀ bs a, bs ++ [a] <+: [PeekStep.get false, .commit (2, .qpushBack [97] [51], fun _ ↦ false)] →
      ∀ s, Machine.run (step 0) (start twoItems [97] [] .front) bs = some s →
        s.Undisturbed [97] .front a :=
  peek_linearizable_iff reachable_twoItems 0 [97] [] .front _

/-- With a pop between its `Get`s, `qfront` finds a queue of two items empty. -/
theorem not_linearizable : ¬ ∀ q : BinlogQueue ℕ, Machine.Reachable mutate BinlogQueue.empty q →
    ∀ name item side s r, Machine.Reachable (step 0) (start q name item side) s →
      s.call = .ret r → Linearizable name side s.seen r := by
  intro hall
  have hrun : Machine.run (step 0) (start twoItems [97] [] .front)
      [.get false, .commit (2, .qpopFront [97] [], fun _ ↦ false), .get false] = some _ := rfl
  have hlin := hall twoItems reachable_twoItems [97] [] .front _ (0, [])
    (Machine.reachable_of_run hrun) rfl
  obtain ⟨db, hmem, hdrained⟩ := hlin.2 rfl
  have hsize := hdrained.1
  revert hsize
  rcases List.mem_cons.mp hmem with rfl | hmem
  · decide
  · rcases List.mem_singleton.mp hmem with rfl
    decide

end Peek

end GeminiDB
