import GeminiDB.Data.Api
import GeminiDB.Data.Peek
import GeminiDB.Proc.Kv

/-!
# The database for its users

Behind the key encodings there are plain keys and queues. A function that takes no
lock reads one slot after another, and a mutating one does what it does at a single
moment.
-/

namespace GeminiDB

open Program WriteBatch SeqDeque

/-! ## Plain keys and queues -/

/-- All sequence numbers are in range. -/
def Deques.Within (ds : Deques) : Prop :=
  ∀ name, (ds name).Within qitemMinSeq.toNat qitemMaxSeq.toNat

theorem Deques.Within.push {ds : Deques} (h : ds.Within) (name item : Bytes) (side : Side) :
    (ds.push name item side).2.Within := by
  rw [Deques.push]
  split
  · exact h
  · next hrange =>
    obtain ⟨hlo, hhi⟩ := not_or.mp hrange
    intro other
    by_cases hother : other = name
    · subst hother
      dsimp only
      rw [Function.update_self]
      exact (h other).push item (lt_of_not_ge hlo) (lt_of_not_ge hhi)
    · dsimp only
      rw [Function.update_of_ne hother]
      exact h other

theorem Deques.Within.pop {ds : Deques} (h : ds.Within) (name item : Bytes) (side : Side) :
    (ds.pop name item side).2.Within := by
  rw [Deques.pop]
  split
  · exact h
  · intro other
    by_cases hother : other = name
    · subst hother
      dsimp only
      rw [Function.update_self]
      exact (h other).pop side
    · dsimp only
      rw [Function.update_of_ne hother]
      exact h other

/-- Plain keys with their values, and the queues. -/
structure Database where
  kv : Bytes → Option Bytes
  queues : Deques
  within : queues.Within

namespace Database

def empty : Database := ⟨fun _ ↦ none, fun _ ↦ SeqDeque.empty, fun _ h ↦ absurd rfl h⟩

/-- Edits of plain keys. -/
def edit (edits : List (Edit Bytes Bytes)) (d : Database) : Database :=
  { d with kv := apply d.kv edits }

def push (name item : Bytes) (side : Side) (d : Database) : (Int × Bytes) × Database :=
  ((d.queues.push name item side).1,
    ⟨d.kv, (d.queues.push name item side).2, d.within.push name item side⟩)

def pop (name item : Bytes) (side : Side) (d : Database) : (Int × Bytes) × Database :=
  ((d.queues.pop name item side).1,
    ⟨d.kv, (d.queues.pop name item side).2, d.within.pop name item side⟩)

/-- What a mutating call returns, and what it leaves. An empty key is refused. -/
def mutate (m : Mutation) (d : Database) : (Int × Bytes) × Database :=
  match m with
  | .set key val => if key.isEmpty then ((0, []), d) else ((1, []), d.edit [.put key val])
  | .del key => ((1, []), d.edit [.delete key])
  | .multiSet kvs offset =>
      if (pairs (kvs.drop offset)).all fun p ↦ !p.1.isEmpty then
        ((int32 ((kvs.length - offset : ℕ) / 2 : ℕ), []),
          d.edit ((pairs (kvs.drop offset)).map fun p ↦ .put p.1 p.2))
      else ((0, []), d)
  | .multiDel keys offset =>
      ((int32 (keys.length - offset : ℕ), []), d.edit ((keys.drop offset).map .delete))
  | .qpushFront name item => d.push name item .front
  | .qpushBack name item => d.push name item .back
  | .qpopFront name item => d.pop name item .front
  | .qpopBack name item => d.pop name item .back

/-- What a function returns, and what it leaves. -/
def call (c : ApiCall) (d : Database) : (Int × Bytes) × Database :=
  match c with
  | .get key => (((d.kv key).elim (0, []) fun val ↦ (1, val)), d)
  | .qsize name => (((d.queues name).items.length, []), d)
  | .qfront name item => (d.queues.peek name item .front, d)
  | .qback name item => (d.queues.peek name item .back, d)
  | .mutate m => d.mutate m

/-- The functions, each of which may fail: it then returns -1 and leaves something in
the string. -/
def api : Interface ApiCall (fun _ ↦ Int × Bytes) (Option Bytes) Database where
  exec c x d := x.elim (d.call c) fun junk ↦ ((-1, junk), d)
  enter := id
  leave := id

end Database

/-! ## What is stored -/

/-- What a key of the store stands for. -/
inductive Slot where
  | kv (key : Bytes)
  | qsize (name : Bytes)
  | qitem (name : Bytes) (seq : UInt64)
  deriving DecidableEq

def Slot.encode : Slot → Bytes
  | .kv key => encodeKvKey key
  | .qsize name => encodeQsizeKey name
  | .qitem name seq => encodeQitemKey name seq

namespace Database

/-- The sequence number of an end item, as its slot holds it. -/
def pointer (d : Database) (name : Bytes) (side : Side) : Option Bytes :=
  if (d.queues name).items = [] then none
  else some (nativeBytes (UInt64.ofNat ((d.queues name).edge side)))

def read (d : Database) : Slot → Option Bytes
  | .kv key => d.kv key
  | .qsize name =>
      if (d.queues name).items = [] then none
      else some (nativeBytes (UInt64.ofNat (d.queues name).items.length))
  | .qitem name seq =>
      if seq = qfrontSeq then d.pointer name .front
      else if seq = qbackSeq then d.pointer name .back
      else (d.queues name).get? seq.toNat

end Database

/-! ## Moments -/

/-- What happens at one moment: a slot is read, or a mutating call does all that it does. -/
inductive Moment where
  | read (slot : Slot)
  | mutate (m : Mutation)
  deriving DecidableEq

abbrev Moment.Result : Moment → Type
  | .read _ => GetResult
  | .mutate _ => Int × Bytes

/-- Each of these may fail. -/
def Database.moments : Interface Moment Moment.Result (Option Bytes) Database where
  exec
    | .read slot, x, d =>
        (x.elim ((d.read slot).elim .notFound GetResult.ok) fun _ ↦ GetResult.error, d)
    | .mutate m, x, d => x.elim (d.mutate m) fun junk ↦ ((-1, junk), d)
  enter := id
  leave := id

namespace ApiCall

def peekMoments (name item : Bytes) (side : Side) : Prog Moment Moment.Result (Int × Bytes) :=
  .call (.read (.qitem name (endSeq side))) fun r ↦
    if (readUint64 r).1 = -1 then .ret (-1, item)
    else if (readUint64 r).1 = 0 then .ret (0, item)
    else .call (.read (.qitem name (readUint64 r).2)) fun r ↦ .ret (readItem item r)

/-- A function of the interface, moment by moment. -/
def moments : ApiCall → Prog Moment Moment.Result (Int × Bytes)
  | .get key => .call (.read (.kv key)) fun r ↦ .ret (readItem [] r)
  | .qsize name => .call (.read (.qsize name)) fun r ↦ .ret ((readSize r).toInt, [])
  | .qfront name item => peekMoments name item .front
  | .qback name item => peekMoments name item .back
  | .mutate m => .call (.mutate m) .ret

end ApiCall

/-- The accesses behind a moment. -/
def Moment.body : (m : Moment) → Body m.Result
  | .read slot => .call (.op (.get slot.encode)) .ret
  | .mutate m => m.call.locked

theorem get_eq (key item : Bytes) :
    GeminiDB.get key item = .call (.get (encodeKvKey key)) fun r ↦ .ret (readItem item r) := by
  apply congrArg (Prog.call _)
  funext r
  cases r <;> rfl

theorem qsize_eq (name : Bytes) :
    GeminiDB.qsize name = .call (.get (encodeQsizeKey name)) fun r ↦ .ret (readSize r) := by
  apply congrArg (Prog.call _)
  funext r
  cases r with
  | ok val => by_cases hlen : val.length = 8 <;> simp [readSize, hlen]
  | _ => rfl

theorem expand_peekMoments (name item : Bytes) (side : Side) :
    (ApiCall.peekMoments name item side).expand Moment.body = (peekCall name item side).free := by
  rw [peekCall_eq, ApiCall.peekMoments]
  apply congrArg (Prog.call _)
  funext r
  change Prog.expand Moment.body (if (readUint64 r).1 = -1 then .ret (-1, item)
    else if (readUint64 r).1 = 0 then .ret (0, item)
    else .call (.read (.qitem name (readUint64 r).2)) fun r ↦ .ret (readItem item r)) =
      (afterEnd name item (readUint64 r)).free
  rw [afterEnd]
  by_cases herr : (readUint64 r).1 = -1
  · rw [if_pos herr, if_pos herr]
    rfl
  · rw [if_neg herr, if_neg herr]
    by_cases hnone : (readUint64 r).1 = 0
    · rw [if_pos hnone, if_pos hnone]
      rfl
    · rw [if_neg hnone, if_neg hnone, qgetBySeq_eq]
      rfl

/-- The accesses behind the moments of a function are its accesses. -/
theorem ApiCall.expand_moments (c : ApiCall) : c.moments.expand Moment.body = c.body := by
  cases c with
  | get key =>
      rw [ApiCall.body, get_eq]
      rfl
  | qsize name =>
      rw [ApiCall.body, qsize_eq]
      rfl
  | qfront name item => exact expand_peekMoments name item .front
  | qback name item => exact expand_peekMoments name item .back
  | mutate m => exact Prog.bind_ret _

/-! ## Functions without interruption -/

namespace Database

theorem read_endSeq (d : Database) (name : Bytes) (side : Side) :
    d.read (.qitem name (endSeq side)) = d.pointer name side := by
  have hback : qbackSeq ≠ qfrontSeq := by decide
  cases side with
  | front => rw [endSeq, read, if_pos rfl]
  | back => rw [endSeq, read, if_neg hback, if_pos rfl]

theorem edge_range (d : Database) {name : Bytes} (hne : (d.queues name).items ≠ []) (side : Side) :
    qitemMinSeq.toNat < (d.queues name).edge side ∧ (d.queues name).edge side < 2 ^ 64 := by
  have hmax : qitemMaxSeq.toNat = 2 ^ 63 - 1 := by decide
  have hrange := d.within name hne side
  omega

/-- An end item is where its pointer says. -/
theorem read_edge (d : Database) {name : Bytes} (hne : (d.queues name).items ≠ []) (side : Side) :
    d.read (.qitem name (UInt64.ofNat ((d.queues name).edge side))) =
      (d.queues name).peek side := by
  obtain ⟨hlo, hhi⟩ := d.edge_range hne side
  have hnat : (UInt64.ofNat ((d.queues name).edge side)).toNat = (d.queues name).edge side := by
    rw [UInt64.toNat_ofNat', Nat.mod_eq_of_lt hhi]
  have hfront : UInt64.ofNat ((d.queues name).edge side) ≠ qfrontSeq :=
    ofNat_ne_endSeq hlo hhi .front
  have hback : UInt64.ofNat ((d.queues name).edge side) ≠ qbackSeq := ofNat_ne_endSeq hlo hhi .back
  rw [read, if_neg hfront, if_neg hback, hnat, get?_edge hne]

theorem length_lt (d : Database) (name : Bytes) : (d.queues name).items.length < 2 ^ 63 := by
  have hmax : qitemMaxSeq.toNat = 2 ^ 63 - 1 := by decide
  have hlt := (d.within name).length_lt (by decide)
  omega

/-- What `qsize` makes of the slot it reads. -/
theorem readSize_read (d : Database) (name : Bytes) :
    readSize ((d.read (.qsize name)).elim .notFound .ok) =
      Int64.ofNat (d.queues name).items.length := by
  rw [read]
  by_cases hnil : (d.queues name).items = []
  · simp [hnil, readSize]
  · simp [hnil, readSize]

/-- What `qfront` and `qback` make of the slot they read first. -/
theorem readUint64_read (d : Database) (name : Bytes) (side : Side) :
    readUint64 ((d.read (.qitem name (endSeq side))).elim .notFound .ok) =
      if (d.queues name).items = [] then (0, 0)
      else (1, UInt64.ofNat ((d.queues name).edge side)) := by
  rw [read_endSeq, pointer]
  by_cases hnil : (d.queues name).items = []
  · simp [hnil, readUint64]
  · simp [hnil, readUint64]

end Database

/-- A peek that is not interrupted sees the end of the queue. -/
theorem run_peekMoments (d : Database) (name item : Bytes) (side : Side) (e : ℕ → Option Bytes) :
    let r := (ApiCall.peekMoments name item side).run Database.moments e d
    r.state = d ∧ ((r.val.1 = -1 ∧ ∃ n, e n ≠ none) ∨ r.val = d.queues.peek name item side) := by
  have hread := d.readUint64_read name side
  rw [ApiCall.peekMoments, Prog.run_call]
  cases h₀ : e 0 with
  | some junk =>
      have herr : (Database.moments.exec (.read (.qitem name (endSeq side))) (some junk) d) =
          (GetResult.error, d) := rfl
      simp only [herr, readUint64, if_true, Prog.run_ret, true_and]
      exact .inl ⟨0, by simp [h₀]⟩
  | none =>
      have hslot : Database.moments.exec (.read (.qitem name (endSeq side))) none d =
          ((d.read (.qitem name (endSeq side))).elim .notFound .ok, d) := rfl
      rw [hslot]
      dsimp only
      rw [hread]
      by_cases hnil : (d.queues name).items = []
      · have hpeek : (d.queues name).peek side = none := by
          cases side <;> simp [SeqDeque.peek, hnil]
        simp [hnil, Deques.peek, hpeek]
      · obtain ⟨found, hfound⟩ :=
          Option.isSome_iff_exists.mp (((d.queues name).peek_isSome side).mpr hnil)
        have hitem := (d.read_edge hnil side).trans hfound
        rw [if_neg hnil]
        cases h₁ : later e 0 with
        | some junk =>
            refine ⟨rfl, .inl ⟨?_, 1, fun hnone ↦ ?_⟩⟩
            · simp [h₁, Database.moments, readItem]
            · rw [later, hnone] at h₁
              cases h₁
        | none => simp [h₁, Database.moments, readItem, hitem, Deques.peek, hfound]

/-- Functions that are not interrupted do what the interface says. -/
theorem moments_implement : Implements Database.moments Database.api (fun d d' ↦ d = d')
    (fun x ↦ x = none) (fun x ↦ x = none) ApiCall.moments := by
  rintro c e d _ rfl
  have hpeek (name item : Bytes) (side : Side)
      (hc : d.call c = (d.queues.peek name item side, d))
      (hbody : c.moments = ApiCall.peekMoments name item side) :
      ∃ x : Option Bytes, ((∀ n, e n = none) → x = none) ∧
        (c.moments.run Database.moments e d).val = (Database.api.exec c x d).1 ∧
          (c.moments.run Database.moments e d).state = (Database.api.exec c x d).2 := by
    obtain ⟨hstate, hval⟩ := run_peekMoments d name item side e
    rw [hbody]
    rcases hval with ⟨herr, n, hn⟩ | hval
    · exact ⟨some _, fun hall ↦ absurd (hall n) hn, Prod.ext herr rfl, hstate⟩
    · refine ⟨none, fun _ ↦ rfl, ?_, ?_⟩
      · rw [hval]
        exact (congrArg Prod.fst hc).symm
      · rw [hstate]
        exact (congrArg Prod.snd hc).symm
  cases c with
  | get key =>
      cases h₀ : e 0 with
      | some junk =>
          exact ⟨some [], fun hall ↦ by simp [hall 0] at h₀,
            by simp [ApiCall.moments, h₀, Database.moments, Database.api, readItem],
            by simp [ApiCall.moments, Database.moments, Database.api]⟩
      | none =>
          refine ⟨none, fun _ ↦ rfl, ?_, ?_⟩
          · cases hval : d.kv key <;>
              simp [ApiCall.moments, h₀, Database.moments, Database.api, Database.call, readItem,
                Database.read, hval]
          · simp [ApiCall.moments, Database.moments, Database.api, Database.call]
  | qsize name =>
      cases h₀ : e 0 with
      | some junk =>
          have herr : (-1 : Int64).toInt = -1 := by decide
          exact ⟨some [], fun hall ↦ by simp [hall 0] at h₀,
            by simp [ApiCall.moments, h₀, Database.moments, Database.api, readSize, herr],
            by simp [ApiCall.moments, Database.moments, Database.api]⟩
      | none =>
          refine ⟨none, fun _ ↦ rfl, ?_, ?_⟩
          · have hsize := d.readSize_read name
            simp [ApiCall.moments, h₀, Database.moments, Database.api, Database.call, hsize,
              Int64.toInt_ofNat_of_lt (d.length_lt name)]
          · simp [ApiCall.moments, Database.moments, Database.api, Database.call]
  | qfront name item => exact hpeek name item .front rfl rfl
  | qback name item => exact hpeek name item .back rfl rfl
  | mutate m =>
      refine ⟨e 0, fun hall ↦ hall 0, ?_, ?_⟩
      · cases h₀ : e 0 <;> simp [ApiCall.moments, h₀, Database.moments, Database.api, Database.call]
      · cases h₀ : e 0 <;> simp [ApiCall.moments, h₀, Database.moments, Database.api, Database.call]

end GeminiDB
