import GeminiDB.Data.Kv
import GeminiDB.Data.QueueEffect
import GeminiDB.Lib.Serial

/-!
# The mutating calls together

All eight calls share one write batch and one lock. Interleaved in any way they
agree with running them one after another in lock order, and a call that
reports an error or an empty result leaves neither a change nor an edit behind.
-/

namespace GeminiDB

open Program WriteBatch

/-- The mutating calls of `GEMINIDBImpl` with their arguments; `item` of a pop
is what the caller's string holds beforehand. -/
inductive Mutation where
  | set (key val : Bytes)
  | del (key : Bytes)
  | multiSet (kvs : List Bytes) (offset : ℕ)
  | multiDel (keys : List Bytes) (offset : ℕ)
  | qpushFront (name item : Bytes)
  | qpushBack (name item : Bytes)
  | qpopFront (name item : Bytes)
  | qpopBack (name item : Bytes)
  deriving DecidableEq

namespace Mutation

/-- The call, with its return value and what it leaves in the output string. -/
def call : Mutation → DbCall (Int × Bytes)
  | set key val => (GeminiDB.set key val).map fun ret ↦ (ret, [])
  | del key => (GeminiDB.del key).map fun ret ↦ (ret, [])
  | multiSet kvs offset => (GeminiDB.multiSet kvs offset).map fun ret ↦ (ret, [])
  | multiDel keys offset => (GeminiDB.multiDel keys offset).map fun ret ↦ (ret, [])
  | qpushFront name item => (GeminiDB.qpushFront name item).map fun size ↦ (size.toInt, [])
  | qpushBack name item => (GeminiDB.qpushBack name item).map fun size ↦ (size.toInt, [])
  | qpopFront name item => GeminiDB.qpopFront name item
  | qpopBack name item => GeminiDB.qpopBack name item

/-- Run the call alone, as call `i`. -/
def run {ι : Type} (m : Mutation) (i : ι) (fails : ℕ → Bool) (q : BinlogQueue ι) :
    (Int × Bytes) × BinlogQueue ι :=
  m.call.run binlogs (env i fails) q

/-- The result and the committed store after a call on `db` whose accesses to
leveldb fail as told; no call has more than four kinds of them. -/
def outcome (db : Store) (f₀ f₁ f₂ f₃ : Bool) : Mutation → (Int × Bytes) × Store
  | set key val => ((setResult db key val f₀).map (·, []) id)
  | del key => ((delResult db key f₀).map (·, []) id)
  | multiSet kvs offset => ((multiSetResult db kvs offset f₀).map (·, []) id)
  | multiDel keys offset => ((multiDelResult db keys offset f₀).map (·, []) id)
  | qpushFront name item => ((pushResult db name item qfrontSeq f₀ f₁ f₂).map (·.toInt, []) id)
  | qpushBack name item => ((pushResult db name item qbackSeq f₀ f₁ f₂).map (·.toInt, []) id)
  | qpopFront name item => popResult db name item qfrontSeq f₀ f₁ f₂ f₃
  | qpopBack name item => popResult db name item qbackSeq f₀ f₁ f₂ f₃

theorem run_outcome {ι : Type} (m : Mutation) (i : ι) (fails : ℕ → Bool) (q : BinlogQueue ι) :
    ∃ f₀ f₁ f₂ f₃, effect (m.run i fails q) = m.outcome q.db f₀ f₁ f₂ f₃ := by
  cases m with
  | set key val =>
      exact ⟨_, false, false, false, by rw [run, call, effect_map, set_effect, outcome]⟩
  | del key =>
      exact ⟨_, false, false, false, by rw [run, call, effect_map, del_effect, outcome]⟩
  | multiSet kvs offset =>
      exact ⟨_, false, false, false, by rw [run, call, effect_map, multiSet_effect, outcome]⟩
  | multiDel keys offset =>
      exact ⟨_, false, false, false, by rw [run, call, effect_map, multiDel_effect, outcome]⟩
  | qpushFront name item =>
      obtain ⟨n₀, n₁, n₂, heffect⟩ := qpush_effect i fails q name item qfrontSeq
      exact ⟨fails n₀, fails n₁, fails n₂, false, by
        rw [run, call, effect_map, GeminiDB.qpushFront, heffect, outcome]⟩
  | qpushBack name item =>
      obtain ⟨n₀, n₁, n₂, heffect⟩ := qpush_effect i fails q name item qbackSeq
      exact ⟨fails n₀, fails n₁, fails n₂, false, by
        rw [run, call, effect_map, GeminiDB.qpushBack, heffect, outcome]⟩
  | qpopFront name item =>
      obtain ⟨n₀, n₁, n₂, n₃, heffect⟩ := qpop_effect i fails q name item qfrontSeq
      exact ⟨fails n₀, fails n₁, fails n₂, fails n₃, heffect⟩
  | qpopBack name item =>
      obtain ⟨n₀, n₁, n₂, n₃, heffect⟩ := qpop_effect i fails q name item qbackSeq
      exact ⟨fails n₀, fails n₁, fails n₂, fails n₃, heffect⟩

/-! ## Serializability -/

/-- A committed batch holds only what the committing call queued. -/
def OwnWrites {ι : Type} (commit : ι × List (Entry ι)) : Prop :=
  ∀ entry ∈ commit.2, entry.1 = commit.1

theorem serial_ownWrites {ι θ : Type}
    (ts : List (θ × Task DbOp DbOp.Result (ι × Bool) (Int × Bytes)))
    (hts : ∀ t ∈ ts, ∃ i fails, t.2.env = env i fails) (q : BinlogQueue ι) :
    ∀ commit ∈ (Serial.serial binlogs ts q).2.commits, commit ∈ q.commits ∨ OwnWrites commit := by
  induction ts generalizing q with
  | nil => exact fun commit hcommit ↦ .inl hcommit
  | cons t ts ih =>
      intro commit hcommit
      obtain ⟨i, fails, henv⟩ := hts t List.mem_cons_self
      obtain ⟨new, hnew, hown⟩ := call_commitsOf t.2.call i fails q
      have htail := ih (fun u hu ↦ hts u (List.mem_cons_of_mem t hu)) _ commit hcommit
      rw [Task.run, henv, hnew, List.mem_append] at htail
      rcases htail with (hold | hmem) | hmine
      · exact .inl hold
      · right
        intro entry hentry
        rw [(hown commit hmem).2 entry hentry, (hown commit hmem).1]
      · exact .inr hmine

section Threads

variable {θ : Type} [DecidableEq θ]

/-- The calls of each thread with what their accesses to leveldb meet. Every
call is tagged with its thread and its number. -/
def tasks (programs : θ → List (Mutation × (ℕ → Bool))) (i : θ) :
    List (Task DbOp DbOp.Result ((θ × ℕ) × Bool) (Int × Bytes)) :=
  (programs i).mapIdx fun k m ↦ ⟨m.1.call, env (i, k) m.2⟩

/-- Threads interleaved at lock, `Get`, `Put` and `Delete`, commit and unlock. -/
def Interleaved (programs : θ → List (Mutation × (ℕ → Bool))) (init : BinlogQueue (θ × ℕ))
    (c : Serial.Config DbOp DbOp.Result ((θ × ℕ) × Bool) (BinlogQueue (θ × ℕ)) θ (Int × Bytes)) :
    Prop :=
  Machine.Reachable (Serial.step binlogs) (Serial.start (tasks programs) init) c

theorem mutations_serializable {programs : θ → List (Mutation × (ℕ → Bool))}
    {init : BinlogQueue (θ × ℕ)}
    {c : Serial.Config DbOp DbOp.Result ((θ × ℕ) × Bool) (BinlogQueue (θ × ℕ)) θ (Int × Bytes)}
    (h : Interleaved programs init c) (hfree : c.owner = none) :
    c.shared = (Serial.serial binlogs c.order init).2 ∧
      (∀ i, (c.threads i).returned = Serial.select i (Serial.serial binlogs c.order init).1 ∧
        Serial.select i c.order ++ (c.threads i).todo = tasks programs i) ∧
      ∀ commit ∈ c.shared.commits, commit ∈ init.commits ∨ OwnWrites commit := by
  obtain ⟨hshared, hthreads⟩ := Serial.serializable h hfree
  refine ⟨hshared, hthreads, ?_⟩
  rw [hshared]
  apply serial_ownWrites
  rintro ⟨i, t⟩ ht
  -- every recorded call is one of its thread's calls
  have hmem : t ∈ tasks programs i := by
    rw [← (hthreads i).2]
    exact List.mem_append_left _ (Serial.mem_select.mpr ht)
  obtain ⟨k, hk, rfl⟩ := List.mem_mapIdx.mp hmem
  exact ⟨_, _, rfl⟩

/-- Two threads whose calls touch the same key: the first takes the lock, the
second waits for it. -/
theorem mutations_serializable_two :
    ∃ c : Serial.Config DbOp DbOp.Result ((Bool × ℕ) × Bool) (BinlogQueue (Bool × ℕ)) Bool
        (Int × Bytes),
      c.order.map Prod.fst = [true, false] ∧ c.shared.commits.length = 2 ∧
      c.shared = (Serial.serial binlogs c.order BinlogQueue.empty).2 := by
  let programs : Bool → List (Mutation × (ℕ → Bool)) := fun i ↦
    if i then [(set [97] [49], fun _ ↦ false)] else [(del [97], fun _ ↦ false)]
  let steps := List.replicate 6 true ++ List.replicate 6 false
  have hsome : (Machine.run (Serial.step binlogs)
      (Serial.start (tasks programs) BinlogQueue.empty) steps).isSome = true := rfl
  exact ⟨_, rfl, rfl, (mutations_serializable
    (Machine.reachable_of_run (Option.some_get hsome).symm) rfl).1⟩

end Threads

/-! ## Failed calls -/

/-- The argument lists that fit the `int` results of `multi_set` and `multi_del`. -/
def Fits : Mutation → Prop
  | multiSet kvs _ => kvs.length < 2 ^ 31
  | multiDel keys _ => keys.length < 2 ^ 31
  | _ => True

/-- The result and the committed store say that nothing happened, or the result is positive. -/
def Refused (db : Store) (r : Int × Store) : Prop := r.1 = -1 ∨ r.1 = 0 → r.2 = db

theorem refused_kvCommit {db : Store} {ok : Int} {edits : List (Edit Bytes Bytes)} {fails : Bool}
    (hok : ok = -1 ∨ ok = 0 → edits = []) : Refused db (kvCommit db ok edits fails) := by
  intro hret
  cases fails with
  | true => rfl
  | false =>
      have hnil := hok hret
      simp [kvCommit, hnil]

theorem refused_set (db : Store) (key val : Bytes) (fails : Bool) :
    Refused db (setResult db key val fails) := by
  unfold setResult
  split
  · exact fun _ ↦ rfl
  · exact refused_kvCommit fun hret ↦ by simp at hret

theorem refused_multiSet (db : Store) {kvs : List Bytes} (hfits : kvs.length < 2 ^ 31) (offset : ℕ)
    (fails : Bool) : Refused db (multiSetResult db kvs offset fails) := by
  unfold multiSetResult
  split
  · apply refused_kvCommit
    intro hret
    rw [int32_of_range (by omega) (by omega)] at hret
    have hshort : (kvs.drop offset).length ≤ 1 := by
      rw [List.length_drop]
      omega
    rcases hrest : kvs.drop offset with _ | ⟨key, _ | ⟨val, rest⟩⟩
    · rfl
    · rfl
    · simp [hrest] at hshort
  · exact fun _ ↦ rfl

theorem refused_multiDel (db : Store) {keys : List Bytes} (hfits : keys.length < 2 ^ 31)
    (offset : ℕ) (fails : Bool) : Refused db (multiDelResult db keys offset fails) := by
  apply refused_kvCommit
  intro hret
  rw [int32_of_range (by omega) (by omega)] at hret
  have hnil : keys.drop offset = [] := by
    rw [← List.length_eq_zero_iff, List.length_drop]
    omega
  simp [hnil, deleteEdits]

/-- A size that is neither an error nor about to become one grows to a positive size
or wraps around to a negative one, but not to an error. -/
theorem toInt_succ_ne {size : Int64} (hsize : size ≠ -1) (hsucc : size + 1 ≠ -1) :
    ¬ ((size + 1).toInt = -1 ∨ (size + 1).toInt = 0) := by
  rintro (herr | hzero)
  · exact hsucc (Int64.toInt_inj.mp (herr.trans (by decide)))
  · apply hsize
    have hsum : size + 1 = 0 := Int64.toInt_inj.mp (hzero.trans (by decide))
    have hinv : (1 : Int64) + -1 = 0 := by decide
    calc size = size + (1 + -1) := by rw [hinv, Int64.add_zero]
      _ = -1 := by rw [← Int64.add_assoc, hsum, Int64.zero_add]

theorem refused_push (db : Store) (name item : Bytes) (side : UInt64) (f₀ f₁ f₂ : Bool) :
    Refused db ((pushResult db name item side f₀ f₁ f₂).1.toInt,
      (pushResult db name item side f₀ f₁ f₂).2) := by
  simp only [pushResult]
  split
  · exact fun _ ↦ rfl
  · unfold pushCommit
    split
    · exact fun _ ↦ rfl
    · next hok =>
      obtain ⟨hsize, hrest⟩ := not_or.mp hok
      exact fun hret ↦ (toInt_succ_ne hsize (not_or.mp hrest).1 hret).elim

theorem refused_pop (db : Store) (name item : Bytes) (side : UInt64) (f₀ f₁ f₂ f₃ : Bool) :
    Refused db ((popResult db name item side f₀ f₁ f₂ f₃).1.1,
      (popResult db name item side f₀ f₁ f₂ f₃).2) := by
  simp only [popResult]
  split
  · exact fun _ ↦ rfl
  · split
    · exact fun _ ↦ rfl
    · split
      · exact fun _ ↦ rfl
      · exact fun _ ↦ rfl
      · unfold popCommit
        split
        · exact fun _ ↦ rfl
        · intro hret
          simp at hret

theorem refused_outcome (db : Store) (f₀ f₁ f₂ f₃ : Bool) (m : Mutation) (hfits : m.Fits) :
    Refused db ((m.outcome db f₀ f₁ f₂ f₃).1.1, (m.outcome db f₀ f₁ f₂ f₃).2) := by
  cases m with
  | set key val => exact refused_set db key val f₀
  | del key => exact refused_kvCommit fun hret ↦ by simp at hret
  | multiSet kvs offset => exact refused_multiSet db hfits offset f₀
  | multiDel keys offset => exact refused_multiDel db hfits offset f₀
  | qpushFront name item => exact refused_push db name item qfrontSeq f₀ f₁ f₂
  | qpushBack name item => exact refused_push db name item qbackSeq f₀ f₁ f₂
  | qpopFront name item => exact refused_pop db name item qfrontSeq f₀ f₁ f₂ f₃
  | qpopBack name item => exact refused_pop db name item qbackSeq f₀ f₁ f₂ f₃

theorem refused_run {ι : Type} (m : Mutation) (hfits : m.Fits) (i : ι) (fails : ℕ → Bool)
    (q : BinlogQueue ι) : Refused q.db ((m.run i fails q).1.1, (m.run i fails q).2.db) := by
  obtain ⟨f₀, f₁, f₂, f₃, heffect⟩ := m.run_outcome i fails q
  have hrefused := refused_outcome q.db f₀ f₁ f₂ f₃ m hfits
  rwa [← heffect] at hrefused

/-- Run calls one after another, each under its tag. -/
def runAll {ι : Type} (q : BinlogQueue ι) : List (ι × Mutation × (ℕ → Bool)) → BinlogQueue ι
  | [] => q
  | (i, m, fails) :: rest => runAll (m.run i fails q).2 rest

theorem runAll_commits {ι : Type} (calls : List (ι × Mutation × (ℕ → Bool)))
    (q : BinlogQueue ι) : ∀ commit ∈ (runAll q calls).commits,
      commit ∈ q.commits ∨ ∃ c ∈ calls, ∀ entry ∈ commit.2, entry.1 = c.1 := by
  induction calls generalizing q with
  | nil => exact fun commit hcommit ↦ .inl hcommit
  | cons c calls ih =>
      obtain ⟨i, m, fails⟩ := c
      intro commit hcommit
      obtain ⟨new, hnew, hown⟩ := call_commitsOf m.call i fails q
      rcases ih (m.run i fails q).2 commit hcommit with hold | ⟨c, hc, hmine⟩
      · rw [run, hnew, List.mem_append] at hold
        rcases hold with hold | hmem
        · exact .inl hold
        · exact .inr ⟨_, List.mem_cons_self, (hown commit hmem).2⟩
      · exact .inr ⟨c, List.mem_cons_of_mem _ hc, hmine⟩

/-- A call that returns -1 or 0 changes nothing, and no later call commits any
of the edits it had queued. -/
theorem refused_leaves_no_trace {ι : Type} (m : Mutation) (hfits : m.Fits) (i : ι)
    (fails : ℕ → Bool) (q : BinlogQueue ι)
    (hret : (m.run i fails q).1.1 = -1 ∨ (m.run i fails q).1.1 = 0) :
    (m.run i fails q).2.db = q.db ∧
      ∀ rest : List (ι × Mutation × (ℕ → Bool)), (∀ c ∈ rest, c.1 ≠ i) →
        ∀ commit ∈ (runAll (m.run i fails q).2 rest).commits,
          commit ∈ (m.run i fails q).2.commits ∨ ∀ entry ∈ commit.2, entry.1 ≠ i := by
  refine ⟨refused_run m hfits i fails q hret, fun rest hrest commit hcommit ↦ ?_⟩
  rcases runAll_commits rest _ commit hcommit with hold | ⟨c, hc, hmine⟩
  · exact .inl hold
  · exact .inr fun entry hentry heq ↦ hrest c hc ((hmine entry hentry).symm.trans heq)

/-- `multi_set a 1 "" 2` queues the first pair and stops at the second. -/
theorem refused_leaves_no_trace_empty_key :
    ((multiSet [[97], [49], [], [50]] 0).run 0 (fun _ ↦ false)
        (BinlogQueue.empty : BinlogQueue ℕ)).2.batch ≠ [] ∧
      ((multiSet [[97], [49], [], [50]] 0).run 0 (fun _ ↦ false)
        (BinlogQueue.empty : BinlogQueue ℕ)).2.db = fun _ ↦ none :=
  ⟨by decide, (refused_leaves_no_trace (multiSet [[97], [49], [], [50]] 0) (by simp [Fits]) 0
    (fun _ ↦ false) BinlogQueue.empty (by decide)).1⟩

end Mutation

end GeminiDB
