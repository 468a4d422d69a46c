import GeminiDB.Proc.Calls
import GeminiDB.Proc.Kv

/-!
# Queue handlers (`proc_queue.cpp`)

A pop of many items takes one transaction for each, and its reply lists exactly
the items that are gone, also when an access to leveldb fails half way. A push
of many items replies `error` as soon as one item fails and leaves the items
before it in the queue.
-/

namespace GeminiDB

open Program SeqDeque

/-! ## Sizes -/

/-- `reply_int(ret, ret)`: the size is cut down to the `int` of the status. -/
def procQsize (req : Request) : Db (Option Response) :=
  if req.length < 2 then return some wrongNumber
  else do
    let ret ← qsize (req.arg 1)
    return Response.replyIntAdd [] (int32 ret.toInt) ret.toInt

/-- The reply is `error` just for the size -1, and otherwise the decimal text. -/
def SizeReported (size : Int) (reply : Option Response) : Prop :=
  (reply = some [ascii "error"] ↔ size = -1) ∧
    (size ≠ -1 → reply = some [ascii "ok", intBytes size])

theorem sizeReported_iff (size : Int64) :
    SizeReported size.toInt (Response.replyIntAdd [] (int32 size.toInt) size.toInt) ↔
      (4294967296 ∣ size.toInt + 1 → size.toInt = -1) ∧ -10 ^ 18 < size.toInt := by
  have hfits := Response.addText_fits_iff size.toInt
  have hlt : size.toInt < 2 ^ 63 := size.toInt_lt
  have herror : ascii "error" ≠ ascii "ok" := by decide
  have hstatus : int32 size.toInt = -1 ↔ 4294967296 ∣ size.toInt + 1 := by
    unfold int32
    omega
  by_cases hdvd : 4294967296 ∣ size.toInt + 1
  · rw [Response.replyIntAdd, if_pos (hstatus.mpr hdvd)]
    by_cases hneg : size.toInt = -1
    · simp [SizeReported, hneg]
    · simp [SizeReported, hneg, hdvd]
  · have hne : size.toInt ≠ -1 := fun heq ↦ hdvd (by rw [heq]; exact ⟨0, rfl⟩)
    rw [Response.replyIntAdd, if_neg (mt hstatus.mp hdvd), Response.add]
    split
    · next hroom =>
      simpa [SizeReported, hne, hdvd, herror.symm] using (hfits.mp hroom).1
    · next hroom =>
      have hlow : ¬ -10 ^ 18 < size.toInt := fun hlow ↦ hroom (hfits.mpr ⟨hlow, by omega⟩)
      simp only [SizeReported, reduceCtorEq, false_iff, hlow, and_false, iff_false, not_and]
      exact fun _ hreply ↦ hreply hne

theorem run_procQsize {ι : Type} (i : ι) (fails : ℕ → Bool) (q : BinlogQueue ι)
    (word name : Bytes) (args : List Bytes) :
    ((procQsize (word :: name :: args)).run binlogs (env i fails) q).val =
      Response.replyIntAdd []
        (int32 ((qsize name).run binlogs (env i fails) q).val.toInt)
        ((qsize name).run binlogs (env i fails) q).val.toInt := by
  rw [procQsize, if_neg (by simp)]
  simp [Request.arg]

/-- `qsize` reports the size `v` right just when `v` is not another number that is -1
as an `int`, and greater than `-10^18`; and a number fits into the buffer of `add`
just when it has at most 19 characters. -/
theorem qsize_reported_iff {ι : Type} (i : ι) (fails : ℕ → Bool) (q : BinlogQueue ι)
    (word name : Bytes) (args : List Bytes) (s : Int64) (u : UInt64) :
    let v := ((qsize name).run binlogs (env i fails) q).val.toInt
    (SizeReported v ((procQsize (word :: name :: args)).run binlogs (env i fails) q).val ∧
        (Response.addText s.toInt).length ≤ Response.addBufSize ∧
        (Response.addText u.toNat).length ≤ Response.addBufSize) ↔
      ((4294967296 ∣ v + 1 → v = -1) ∧ -10 ^ 18 < v) ∧ -10 ^ 18 < s.toInt ∧ u.toNat < 10 ^ 19 := by
  have hs : s.toInt < 2 ^ 63 := s.toInt_lt
  simp only [run_procQsize, sizeReported_iff, Response.addText_fits_iff]
  refine and_congr_right' (and_congr (and_iff_left (by omega)) ?_)
  omega

/-- A queue that 2^32 - 1 pushes filled is reported as an error, and neither the least
`int64_t` nor the largest `uint64_t` fits. -/
theorem not_qsize_reported :
    (∃ (q : BinlogQueue ℕ) (d : SeqDeque Bytes), Machine.Reachable mutate BinlogQueue.empty q ∧
      Rep q.db [97] d ∧ d.items.length = 4294967295 ∧
      ((qsize [97]).run binlogs (env 0 fun _ ↦ false) q).val.toInt = 4294967295 ∧
      ¬ SizeReported 4294967295
        ((procQsize [ascii "qsize", [97]]).run binlogs (env 0 fun _ ↦ false) q).val) ∧
    ¬ (Response.addText (-9223372036854775808)).length ≤ Response.addBufSize ∧
    ¬ (Response.addText 18446744073709551615).length ≤ Response.addBufSize := by
  refine ⟨?_, by decide +kernel, by decide +kernel⟩
  obtain ⟨q, d, hreach, hrep, hlen, -⟩ :=
    reachable_length (0 : ℕ) [97] [49] (n := 4294967295) (by decide)
  have hsize : ((qsize [97]).run binlogs (env 0 fun _ ↦ false) q).val.toInt = 4294967295 := by
    rw [GeminiDB.run_qsize, hrep.readSize, hlen]
    rfl
  have hstatus : int32 4294967295 = -1 := by decide +kernel
  refine ⟨q, d, hreach, hrep, hlen, hsize, fun hreport ↦ ?_⟩
  rw [run_procQsize, hsize, hstatus] at hreport
  exact absurd (hreport.1.mp rfl) (by decide)

/-! ## Pops -/

/-- `while(size-- > 0)` of `proc_qpop_func`; `item` is what the string holds. -/
def qpopLoop (side : Side) (name : Bytes) : ℕ → Bytes → Response → Handler Response
  | 0, _, resp => return resp
  | size + 1, item, resp => do
      let (ret, item) ← callPop side name item
      if ret ≤ 0 then return resp
      qpopLoop side name size item (resp ++ [item])

/-- The number of items that the request asks for. -/
def popCount (req : Request) : UInt64 := if req.length > 2 then strToUint64 (req.arg 2) else 1

def procQpopFunc (req : Request) (side : Side) : Handler Response :=
  if req.length < 2 then return wrongNumber
  else if popCount req = 1 then do
    let (ret, item) ← callPop side (req.arg 1) []
    return Response.replyGet [] ret item
  else qpopLoop side (req.arg 1) (popCount req).toNat [] [ascii "ok"]

def procQpopFront (req : Request) : Handler Response := procQpopFunc req .front

def procQpopBack (req : Request) : Handler Response := procQpopFunc req .back

def procQpop (req : Request) : Handler Response := procQpopFunc req .front

inductive PopCommand where
  | qpop
  | qpopFront
  | qpopBack
  deriving DecidableEq

namespace PopCommand

def handler : PopCommand → Request → Handler Response
  | qpop => procQpop
  | qpopFront => procQpopFront
  | qpopBack => procQpopBack

/-- The end the command pops from. -/
def side : PopCommand → Side
  | qpop => .front
  | qpopFront => .front
  | qpopBack => .back

theorem handler_eq (cmd : PopCommand) (req : Request) :
    cmd.handler req = procQpopFunc req cmd.side := by
  cases cmd <;> rfl

end PopCommand

/-- The reply to a request for `n` items that took `taken`. -/
def popReply (n : ℕ) (taken : List Bytes) : Response :=
  if n = 1 ∧ taken = [] then [ascii "not_found"] else ascii "ok" :: taken

section Run

variable {ι : Type} {q : BinlogQueue ι} {name : Bytes} {d : SeqDeque Bytes}

theorem length_ops_callPop (q : BinlogQueue ι) (name : Bytes) (side : Side) (item : Bytes)
    (e : ℕ → ι × (ℕ → Bool)) : ((callPop side name item).ops transactions e q).length = 1 := by
  cases side <;> rfl

theorem take_succ_view (side : Side) {found : Bytes} (hpeek : d.peek side = some found) (k : ℕ) :
    (side.view d.items).take (k + 1) = found :: (side.view (d.pop side).items).take k := by
  rw [peek_eq_head?] at hpeek
  obtain ⟨rest, hrest⟩ := List.head?_eq_some_iff.mp hpeek
  rw [view_pop, hrest, List.tail_cons, List.take_succ_cons]

/-- The loop stops at the first pop that finds no item or fails, and what it has
listed is what it has removed. -/
theorem Rep.qpopLoop (h : Rep q.db name d) (side : Side) (n : ℕ) (item : Bytes) (resp : Response)
    (e : ℕ → ι × (ℕ → Bool)) :
    let body := qpopLoop side name n item resp
    let r := body.run transactions e q
    ∃ k ≤ min n d.items.length, r.val = resp ++ (side.view d.items).take k ∧
      Contains r.state.db name (side.without k d.items) ∧
      (body.ops transactions e q).length ≤ k + 1 ∧
      (NoFailures e → k = min n d.items.length) := by
  induction n generalizing q d item resp e with
  | zero =>
      refine ⟨0, Nat.zero_le _, by simp [GeminiDB.qpopLoop], ⟨d, h, ?_⟩, Nat.zero_le _, by simp⟩
      simp [Side.without]
  | succ n ih =>
      obtain ⟨⟨⟨ret, found⟩, after⟩, hrun, hcases⟩ := h.callPop_cases side item e
      have hlen := length_ops_callPop q name side item e
      simp only [GeminiDB.qpopLoop, Prog.run_bind, Prog.ops_bind, hrun, List.length_append, hlen]
      rcases hcases with ⟨hstop, hsame, hwhy⟩ | ⟨item', hpeek, hval, hrep⟩
      · simp only at hstop hsame hwhy
        refine ⟨0, Nat.zero_le _, by simp [hstop], ⟨d, ?_, by simp [Side.without]⟩,
          by simp [hstop], fun hnone ↦ ?_⟩
        · simpa [hstop, hsame] using h
        · rcases hwhy with ⟨-, hfail⟩ | ⟨-, hnil⟩
          · exact absurd hnone hfail
          · simp [hnil]
      · obtain ⟨rfl, rfl⟩ := Prod.mk.inj hval
        have hpos : 0 < d.items.length :=
          List.length_pos_iff.mpr (items_ne_nil_of_peek hpeek)
        obtain ⟨k, hk, hreply, hcontains, hops, hall⟩ :=
          ih hrep found (resp ++ [found]) (later e)
        rw [length_pop] at hk hall
        refine ⟨k + 1, by omega, ?_, ?_, ?_, fun hnone ↦ ?_⟩
        · rw [take_succ_view side hpeek]
          simpa using hreply
        · rw [Side.without_succ]
          simpa using hcontains
        · simp only [show ¬ (1 : Int) ≤ 0 by decide, if_false] at hops ⊢
          omega
        · have := hall fun j ↦ hnone (j + 1)
          omega

/-- A request for `n` items takes `k` of them, one after another from its end, and
lists those, whatever fails on the way. -/
theorem Rep.procQpopFunc (h : Rep q.db name d) (side : Side) (cmd : Bytes) (args : List Bytes)
    (e : ℕ → ι × (ℕ → Bool)) :
    let req := cmd :: name :: args
    let n := (popCount req).toNat
    let body := procQpopFunc req side
    let r := body.run transactions e q
    ∃ k ≤ min n d.items.length,
      (body.ops transactions e q).length ≤ min n d.items.length + 1 ∧
      Contains r.state.db name (side.without k d.items) ∧
      ((r.val = popReply n ((side.view d.items).take k) ∧ (n = 1 → k = min n d.items.length)) ∨
        (r.val = [ascii "error"] ∧ n = 1 ∧ k = 0 ∧ ¬ NoFailures e)) ∧
      (NoFailures e → k = min n d.items.length) := by
  simp only
  have hname : Request.arg (cmd :: name :: args) 1 = name := rfl
  have hargs : ¬ (cmd :: name :: args).length < 2 := by simp
  rw [GeminiDB.procQpopFunc, if_neg hargs, hname]
  by_cases hone : popCount (cmd :: name :: args) = 1
  · obtain ⟨⟨⟨ret, found⟩, after⟩, hrun, hcases⟩ := h.callPop_cases side [] e
    have hlen := length_ops_callPop q name side [] e
    have hn : (popCount (cmd :: name :: args)).toNat = 1 := by rw [hone]; rfl
    rw [if_pos hone, hn]
    simp only [Prog.run_bind, Prog.ops_bind, hrun, List.length_append, hlen]
    rcases hcases with ⟨-, hsame, hwhy⟩ | ⟨item', hpeek, hval, hrep⟩
    · simp only at hsame hwhy
      refine ⟨0, Nat.zero_le _, by simp, ⟨d, by simpa [hsame] using h, by simp [Side.without]⟩,
        ?_, fun hnone ↦ ?_⟩
      · rcases hwhy with ⟨rfl, hfail⟩ | ⟨rfl, hnil⟩
        · exact .inr ⟨rfl, by simp, rfl, hfail⟩
        · exact .inl ⟨by simp [Response.replyGet, popReply], fun _ ↦ by simp [hnil]⟩
      · rcases hwhy with ⟨-, hfail⟩ | ⟨-, hnil⟩
        · exact absurd hnone hfail
        · simp [hnil]
    · obtain ⟨rfl, rfl⟩ := Prod.mk.inj hval
      have hpos : 0 < d.items.length :=
        List.length_pos_iff.mpr (items_ne_nil_of_peek hpeek)
      have htake := take_succ_view side hpeek 0
      refine ⟨1, by omega, by simp, ⟨_, hrep, ?_⟩, .inl ⟨?_, fun _ ↦ by omega⟩, fun _ ↦ by omega⟩
      · rw [Side.without_succ]
        simp [Side.without]
      · simp [htake, Response.replyGet, popReply]
  · have hn : (popCount (cmd :: name :: args)).toNat ≠ 1 := fun heq ↦
      hone (UInt64.toNat_inj.mp heq)
    obtain ⟨k, hk, hreply, hcontains, hops, hall⟩ :=
      h.qpopLoop side (popCount (cmd :: name :: args)).toNat [] [ascii "ok"] e
    rw [if_neg hone]
    refine ⟨k, hk, by omega, hcontains, .inl ⟨?_, fun heq ↦ absurd heq hn⟩, hall⟩
    rw [popReply, if_neg fun hand ↦ hn hand.1]
    exact hreply

end Run

/-- A pop request loses and repeats nothing: it takes `k` items from its end and
lists exactly these, as many as it asks for and the queue has unless an access to
leveldb fails. -/
def PopExact {ι : Type} (q : BinlogQueue ι) (cmd : PopCommand) (word name : Bytes)
    (args : List Bytes) (e : ℕ → ι × (ℕ → Bool)) : Prop :=
  let req := word :: name :: args
  let n := (popCount req).toNat
  let body := cmd.handler req
  let r := body.run transactions e q
  ∃ items, Contains q.db name items ∧
    (body.ops transactions e q).length ≤ min n items.length + 1 ∧
    (NoFailures e →
      r.val = popReply n ((cmd.side.view items).take (min n items.length)) ∧
        Contains r.state.db name (cmd.side.without (min n items.length) items)) ∧
    ∃ k ≤ min n items.length, Contains r.state.db name (cmd.side.without k items) ∧
      ((r.val = popReply n ((cmd.side.view items).take k) ∧ (n = 1 → k = min n items.length)) ∨
        (r.val = [ascii "error"] ∧ n = 1 ∧ k = 0))

theorem pop_exact {ι : Type} {q : BinlogQueue ι} (h : Machine.Reachable mutate BinlogQueue.empty q)
    (cmd : PopCommand) (word name : Bytes) (args : List Bytes) (e : ℕ → ι × (ℕ → Bool)) :
    PopExact q cmd word name args e := by
  obtain ⟨ds, hrep⟩ := queues_of_reachable h
  simp only [PopExact, cmd.handler_eq]
  obtain ⟨k, hk, hops, hcontains, hreply, hall⟩ :=
    (hrep name).procQpopFunc cmd.side word args e
  refine ⟨_, ⟨_, hrep name, rfl⟩, hops, fun hnone ↦ ?_, k, hk, hcontains, ?_⟩
  · rcases hreply with ⟨hval, -⟩ | ⟨-, -, -, hfail⟩
    · rw [hall hnone] at hval hcontains
      exact ⟨hval, hcontains⟩
    · exact absurd hnone hfail
  · exact hreply.imp id fun ⟨herr, hone, hzero, _⟩ ↦ ⟨herr, hone, hzero⟩

/-- Two items and a request for -1 of them, which is 2^64 - 1; the second commit
fails. -/
theorem pop_exact_negative : ∃ q : BinlogQueue ℕ,
    (q.db (encodeQitemKey [97] (qitemSeqInit + 1))).isSome ∧
      PopExact q .qpopBack (ascii "qpop_back") [97] [ascii "-1"]
        fun k ↦ (k, fun n ↦ k == 1 && n == 7) := by
  let calls : List (ℕ × Mutation × (ℕ → Bool)) :=
    [(0, .qpushBack [97] [49], fun _ ↦ false), (1, .qpushBack [97] [50], fun _ ↦ false)]
  have hrun : Machine.run mutate BinlogQueue.empty calls = some _ := rfl
  exact ⟨_, by decide, pop_exact (Machine.reachable_of_run hrun) .qpopBack _ [97] _ _⟩

/-! ## Pushes -/

/-- The loop of `proc_qpush_func`. -/
def qpushLoop (side : Side) (name : Bytes) : List Bytes → Int → Handler Response
  | [], size => return Response.replyInt [] 0 size
  | item :: items, _ => do
      let (size, _) ← callPush side name item
      if size = -1 then return [ascii "error"]
      qpushLoop side name items size

def procQpushFunc (req : Request) (side : Side) : Handler Response :=
  if req.length < 3 then return wrongNumber
  else qpushLoop side (req.arg 1) (req.drop 2) 0

def procQpushFront (req : Request) : Handler Response := procQpushFunc req .front

def procQpushBack (req : Request) : Handler Response := procQpushFunc req .back

def procQpush (req : Request) : Handler Response := procQpushFunc req .back

inductive PushCommand where
  | qpush
  | qpushFront
  | qpushBack
  deriving DecidableEq

namespace PushCommand

def handler : PushCommand → Request → Handler Response
  | qpush => procQpush
  | qpushFront => procQpushFront
  | qpushBack => procQpushBack

/-- The end the command pushes to. -/
def side : PushCommand → Side
  | qpush => .back
  | qpushFront => .front
  | qpushBack => .back

theorem handler_eq (cmd : PushCommand) (req : Request) :
    cmd.handler req = procQpushFunc req cmd.side := by
  cases cmd <;> rfl

end PushCommand

/-- The pushes of the items succeed one after another. -/
def PushesSucceed {ι : Type} (d : SeqDeque Bytes) (side : Side) (items : List Bytes)
    (e : ℕ → ι × (ℕ → Bool)) : Prop :=
  ∀ k < items.length,
    ¬ PushFails (d.pushAll qitemSeqInit.toNat side (items.take k)) side (e k).2

theorem pushesSucceed_cons {ι : Type} {d : SeqDeque Bytes} {side : Side} {item : Bytes}
    {items : List Bytes} {e : ℕ → ι × (ℕ → Bool)} :
    PushesSucceed d side (item :: items) e ↔ ¬ PushFails d side (e 0).2 ∧
      PushesSucceed (d.push qitemSeqInit.toNat item side) side items (later e) := by
  constructor
  · intro h
    exact ⟨h 0 (by simp), fun k hk ↦ h (k + 1) (by simpa using hk)⟩
  · rintro ⟨hfirst, hrest⟩ k hk
    cases k with
    | zero => exact hfirst
    | succ k => exact hrest k (by simpa using hk)

section Run

variable {ι : Type} {q : BinlogQueue ι} {name : Bytes} {d : SeqDeque Bytes}

/-- The loop adds all items, or those before the first one whose push fails. -/
theorem Rep.qpushLoop (h : Rep q.db name d) (side : Side) (items : List Bytes) (size : Int)
    (e : ℕ → ι × (ℕ → Bool)) :
    let r := (qpushLoop side name items size).run transactions e q
    (PushesSucceed d side items e ∧ Contains r.state.db name (side.extend items d.items) ∧
      r.val = Response.replyInt [] 0
        (if items = [] then size else ((d.items.length + items.length : ℕ) : Int))) ∨
    (r.val = [ascii "error"] ∧ ∃ k < items.length,
      (k = 0 ↔ PushFails d side (e 0).2) ∧ ¬ PushesSucceed d side items e ∧
        Contains r.state.db name (side.extend (items.take k) d.items)) := by
  induction items generalizing q d size e with
  | nil =>
      refine .inl ⟨fun k hk ↦ absurd hk (Nat.not_lt_zero k), ⟨d, h, ?_⟩, ?_⟩
      · simp [Side.extend]
      · simp [GeminiDB.qpushLoop]
  | cons item items ih =>
      obtain ⟨⟨⟨size', found⟩, after⟩, hrun, hcases⟩ := h.callPush_cases side item e
      simp only [GeminiDB.qpushLoop, Prog.run_bind, hrun, pushesSucceed_cons]
      split at hcases
      · next hfail =>
        obtain ⟨rfl, hsame⟩ := hcases
        simp only at hsame
        refine .inr ⟨by simp, 0, by simp, by simp [hfail], fun hand ↦ hand.1 hfail, d, ?_, ?_⟩
        · simpa [hsame] using h
        · simp [Side.extend]
      · next hfail =>
        obtain ⟨hsize, hrep⟩ := hcases
        simp only at hsize
        have hpos : size' ≠ -1 := by omega
        simp only [hpos, if_false]
        rcases ih hrep size' (later e) with
          ⟨hall, hcontains, hval⟩ | ⟨hval, k, hk, -, hnot, hcontains⟩
        · rw [extend_push] at hcontains
          refine .inl ⟨⟨hfail, hall⟩, hcontains, ?_⟩
          rw [hval, length_push, hsize]
          congr 1
          split
          · next hnil => simp [hnil]
          · simp only [reduceCtorEq, if_false, List.length_cons]
            omega
        · rw [extend_push] at hcontains
          refine .inr ⟨hval, k + 1, by simpa using hk, ?_, fun hand ↦ hnot hand.2, hcontains⟩
          simp [hfail]

end Run

/-- For the client a push request adds all of its items or none. -/
def AllOrNothing (side : Side) (name : Bytes) (items : List Bytes) (before after : Store)
    (reply : Response) : Prop :=
  ∃ old, Contains before name old ∧
    ((reply = [ascii "error"] ∧ Contains after name old) ∨
      (reply = [ascii "ok", intBytes (side.extend items old).length] ∧
        Contains after name (side.extend items old)))

/-- Whatever fails, a push request adds all or nothing just when no push fails or
already the first one does. -/
theorem push_all_or_nothing_iff {ι : Type} {q : BinlogQueue ι}
    (h : Machine.Reachable mutate BinlogQueue.empty q) (cmd : PushCommand) (word name item : Bytes)
    (items : List Bytes) (e : ℕ → ι × (ℕ → Bool)) :
    let r := (cmd.handler (word :: name :: item :: items)).run transactions e q
    ∃ d, Rep q.db name d ∧
      (AllOrNothing cmd.side name (item :: items) q.db r.state.db r.val ↔
        PushFails d cmd.side (e 0).2 ∨ PushesSucceed d cmd.side (item :: items) e) := by
  obtain ⟨ds, hall⟩ := queues_of_reachable h
  have hrep := hall name
  refine ⟨ds name, hrep, ?_⟩
  have hargs : ¬ (word :: name :: item :: items).length < 3 := by simp
  rw [cmd.handler_eq, procQpushFunc, if_neg hargs]
  change AllOrNothing _ _ _ _ ((GeminiDB.qpushLoop cmd.side name (item :: items) 0).run
    transactions e q).state.db _ ↔ _
  rcases hrep.qpushLoop cmd.side (item :: items) 0 e with
    ⟨hpushes, hafter, hval⟩ | ⟨hval, k, hk, hzero, hnot, hafter⟩
  · refine iff_of_true ⟨_, ⟨_, hrep, rfl⟩, .inr ⟨?_, hafter⟩⟩ (.inr hpushes)
    rw [Side.length_extend]
    exact hval
  · rw [or_iff_left hnot, ← hzero]
    have herror : ascii "error" ≠ ascii "ok" := by decide
    constructor
    · rintro ⟨old, hold, ⟨-, hsame⟩ | ⟨hok, -⟩⟩
      · obtain rfl := hold.unique ⟨_, hrep, rfl⟩
        have hlen := congrArg List.length (hafter.unique hsame)
        rw [Side.length_extend, List.length_take] at hlen
        omega
      · exact absurd (hval.symm.trans hok) (by simp)
    · rintro rfl
      exact ⟨_, ⟨_, hrep, rfl⟩, .inl ⟨hval, by simpa [Side.extend] using hafter⟩⟩

theorem push_all_or_nothing_iff_first :
    let r := (procQpush [ascii "qpush", [97], [49], [50]]).run transactions
      (fun k ↦ (k, fun _ ↦ true)) (BinlogQueue.empty : BinlogQueue ℕ)
    AllOrNothing .back [97] [[49], [50]] (BinlogQueue.empty : BinlogQueue ℕ).db r.state.db
      r.val := by
  obtain ⟨d, -, hiff⟩ := push_all_or_nothing_iff
    (Machine.Reachable.refl mutate (BinlogQueue.empty : BinlogQueue ℕ)) .qpush (ascii "qpush")
    [97] [49] [[50]] fun k ↦ (k, fun _ ↦ true)
  exact hiff.mpr (.inl (.inr (.inr (.inl rfl))))

/-- The second of two commits fails: the reply is `error`, the first item stays. -/
theorem not_push_all_or_nothing :
    let r := (procQpush [ascii "qpush", [97], [49], [50]]).run transactions
      (fun k ↦ (k, fun n ↦ k == 1 && n == 5)) (BinlogQueue.empty : BinlogQueue ℕ)
    ¬ AllOrNothing .back [97] [[49], [50]] (BinlogQueue.empty : BinlogQueue ℕ).db r.state.db
      r.val := by
  intro r
  have hval : r.val = [ascii "error"] := by decide +kernel
  rintro ⟨old, hold, ⟨-, hsame⟩ | ⟨hok, -⟩⟩
  · obtain rfl := hold.unique ⟨_, rep_empty [97], rfl⟩
    obtain ⟨d, hd, hnil⟩ := hsame
    have hsize := hd.size
    rw [hnil] at hsize
    exact absurd hsize (by decide +kernel)
  · exact absurd (hval.symm.trans hok) (by simp)

end GeminiDB
