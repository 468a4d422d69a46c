import GeminiDB.Serv.Linear

/-!
# What a `get` returns

The plain keys of the database are decided by the edits that the requests ask for. A
`get` returns what somebody has asked to store, and when no other write of its key is
under way it returns the value that was stored last.
-/

namespace GeminiDB

open Program WriteBatch

/-! ## Edits -/

/-- What a mutating call does to plain keys. -/
def Mutation.edits : Mutation → List (Edit Bytes Bytes)
  | .set key val => if key.isEmpty then [] else [.put key val]
  | .del key => [.delete key]
  | .multiSet kvs offset =>
      if (pairs (kvs.drop offset)).all fun p ↦ !p.1.isEmpty then
        (pairs (kvs.drop offset)).map fun p ↦ .put p.1 p.2
      else []
  | .multiDel keys offset => (keys.drop offset).map .delete
  | _ => []

def ApiCall.edits : ApiCall → List (Edit Bytes Bytes)
  | .mutate m => m.edits
  | _ => []

def Moment.edits : Moment → List (Edit Bytes Bytes)
  | .read _ => []
  | .mutate m => m.edits

/-- A moment that fails edits nothing. -/
def Event.edits : Event → List (Edit Bytes Bytes)
  | .moment _ m none => m.edits
  | _ => []

/-- The edits that a request asks for. -/
def Request.edits (req : Request) : List (Edit Bytes Bytes) :=
  match (procMap.getProc (req.headD [])).map ProcMap.Entry.proc with
  | some .procSet => (Mutation.set (req.arg 1) (req.arg 2)).edits
  | some .procDel => (Mutation.del (req.arg 1)).edits
  | some .procMultiSet => (Mutation.multiSet req 1).edits
  | some .procMultiDel => (Mutation.multiDel req 1).edits
  | _ => []

theorem mutate_kv (m : Mutation) (d : Database) : (d.mutate m).2.kv = apply d.kv m.edits := by
  cases m with
  | set key val =>
      rw [Database.mutate, Mutation.edits]
      split <;> rfl
  | multiSet kvs offset =>
      rw [Database.mutate, Mutation.edits]
      split <;> rfl
  | del key => rfl
  | multiDel keys offset => rfl
  | qpushFront name item => rfl
  | qpushBack name item => rfl
  | qpopFront name item => rfl
  | qpopBack name item => rfl

theorem Event.apply_kv (e : Event) (d : Database) :
    (e.apply d).kv = WriteBatch.apply d.kv e.edits := by
  cases e with
  | request id req => rfl
  | reply id req resp => rfl
  | moment id m x =>
      cases m with
      | read slot => cases x <;> rfl
      | mutate m =>
          cases x with
          | none => exact mutate_kv m d
          | some junk => rfl

/-- The plain keys after a log are what its edits have made of them. -/
theorem replay_kv (log : List Event) (d : Database) :
    (replay log d).kv = apply d.kv (log.flatMap Event.edits) := by
  induction log generalizing d with
  | nil => rfl
  | cons e log ih =>
      rw [List.flatMap_cons, apply_append, ← Event.apply_kv]
      exact ih (e.apply d)

section Handlers

/-- The calls of a queue handler edit no plain key. -/
abbrev Plainless (h : Handler Response) : Prop := h.All fun m ↦ m.edits = []

theorem plainless_qpushLoop (side : SeqDeque.Side) (name : Bytes) (items : List Bytes)
    (size : Int) : Plainless (qpushLoop side name items size) := by
  induction items generalizing size with
  | nil => trivial
  | cons item items ih =>
      have hrest (r : Int × Bytes) : Plainless
          (if r.1 = -1 then .ret [ascii "error"] else qpushLoop side name items r.1) := by
        split
        · trivial
        · exact ih _
      cases side <;> exact ⟨rfl, hrest⟩

theorem plainless_qpopLoop (side : SeqDeque.Side) (name : Bytes) (size : ℕ) (item : Bytes)
    (resp : Response) : Plainless (qpopLoop side name size item resp) := by
  induction size generalizing item resp with
  | zero => trivial
  | succ size ih =>
      have hrest (r : Int × Bytes) : Plainless
          (if r.1 ≤ 0 then .ret resp else qpopLoop side name size r.2 (resp ++ [r.2])) := by
        split
        · trivial
        · exact ih _ _
      cases side <;> exact ⟨rfl, hrest⟩

theorem plainless_procQpushFunc (req : Request) (side : SeqDeque.Side) :
    Plainless (procQpushFunc req side) := by
  rw [procQpushFunc]
  split
  · trivial
  · exact plainless_qpushLoop ..

theorem plainless_procQpopFunc (req : Request) (side : SeqDeque.Side) :
    Plainless (procQpopFunc req side) := by
  rw [procQpopFunc]
  split
  · trivial
  · split
    · cases side <;> exact ⟨rfl, fun _ ↦ trivial⟩
    · exact plainless_qpopLoop ..

/-- What a handler edits is what its request asks for. -/
theorem handler_edits (r : Report) (req : Request) :
    (handler r req).All fun c ↦ c.edits = [] ∨ c.edits = req.edits := by
  have hreads {p : Api (Option Response)} (hp : p.All ApiCall.Reads) :
      p.All fun c ↦ c.edits = [] ∨ c.edits = req.edits := by
    refine hp.mono fun c hc ↦ .inl ?_
    cases c with
    | mutate m => exact hc.elim
    | _ => rfl
  have hqueue {h : Handler Response} (hh : Plainless h) :
      (Api.ofHandler h).All fun c ↦ c.edits = [] ∨ c.edits = req.edits := by
    refine .bind (.expand (P := fun m ↦ m.edits = []) _ (fun m hm ↦ ?_) hh) fun _ ↦ trivial
    exact ⟨.inl hm, fun _ ↦ trivial⟩
  rw [handler]
  cases hcmd : procMap.getProc (req.headD []) with
  | none => trivial
  | some cmd =>
      dsimp only
      cases hproc : cmd.proc with
      | procSet =>
          have hedits : req.edits = (Mutation.set (req.arg 1) (req.arg 2)).edits := by
            rw [Request.edits, hcmd, Option.map_some, hproc]
          exact Proc.all_checkParams ⟨.inr hedits.symm, fun _ ↦ trivial⟩
      | procDel =>
          have hedits : req.edits = (Mutation.del (req.arg 1)).edits := by
            rw [Request.edits, hcmd, Option.map_some, hproc]
          exact Proc.all_checkParams ⟨.inr hedits.symm, fun _ ↦ trivial⟩
      | procMultiSet =>
          have hedits : req.edits = (Mutation.multiSet req 1).edits := by
            rw [Request.edits, hcmd, Option.map_some, hproc]
          rw [Proc.api, Api.procMultiSet]
          split
          · trivial
          · exact ⟨.inr hedits.symm, fun _ ↦ trivial⟩
      | procMultiDel =>
          have hedits : req.edits = (Mutation.multiDel req 1).edits := by
            rw [Request.edits, hcmd, Option.map_some, hproc]
          exact Proc.all_checkParams ⟨.inr hedits.symm, fun _ ↦ trivial⟩
      | procQpush => exact hqueue (plainless_procQpushFunc req .back)
      | procQpushFront => exact hqueue (plainless_procQpushFunc req .front)
      | procQpushBack => exact hqueue (plainless_procQpushFunc req .back)
      | procQpop => exact hqueue (plainless_procQpopFunc req .front)
      | procQpopFront => exact hqueue (plainless_procQpopFunc req .front)
      | procQpopBack => exact hqueue (plainless_procQpopFunc req .back)
      | _ => exact hreads (Proc.all_reads rfl r req)

/-- The same, moment by moment. -/
theorem moments_edits (r : Report) (req : Request) :
    (moments (handler r req)).All fun m ↦ m.edits = [] ∨ m.edits = req.edits := by
  refine .expand (P := fun c : ApiCall ↦ c.edits = [] ∨ c.edits = req.edits) _ (fun c hc ↦ ?_)
    (handler_edits r req)
  have hpeek (name item : Bytes) (side : SeqDeque.Side) :
      (ApiCall.peekMoments name item side).All fun m ↦ m.edits = [] ∨ m.edits = req.edits := by
    refine ⟨.inl rfl, fun r ↦ ?_⟩
    dsimp only
    split
    · trivial
    · split
      · trivial
      · exact ⟨.inl rfl, fun _ ↦ trivial⟩
  cases c with
  | get key => exact ⟨.inl rfl, fun _ ↦ trivial⟩
  | qsize name => exact ⟨.inl rfl, fun _ ↦ trivial⟩
  | qfront name item => exact hpeek name item .front
  | qback name item => exact hpeek name item .back
  | mutate m => exact ⟨hc, fun _ ↦ trivial⟩

end Handlers

/-! ## Requests under way -/

/-- What an event does to the request of a link that has no reply yet. -/
def Event.track (id : ℕ) (o : Option Request) : Event → Option Request
  | .request i req => if i = id then some req else o
  | .reply i _ _ => if i = id then none else o
  | .moment _ _ _ => o

/-- The request of a link that has no reply yet. -/
def underWay (id : ℕ) (log : List Event) : Option Request := log.foldl (Event.track id) none

theorem track_filter (id : ℕ) (log : List Event) (o : Option Request) :
    (log.filter Event.visible).foldl (Event.track id) o = log.foldl (Event.track id) o := by
  induction log generalizing o with
  | nil => rfl
  | cons e log ih => cases e <;> exact ih _

theorem track_silent {id : ℕ} {log : List Event} (o : Option Request)
    (h : ∀ e ∈ log, e.visible = true → e.link ≠ id) : log.foldl (Event.track id) o = o := by
  induction log generalizing o with
  | nil => rfl
  | cons e log ih =>
      have hone : e.track id o = o := by
        have he := h e List.mem_cons_self
        cases e with
        | moment i m x => rfl
        | request i req => exact if_neg (he rfl)
        | reply i req resp => exact if_neg (he rfl)
      rw [List.foldl_cons, hone]
      exact ih o fun e' he' ↦ h e' (List.mem_cons_of_mem _ he')

/-- A moment belongs to a request that is under way, and edits what that asks for. -/
theorem Explained.under_way {log before after : List Event} (h : Explained log) {id : ℕ}
    {m : Moment} {x : Option Bytes} (hlog : log = before ++ .moment id m x :: after) :
    ∃ req, .request id req ∈ before ∧ underWay id (before.filter Event.visible) = some req ∧
      (m.edits = [] ∨ m.edits = req.edits) := by
  obtain ⟨a, req, b, r, next, rfl, hfollows⟩ := h.moment hlog
  refine ⟨req, by simp, ?_, (hfollows.all (moments_edits r req)).1⟩
  rw [underWay, track_filter, List.foldl_append, List.foldl_cons]
  refine (track_silent _ hfollows.silent).trans ?_
  exact if_pos rfl

/-- The edits of a log are those of requests in it. -/
theorem Explained.edit_asked {log a b : List Event} (h : Explained log) (hlog : log = a ++ b)
    {e : Edit Bytes Bytes} (he : e ∈ a.flatMap Event.edits) :
    ∃ id req, .request id req ∈ a ∧ e ∈ req.edits := by
  obtain ⟨ev, hev, hedit⟩ := List.mem_flatMap.mp he
  obtain ⟨a₁, a₂, rfl⟩ := List.append_of_mem hev
  cases ev with
  | request => cases hedit
  | reply => cases hedit
  | moment id m x =>
      cases x with
      | some junk => cases hedit
      | none =>
          rw [List.append_assoc, List.cons_append] at hlog
          obtain ⟨req, hreq, -, hnone | hsame⟩ := h.under_way hlog
          · rw [Event.edits, hnone] at hedit
            cases hedit
          · exact ⟨id, req, List.mem_append_left _ hreq, hsame ▸ hedit⟩

/-! ## The moment of a `get` -/

/-- A request to `get` the key; what follows the key is ignored. -/
structure Request.Gets (req : Request) (key : Bytes) : Prop where
  name : req.headD [] = ascii "get"
  params : 2 ≤ req.length
  key : req.arg 1 = key

/-- A request to `set` the key to the value; what follows them is ignored. -/
structure Request.Sets (req : Request) (key val : Bytes) : Prop where
  name : req.headD [] = ascii "set"
  params : 3 ≤ req.length
  key : req.arg 1 = key
  val : req.arg 2 = val

theorem handler_of_proc {req : Request} {name : Bytes} {proc : Proc} (r : Report)
    (hname : req.headD [] = name)
    (h : (procMap.getProc name).map ProcMap.Entry.proc = some proc) :
    handler r req = proc.api r req := by
  obtain ⟨cmd, hcmd, rfl⟩ := Option.map_eq_some_iff.mp h
  rw [handler, hname, hcmd]

theorem handler_get {req : Request} {key : Bytes} (r : Report) (hget : req.Gets key) :
    handler r req = .call (.get key) fun r ↦ .ret (some (Response.replyGet [] r.1 r.2)) := by
  have hproc : (procMap.getProc (ascii "get")).map ProcMap.Entry.proc = some .procGet := by
    decide +kernel
  rw [handler_of_proc r hget.name hproc]
  change Api.procGet req = _
  rw [Api.procGet, checkParams, if_neg (not_lt.mpr hget.params), hget.key]
  rfl

theorem handler_set {req : Request} {key val : Bytes} (r : Report) (hset : req.Sets key val) :
    handler r req = .call (.mutate (.set key val)) fun r ↦
      .ret (some (if r.1 = -1 then [ascii "error"] else [ascii "ok", ascii "1"])) := by
  have hproc : (procMap.getProc (ascii "set")).map ProcMap.Entry.proc = some .procSet := by
    decide +kernel
  rw [handler_of_proc r hset.name hproc]
  change Api.procSet req = _
  rw [Api.procSet, checkParams, if_neg (not_lt.mpr hset.params), hset.key, hset.val]
  rfl

/-- The reply to a `get` that reads a slot. -/
def readReply (r : GetResult) : Response :=
  Response.replyGet [] (readItem [] r).1 (readItem [] r).2

theorem ok_of_readReply {r : GetResult} {val : Bytes} (h : readReply r = [ascii "ok", val]) :
    r = .ok val := by
  cases r with
  | ok found =>
      obtain ⟨-, hrest⟩ := List.cons.inj h
      exact congrArg GetResult.ok (List.singleton_inj.mp hrest)
  | notFound => cases congrArg List.length h
  | error => cases congrArg List.length h

/-- A reply to a `get` says what is in the database at a moment between request and reply. -/
theorem Explained.get_moment {log before after : List Event} (h : Explained log) {id : ℕ}
    {req : Request} {key : Bytes} {resp : Response} (hget : req.Gets key)
    (hlog : log = before ++ .reply id req resp :: after) :
    ∃ a b x c, before = (a ++ .request id req :: b) ++ .moment id (.read (.kv key)) x :: c ∧
      (∀ e ∈ c, e.link ≠ id) ∧
        resp = readReply (Database.moments.exec (.read (.kv key)) x
          (replay (a ++ .request id req :: b) .empty)).1 := by
  obtain ⟨a, b, r, rfl, hfollows⟩ := h.reply hlog
  rw [handler_get r hget] at hfollows
  obtain ⟨b, x, c, rfl, -, hrest⟩ := hfollows.call
  refine ⟨a, b, x, c, by simp, hrest.ret_apart, ?_⟩
  rw [replay_append]
  exact (Option.some.inj hrest.ret).symm

/-- Two ways to cut a list: the second point is not in what comes before the first one. -/
theorem cut {α : Type*} {x y : α} {l₁ l₂ r₁ r₂ : List α} (h : l₁ ++ x :: r₁ = l₂ ++ y :: r₂)
    (hne : x ≠ y) (hy : y ∉ l₁ ∨ x ∉ r₂) : ∃ m, r₁ = m ++ y :: r₂ ∧ l₂ = l₁ ++ x :: m := by
  rcases List.append_eq_append_iff.mp h with ⟨m, rfl, hrest⟩ | ⟨m, rfl, hrest⟩
  · cases m with
    | nil => exact absurd (List.cons.inj hrest).1 hne
    | cons z m =>
        obtain ⟨rfl, rfl⟩ := List.cons.inj hrest
        exact ⟨m, rfl, rfl⟩
  · cases m with
    | nil => exact absurd (List.cons.inj hrest).1.symm hne
    | cons z m =>
        obtain ⟨rfl, rfl⟩ := List.cons.inj hrest
        rcases hy with hy | hx
        · exact absurd (by simp) hy
        · exact absurd (by simp) hx

/-- A point of the visible log is a point of the log. -/
theorem point_of_visible {log l r : List Event} {e : Event}
    (h : log.filter Event.visible = l ++ e :: r) :
    ∃ l' r', log = l' ++ e :: r' ∧ l'.filter Event.visible = l ∧ r'.filter Event.visible = r := by
  obtain ⟨l₁, l₂, rfl, rfl, hrest⟩ := List.filter_eq_append_iff.mp h
  obtain ⟨m, r', rfl, hm, -, rfl⟩ := List.filter_eq_cons_iff.mp hrest
  refine ⟨l₁ ++ m, r', by simp, ?_, rfl⟩
  rw [List.filter_append, List.filter_eq_nil_iff.mpr hm, List.append_nil]

/-- A `get` that finds a value finds one that a request before its reply has asked to store
under the key. -/
theorem System.got_was_put {fds : Descriptors} {strict : Bool} {s : System}
    (h : s.Reached fds strict) {a b : List Event} {id : ℕ} {get : Request} {key val : Bytes}
    (hget : get.Gets key) (hlog : s.log = a ++ .reply id get [ascii "ok", val] :: b) :
    ∃ i req, .request i req ∈ a ∧ .put key val ∈ req.edits := by
  obtain ⟨t, hreached, hrefines⟩ := refines_reached h
  have hexplained := hreached.traced.explained
  obtain ⟨l, r, hfull, hl, -⟩ := point_of_visible (hrefines.log.trans hlog)
  obtain ⟨a', b', x, c, rfl, -, hreply⟩ := hexplained.get_moment hget hfull
  have hdb : (replay (a' ++ .request id get :: b') .empty).kv key = some val := by
    have hread := ok_of_readReply hreply.symm
    cases x with
    | some junk => cases hread
    | none =>
        generalize replay (a' ++ .request id get :: b') .empty = d at hread ⊢
        change (d.kv key).elim GetResult.notFound GetResult.ok = .ok val at hread
        cases hkv : d.kv key with
        | none =>
            rw [hkv] at hread
            cases hread
        | some found =>
            rw [hkv] at hread
            exact congrArg some (GetResult.ok.inj hread)
  rw [replay_kv, apply_eq_lastEdit] at hdb
  obtain ⟨e, hlast, hresult⟩ : ∃ e, lastEdit key
      ((a' ++ .request id get :: b').flatMap Event.edits) = some e ∧
        e.result = some val := by
    cases hlast : lastEdit key
        ((a' ++ .request id get :: b').flatMap Event.edits) with
    | none =>
        rw [hlast] at hdb
        cases hdb
    | some e =>
        rw [hlast] at hdb
        exact ⟨e, rfl, hdb⟩
  have hmem := List.mem_reverse.mp (List.mem_of_find?_eq_some hlast)
  have hkey : e.key = key := by simpa using List.find?_some hlast
  have hsplit : t.log = (a' ++ .request id get :: b') ++
      (.moment id (.read (.kv key)) x :: c ++
        .reply id get [ascii "ok", val] :: r) :=
    hfull.trans (by simp)
  obtain ⟨i, req, hreq, hedit⟩ := hexplained.edit_asked hsplit hmem
  refine ⟨i, req, ?_, ?_⟩
  · rw [← hl]
    exact List.mem_filter.mpr ⟨List.mem_append_left _ hreq, rfl⟩
  · cases e with
    | put k v =>
        cases hkey
        cases hresult
        exact hedit
    | delete k => cases hresult

theorem System.got_was_put_run : ∃ s : System, s.Reached smallFds true ∧ s.log = setThenGetLog ∧
    ∃ i req, .request i req ∈ setThenGetLog.take 3 ∧
      .put (ascii "x") (ascii "7") ∈ Request.edits req := by
  obtain ⟨s, hreached, hlog⟩ := setThenGet_reached
  have hget : Request.Gets [ascii "get", ascii "x"] (ascii "x") := ⟨rfl, le_rfl, rfl⟩
  exact ⟨s, hreached, hlog, System.got_was_put hreached (b := []) hget (hlog.trans rfl)⟩

/-- The request asks for an edit of the key. -/
def Request.Touches (req : Request) (key : Bytes) : Prop := ∃ e ∈ req.edits, e.key = key

/-- A reply to a `set` that does not fail comes after a moment that stores the value. -/
theorem Explained.set_moment {log before after : List Event} (h : Explained log) {id : ℕ}
    {req : Request} {key val : Bytes} {resp : Response} (hset : req.Sets key val)
    (hlog : log = before ++ .reply id req resp :: after) :
    ∃ a b x c, before = (a ++ .request id req :: b) ++
        .moment id (.mutate (.set key val)) x :: c ∧ ∀ e ∈ c, e.link ≠ id := by
  obtain ⟨a, b, r, rfl, hfollows⟩ := h.reply hlog
  rw [handler_set r hset] at hfollows
  obtain ⟨b, x, c, rfl, -, hrest⟩ := hfollows.call
  exact ⟨a, b, x, c, by simp, hrest.ret_apart⟩

/-- Events that do not touch a key keep its value. -/
theorem replay_kv_of_untouched {log : List Event} {key : Bytes} (d : Database)
    (h : ∀ e ∈ log, ∀ edit ∈ e.edits, edit.key ≠ key) : (replay log d).kv key = d.kv key := by
  rw [replay_kv]
  refine apply_of_forall_ne fun edit hedit ↦ ?_
  obtain ⟨e, he, hmem⟩ := List.mem_flatMap.mp hedit
  exact h e he edit hmem

/-- A value that was stored stays while no request that touches the key is under way. -/
theorem Explained.stays {log before seg after : List Event} (h : Explained log) {key : Bytes}
    (hlog : log = before ++ (seg ++ after)) (d : Database)
    (hquiet : ∀ s₁ i m x s₂, seg = s₁ ++ .moment i m x :: s₂ → ∀ req,
      underWay i ((before ++ s₁).filter Event.visible) = some req → ¬ req.Touches key) :
    (replay seg d).kv key = d.kv key := by
  refine replay_kv_of_untouched d fun e he edit hedit hkey ↦ ?_
  obtain ⟨s₁, s₂, rfl⟩ := List.append_of_mem he
  cases e with
  | request => cases hedit
  | reply => cases hedit
  | moment i m x =>
      cases x with
      | some junk => cases hedit
      | none =>
          have hsplit : log = (before ++ s₁) ++ .moment i m none :: (s₂ ++ after) :=
            hlog.trans (by simp)
          obtain ⟨req, -, hunder, hnone | hsame⟩ := h.under_way hsplit
          · rw [Event.edits, hnone] at hedit
            cases hedit
          · exact hquiet s₁ i m none s₂ rfl req hunder ⟨edit, hsame ▸ hedit, hkey⟩

/-- A `get` that is asked after the reply to a `set` of its key, which is not empty, returns
the value of the `set`, unless another request that touches the key is under way after that
was asked. -/
theorem System.get_after_set {fds : Descriptors} {s : System} (h : s.Reached fds true)
    {a b c d e : List Event} {j id : ℕ} {set get : Request} {key val : Bytes}
    {done resp : Response} (hset : set.Sets key val) (hget : get.Gets key) (hkey : key ≠ [])
    (hlog : s.log = a ++ .request j set :: (b ++ .reply j set done ::
      (c ++ .request id get :: (d ++ .reply id get resp :: e))))
    (hquiet : ∀ l, a ++ [.request j set] <+: l →
      l <+: a ++ .request j set :: (b ++ .reply j set done :: (c ++ .request id get :: d)) →
      ∀ i req, underWay i l = some req → req.Touches key →
        i = j ∧ l <+: a ++ .request j set :: b) :
    resp = [ascii "ok", val] := by
  obtain ⟨t, hreached, hrefines⟩ := refines_reached h
  have htraced := hreached.traced
  have hexplained := htraced.explained
  obtain ⟨A, F₁, hF₁, rfl, hf₁⟩ := point_of_visible (hrefines.log.trans hlog)
  obtain ⟨B, F₂, rfl, rfl, hf₂⟩ := point_of_visible hf₁
  obtain ⟨C, F₃, rfl, rfl, hf₃⟩ := point_of_visible hf₂
  obtain ⟨D, E, rfl, rfl, -⟩ := point_of_visible hf₃
  -- where the value is stored
  have hdone : t.log = (A ++ .request j set :: B) ++
      .reply j set done ::
        (C ++ .request id get :: (D ++ .reply id get resp :: E)) :=
    hF₁.trans (by simp)
  obtain ⟨a₁, b₁, x, B₂, hstore, hB₂⟩ := hexplained.set_moment hset hdone
  obtain ⟨B₁, rfl, hbefore⟩ := cut hstore (by simp) (.inr fun hmem ↦ hB₂ _ hmem rfl)
  have hmem : .moment j (.mutate (.set key val)) x ∈ t.log := by
    rw [hF₁]
    simp
  obtain rfl : x = none := htraced.admitted hmem rfl
  -- where it is read
  have hreply : t.log = (A ++ .request j set ::
      (B₁ ++ .moment j (.mutate (.set key val)) none :: B₂) ++
        .reply j set done :: C ++ .request id get :: D) ++
          .reply id get resp :: E :=
    hF₁.trans (by simp)
  obtain ⟨a₂, b₂, y, D₂, hload, hD₂, hresp⟩ := hexplained.get_moment hget hreply
  obtain ⟨D₁, rfl, hread⟩ := cut hload (by simp) (.inr fun hmem ↦ hD₂ _ hmem rfl)
  have hmem : .moment id (.read (.kv key)) y ∈ t.log := by
    rw [hF₁]
    simp
  obtain rfl : y = none := htraced.admitted hmem rfl
  -- what happens in between
  have hstored : t.log = (A ++ .request j set ::
      (B₁ ++ [.moment j (.mutate (.set key val)) none])) ++
        ((B₂ ++ .reply j set done ::
          (C ++ .request id get :: D₁)) ++
            (.moment id (.read (.kv key)) none :: D₂ ++
              .reply id get resp :: E)) :=
    hF₁.trans (by simp)
  have hstays (d : Database) : (replay (B₂ ++ .reply j set done ::
      (C ++ .request id get :: D₁)) d).kv key = d.kv key := by
    refine hexplained.stays hstored d fun s₁ i m x s₂ hseg req hunder htouches ↦ ?_
    generalize hl : (A ++ Event.request j set ::
      (B₁ ++ [.moment j (.mutate (.set key val)) none])) ++ s₁ = l at hunder
    have hafter : A.filter Event.visible ++ [.request j set] <+:
        l.filter Event.visible := by
      rw [← hl]
      exact ⟨B₁.filter Event.visible ++ s₁.filter Event.visible,
        by simp [List.filter_cons, Event.visible]⟩
    have hwhole : l ++ (.moment i m x :: s₂ ++ .moment id (.read (.kv key)) none :: D₂) =
        A ++ .request j set ::
          ((B₁ ++ .moment j (.mutate (.set key val)) none :: B₂) ++
            .reply j set done :: (C ++ .request id get ::
              (D₁ ++ .moment id (.read (.kv key)) none :: D₂))) := by
      rw [← hl, List.append_assoc, ← List.append_assoc s₁, ← hseg]
      simp
    have hbefore := List.IsPrefix.filter Event.visible ⟨_, hwhole⟩
    obtain ⟨rfl, hprefix⟩ := hquiet _ hafter
      (by simpa [List.filter_cons, Event.visible] using hbefore) i req hunder htouches
    -- the link of the `set` has no moment before its reply
    have hnot : .moment i m x ∉ B₂ := fun hmem ↦ hB₂ _ hmem rfl
    obtain ⟨m', -, rfl⟩ := cut hseg (by simp) (.inl hnot)
    have hlength := hprefix.length_le
    rw [← hl] at hlength
    simp [List.filter_cons, Event.visible] at hlength
  have hkv : (replay (a₂ ++ .request id get :: b₂) .empty).kv key = some val := by
    have hsplit : a₂ ++ .request id get :: b₂ =
        (A ++ .request j set :: B₁) ++
          (.moment j (.mutate (.set key val)) none :: (B₂ ++ .reply j set done ::
            (C ++ .request id get :: D₁))) :=
      hread.trans (by simp)
    rw [hsplit, replay_append]
    refine (hstays _).trans ?_
    have hempty : key.isEmpty = false := by simpa using hkey
    rw [Event.apply_kv, Event.edits, Moment.edits, Mutation.edits, hempty]
    exact Function.update_self ..
  rw [hresp]
  change readReply (((replay _ _).kv key).elim .notFound .ok) = _
  rw [hkv]
  rfl

theorem System.get_after_set_run : ∃ s : System, s.Reached smallFds true ∧ s.log = setThenGetLog ∧
    ∀ resp, s.log.getLast? = some (.reply 5 [ascii "get", ascii "x"] resp) →
      resp = [ascii "ok", ascii "7"] := by
  obtain ⟨s, hreached, hlog⟩ := setThenGet_reached
  refine ⟨s, hreached, hlog, fun resp hlast ↦ ?_⟩
  obtain rfl : [ascii "ok", ascii "7"] = resp := by
    rw [hlog] at hlast
    cases hlast
    rfl
  have hset : Request.Sets [ascii "set", ascii "x", ascii "7"] (ascii "x") (ascii "7") :=
    ⟨rfl, le_rfl, rfl, rfl⟩
  have hget : Request.Gets [ascii "get", ascii "x"] (ascii "x") := ⟨rfl, le_rfl, rfl⟩
  refine System.get_after_set hreached (a := []) (b := []) (c := []) (d := []) (e := []) (j := 4)
    hset hget (by decide) (hlog.trans rfl) fun l hafter hbefore i req hunder htouches ↦ ?_
  have hedits : Request.edits [ascii "get", ascii "x"] = [] := by decide +kernel
  simp only [List.nil_append, ← List.mem_inits, List.inits, List.map_cons,
    List.map_nil, List.mem_cons, List.not_mem_nil, or_false] at hbefore
  rcases hbefore with rfl | rfl | rfl | rfl
  · simp at hafter
  · by_cases hi : 4 = i
    · exact ⟨hi.symm, List.prefix_rfl⟩
    · simp [underWay, Event.track, hi] at hunder
  · simp [underWay, Event.track] at hunder
    exact absurd hunder.2.1 hunder.1
  · by_cases hi : 5 = i
    · subst hi
      cases hunder
      obtain ⟨e, he, -⟩ := htouches
      rw [hedits] at he
      cases he
    · simp [underWay, Event.track, hi] at hunder
      exact absurd hunder.2.1 hunder.1

end GeminiDB
