import GeminiDB.Serv.Reads
import GeminiDB.Serv.Writes

/-!
# The order of the replies

The requests that write, taken in the order of their replies, are a sequential run: each
of these replies is what its handler computes from the database that the handlers before
it have left. Reads do not matter for it, and when the writer has no job the store holds
what that run leaves.
-/

namespace GeminiDB

open Program

instance (req : Request) : Decidable req.Mutates :=
  decidable_of_iff ((procMap.getProc (req.headD [])).any fun cmd ↦
    cmd.flags &&& Command.flagWrite ≠ 0) (by simp [Request.Mutates, Option.any_eq_true])

/-- The request and the response of a reply to a request that writes. -/
def Event.write : Event → Option (ℕ × Request × Response)
  | .reply id req resp => if req.Mutates then some (id, req, resp) else none
  | _ => none

/-- The writes in the order of their replies. -/
def writes (log : List Event) : List (ℕ × Request × Response) := log.filterMap Event.write

theorem writes_append (log log' : List Event) : writes (log ++ log') = writes log ++ writes log' :=
  List.filterMap_append

theorem writes_filter (log : List Event) : writes (log.filter Event.visible) = writes log := by
  induction log with
  | nil => rfl
  | cons e log ih =>
      cases e with
      | moment id m x => exact ih
      | request id req => exact ih
      | reply id req resp =>
          change writes ([.reply id req resp] ++ log.filter Event.visible) =
            writes ([.reply id req resp] ++ log)
          rw [writes_append, writes_append, ih]

/-! ## Blocks of mutating calls -/

/-- The link asks and answers nothing. -/
def Silent (id : ℕ) (log : List Event) : Prop := ∀ e ∈ log, e.visible = true → e.link ≠ id

/-- No request of the log has mutating calls but no reply. -/
def Closed (log : List Event) : Prop :=
  ∀ {l i m x r}, log = l ++ .moment i (.mutate m) x :: r → ¬ Silent i r

/-- A link asks when it has got its last reply. -/
def Alternating (log : List Event) : Prop :=
  ∀ {l id req r}, log = l ++ .request id req :: r → underWay id l = none

/-- The writes up to here, and the database before a write that has begun. -/
structure InOrder (log : List Event) (d : Database) : Prop where
  serves : Serves .empty (writes log) d
  closed : Closed log → replay log .empty = d
  opened : ∀ {l i m x r}, log = l ++ .moment i (.mutate m) x :: r → Closed l → Silent i r →
    replay l .empty = d

section Blocks

variable {log l r : List Event} {e : Event} {id i : ℕ} {m : Mutation} {x : Option Bytes}

theorem silent_append : Silent id (l ++ r) ↔ Silent id l ∧ Silent id r := by
  simp only [Silent, List.mem_append]
  exact ⟨fun h ↦ ⟨fun e he ↦ h e (.inl he), fun e he ↦ h e (.inr he)⟩,
    fun h e he ↦ he.elim (h.1 e) (h.2 e)⟩

theorem silent_singleton : Silent id [e] ↔ (e.visible = true → e.link ≠ id) := by
  simp [Silent]

theorem Silent.moment (h : Silent id r) (i : ℕ) (m : Moment) (x : Option Bytes) :
    Silent id (r ++ [.moment i m x]) :=
  silent_append.mpr ⟨h, silent_singleton.mpr nofun⟩

/-- An event that is not in the way of a block leaves it open. -/
theorem Closed.of_concat (h : Closed (log ++ [e]))
    (hopen : ∀ {l i m x r}, log = l ++ .moment i (.mutate m) x :: r → Silent i r →
      e.visible = true → e.link ≠ i) : Closed log := by
  intro l i m x r hlog hsilent
  have hsplit : log ++ [e] = l ++ .moment i (.mutate m) x :: (r ++ [e]) := by
    rw [hlog]
    simp
  exact h hsplit (silent_append.mpr ⟨hsilent, silent_singleton.mpr (hopen hlog hsilent)⟩)

/-- The moments of a link in the log are those of its program. -/
theorem Follows.of_mem {P : Moment → Prop} {d : Database} {p q : MomentProg} {m : Moment}
    (h : Follows id d p log q) (hp : p.All P) (hmem : .moment id m x ∈ log) : P m := by
  induction h with
  | nil => cases hmem
  | mine _ ih =>
      rcases List.mem_cons.mp hmem with heq | hrest
      · cases heq
        exact hp.1
      · exact ih (hp.2 _) hrest
  | other he _ ih =>
      rcases List.mem_cons.mp hmem with rfl | hrest
      · exact absurd rfl he
      · exact ih hp hrest

end Blocks

/-! ## The writes so far -/

/-- What is known of a log in which all accesses succeeded. -/
structure Orderable (log : List Event) : Prop where
  explained : Explained log
  serial : Serial log
  alternating : Alternating log
  works : ∀ {id m x}, .moment id m x ∈ log → x = none

theorem Orderable.of_append {log rest : List Event} (h : Orderable (log ++ rest)) :
    Orderable log := by
  have hcons {l r : List Event} {e : Event} (heq : log = l ++ e :: r) :
      log ++ rest = l ++ e :: (r ++ rest) := by
    rw [heq]
    simp
  refine ⟨⟨fun heq ↦ h.explained.reply (hcons heq), fun heq ↦ h.explained.moment (hcons heq)⟩,
    ?_, fun heq ↦ h.alternating (hcons heq), fun hmem ↦ h.works (List.mem_append_left _ hmem)⟩
  intro l₁ i m x l₂ l₃ heq hsilent j m' x' hmem
  have hsplit : log ++ rest = l₁ ++ .moment i (.mutate m) x :: (l₂ ++ (l₃ ++ rest)) := by
    rw [hcons heq]
    simp
  exact h.serial hsplit hsilent hmem

/-- A handler of a request that does not write has no mutating calls. -/
theorem reads_of_not_mutates {req : Request} (h : ¬ req.Mutates) (r : Report) :
    (handler r req).All ApiCall.Reads := by
  rw [handler]
  cases hcmd : procMap.getProc (req.headD []) with
  | none => trivial
  | some cmd =>
      dsimp only
      refine Proc.all_reads ?_ r req
      by_contra hmutates
      rw [Bool.not_eq_false] at hmutates
      exact h ⟨cmd, hcmd, (procMap_flags cmd (List.mem_of_find?_eq_some hcmd)).1.mpr hmutates⟩

section Order

variable {log : List Event} {d : Database} {id i : ℕ} {req : Request} {resp : Response}

theorem inOrder_nil : InOrder [] .empty :=
  ⟨.nil, fun _ ↦ rfl, fun h ↦ (List.append_ne_nil_of_right_ne_nil _ (by simp) h.symm).elim⟩

/-- A link asks while no call of an earlier request of it is open. -/
theorem InOrder.request (h : InOrder log d) (hlog : Orderable (log ++ [.request id req])) :
    InOrder (log ++ [.request id req]) d := by
  refine ⟨?_, fun hclosed ↦ ?_, fun heq hbefore hsilent ↦ ?_⟩
  · rw [writes_append]
    exact (List.append_nil _).symm ▸ h.serves
  · rw [replay_append]
    refine h.closed (hclosed.of_concat fun {l i m x r} heq hsilent _ hid ↦ ?_)
    obtain rfl : id = i := hid
    obtain ⟨req', -, hunder, -⟩ := hlog.of_append.explained.under_way heq
    have hsame : underWay id log = underWay id l := by
      rw [heq, underWay, List.foldl_append, List.foldl_cons]
      exact track_silent _ hsilent
    rw [underWay, track_filter] at hunder
    cases (hlog.alternating (r := []) rfl).symm.trans (hsame.trans hunder)
  · rcases split_concat heq with ⟨-, hnot, -⟩ | ⟨r', rfl, hold⟩
    · cases hnot
    · exact h.opened hold hbefore (silent_append.mp hsilent).1

/-- A moment changes the database only in a block that it begins or goes on with. -/
theorem InOrder.moment (h : InOrder log d) {m : Moment} {x : Option Bytes} :
    InOrder (log ++ [.moment id m x]) d := by
  refine ⟨?_, fun hclosed ↦ ?_, fun {l i m' x' r} heq hbefore hsilent ↦ ?_⟩
  · rw [writes_append]
    exact (List.append_nil _).symm ▸ h.serves
  · have hold := h.closed (hclosed.of_concat fun _ _ hvisible ↦ nomatch hvisible)
    cases m with
    | read slot =>
        rw [replay_append]
        exact hold
    | mutate m =>
        refine absurd ?_ (hclosed (l := log) (r := []) rfl)
        exact fun e he ↦ absurd he List.not_mem_nil
  · rcases split_concat heq with ⟨rfl, -, -⟩ | ⟨r', rfl, hold⟩
    · exact h.closed hbefore
    · exact h.opened hold hbefore (silent_append.mp hsilent).1

/-- A moment that is followed by silence comes after the last request. -/
theorem after_request {a b l r : List Event} {m : Moment} {x : Option Bytes}
    (h : a ++ .request id req :: b = l ++ .moment id m x :: r) (hsilent : Silent id r) :
    ∃ b', b = b' ++ .moment id m x :: r ∧ l = a ++ .request id req :: b' := by
  have hnot : .request id req ∉ r := fun hmem ↦ hsilent _ hmem rfl rfl
  exact cut h nofun (.inr hnot)

/-- There is one open block. -/
theorem Orderable.open_unique (hlog : Orderable log) {l l' r r' : List Event} {m m' : Mutation}
    {x x' : Option Bytes} (h : log = l ++ .moment i (.mutate m) x :: r) (hsilent : Silent i r)
    (h' : log = l' ++ .moment id (.mutate m') x' :: r') (hsilent' : Silent id r') : i = id := by
  have hlater {l k r : List Event} {i j : ℕ} {m m' : Mutation} {x x' : Option Bytes}
      (heq : log = l ++ .moment i (.mutate m) x :: (k ++ .moment j (.mutate m') x' :: r))
      (hquiet : Silent i (k ++ .moment j (.mutate m') x' :: r)) : j = i := by
    have hsplit : log = l ++ .moment i (.mutate m) x :: ((k ++ [.moment j (.mutate m') x']) ++ r) :=
      heq.trans (by simp)
    refine hlog.serial hsplit ?_ (List.mem_append_right _ (List.mem_singleton_self _))
    exact ((silent_append.mp hquiet).1).moment j _ _
  rcases append_eq_append_cons ((h.trans (List.append_cons ..)).symm.trans h') with
    ⟨k, hk, rfl⟩ | ⟨k, rfl⟩
  · rcases split_concat hk with ⟨-, heq, -⟩ | ⟨k', rfl, -⟩
    · exact (Event.moment.inj heq).1
    · rw [List.append_assoc] at h' hsilent'
      exact hlater h' hsilent'
  · exact (hlater h hsilent).symm

/-- A reply to a request that only reads closes no block. -/
theorem InOrder.read_reply (h : InOrder log d)
    (hlog : Orderable (log ++ [.reply id req resp])) (hreads : ¬ req.Mutates) :
    InOrder (log ++ [.reply id req resp]) d := by
  refine ⟨?_, fun hclosed ↦ ?_, fun heq hbefore hsilent ↦ ?_⟩
  · have hnone : writes [.reply id req resp] = [] := by simp [writes, Event.write, hreads]
    rw [writes_append, hnone, List.append_nil]
    exact h.serves
  · rw [replay_append]
    refine h.closed (hclosed.of_concat fun {l i m x r} heq hsilent _ hid ↦ ?_)
    obtain rfl : id = i := hid
    have hend : log ++ [.reply id req resp] = log ++ Event.reply id req resp :: [] := rfl
    obtain ⟨a, b, rep, hbefore, hfollows⟩ := hlog.explained.reply hend
    obtain ⟨b', rfl, -⟩ := after_request (hbefore.symm.trans heq) hsilent
    have hmem : .moment id (.mutate m) x ∈ b' ++ .moment id (.mutate m) x :: r := by simp
    exact hfollows.of_mem (reader_moments (reads_of_not_mutates hreads rep)) hmem m rfl
  · rcases split_concat heq with ⟨-, hnot, -⟩ | ⟨r', rfl, hold⟩
    · cases hnot
    · exact h.opened hold hbefore (silent_append.mp hsilent).1

/-- A reply to a request that writes. -/
theorem InOrder.write_reply (h : InOrder log d)
    (hlog : Orderable (log ++ [.reply id req resp])) (hwrites : req.Mutates) :
    ∃ d', InOrder (log ++ [.reply id req resp]) d' := by
  have hwrite : writes (log ++ [.reply id req resp]) = writes log ++ [(id, req, resp)] := by
    rw [writes_append]
    exact congrArg _ (by simp [writes, Event.write, hwrites])
  obtain ⟨c, l, rep, hbefore, hcases⟩ :=
    hlog.explained.write hlog.serial hlog.works (b := []) rfl hwrites
  -- a block that is open after the reply was open before, and is not one of the link
  have hother {l' r' : List Event} {i : ℕ} {m : Mutation} {x : Option Bytes}
      (heq : log ++ [.reply id req resp] = l' ++ .moment i (.mutate m) x :: r')
      (hsilent : Silent i r') :
      ∃ r, log = l' ++ .moment i (.mutate m) x :: r ∧ Silent i r ∧ id ≠ i := by
    rcases split_concat heq with ⟨-, hnot, -⟩ | ⟨r, rfl, hold⟩
    · cases hnot
    · obtain ⟨hfirst, hlast⟩ := silent_append.mp hsilent
      exact ⟨r, hold, hfirst, silent_singleton.mp hlast rfl⟩
  rcases hcases with ⟨hanswer, hapart⟩ | ⟨e, m, x, k, rfl, he, hquiet, hanswer⟩
  · refine ⟨d, hwrite ▸ h.serves.append (.cons rep (hanswer d) .nil), fun hclosed ↦ ?_,
      fun heq hfirst hsilent ↦ ?_⟩
    · rw [replay_append]
      refine h.closed (hclosed.of_concat fun {l' i m x r'} heq hsilent _ hid ↦ ?_)
      obtain rfl : id = i := hid
      obtain ⟨l'', rfl, -⟩ := after_request (hbefore.symm.trans heq) hsilent
      exact hapart (.moment id (.mutate m) x) (by simp) rfl
    · obtain ⟨r, hold, hquiet, -⟩ := hother heq hsilent
      exact h.opened hold hfirst hquiet
  · have hopen : log = (c ++ .request id req :: e) ++ .moment id (.mutate m) x :: k :=
      hbefore.trans (by simp)
    have hclosed : Closed (c ++ .request id req :: e) := by
      intro l' i m' x' r' heq hsilent
      have hsplit : log = l' ++
          .moment i (.mutate m') x' :: ((r' ++ [.moment id (.mutate m) x]) ++ k) := by
        rw [hopen, heq]
        simp
      obtain rfl : id = i := hlog.of_append.serial hsplit (hsilent.moment id _ x)
        (List.mem_append_right _ (List.mem_singleton_self _))
      obtain ⟨b', rfl, -⟩ := after_request heq hsilent
      exact he (.moment id (.mutate m') x') (by simp) rfl
    rw [h.opened hopen hclosed hquiet] at hanswer
    refine ⟨replay log .empty, hwrite ▸ h.serves.append (.cons rep hanswer .nil), fun _ ↦ ?_,
      fun heq hfirst hsilent ↦ ?_⟩
    · rw [replay_append]
      rfl
    · obtain ⟨r, hold, hsilent', hne⟩ := hother heq hsilent
      exact absurd (hlog.of_append.open_unique hopen hquiet hold hsilent') hne

/-- The writes of a log are a sequential run. -/
theorem Orderable.inOrder (hlog : Orderable log) : ∃ d, InOrder log d := by
  induction log using List.reverseRecOn with
  | nil => exact ⟨_, inOrder_nil⟩
  | append_singleton log e ih =>
      obtain ⟨d, h⟩ := ih hlog.of_append
      cases e with
      | request id req => exact ⟨d, h.request hlog⟩
      | moment id m x => exact ⟨d, h.moment⟩
      | reply id req resp =>
          by_cases hwrites : req.Mutates
          · exact h.write_reply hlog hwrites
          · exact ⟨d, h.read_reply hlog hwrites⟩

end Order

/-! ## The order of the server -/

/-- A service knows which requests have no reply yet, and takes one at a time from a link. -/
theorem Spec.Reached.alternating {strict : Bool} {t : Spec} (h : Spec.Reached strict t) :
    (∀ id, t.asked id = underWay id t.log) ∧ Alternating t.log := by
  induction h with
  | refl =>
      exact ⟨fun _ ↦ rfl, fun h ↦
        (List.append_ne_nil_of_right_ne_nil _ (by simp) h.symm).elim⟩
  | @tail t t' _ hstep ih =>
      obtain ⟨hasked, halternating⟩ := ih
      have hold {e : Event}
          (hrequest : ∀ {id req}, e = .request id req → underWay id t.log = none) :
          Alternating (t.log ++ [e]) := by
        intro l id req r heq
        rcases split_concat heq with ⟨rfl, hnew, -⟩ | ⟨r', -, hbefore⟩
        · exact hrequest hnew
        · exact halternating hbefore
      have hnext (e : Event) (id : ℕ) : underWay id (t.log ++ [e]) = e.track id (t.asked id) := by
        rw [hasked]
        exact List.foldl_concat ..
      cases hstep with
      | request id req hfree =>
          refine ⟨fun i ↦ ?_, hold fun heq ↦ ?_⟩
          · rw [hnext]
            by_cases hi : id = i
            · subst hi
              simp [Event.track]
            · simp [Event.track, hi, Function.update_of_ne (Ne.symm hi)]
          · cases heq
            exact (hasked id).symm.trans hfree
      | start id r _ _ => exact ⟨hasked, halternating⟩
      | @moment id m next x _ _ =>
          exact ⟨fun i ↦ (hnext (.moment id m x) i).symm, hold fun heq ↦ by cases heq⟩
      | reply id _ _ =>
          refine ⟨fun i ↦ ?_, hold fun heq ↦ by cases heq⟩
          rw [hnext]
          by_cases hi : id = i
          · subst hi
            simp [Event.track]
          · simp [Event.track, hi, Function.update_of_ne (Ne.symm hi)]

variable {fds : Descriptors} {s : System}

/-- The log of a server where no access fails, with what the writes so far have made of the
database. -/
theorem System.Reached.ordered (h : s.Reached fds true) :
    ∃ log d, log.filter Event.visible = s.log ∧ InOrder log d ∧
      Represents s.threads.shared.db (replay log .empty) ∧
        ((s.net.pools .writer).running = [] → Closed log) := by
  obtain ⟨t, hreached, hrefines, hwritten⟩ := h.written
  have htraced := hreached.traced
  have horderable : Orderable t.log := ⟨htraced.explained, hwritten.serial,
    hreached.alternating.2, fun hmem ↦ htraced.admitted hmem rfl⟩
  obtain ⟨d, hinOrder⟩ := horderable.inOrder
  refine ⟨t.log, d, hrefines.log, hinOrder, htraced.shared ▸ hrefines.linked.shared,
    fun hidle l i m x r hlog hsilent ↦ ?_⟩
  obtain ⟨job, hjob, -⟩ := hwritten.writer hlog hsilent
  rw [hidle] at hjob
  cases hjob

/-- The writes in the order of their replies are a sequential run; when the writer has no job the
store holds what they leave. -/
theorem System.writes_in_order (h : s.Reached fds true) :
    ∃ d, Serves .empty (writes s.log) d ∧
      ((s.net.pools .writer).running = [] → Represents s.threads.shared.db d) := by
  obtain ⟨log, d, hlog, hinOrder, hstore, hidle⟩ := h.ordered
  refine ⟨d, ?_, fun hrunning ↦ ?_⟩
  · rw [← hlog, writes_filter]
    exact hinOrder.serves
  · rw [← hinOrder.closed (hidle hrunning)]
    exact hstore

theorem System.writes_in_order_run : ∃ s : System, s.Reached smallFds true ∧
    writes s.log = [(4, [ascii "set", ascii "x", ascii "7"], [ascii "ok", ascii "1"])] ∧
      ∃ d, Serves .empty (writes s.log) d ∧
        ((s.net.pools .writer).running = [] → Represents s.threads.shared.db d) := by
  obtain ⟨s, hreached, hlog⟩ := setThenGet_reached
  refine ⟨s, hreached, ?_, System.writes_in_order hreached⟩
  rw [hlog]
  decide +kernel

end GeminiDB
