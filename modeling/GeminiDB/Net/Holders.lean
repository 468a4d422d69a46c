import GeminiDB.Net.Runs

/-!
# No link is lost

At the top of the loop every live link is subscribed to `FDEVENT_IN`, or once in
the ready list, or in one job and withdrawn from the kernel. Nothing that the
server follows leads to a deleted link, and the bytes that a job points to stay
as they are.
-/

namespace GeminiDB

namespace NetworkServer

/-- The jobs that wait, run or wait for their results to be taken. -/
def inFlight (s : NetworkServer) : List ProcJob := s.unfinished ++ s.results

/-- One of three has the link, and not the others. -/
def OneHolder (s : NetworkServer) (id : ℕ) : Prop :=
  let listed := (s.readyList ++ s.readyList2).count id
  let jobs := s.inFlight.countP fun job ↦ job.link = id
  s.flagsOf id &&& fdeventIn ≠ 0 ∧ listed = 0 ∧ jobs = 0 ∨
    s.flagsOf id &&& fdeventIn = 0 ∧ listed = 1 ∧ jobs = 0 ∨
      s.flagsOf id = 0 ∧ listed = 0 ∧ jobs = 1

/-- At the top of the loop no link is lost, shared or used after its deletion. -/
structure Sound (S : Setup) (s : NetworkServer) : Prop where
  holder : ∀ id, (s.links id).isSome = true → s.OneHolder id
  listed : ∀ id ∈ s.readyList ++ s.readyList2, (s.links id).isSome = true
  registered : ∀ fd e, s.fdes.interest fd = some e →
    Owns S s fd (s.fdes.table.heap e.ptr).dataPtr
  count : ∃ live : Finset ℕ, (∀ id, id ∈ live ↔ (s.links id).isSome = true) ∧
    s.linkCount = live.card

/-- The links of the jobs are there, and neither `read` nor `recv` is called on them. -/
def JobsUndisturbed (s : NetworkServer) : Prop :=
  ∀ job ∈ s.inFlight, ∃ link, s.links job.link = some link ∧
    job.calls = (s.history job.link).calls ∧ job.request = link.request

variable {S : Setup} {s : NetworkServer}

theorem countP_inFlight (s : NetworkServer) (id : ℕ) :
    (s.inFlight.countP fun job ↦ job.link = id) =
      (s.unfinishedOf id).length + (s.resultsOf id).length := by
  rw [inFlight, List.countP_append, List.countP_eq_length_filter, List.countP_eq_length_filter]
  rfl

theorem Custody.undisturbed (hs : Custody S s) : s.JobsUndisturbed := by
  intro job hjob
  rcases List.mem_append.mp hjob with hwaits | hdone
  · obtain ⟨link, hlink, -, -, -, -, -, -, hcurrent⟩ := hs.unfinished hwaits
    exact ⟨link, hlink, hcurrent.calls, hcurrent.request⟩
  · obtain ⟨link, hlink, -, -, -, -, -, -, hcurrent⟩ := hs.result hdone
    exact ⟨link, hlink, hcurrent.calls, hcurrent.request⟩

theorem Custody.sound (hs : Custody S s) (htop : s.pc = .top) : Sound S s := by
  have hlists : s.listed = s.readyList ++ s.readyList2 := by rw [listed, todo, htop]
  have hquiet : s.quiet = s.readyList ++ s.readyList2 := by
    rw [quiet, htop, hs.wired.second (.inl htop), List.append_nil]
  have hnone (id : ℕ) : s.withdrawing ≠ some id := by simp [withdrawing, htop]
  have hzero {id : ℕ} (hflags : s.withdrawing ≠ some id → s.flagsOf id = 0) : s.flagsOf id = 0 :=
    hflags (hnone id)
  refine ⟨fun id hlive ↦ ?_, fun id hmem ↦ ?_, fun fd e he ↦ ?_, ?_⟩
  · rw [OneHolder, ← hlists, countP_inFlight]
    cases hs.held id with
    | gone hlink => simp [hlink] at hlive
    | idle _ _ hin hcount hjobs hresults =>
        exact .inl ⟨hin, hcount, by rw [hjobs, hresults]; rfl⟩
    | ready _ _ hin hcount hjobs hresults =>
        have hmem : id ∈ s.quiet := by
          rw [hquiet, ← hlists]
          exact List.count_pos_iff.mp (by omega)
        exact .inr (.inl ⟨hin hmem, hcount, by rw [hjobs, hresults]; rfl⟩)
    | waiting _ _ hflags hcount hjobs hresults =>
        exact .inr (.inr ⟨hzero hflags, hcount, by rw [hjobs, hresults]; rfl⟩)
    | finished _ _ hflags hcount hjobs hresults =>
        exact .inr (.inr ⟨hzero hflags, hcount, by rw [hjobs, hresults]; rfl⟩)
  · rw [← hlists] at hmem
    cases hs.held id with
    | ready hlink => rw [hlink]; rfl
    | gone _ hcount => exact absurd hmem (List.count_eq_zero.mp hcount)
    | idle _ _ _ hcount => exact absurd hmem (List.count_eq_zero.mp hcount)
    | waiting _ _ _ hcount => exact absurd hmem (List.count_eq_zero.mp hcount)
    | finished _ _ _ hcount => exact absurd hmem (List.count_eq_zero.mp hcount)
  · have hflags := (hs.wired.mirrors.registered fd).mp (by rw [he]; rfl)
    have hown := hs.wired.owned fd hflags
    rwa [FdeTable.look_eq (hs.wired.mirrors.own fd e he).1] at hown
  · refine ⟨_, fun id ↦ ?_, hs.wired.count⟩
    rw [Finset.mem_filter, Finset.mem_range, and_iff_right_iff_imp]
    intro hlive
    obtain ⟨link, hlink⟩ := Option.isSome_iff_exists.mp hlive
    exact (hs.wired.range hlink).2

/-- No link is lost, handled twice or used after its deletion. -/
theorem no_link_lost (hs : Reached S s) :
    s.pc ≠ .crashed ∧ s.JobsUndisturbed ∧ (s.pc = .top → Sound S s) :=
  ⟨hs.custody.wired.alive, hs.custody.undisturbed, hs.custody.sound⟩

/-- Three clients: the first with a job, the second with another request in its buffer, the
third waiting. -/
def threeClients : List Action :=
  [.wait [(3, epollIn)], .event { quietWorld with sock := some 7 }, .event quietWorld,
    .ready quietWorld,
    .wait [(3, epollIn)], .event { quietWorld with sock := some 8 }, .event quietWorld,
    .ready quietWorld,
    .wait [(3, epollIn), (7, epollIn), (8, epollIn)],
    .event { quietWorld with sock := some 9 },
    .event { quietWorld with reads := [.bytes (ascii "3\nget\n1\nx\n\n")] },
    .event { quietWorld with reads := [.bytes (ascii "4\nping\n\n4\nping\n\n")] },
    .event quietWorld, .ready quietWorld, .withdraw, .take .reader, .ready quietWorld,
    .ready quietWorld]

theorem no_link_lost_three : ∃ s, Reached smallSetup s ∧ s.pc = .top ∧ s.linkCount = 3 ∧
    s.readyList = [5] ∧ s.inFlight.length = 1 ∧ s.JobsUndisturbed ∧ Sound smallSetup s := by
  obtain ⟨s, hrun, hs⟩ := (Option.any_eq_true ..).mp
    (show (Machine.runVia (step smallSetup) (fun _ a ↦ a.Registered) (init smallSetup)
      threeClients).any (fun s ↦
      s.pc = .top ∧ s.linkCount = 3 ∧ s.readyList = [5] ∧ s.inFlight.length = 1) = true by
        decide +kernel)
  have hreached : Reached smallSetup s := Machine.reachableVia_of_run hrun
  obtain ⟨htop, hcount, hready, hjobs⟩ := of_decide_eq_true hs
  obtain ⟨-, hundisturbed, hsound⟩ := no_link_lost hreached
  exact ⟨s, hreached, htop, hcount, hready, hjobs, hundisturbed, hsound htop⟩

end NetworkServer

end GeminiDB
