import Pals.Api.Progress
import Pals.Queue.Verdicts

/-! What a client learns that asks for its job again and again, while sessions and
judges go on: each answer is what the statements committed so far have come to. -/
namespace Pals.Api
open Pals.Library Pals.Contracts Pals.Judge Pals.Queue

def insertedId : Event → Option Uuid
  | .inserted id _ => some id
  | _ => none

def verdictsOf (id : Uuid) : Event → Option (List Verdict)
  | .finished _ other verdicts true => if other = id then some verdicts else none
  | _ => none

def told (log : List Event) (id : Uuid) : Except StatusCode Progress :=
  match log.findSome? (verdictsOf id) with
  | some verdicts => .ok ⟨"done", some (verdicts.all (· = .passed))⟩
  | none =>
      if id ∈ log.filterMap Event.claimedId then .ok ⟨"running", none⟩
      else if id ∈ log.filterMap insertedId then .ok ⟨"waiting", none⟩
      else .error .notFound

def answerOf : Option Entry → Except StatusCode Progress
  | none => .error .notFound
  | some (.waiting _) => .ok ⟨"waiting", none⟩
  | some (.taken _ _) => .ok ⟨"running", none⟩
  | some (.settled _ _ verdicts) => .ok ⟨"done", some (verdicts.all (· = .passed))⟩

def stage : Except StatusCode Progress → Nat
  | .error _ => 0
  | .ok ⟨"waiting", _⟩ => 1
  | .ok ⟨"running", _⟩ => 2
  | .ok _ => 3

/-- A client is told what was committed, a later answer is never behind an earlier
one, and the last one stays. -/
structure Polled (s : Queue.State) : Prop where
  told : ∀ id, progress s.db.committed id = told s.log id
  onward : ∀ schedule t, Queue.machine.run s schedule = some t → ∀ id,
    stage (progress s.db.committed id) ≤ stage (progress t.db.committed id)
  final : ∀ schedule t, Queue.machine.run s schedule = some t → ∀ id passed,
    progress s.db.committed id = .ok ⟨"done", passed⟩ →
      progress t.db.committed id = .ok ⟨"done", passed⟩

section Entries
variable {s t : Queue.State} {ledger : Ledger}

theorem progressOf_done {row : JobRow} {verdicts : List Verdict} (done : row.state = .done)
    (result : row.result = some (resultOf verdicts)) :
    progressOf row = ⟨"done", some (verdicts.all (· = .passed))⟩ := by
  simp [progressOf, done, result, JobState.text, resultOf, member, containedIn_passed_iff]

theorem progress_of_inv (inv : Queue.Inv s ledger) (id : Uuid) :
    progress s.db.committed id = answerOf (ledger id) := by
  have hrow := inv.rows id
  unfold progress
  generalize s.db.committed.lookup id = row, ledger id = entry at hrow
  cases hrow with
  | none => rfl
  | some represents =>
    rename_i row entry
    cases entry with
    | waiting job =>
      obtain ⟨_, hstate⟩ := represents
      simp [answerOf, progressOf, hstate, row.result_of_not_done, JobState.text]
    | taken j job =>
      obtain ⟨_, hstate⟩ := represents
      simp [answerOf, progressOf, hstate, row.result_of_not_done, JobState.text]
    | settled j job verdicts =>
      obtain ⟨_, hstate, hresult⟩ := represents
      exact congrArg Except.ok (progressOf_done hstate hresult)

theorem submit_mem {id : Uuid} {job : Job} (h : .submit id job ∈ s.acts) :
    .inserted id job ∈ s.log := by
  obtain ⟨event, hmem, hact⟩ := List.mem_filterMap.mp h
  cases event with
  | inserted id' job' =>
    cases hact
    exact hmem
  | finished j id' verdicts answer => cases answer <;> cases hact
  | _ => cases hact

theorem verdictsOf_eq_some {id : Uuid} {event : Event} {verdicts : List Verdict}
    (h : verdictsOf id event = some verdicts) : ∃ j, event = .finished j id verdicts true := by
  cases event with
  | finished j other verdicts' answer =>
    cases answer with
    | false => cases h
    | true =>
      simp only [verdictsOf] at h
      split at h <;> cases h
      rename_i hid
      exact ⟨j, hid ▸ rfl⟩
  | _ => cases h

theorem told_of_inv (inv : Queue.Inv s ledger) (id : Uuid) : told s.log id = answerOf (ledger id) := by
  have accounts := WorkQueue.run_accounts inv.trace id
  have hclaimed : id ∈ s.log.filterMap Event.claimedId ↔
      id ∈ s.acts.filterMap WorkQueue.Act.takes := by
    rw [State.acts, List.filterMap_filterMap]
    simp only [← Event.claimedId_eq]
  unfold told
  cases hfind : s.log.findSome? (verdictsOf id) with
  | some verdicts =>
    obtain ⟨event, hmem, hverdicts⟩ := List.exists_of_findSome?_eq_some hfind
    obtain ⟨j, rfl⟩ := verdictsOf_eq_some hverdicts
    obtain ⟨job, hentry⟩ := inv.settled_iff.mpr hmem
    rw [hentry]
    rfl
  | none =>
    rw [List.findSome?_eq_none_iff] at hfind
    have hinserted {job : Job} (h : .submit id job ∈ s.acts) : id ∈ s.log.filterMap insertedId :=
      List.mem_filterMap.mpr ⟨_, submit_mem h, rfl⟩
    simp only [hclaimed]
    cases hentry : ledger id with
    | none =>
      rw [hentry] at accounts
      rw [if_neg (WorkQueue.notMem_of_key (fun _ _ => WorkQueue.Act.key_of_takes) accounts), if_neg]
      · rfl
      · intro hmem
        obtain ⟨event, hevent, hid⟩ := List.mem_filterMap.mp hmem
        cases event with
        | inserted id' job =>
          cases hid
          exact accounts (.submit id job) (List.mem_filterMap.mpr ⟨_, hevent, rfl⟩) rfl
        | _ => cases hid
    | some entry =>
      rw [hentry] at accounts
      cases entry with
      | waiting job =>
        rw [if_neg accounts.2, if_pos (hinserted accounts.1)]
        rfl
      | taken j job =>
        have htaken : id ∈ s.acts.filterMap WorkQueue.Act.takes :=
          List.mem_filterMap.mpr ⟨_, accounts.2.1, rfl⟩
        rw [if_pos htaken]
        rfl
      | settled j job verdicts =>
        have hnone := hfind _ (settle_mem_iff.mp accounts.2.2)
        simp [verdictsOf] at hnone

theorem stage_answerOf_le {entry entry' : Entry} (later : WorkQueue.Later entry entry') :
    stage (answerOf (some entry)) ≤ stage (answerOf (some entry')) := by
  cases later with
  | refl => exact Nat.le_refl _
  | _ => simp [answerOf, stage]

theorem Inv.polled (inv : Queue.Inv s ledger) : Polled s where
  told id := (progress_of_inv inv id).trans (told_of_inv inv id).symm
  onward schedule t hrun id := by
    obtain ⟨ledger', inv', acts, hacts⟩ := Machine.run_simulated step_simulated inv hrun
    rw [progress_of_inv inv, progress_of_inv inv']
    cases hentry : ledger id with
    | none => exact Nat.zero_le _
    | some entry =>
      obtain ⟨entry', hentry', later⟩ := WorkQueue.run_later hacts hentry
      rw [hentry']
      exact stage_answerOf_le later
  final schedule t hrun id passed answer := by
    obtain ⟨ledger', inv', acts, hacts⟩ := Machine.run_simulated step_simulated inv hrun
    rw [progress_of_inv inv] at answer
    rw [progress_of_inv inv']
    cases hentry : ledger id with
    | none =>
      rw [hentry] at answer
      cases answer
    | some entry =>
      obtain ⟨entry', hentry', later⟩ := WorkQueue.run_later hacts hentry
      rw [hentry] at answer
      rw [hentry']
      cases later with
      | refl => exact answer
      | _ => simp [answerOf] at answer

end Entries

/-- However the transactions of any number of API sessions and judges interleave. -/
theorem answers_follow_the_log (schedule : List Queue.Action) :
    Queue.machine.Always Polled .init schedule :=
  Machine.always step_inv (fun _ ⟨_, inv⟩ => Inv.polled inv) ⟨_, init_inv⟩ schedule

end Pals.Api
