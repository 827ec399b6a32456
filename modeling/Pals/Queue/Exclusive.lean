import Pals.Queue.Preservation

/-! No job is taken twice, and none is lost: what the queue of work guarantees, said
of the table and of the answers of its statements. -/
namespace Pals.Queue
open Pals.Library Pals.Contracts Pals.Judge

def Event.claimedId : Event → Option Uuid
  | claimed _ job => some job.id
  | _ => none

def Event.finishedId : Event → Option Uuid
  | finished _ id _ true => some id
  | _ => none

theorem Event.claimedId_eq (event : Event) :
    event.claimedId = event.act.bind WorkQueue.Act.takes := by
  cases event with
  | finished j id verdicts answer => cases answer <;> rfl
  | _ => rfl

theorem Event.finishedId_eq (event : Event) :
    event.finishedId = event.act.bind WorkQueue.Act.settles := by
  cases event with
  | finished j id verdicts answer => cases answer <;> rfl
  | _ => rfl

/-- A row in state `done` has the verdicts of the judge that claimed it, from `judge`
on its own exercise, language pack and source. -/
def OwnVerdicts (s : State) (id : Uuid) (row : Row) : Prop :=
  ∃ j host verdicts, .claimed j (jobOf id row.toJobRow) ∈ s.log ∧
    .judged j host (jobOf id row.toJobRow) ∈ s.log ∧
    judge host (jobOf id row.toJobRow) = .ok verdicts ∧ row.result = some (resultOf verdicts)

structure Exclusive (s : State) : Prop where
  claimedOnce : (s.log.filterMap Event.claimedId).Nodup
  finishedOnce : (s.log.filterMap Event.finishedId).Nodup
  refused : ∀ j t job verdicts, s.judges j = .finished job verdicts false →
    machine.step s (.finishCommit j) = some t → t.db.committed = s.db.committed
  ownVerdicts : ∀ id row, s.db.committed.lookup id = some row → row.state = .done →
    OwnVerdicts s id row
  kept : ∀ schedule t, machine.run s schedule = some t → ∀ id row,
    s.db.committed.lookup id = some row → ∃ row', t.db.committed.lookup id = some row' ∧
      jobOf id row'.toJobRow = jobOf id row.toJobRow ∧ (row.state ≠ .waiting → row'.state ≠ .waiting)

section Entries
variable {s : State} {ledger : Ledger}

theorem Represents.later {id : Uuid} {row row' : Row} {entry entry' : Entry}
    (represents : Represents id row entry) (represents' : Represents id row' entry')
    (later : WorkQueue.Later entry entry') :
    jobOf id row'.toJobRow = jobOf id row.toJobRow ∧ (row.state ≠ .waiting → row'.state ≠ .waiting) := by
  cases later with
  | refl =>
    cases entry with
    | waiting job => exact ⟨represents'.1.symm.trans represents.1, fun h => absurd represents.2 h⟩
    | taken j job =>
      exact ⟨represents'.1.symm.trans represents.1, fun _ => by simp [represents'.2]⟩
    | settled j job verdicts =>
      exact ⟨represents'.1.symm.trans represents.1, fun _ => by simp [represents'.2.1]⟩
  | taken j job => exact ⟨represents'.1.symm.trans represents.1, fun h => absurd represents.2 h⟩
  | settled j job verdicts =>
    exact ⟨represents'.1.symm.trans represents.1, fun h => absurd represents.2 h⟩
  | answered j job verdicts =>
    exact ⟨represents'.1.symm.trans represents.1, fun _ => by simp [represents'.2.1]⟩

theorem Inv.exclusive (inv : Inv s ledger) : Exclusive s where
  claimedOnce := by
    have h := WorkQueue.takes_nodup inv.trace
    rw [State.acts, List.filterMap_filterMap] at h
    simpa only [← Event.claimedId_eq] using h
  finishedOnce := by
    have h := WorkQueue.settles_nodup inv.trace
    rw [State.acts, List.filterMap_filterMap] at h
    simpa only [← Event.finishedId_eq] using h
  refused j t job verdicts hj _ := by
    cases (inv.situation hj).1
  ownVerdicts id row hrow hdone := by
    obtain ⟨entry, hentry, represents⟩ := inv.entry_of_row hrow
    cases entry with
    | waiting job => cases hdone.symm.trans represents.2
    | taken j job => cases hdone.symm.trans represents.2
    | settled j job verdicts =>
      obtain ⟨rfl, _, hresult⟩ := represents
      obtain ⟨hclaimed, host, hjudged, hjudge⟩ := inv.settled id j _ verdicts hentry
      exact ⟨j, host, verdicts, hclaimed, hjudged, hjudge, hresult⟩
  kept schedule t hrun id row hrow := by
    obtain ⟨entry, hentry, represents⟩ := inv.entry_of_row hrow
    obtain ⟨ledger', inv', acts, hacts⟩ := Machine.run_simulated step_simulated inv hrun
    obtain ⟨entry', hentry', later⟩ := WorkQueue.run_later hacts hentry
    obtain ⟨row', hrow', represents'⟩ := inv'.row_of_entry hentry'
    exact ⟨row', hrow', represents.later represents' later⟩

end Entries

/-- However the transactions of any number of API sessions and judges interleave. -/
theorem jobs_are_judged_exclusively (schedule : List Action) :
    machine.Always Exclusive .init schedule :=
  Machine.always step_inv (fun _ ⟨_, inv⟩ => inv.exclusive) ⟨_, init_inv⟩ schedule

end Pals.Queue
