import Pals.Queue.Preservation

/-! The constraints on the timestamps of a job, which are the instants at which
transactions began, while what a transaction sees follows the order of commits. -/
namespace Pals.Queue
open Pals.Library Pals.Contracts Pals.Judge

def NoViolation (s : State) : Prop := ∀ j check, Event.rejected j check ∉ s.log

/-- When `claim_job` writes to the row that it has selected, the transaction that
inserted the row began no later than its own. -/
def InsertedFirst (s : State) : Action → Prop
  | .claimUpdate j => ∀ id row, s.judges j = .claimSelected id →
      s.db.committed.lookup id = some row → row.enqueuedAt ≤ s.now (.judge j)
  | _ => True

section Steps
variable {s t : State} {j : Nat} {ledger : Ledger}

/-- The only statement that can break a constraint is the update of a claim. -/
theorem JudgeStep.rejected_is_claim {a : Action} {place : JudgeState} {db : Db Session Uuid Row}
    {events : List Event} (move : JudgeStep s j a (s.judges j) place db events) (inv : Inv s ledger)
    {j' : Nat} {check : Check} (h : .rejected j' check ∈ events) :
    ∃ id row, a = .claimUpdate j ∧ s.judges j = .claimSelected id ∧
      s.db.newest (.judge j) id = some row ∧
      ∃ check, accept (row.claim (s.now (.judge j))) = .error check := by
  have situation := inv.judges j
  generalize hj : s.judges j = before at move situation
  cases move with
  | rejectClaim id row check newest rejected => exact ⟨id, row, rfl, rfl, newest, check, rejected⟩
  | rejectFinish job verdicts row check locked lock newest rejected =>
    obtain ⟨_, _, _, _, _, accepted, _⟩ :=
      inv.finishing_row situation.1 situation.2.1 situation.2.2 lock newest
    cases rejected.symm.trans accepted
  | _ => simp at h

theorem noViolation_step {a : Action} (inv : Inv s ledger) (clean : NoViolation s)
    (first : InsertedFirst s a) (h : machine.step s a = some t) : NoViolation t := by
  intro j' check hmem
  cases step_cases h with
  | tick elapsed => exact clean j' check hmem
  | api n db events move =>
    obtain hmem | hmem := List.mem_append.mp hmem
    · exact clean j' check hmem
    · obtain ⟨id, job, he⟩ := move.inserted hmem
      cases he
  | judge j place db events move =>
    obtain hmem | hmem := List.mem_append.mp hmem
    · exact clean j' check hmem
    · obtain ⟨id, row, rfl, hj, newest, check, rejected⟩ := move.rejected_is_claim inv hmem
      obtain ⟨now, row', _, hnewest, hrow, hwaiting⟩ := inv.selected_row hj
      cases newest.symm.trans hnewest
      obtain ⟨claimed, accepted⟩ := (claim_accepted_iff row hwaiting _).mpr (first id row hj hrow)
      cases rejected.symm.trans accepted

theorem insertedFirst_of_noViolation {a : Action} (inv : Inv s ledger)
    (h : machine.step s a = some t) (clean : NoViolation t) : InsertedFirst s a := by
  cases a with
  | claimUpdate j =>
    intro id row hj hrow
    obtain ⟨now, row', _, hnewest, hrow', hwaiting⟩ := inv.selected_row hj
    cases hrow.symm.trans hrow'
    rw [← claim_accepted_iff row hwaiting]
    cases haccept : accept (row.claim (s.now (.judge j))) with
    | ok claimed => exact ⟨claimed, rfl⟩
    | error check =>
      simp only [machine, step, claimStep, hj, hnewest, Option.bind_eq_bind, Option.bind_some,
        haccept] at h
      cases h
      exact absurd (List.mem_append_right _ List.mem_cons_self) (clean j check)
  | _ => trivial

end Steps

/-- No statement of the queue breaks a constraint in a run exactly when no claim
selects a job whose insertion began after it. -/
theorem noViolation_iff_insertedFirst (schedule : List Action) :
    machine.Always NoViolation .init schedule ↔ machine.Meets InsertedFirst .init schedule := by
  constructor
  · exact Machine.Always.meets step_inv
      (fun s a t ⟨_, inv⟩ h clean => insertedFirst_of_noViolation inv h clean) ⟨_, init_inv⟩
  · refine Machine.Meets.always (I := fun s => (∃ ledger, Inv s ledger) ∧ NoViolation s)
      (fun s a t ⟨inv, clean⟩ first h => ⟨step_inv s a t inv h, ?_⟩) (fun s h => h.2)
      ⟨⟨_, init_inv⟩, fun _ _ h => nomatch h⟩
    obtain ⟨ledger, inv⟩ := inv
    exact noViolation_step inv clean first h

def printZero : Submission where
  course := log200
  exercise := sum
  languagePack := python
  source := "print(0)"
  plain := by decide

/-- A job is inserted and committed between the beginning of a claim and its
snapshot. -/
def lateInsertion : List Action :=
  [.claimBegin 0, .tick 1, .apiBegin 0, .apiInsert 0 firstId printZero, .apiCommit 0, .claimSnapshot 0,
    .claimVisit 0, .claimUpdate 0]

theorem lateInsertion_violates : ¬machine.Always NoViolation .init lateInsertion := by
  intro h
  have hlog : (machine.run .init lateInsertion).map State.log =
      some [.inserted firstId (jobOf firstId (printZero.row 1)), .rejected 0 .claimedAfterEnqueued] := by rfl
  obtain ⟨t, hrun, ht⟩ := Option.map_eq_some_iff.mp hlog
  exact h.last hrun 0 .claimedAfterEnqueued (by simp [ht])

end Pals.Queue
