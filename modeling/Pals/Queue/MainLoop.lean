import Pals.Library.Machine
import Pals.Library.ReadCommitted
import Pals.Queue.Jobs

/-! The system around the queue: API sessions that insert jobs, judges that run their
main loop, and the database that runs the steps of their transactions in any order. -/
namespace Pals.Queue
open Pals.Library Pals.Contracts Pals.Judge

inductive Session where
  | api (session : Nat)
  | judge (judge : Nat)
deriving DecidableEq, Repr

/-- What the API binds in its insertion. No value of type `text` contains the character
U+0000. -/
structure Submission where
  course : Identifier
  exercise : Identifier
  languagePack : Identifier
  source : String
  plain : '\x00' ∉ source.toList

/-- The row of an insertion, by the defaults of the table. -/
def Submission.row (submission : Submission) (now : Timestamp) : JobRow where
  contract := 1
  course := submission.course
  exercise := submission.exercise
  languagePack := submission.languagePack
  source := submission.source
  state := .waiting
  enqueuedAt := now
  claimedAt := none
  finishedAt := none
  result := none

/-- Of the constraints on a new row, only the length of its source can fail. -/
theorem accept_succeeds_iff (now : Timestamp) (submission : Submission) :
    (∃ row, accept (submission.row now) = .ok row) ↔
      1 ≤ submission.source.utf8ByteSize ∧ submission.source.utf8ByteSize ≤ 1024 * 1024 := by
  rw [accept_succeeds]
  constructor
  · intro h
    exact of_decide_eq_true (h .sourceCheck)
  · intro h check
    cases check with
    | sourceCheck => exact decide_eq_true h
    | _ => rfl

/-- Where a judge is in its loop. A statement is in progress from its snapshot on:
`claim_job` has rows left to visit, and `finish_job` has found its row or not. -/
inductive JudgeState where
  | idle
  | claimBegun
  | claimVisiting (rest : List Uuid)
  | claimSelected (id : Uuid)
  | claimed (job : Option Job)
  | judging (job : Job)
  | judged (job : Job) (verdicts : List Verdict)
  | finishBegun (job : Job) (verdicts : List Verdict)
  | finishVisiting (job : Job) (verdicts : List Verdict)
  | finished (job : Job) (verdicts : List Verdict) (answer : Bool)
  | stopped

/-- What there is to remember of a run: the answers of the statements that were
committed, what the judges judged, and the statements that broke a constraint. -/
inductive Event where
  | inserted (id : Uuid) (job : Job)
  | claimed (judge : Nat) (job : Job)
  | judged (judge : Nat) (host : Host) (job : Job)
  | finished (judge : Nat) (id : Uuid) (verdicts : List Verdict) (answer : Bool)
  | rejected (judge : Nat) (check : Check)

structure State where
  clock : Timestamp
  db : Db Session Uuid Row
  judges : Nat → JudgeState
  log : List Event

def State.init : State := ⟨0, .empty, fun _ => .idle, []⟩

inductive Action where
  | tick (elapsed : Nat)
  | apiBegin (session : Nat)
  | apiInsert (session : Nat) (id : Uuid) (submission : Submission)
  | apiCommit (session : Nat)
  | apiRollback (session : Nat)
  | claimBegin (judge : Nat)
  | claimSnapshot (judge : Nat)
  | claimVisit (judge : Nat)
  | claimUpdate (judge : Nat)
  | claimCommit (judge : Nat)
  | judge (judge : Nat) (host : Host)
  | finishBegin (judge : Nat)
  | finishSnapshot (judge : Nat)
  | finishUpdate (judge : Nat)
  | finishCommit (judge : Nat)
  | fail (judge : Nat)

namespace State
variable (s : State)

def setJudge (j : Nat) (judge : JudgeState) : State :=
  { s with judges := Function.update s.judges j judge }

def record (events : List Event) : State := { s with log := s.log ++ events }

/-- `now()`, the instant at which the transaction began. -/
def now (session : Session) : Timestamp := ((s.db.txs session).map Tx.now).getD s.clock

/-- An error of the database ends the transaction, and the judge with it. -/
def stop (j : Nat) : State := { s.setJudge j .stopped with db := s.db.rollback (.judge j) }

end State

def insertions (s : State) (session : Session) : List Event :=
  match s.db.txs session with
  | some tx => tx.writes.entries.map fun entry => .inserted entry.1 (jobOf entry.1 entry.2.toJobRow)
  | none => []

/-- The steps of an API session. A key that is taken, or a row that breaks a
constraint, is no insertion. -/
def apiStep (s : State) : Action → Option State
  | .apiBegin n => do
      let db ← s.db.start (.api n) s.clock
      return { s with db }
  | .apiInsert n id submission => do
      let row ← (accept (submission.row (s.now (.api n)))).toOption
      if id ∈ s.db.committed ∨ s.db.holder id ≠ none then none
      else
        let locked ← s.db.lock (.api n) id
        let db ← locked.write (.api n) id row
        return { s with db }
  | .apiCommit n => do
      let db ← s.db.commit (.api n)
      return { s with db }.record (insertions s (.api n))
  | .apiRollback n => some { s with db := s.db.rollback (.api n) }
  | _ => none

/-- The statement of `claim_job`. A row that another transaction has locked is
skipped; any other is locked, and taken if its newest version still waits. -/
def claimStep (s : State) (j : Nat) : Action → Option State
  | .claimBegin _ =>
      match s.judges j with
      | .idle => do
          let db ← s.db.start (.judge j) s.clock
          return { s.setJudge j .claimBegun with db }
      | _ => none
  | .claimSnapshot _ =>
      match s.judges j with
      | .claimBegun =>
          some (s.setJudge j (.claimVisiting (waitingIds (s.db.snapshot (.judge j)))))
      | _ => none
  | .claimVisit _ =>
      match s.judges j with
      | .claimVisiting [] => some (s.setJudge j (.claimed none))
      | .claimVisiting (id :: rest) =>
          match s.db.lock (.judge j) id with
          | none => some (s.setJudge j (.claimVisiting rest))
          | some db =>
              let waits := (db.newest (.judge j) id).any (·.state = .waiting)
              some { s.setJudge j (if waits then .claimSelected id else .claimVisiting rest) with db }
      | _ => none
  | .claimUpdate _ =>
      match s.judges j with
      | .claimSelected id => do
          let row ← s.db.newest (.judge j) id
          match accept (row.claim (s.now (.judge j))) with
          | .ok claimed =>
              let db ← s.db.write (.judge j) id claimed
              return { s.setJudge j (.claimed (some (jobOf id claimed.toJobRow))) with db }
          | .error check => return (s.stop j).record [.rejected j check]
      | _ => none
  | .claimCommit _ =>
      match s.judges j with
      | .claimed none => do
          let db ← s.db.commit (.judge j)
          return { s.setJudge j .idle with db }
      | .claimed (some job) => do
          let db ← s.db.commit (.judge j)
          return { s.setJudge j (.judging job) with db }.record [.claimed j job]
      | _ => none
  | _ => none

/-- The statement of `finish_job`. It waits for the lock of a row that it has found
running, and looks at the row again when it has it. -/
def finishStep (s : State) (j : Nat) : Action → Option State
  | .finishBegin _ =>
      match s.judges j with
      | .judged job verdicts => do
          let db ← s.db.start (.judge j) s.clock
          return { s.setJudge j (.finishBegun job verdicts) with db }
      | _ => none
  | .finishSnapshot _ =>
      match s.judges j with
      | .finishBegun job verdicts =>
          let found := ((s.db.snapshot (.judge j)).lookup job.id).any (·.state = .running)
          some (s.setJudge j (if found && verdicts ≠ [] then .finishVisiting job verdicts
            else .finished job verdicts false))
      | _ => none
  | .finishUpdate _ =>
      match s.judges j with
      | .finishVisiting job verdicts => do
          let locked ← s.db.lock (.judge j) job.id
          let row ← locked.newest (.judge j) job.id
          if row.state = .running then
            match accept (row.finish (s.now (.judge j)) verdicts) with
            | .ok finished =>
                let db ← locked.write (.judge j) job.id finished
                return { s.setJudge j (.finished job verdicts true) with db }
            | .error check => return (s.stop j).record [.rejected j check]
          else return { s.setJudge j (.finished job verdicts false) with db := locked }
      | _ => none
  | .finishCommit _ =>
      match s.judges j with
      | .finished job verdicts answer => do
          let db ← s.db.commit (.judge j)
          return { s.setJudge j .idle with db }.record [.finished j job.id verdicts answer]
      | _ => none
  | _ => none

/-- The loop of `main`. An error of `judge` is written to the log of the process, and
the loop goes on; one of the database ends the process, at any point. -/
def step (s : State) : Action → Option State
  | .tick elapsed => some { s with clock := s.clock + elapsed }
  | .judge j host =>
      match s.judges j with
      | .judging job =>
          let next : JudgeState := match judge host job with
            | .ok verdicts => .judged job verdicts
            | .error _ => .idle
          some ((s.setJudge j next).record [.judged j host job])
      | _ => none
  | .fail j => some (s.stop j)
  | a@(.apiBegin _) | a@(.apiInsert _ _ _) | a@(.apiCommit _) | a@(.apiRollback _) => apiStep s a
  | a@(.claimBegin j) | a@(.claimSnapshot j) | a@(.claimVisit j) | a@(.claimUpdate j)
  | a@(.claimCommit j) => claimStep s j a
  | a@(.finishBegin j) | a@(.finishSnapshot j) | a@(.finishUpdate j) | a@(.finishCommit j) =>
      finishStep s j a

def machine : Machine State Action := ⟨step⟩

end Pals.Queue
