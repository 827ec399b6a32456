import Pals.Library.WorkQueue
import Pals.Queue.MainLoop

/-! What holds in every state of the system: the table agrees with a queue of work
that the committed statements have built up, and each judge has of it what it needs
for its next step. -/
namespace Pals.Queue
open Pals.Library Pals.Contracts Pals.Judge

abbrev Entry := WorkQueue.Entry Nat Job (List Verdict)
abbrev Ledger := WorkQueue.Ledger Uuid Nat Job (List Verdict)

def Event.act : Event → Option (WorkQueue.Act Uuid Nat Job (List Verdict))
  | inserted id job => some (.submit id job)
  | claimed j job => some (.take j job.id)
  | finished j id verdicts true => some (.settle j id verdicts)
  | _ => none

def State.acts (s : State) : List (WorkQueue.Act Uuid Nat Job (List Verdict)) :=
  s.log.filterMap Event.act

theorem settle_mem_iff {s : State} {j : Nat} {id : Uuid} {verdicts : List Verdict} :
    .settle j id verdicts ∈ s.acts ↔ .finished j id verdicts true ∈ s.log := by
  rw [State.acts, List.mem_filterMap]
  constructor
  · rintro ⟨event, hmem, hact⟩
    cases event with
    | finished j' id' verdicts' answer =>
      cases answer <;> cases hact
      exact hmem
    | _ => cases hact
  · exact fun hmem => ⟨_, hmem, rfl⟩

def Represents (id : Uuid) (row : Row) : Entry → Prop
  | .waiting job => job = jobOf id row.toJobRow ∧ row.state = .waiting
  | .taken _ job => job = jobOf id row.toJobRow ∧ row.state = .running
  | .settled _ job verdicts =>
      job = jobOf id row.toJobRow ∧ row.state = .done ∧ row.result = some (resultOf verdicts)

def Obtained (s : State) (j : Nat) (job : Job) (verdicts : List Verdict) : Prop :=
  ∃ host, .judged j host job ∈ s.log ∧ judge host job = .ok verdicts

def Unwritten (s : State) (j : Nat) : Prop :=
  ∃ now, s.db.txs (.judge j) = some ⟨now, ∅⟩

/-- The transaction has written to one row, a version of which is committed. -/
def Rewrites (s : State) (j : Nat) (id : Uuid) (write : Row → Timestamp → Row → Prop) : Prop :=
  ∃ now row written, s.db.txs (.judge j) = some ⟨now, AList.insert id written ∅⟩ ∧
    s.db.committed.lookup id = some row ∧ write row now written

def Claims (row : Row) (now : Timestamp) (written : Row) : Prop :=
  row.state = .waiting ∧ written.toJobRow = row.claim now

def Finishes (verdicts : List Verdict) (row : Row) (now : Timestamp) (written : Row) : Prop :=
  row.state = .running ∧ written.toJobRow = row.finish now verdicts

def ClaimedBefore (s : State) (j : Nat) (id : Uuid) : Prop :=
  ∃ now, s.db.txs (.judge j) = some ⟨now, ∅⟩ ∧ ∀ row claimedAt,
    s.db.committed.lookup id = some row → row.claimedAt = some claimedAt → claimedAt ≤ now

/-- What a judge has of the database and of the queue, at each place of its loop. -/
def Situation (s : State) (ledger : Ledger) (j : Nat) : JudgeState → Prop
  | .idle | .stopped => s.db.txs (.judge j) = none
  | .claimBegun | .claimVisiting _ | .claimed none => Unwritten s j
  | .claimSelected id => Unwritten s j ∧ s.db.holder id = some (.judge j) ∧
      ∃ row, s.db.committed.lookup id = some row ∧ row.state = .waiting
  | .claimed (some job) =>
      Rewrites s j job.id fun row now written =>
        Claims row now written ∧ job = jobOf job.id row.toJobRow
  | .judging job => s.db.txs (.judge j) = none ∧ ledger job.id = some (.taken j job)
  | .judged job verdicts => s.db.txs (.judge j) = none ∧ ledger job.id = some (.taken j job) ∧
      Obtained s j job verdicts
  | .finishBegun job verdicts | .finishVisiting job verdicts => ClaimedBefore s j job.id ∧
      ledger job.id = some (.taken j job) ∧ Obtained s j job verdicts
  | .finished job verdicts answer => answer = true ∧ Rewrites s j job.id (Finishes verdicts) ∧
      ledger job.id = some (.taken j job) ∧ Obtained s j job verdicts

structure Inv (s : State) (ledger : Ledger) : Prop where
  trace : WorkQueue.machine.run (fun _ => none) s.acts = some ledger
  rows : ∀ id, Option.Rel (Represents id) (s.db.committed.lookup id) (ledger id)
  taken : ∀ id j job, ledger id = some (.taken j job) → .claimed j job ∈ s.log
  settled : ∀ id j job verdicts, ledger id = some (.settled j job verdicts) →
    .claimed j job ∈ s.log ∧ Obtained s j job verdicts
  judges : ∀ j, Situation s ledger j (s.judges j)
  inserts : ∀ n tx, s.db.txs (.api n) = some tx → ∀ id row, tx.writes.lookup id = some row →
    s.db.committed.lookup id = none ∧ row.state = .waiting
  begun : ∀ session tx, s.db.txs session = some tx → tx.now ≤ s.clock
  claimed : ∀ id row claimedAt, s.db.committed.lookup id = some row →
    row.claimedAt = some claimedAt → claimedAt ≤ s.clock

section Entries
variable {s : State} {ledger : Ledger}

theorem Inv.situation (inv : Inv s ledger) {j : Nat} {place : JudgeState}
    (hj : s.judges j = place) : Situation s ledger j place := hj ▸ inv.judges j

theorem Inv.entry_of_row (inv : Inv s ledger) {id : Uuid} {row : Row}
    (hrow : s.db.committed.lookup id = some row) :
    ∃ entry, ledger id = some entry ∧ Represents id row entry := by
  have hrel := inv.rows id
  rw [hrow] at hrel
  exact rel_some_left hrel

theorem Inv.row_of_entry (inv : Inv s ledger) {id : Uuid} {entry : Entry}
    (hentry : ledger id = some entry) :
    ∃ row, s.db.committed.lookup id = some row ∧ Represents id row entry := by
  have hrel := inv.rows id
  rw [hentry] at hrel
  exact rel_some_right hrel

theorem Inv.row_of_taken (inv : Inv s ledger) {id : Uuid} {j : Nat} {job : Job}
    (h : ledger id = some (.taken j job)) : ∃ row,
    s.db.committed.lookup id = some row ∧ row.state = .running ∧ job = jobOf id row.toJobRow := by
  obtain ⟨row, hrow, hjob, hrunning⟩ := inv.row_of_entry h
  exact ⟨row, hrow, hrunning, hjob⟩

theorem Inv.entry_of_waiting (inv : Inv s ledger) {id : Uuid} {row : Row}
    (hrow : s.db.committed.lookup id = some row) (hwaiting : row.state = .waiting) :
    ledger id = some (.waiting (jobOf id row.toJobRow)) := by
  obtain ⟨entry, hentry, represents⟩ := inv.entry_of_row hrow
  cases entry with
  | waiting job => rw [hentry, represents.1]
  | taken j job => cases hwaiting.symm.trans represents.2
  | settled j job verdicts => cases hwaiting.symm.trans represents.2.1

theorem Inv.entry_of_running (inv : Inv s ledger) {id : Uuid} {row : Row}
    (hrow : s.db.committed.lookup id = some row) (hrunning : row.state = .running) :
    ∃ j, ledger id = some (.taken j (jobOf id row.toJobRow)) := by
  obtain ⟨entry, hentry, represents⟩ := inv.entry_of_row hrow
  cases entry with
  | waiting job => cases hrunning.symm.trans represents.2
  | taken j job => exact ⟨j, by rw [hentry, represents.1]⟩
  | settled j job verdicts => cases hrunning.symm.trans represents.2.1

theorem Inv.entry_of_none (inv : Inv s ledger) {id : Uuid}
    (hnone : s.db.committed.lookup id = none) : ledger id = none := by
  cases hentry : ledger id with
  | none => rfl
  | some entry =>
    obtain ⟨row, hrow, _⟩ := inv.row_of_entry hentry
    cases hnone.symm.trans hrow

theorem Inv.settled_iff (inv : Inv s ledger) {j : Nat} {id : Uuid} {verdicts : List Verdict} :
    (∃ job, ledger id = some (.settled j job verdicts)) ↔
      .finished j id verdicts true ∈ s.log := by
  constructor
  · rintro ⟨job, hentry⟩
    have accounts := WorkQueue.run_accounts inv.trace id
    rw [hentry] at accounts
    exact settle_mem_iff.mp accounts.2.2
  · exact fun hmem => WorkQueue.run_settled inv.trace (settle_mem_iff.mpr hmem)

end Entries

/-- What leaves a judge as it is: its own part of the database, and the jobs that it
has taken. -/
structure Untouched (j : Nat) (s t : State) (ledger ledger' : Ledger) : Prop where
  db : s.db.Undisturbed (.judge j) t.db
  taken : ∀ id job, ledger id = some (.taken j job) → ledger' id = some (.taken j job) ∧
    t.db.committed.lookup id = s.db.committed.lookup id
  log : s.log ⊆ t.log

theorem Obtained.mono {s t : State} {j : Nat} {job : Job} {verdicts : List Verdict}
    (h : Obtained s j job verdicts) (log : s.log ⊆ t.log) : Obtained t j job verdicts := by
  obtain ⟨host, hmem, hjudge⟩ := h
  exact ⟨host, log hmem, hjudge⟩

section Untouched
variable {s t : State} {ledger ledger' : Ledger} {j : Nat}

theorem Unwritten.untouched (h : Unwritten s j) (u : Untouched j s t ledger ledger') :
    Unwritten t j := by
  obtain ⟨now, htx⟩ := h
  exact ⟨now, u.db.tx.trans htx⟩

theorem Rewrites.untouched {id : Uuid} {write : Row → Timestamp → Row → Prop}
    (h : Rewrites s j id write) (u : Untouched j s t ledger ledger') : Rewrites t j id write := by
  obtain ⟨now, row, written, htx, hrow, hwrite⟩ := h
  have held := s.db.owned _ _ htx id ((AList.mem_insert _).mpr (.inl rfl))
  exact ⟨now, row, written, u.db.tx.trans htx, (u.db.row id held).trans hrow, hwrite⟩

theorem ClaimedBefore.untouched {job : Job} (h : ClaimedBefore s j job.id)
    (taken : ledger job.id = some (.taken j job)) (u : Untouched j s t ledger ledger') :
    ClaimedBefore t j job.id := by
  obtain ⟨now, htx, hclaimed⟩ := h
  refine ⟨now, u.db.tx.trans htx, fun row claimedAt hrow => hclaimed row claimedAt ?_⟩
  rw [← (u.taken _ _ taken).2, hrow]

theorem Situation.untouched {judge : JudgeState} (h : Situation s ledger j judge)
    (u : Untouched j s t ledger ledger') : Situation t ledger' j judge := by
  cases judge with
  | idle | stopped => exact u.db.tx.trans h
  | claimBegun | claimVisiting rest => exact Unwritten.untouched h u
  | claimSelected id =>
    obtain ⟨unwritten, held, row, hrow, hwaiting⟩ := h
    exact ⟨unwritten.untouched u, u.db.held id held, row, (u.db.row id held).trans hrow, hwaiting⟩
  | claimed job =>
    cases job with
    | none => exact Unwritten.untouched h u
    | some job => exact Rewrites.untouched h u
  | judging job => exact ⟨u.db.tx.trans h.1, (u.taken _ _ h.2).1⟩
  | judged job verdicts =>
    exact ⟨u.db.tx.trans h.1, (u.taken _ _ h.2.1).1, h.2.2.mono u.log⟩
  | finishBegun job verdicts | finishVisiting job verdicts =>
    exact ⟨h.1.untouched h.2.1 u, (u.taken _ _ h.2.1).1, h.2.2.mono u.log⟩
  | finished job verdicts answer =>
    exact ⟨h.1, h.2.1.untouched u, (u.taken _ _ h.2.2.1).1, h.2.2.2.mono u.log⟩

end Untouched

/-- What a step of one session has to show: its own part, and what becomes of the
table and of the queue. The others are as they were. -/
structure SessionStep (who : Session) (s t : State) (ledger ledger' : Ledger) : Prop where
  others : ∀ other, other ≠ who → s.db.Undisturbed other t.db
  judges : ∀ j, Session.judge j ≠ who → t.judges j = s.judges j
  taken : ∀ j id job, Session.judge j ≠ who → ledger id = some (.taken j job) →
    ledger' id = some (.taken j job) ∧ t.db.committed.lookup id = s.db.committed.lookup id
  log : s.log ⊆ t.log
  clock : t.clock = s.clock
  begun : ∀ tx, t.db.txs who = some tx → tx.now ≤ s.clock
  judge : ∀ j, Session.judge j = who → Situation t ledger' j (t.judges j)
  inserts : ∀ n, Session.api n = who → ∀ tx, t.db.txs who = some tx → ∀ id row,
    tx.writes.lookup id = some row → t.db.committed.lookup id = none ∧ row.state = .waiting

namespace SessionStep
variable {who : Session} {s t : State} {ledger ledger' : Ledger}

theorem judgesInv (h : SessionStep who s t ledger ledger') (inv : Inv s ledger) (j : Nat) :
    Situation t ledger' j (t.judges j) := by
  by_cases hj : Session.judge j = who
  · exact h.judge j hj
  · rw [h.judges j hj]
    exact (inv.judges j).untouched
      ⟨h.others _ hj, fun id job => h.taken j id job hj, h.log⟩

theorem insertsInv (h : SessionStep who s t ledger ledger') (inv : Inv s ledger) (n : Nat)
    (tx : Tx Uuid Row) (htx : t.db.txs (.api n) = some tx) (id : Uuid) (row : Row)
    (hrow : tx.writes.lookup id = some row) :
    t.db.committed.lookup id = none ∧ row.state = .waiting := by
  by_cases hn : Session.api n = who
  · subst hn
    exact h.inserts n rfl tx htx id row hrow
  · have u := h.others _ hn
    rw [u.tx] at htx
    have held := s.db.owned _ _ htx id (AList.lookup_isSome.mp (by simp [hrow]))
    rw [u.row id held]
    exact inv.inserts n tx htx id row hrow

theorem begunInv (h : SessionStep who s t ledger ledger') (inv : Inv s ledger) (session : Session)
    (tx : Tx Uuid Row) (htx : t.db.txs session = some tx) : tx.now ≤ t.clock := by
  rw [h.clock]
  by_cases hs : session = who
  · subst hs
    exact h.begun tx htx
  · rw [(h.others _ hs).tx] at htx
    exact inv.begun session tx htx

/-- A step that commits something has to show what becomes of the table and of the
queue. -/
theorem commitInv (h : SessionStep who s t ledger ledger') (inv : Inv s ledger)
    (trace : WorkQueue.machine.run (fun _ => none) t.acts = some ledger')
    (rows : ∀ id, Option.Rel (Represents id) (t.db.committed.lookup id) (ledger' id))
    (taken : ∀ id j job, ledger' id = some (.taken j job) → .claimed j job ∈ t.log)
    (settled : ∀ id j job verdicts, ledger' id = some (.settled j job verdicts) →
      .claimed j job ∈ t.log ∧ Obtained t j job verdicts)
    (claimed : ∀ id row claimedAt, t.db.committed.lookup id = some row →
      row.claimedAt = some claimedAt → claimedAt ≤ t.clock) : Inv t ledger' :=
  { trace, rows, taken, settled, claimed
    judges := h.judgesInv inv
    inserts := h.insertsInv inv
    begun := h.begunInv inv }

theorem inv (h : SessionStep who s t ledger ledger) (inv : Inv s ledger)
    (committed : t.db.committed = s.db.committed) (acts : t.acts = s.acts) : Inv t ledger := by
  refine h.commitInv inv (acts ▸ inv.trace) (committed ▸ inv.rows)
    (fun id j job hentry => h.log (inv.taken id j job hentry)) (fun id j job verdicts hentry => ?_)
    (fun id row claimedAt hrow hclaimed => ?_)
  · obtain ⟨hclaimed, hobtained⟩ := inv.settled id j job verdicts hentry
    exact ⟨h.log hclaimed, hobtained.mono h.log⟩
  · rw [committed] at hrow
    rw [h.clock]
    exact inv.claimed id row claimedAt hrow hclaimed

end SessionStep

end Pals.Queue
