import Mathlib.Logic.Relation
import Pals.Queue.Preservation

/-! What a step does to the database, as operations of one session, and what holds of
locks and of row versions because of it. -/
namespace Pals.Queue
open Pals.Library Pals.Contracts Pals.Judge

def EnqueuedBy (clock : Timestamp) (row : Row) : Prop := row.enqueuedAt ≤ clock

/-- A lock belongs to a transaction in progress, and no row is from the future. -/
structure Tidy (s : State) : Prop where
  locks : s.db.LocksHeld
  enqueued : s.db.All (EnqueuedBy s.clock)

section Steps
variable {s t : State} {ledger : Ledger} {j n : Nat} {a : Action} {place : JudgeState}
variable {db : Db Session Uuid Row} {events : List Event}

theorem Unwritten.running (h : Unwritten s j) : s.db.txs (.judge j) ≠ none := by
  obtain ⟨now, htx⟩ := h
  simp [htx]

theorem ClaimedBefore.running {id : Uuid} (h : ClaimedBefore s j id) :
    s.db.txs (.judge j) ≠ none := by
  obtain ⟨now, htx, _⟩ := h
  simp [htx]

theorem JudgeStep.ops (move : JudgeStep s j a (s.judges j) place db events) (inv : Inv s ledger)
    (enqueued : s.db.All (EnqueuedBy s.clock)) :
    Relation.ReflTransGen (Db.Op (EnqueuedBy s.clock) (.judge j)) s.db db := by
  have situation := inv.judges j
  generalize s.judges j = before at move situation
  cases move with
  | claimBegin db started => exact .single (.start _ started)
  | finishBegin job verdicts db started => exact .single (.start _ started)
  | pass id rest db locked => exact .single (.lock id (Unwritten.running situation) locked)
  | select id rest db row locked => exact .single (.lock id (Unwritten.running situation) locked)
  | claim id row claimed db newest accepted written =>
    have hrow : EnqueuedBy s.clock row := enqueued.newest newest
    refine .single (.write id claimed ?_ written)
    rw [EnqueuedBy, accept_eq_ok.mp accepted]
    exact hrow
  | finish job verdicts row finished locked db lock newest running accepted written =>
    have hlock := Db.Op.lock (P := EnqueuedBy s.clock) job.id situation.1.running lock
    have hrow : EnqueuedBy s.clock row := (hlock.all enqueued).newest newest
    refine .tail (.single hlock) (.write job.id finished ?_ written)
    rw [EnqueuedBy, accept_eq_ok.mp accepted]
    exact hrow
  | finishPasses job verdicts row locked lock =>
    exact .single (.lock job.id situation.1.running lock)
  | leave db committed => exact .single (.commit committed)
  | take job db committed => exact .single (.commit committed)
  | settle job verdicts answer db committed => exact .single (.commit committed)
  | rejectClaim | rejectFinish | stop => exact .single (.rollback rfl)
  | _ => exact .refl

theorem ApiStep.ops (move : ApiStep s n a db events) (inv : Inv s ledger) :
    Relation.ReflTransGen (Db.Op (EnqueuedBy s.clock) (.api n)) s.db db := by
  cases move with
  | begin db started => exact .single (.start _ started)
  | insert id submission row locked db accepted new lock written =>
    obtain ⟨_, htxs, _⟩ := Db.lock_eq_some lock
    obtain ⟨tx, htx, _⟩ := Db.write_eq_some written
    rw [htxs] at htx
    refine .tail (.single (.lock id (by simp [htx]) lock)) (.write id row ?_ written)
    rw [EnqueuedBy, accept_eq_ok.mp accepted, Submission.row, State.now_eq htx]
    exact inv.begun _ tx htx
  | commit db committed => exact .single (.commit committed)
  | rollback => exact .single (.rollback rfl)

theorem Tidy.ops (tidy : Tidy s) {session : Session} {judges : Nat → JudgeState}
    (ops : Relation.ReflTransGen (Db.Op (EnqueuedBy s.clock) session) s.db db) :
    Tidy (s.after judges db events) := by
  suffices h : db.LocksHeld ∧ db.All (EnqueuedBy s.clock) from ⟨h.1, h.2⟩
  induction ops with
  | refl => exact ⟨tidy.locks, tidy.enqueued⟩
  | tail _ op ih => exact ⟨op.locksHeld ih.1, op.all ih.2⟩

theorem tidy_step (inv : Inv s ledger) (tidy : Tidy s) (h : machine.step s a = some t) :
    Tidy t := by
  cases step_cases h with
  | tick elapsed =>
    have later : s.clock ≤ s.clock + elapsed := Int.le_add_of_nonneg_right (Int.natCast_nonneg _)
    exact ⟨tidy.locks, tidy.enqueued.mono fun row hrow => le_trans hrow later⟩
  | api n db events move => exact tidy.ops (move.ops inv)
  | judge j place db events move => exact tidy.ops (move.ops inv tidy.enqueued)

end Steps

def Sound (s : State) : Prop := (∃ ledger, Inv s ledger) ∧ Tidy s

theorem init_sound : Sound .init :=
  ⟨⟨_, init_inv⟩, fun _ _ h => (nomatch h), fun _ _ h => (nomatch h), fun _ _ h => (nomatch h)⟩

theorem step_sound (s : State) (a : Action) (t : State) (sound : Sound s)
    (h : machine.step s a = some t) : Sound t := by
  obtain ⟨⟨ledger, inv⟩, tidy⟩ := sound
  exact ⟨step_inv s a t ⟨ledger, inv⟩ h, tidy_step inv tidy h⟩

theorem sound_of_run {s t : State} {schedule : List Action} (sound : Sound s)
    (h : machine.run s schedule = some t) : Sound t := Machine.run_invariant step_sound sound h

/-- What a transaction may have written to a row: a new one, or the claim or the finish
of the version that is committed, with the verdicts that its judge has obtained on it. -/
def Supersedes (s : State) (now : Timestamp) (id : Uuid) (written : Row) : Session → Prop
  | .api _ => s.db.committed.lookup id = none ∧ written.state = .waiting
  | .judge j => ∃ row, s.db.committed.lookup id = some row ∧
      (Claims row now written ∨ ∃ verdicts, Finishes verdicts row now written ∧
        Obtained s j (jobOf id row.toJobRow) verdicts)

/-- No version that is about to be committed was made from one that is out of date, and
no two sessions have written to the same row. -/
def NoneOutdated (s : State) : Prop :=
  ∀ session tx id written, s.db.txs session = some tx → tx.writes.lookup id = some written →
    Supersedes s tx.now id written session ∧
      ∀ other tx', s.db.txs other = some tx' → id ∈ tx'.writes → other = session

section Written
variable {s : State} {ledger : Ledger} {j : Nat} {tx : Tx Uuid Row} {id : Uuid} {written : Row}

theorem Unwritten.lookup (h : Unwritten s j) (htx : s.db.txs (.judge j) = some tx) :
    tx.writes.lookup id = none := by
  obtain ⟨now, htx'⟩ := h
  cases htx.symm.trans htx'
  rfl

theorem Rewrites.lookup {key : Uuid} {write : Row → Timestamp → Row → Prop}
    (h : Rewrites s j key write) (htx : s.db.txs (.judge j) = some tx)
    (hrow : tx.writes.lookup id = some written) :
    id = key ∧ ∃ row, s.db.committed.lookup key = some row ∧ write row tx.now written := by
  obtain ⟨now, row, written', htx', hcommitted, hwrite⟩ := h
  cases htx.symm.trans htx'
  obtain ⟨rfl, rfl⟩ | ⟨_, hempty⟩ := Jobs.lookup_insert hrow
  · exact ⟨rfl, row, hcommitted, hwrite⟩
  · cases hempty

theorem Inv.supersedes_judge (inv : Inv s ledger) (htx : s.db.txs (.judge j) = some tx)
    (hrow : tx.writes.lookup id = some written) : Supersedes s tx.now id written (.judge j) := by
  have situation := inv.judges j
  cases hj : s.judges j with rw [hj] at situation
  | idle | stopped => cases htx.symm.trans situation
  | judging job | judged job verdicts => cases htx.symm.trans situation.1
  | claimBegun | claimVisiting rest => cases hrow.symm.trans (Unwritten.lookup situation htx)
  | claimSelected key => cases hrow.symm.trans (situation.1.lookup htx)
  | claimed job =>
    cases job with
    | none => cases hrow.symm.trans (Unwritten.lookup situation htx)
    | some job =>
      obtain ⟨rfl, row, hcommitted, hclaims, _⟩ := Rewrites.lookup situation htx hrow
      exact ⟨row, hcommitted, .inl hclaims⟩
  | finishBegun job verdicts | finishVisiting job verdicts =>
    obtain ⟨now, htx', _⟩ := situation.1
    cases hrow.symm.trans (Unwritten.lookup ⟨now, htx'⟩ htx)
  | finished job verdicts answer =>
    obtain ⟨_, rewrites, taken, obtained⟩ := situation
    obtain ⟨rfl, row, hcommitted, hfinishes⟩ := rewrites.lookup htx hrow
    obtain ⟨row', hcommitted', _, hjob⟩ := inv.row_of_taken taken
    cases hcommitted.symm.trans hcommitted'
    exact ⟨row, hcommitted, .inr ⟨verdicts, hfinishes, hjob ▸ obtained⟩⟩

theorem Inv.supersedes (inv : Inv s ledger) {session : Session}
    (htx : s.db.txs session = some tx) (hrow : tx.writes.lookup id = some written) :
    Supersedes s tx.now id written session := by
  cases session with
  | api n => exact inv.inserts n tx htx id written hrow
  | judge j => exact inv.supersedes_judge htx hrow

end Written

theorem Sound.noneOutdated {s : State} (sound : Sound s) : NoneOutdated s := by
  obtain ⟨⟨ledger, inv⟩, _⟩ := sound
  intro session tx id written htx hrow
  refine ⟨inv.supersedes htx hrow, fun other tx' htx' hmem => ?_⟩
  have mine := s.db.owned session tx htx id (AList.lookup_isSome.mp (by simp [hrow]))
  exact Option.some.inj ((s.db.owned other tx' htx' id hmem).symm.trans mine)

theorem no_write_is_outdated (schedule : List Action) :
    machine.Always NoneOutdated .init schedule :=
  Machine.always step_sound (fun _ => Sound.noneOutdated) init_sound schedule

end Pals.Queue
