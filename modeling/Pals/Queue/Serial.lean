import Pals.Queue.OldestFirst
import Pals.Queue.Statements

/-! Calls that have the database for themselves. Each does to the table what its
statement says, and one judge is enough to empty the queue. -/
namespace Pals.Queue
open Pals.Library Pals.Contracts Pals.Judge

def emptyCall (j : Nat) : List Action :=
  [.claimBegin j, .claimSnapshot j, .claimVisit j, .claimCommit j]

def finishCall (j : Nat) : List Action :=
  [.finishBegin j, .finishSnapshot j, .finishUpdate j, .finishCommit j]

def insertCall (n : Nat) (id : Uuid) (submission : Submission) : List Action :=
  [.apiBegin n, .apiInsert n id submission, .apiCommit n]

/-- The calls that can be made leave the table as the statements do. -/
structure Serial (s : State) : Prop where
  claim : ∀ j, s.judges j = .idle → ∃ after answer,
    claimJob s.clock s.db.committed = .ok (after, answer) ∧
    ∃ t, machine.run s (if answer.isSome then claimCall j else emptyCall j) = some t ∧
      t.db.committed = after ∧ NoTransaction t ∧
      t.judges j = answer.elim .idle .judging
  finish : ∀ j job verdicts, s.judges j = .judged job verdicts → ∃ after,
    finishJob s.clock job.id verdicts s.db.committed = .ok (after, true) ∧
    ∃ t, machine.run s (finishCall j) = some t ∧ t.db.committed = after ∧ NoTransaction t ∧
      t.judges j = .idle
  insert : ∀ n id submission,
    (machine.run s (insertCall n id submission) = none ↔ id ∈ s.db.committed ∨
      ¬(1 ≤ submission.source.utf8ByteSize ∧ submission.source.utf8ByteSize ≤ 1024 * 1024)) ∧
    ∀ t, machine.run s (insertCall n id submission) = some t → NoTransaction t ∧
      ∃ row, accept (submission.row s.clock) = .ok row ∧
        insertJob id row s.db.committed = some t.db.committed

section Calls
variable {s t : State} {j : Nat} {id : Uuid} {rest : List Uuid}

theorem claimJob_of_nil {now : Timestamp} {jobs : Jobs} (hids : waitingIds jobs = []) :
    claimJob now jobs = .ok (jobs, none) := by
  simp only [claimJob, hids, List.head?_nil, Option.bind_none]

theorem claimJob_of_cons {now : Timestamp} {jobs : Jobs} {row claimed : Row}
    (hids : waitingIds jobs = id :: rest) (hrow : jobs.lookup id = some row)
    (accepted : accept (row.claim now) = .ok claimed) :
    claimJob now jobs = .ok (jobs.insert id claimed, some (jobOf id claimed.toJobRow)) := by
  simp only [claimJob, hids, List.head?_cons, Option.bind_some, hrow, Option.map_some, accepted]
  rfl

theorem NoTransaction.free (none : NoTransaction s) (tidy : Tidy s) (id : Uuid) :
    s.db.holder id = Option.none := by
  cases hheld : s.db.holder id with
  | none => rfl
  | some session => exact absurd (none session) (tidy.locks id session hheld)

theorem noTransaction_of {db db' : Db Session Uuid Row} {who : Session}
    (others : ∀ other, other ≠ who → db'.txs other = db.txs other) (ended : db'.txs who = none)
    (none : ∀ session, db.txs session = Option.none) (session : Session) :
    db'.txs session = Option.none := by
  by_cases hwho : session = who
  · exact hwho ▸ ended
  · exact (others session hwho).trans (none session)

theorem emptyCall_runs (none : NoTransaction s) (hj : s.judges j = .idle)
    (hids : waitingIds s.db.committed = []) : ∃ t, machine.run s (emptyCall j) = some t ∧
      t.db.committed = s.db.committed ∧ NoTransaction t ∧ t.judges j = .idle := by
  obtain ⟨u, h⟩ := visiting_of_idle none hj
  have hu : u.judges j = .claimVisiting [] := by rw [h.judges, Function.update_self, hids]
  obtain ⟨db, hcommit⟩ := Db.commit_succeeds h.tx
  obtain ⟨tx, htx, hended, hcommitted⟩ := Db.commit_eq_some hcommit
  cases h.tx.symm.trans htx
  refine ⟨{ u with db, judges := Function.update u.judges j .idle }, ?_,
    hcommitted.trans (AList.empty_union.trans h.committed),
    noTransaction_of (fun other hne => (Db.commit_undisturbed hcommit hne).tx.trans
      ((h.sole other hne).trans (none other).symm)) hended none, Function.update_self ..⟩
  change machine.run s ([.claimBegin j, .claimSnapshot j] ++ _) = _
  rw [machine.run_append, h.run]
  simp [Machine.run, machine, step, claimStep, hu, State.setJudge, hcommit]

theorem finishCall_runs (sound : Sound s) (none : NoTransaction s) {job : Job}
    {verdicts : List Verdict} (hj : s.judges j = .judged job verdicts) :
    ∃ t row finished, machine.run s (finishCall j) = some t ∧
      s.db.committed.lookup job.id = some row ∧ row.state = .running ∧ verdicts ≠ [] ∧
      accept (row.finish s.clock verdicts) = .ok finished ∧
      t.db.committed = s.db.committed.insert job.id finished ∧ NoTransaction t ∧
      t.judges = Function.update s.judges j .idle ∧
      t.log = s.log ++ [.finished j job.id verdicts true] ∧ t.clock = s.clock := by
  obtain ⟨⟨ledger, inv⟩, tidy⟩ := sound
  obtain ⟨_, htaken, host, _, hjudge⟩ := inv.situation hj
  obtain ⟨row, hrow, hrunning, _⟩ := inv.row_of_taken htaken
  obtain ⟨claimedAt, hclaimed⟩ :=
    Option.isSome_iff_exists.mp (row.claimed_iff.mpr (.inl hrunning))
  obtain ⟨finished, haccept⟩ := (finish_accepted_iff row hclaimed s.clock verdicts).mpr
    (inv.claimed job.id row claimedAt hrow hclaimed)
  have hnonempty : verdicts ≠ [] := fun hnil => judge_ne_nil (hnil ▸ hjudge)
  obtain ⟨begun, locked, db, last, hwrite⟩ :=
    Db.oneWrite_succeeds (none (.judge j)) (.inl (none.free tidy job.id)) s.clock finished
  have hsnapshot : (begun.snapshot (.judge j)).lookup job.id = some row := by
    rw [Db.snapshot_of_unwritten hwrite.begun_tx, hwrite.begun_committed, hrow]
  have hnewest : locked.newest (.judge j) job.id = some row := by
    rw [Db.newest_of_unwritten hwrite.locked_tx, hwrite.locked_committed, hrow]
  have hnow (u : State) (hu : u.db = begun) : u.now (.judge j) = s.clock :=
    State.now_eq (hu ▸ hwrite.begun_tx)
  refine ⟨{ s with
      db := last
      judges := Function.update s.judges j .idle
      log := s.log ++ [.finished j job.id verdicts true] }, row, finished, ?_, hrow, hrunning,
    hnonempty, haccept, hwrite.last_eq.2,
    noTransaction_of (fun other => hwrite.others) hwrite.last_eq.1 none, rfl, rfl, rfl⟩
  simp [Machine.run, machine, step, finishStep, finishCall, hj, hwrite.start, State.setJudge,
    hsnapshot, hrunning, hnonempty, hwrite.lock, hnewest, hnow, haccept, hwrite.write,
    hwrite.commit, State.record]

theorem insertCall_runs (tidy : Tidy s) (none : NoTransaction s) {n : Nat}
    {submission : Submission} {row : Row}
    (accepted : accept (submission.row s.clock) = .ok row) (new : id ∉ s.db.committed) :
    ∃ t, machine.run s (insertCall n id submission) = some t ∧
      t.db.committed = s.db.committed.insert id row ∧ NoTransaction t ∧ t.judges = s.judges := by
  have hfree := none.free tidy id
  obtain ⟨begun, locked, db, last, hwrite⟩ :=
    Db.oneWrite_succeeds (none (.api n)) (.inl hfree) s.clock row
  have hnow (u : State) (hu : u.db = begun) : u.now (.api n) = s.clock :=
    State.now_eq (hu ▸ hwrite.begun_tx)
  refine ⟨{ s with
      db := last
      log := s.log ++ insertions { s with db } (.api n) }, ?_, hwrite.last_eq.2,
    noTransaction_of (fun other => hwrite.others) hwrite.last_eq.1 none, rfl⟩
  simp [Machine.run, machine, step, apiStep, insertCall, hwrite.start, hnow, accepted,
    Except.toOption, hwrite.begun_committed, new, Db.start_holder hwrite.start, hfree, hwrite.lock,
    hwrite.write, hwrite.commit, State.record]

theorem insertCall_stops {n : Nat} {submission : Submission}
    (refused : id ∈ s.db.committed ∨ ¬∃ row, accept (submission.row s.clock) = .ok row) :
    machine.run s (insertCall n id submission) = none := by
  rw [Option.eq_none_iff_forall_ne_some]
  intro t hrun
  obtain ⟨u, hbegin, hrest⟩ := machine.run_cons_eq_some.mp hrun
  obtain ⟨v, hinsert, _⟩ := machine.run_cons_eq_some.mp hrest
  obtain ⟨db, hstart, hu⟩ := Option.bind_eq_some_iff.mp hbegin
  cases hu
  obtain ⟨_, htx, hcommitted⟩ := Db.start_eq_some hstart
  obtain ⟨row, haccept, hv⟩ := Option.bind_eq_some_iff.mp hinsert
  rcases refused with taken | refused
  · rw [if_pos (.inl (hcommitted ▸ taken))] at hv
    cases hv
  · rw [State.now_eq htx] at haccept
    exact refused ⟨row, toOption_eq_some.mp haccept⟩

theorem serial_of_sound (sound : Sound s) (none : NoTransaction s) : Serial s where
  claim j hj := by
    cases hids : waitingIds s.db.committed with
    | nil =>
      obtain ⟨t, hrun, hcommitted, hnone, hidle⟩ := emptyCall_runs none hj hids
      exact ⟨_, Option.none, claimJob_of_nil hids, t, hrun, hcommitted, hnone, hidle⟩
    | cons id rest =>
      obtain ⟨t, row, claimed, hrun, hrow, haccept, hcommitted, hnone, hjudges, _⟩ :=
        claimCall_runs sound none hj hids
      refine ⟨_, some _, claimJob_of_cons hids hrow haccept, t, hrun, hcommitted, hnone, ?_⟩
      rw [hjudges, Function.update_self]
      rfl
  finish j job verdicts hj := by
    obtain ⟨t, row, finished, hrun, hrow, hrunning, hnonempty, haccept, hcommitted, hnone, hjudges,
      _⟩ := finishCall_runs sound none hj
    refine ⟨_, ?_, t, hrun, hcommitted, hnone, by rw [hjudges, Function.update_self]⟩
    simp only [finishJob, hrow, hrunning, hnonempty, haccept, ne_eq, not_false_eq_true, and_self,
      if_true]
    rfl
  insert n id submission := by
    rw [← accept_succeeds_iff s.clock]
    by_cases refused : id ∈ s.db.committed ∨ ¬∃ row, accept (submission.row s.clock) = .ok row
    · have hstops := insertCall_stops (n := n) refused
      exact ⟨iff_of_true hstops refused, fun t hrun => nomatch hstops.symm.trans hrun⟩
    · obtain ⟨new, row, haccept⟩ :
          id ∉ s.db.committed ∧ ∃ row, accept (submission.row s.clock) = .ok row := by
        simpa only [not_or, not_not] using refused
      obtain ⟨t, hrun, hcommitted, hnone, _⟩ := insertCall_runs (n := n) sound.2 none haccept new
      refine ⟨iff_of_false (by simp [hrun]) refused, fun t' hrun' => ?_⟩
      cases hrun.symm.trans hrun'
      exact ⟨hnone, row, haccept, by rw [insertJob, if_neg new, hcommitted]⟩

end Calls

/-- In every state that a run reaches while no transaction is open. -/
theorem calls_alone_are_statements (schedule : List Action) :
    machine.Always (fun s => NoTransaction s → Serial s) .init schedule :=
  Machine.always step_sound (fun _ => serial_of_sound) init_sound schedule

def workCall (j : Nat) (host : Host) : List Action := claimCall j ++ .judge j host :: finishCall j

def Worked (host : Host) (now : Timestamp) (id : Uuid) (row row' : Row) : Prop :=
  if row.state = .waiting then ∃ verdicts, judge host (jobOf id row.toJobRow) = .ok verdicts ∧
    row'.toJobRow = (row.claim now).finish now verdicts
  else row' = row

/-- A judge that is alone and can judge every waiting job finishes each of them, the
oldest first, and touches nothing else. -/
def Drains (s : State) : Prop :=
  NoTransaction s → ∀ j host, s.judges j = .idle →
    (∀ id row, s.db.committed.lookup id = some row → row.state = .waiting →
      Judgeable host (jobOf id row.toJobRow)) →
    ∃ t events, machine.run s ((waitingIds s.db.committed).flatMap fun _ => workCall j host) = some t ∧
      t.log = s.log ++ events ∧
      events.filterMap Event.finishedId = waitingIds s.db.committed ∧
      waitingIds t.db.committed = [] ∧
      ∀ id, Option.Rel (Worked host s.clock id) (s.db.committed.lookup id) (t.db.committed.lookup id)

section Drain
variable {s : State} {j : Nat} {host : Host} {id : Uuid} {rest : List Uuid}

theorem Worked.refl_of_ne {now : Timestamp} {row : Row} (h : row.state ≠ .waiting) :
    Worked host now id row row := by
  rw [Worked, if_neg h]

theorem jobOf_claim (id : Uuid) (row : JobRow) (now : Timestamp) :
    jobOf id (row.claim now) = jobOf id row := rfl

theorem workCall_runs (sound : Sound s) (none : NoTransaction s) (hj : s.judges j = .idle)
    (hids : waitingIds s.db.committed = id :: rest)
    (judgeable : ∀ row, s.db.committed.lookup id = some row → row.state = .waiting →
      Judgeable host (jobOf id row.toJobRow)) :
    ∃ t row finished events, machine.run s (workCall j host) = some t ∧
      s.db.committed.lookup id = some row ∧ Worked host s.clock id row finished ∧
      t.db.committed = s.db.committed.insert id finished ∧ finished.state ≠ .waiting ∧
      NoTransaction t ∧ t.judges j = .idle ∧ t.log = s.log ++ events ∧
      events.filterMap Event.finishedId = [id] ∧ t.clock = s.clock := by
  obtain ⟨waitingRow, hwaitingRow, hwaiting⟩ := mem_waitingIds.mp (hids ▸ List.mem_cons_self)
  obtain ⟨u, row, claimed, hclaim, hrow, haccept, hcommitted, hnone, hjudges, hlog, hclock⟩ :=
    claimCall_runs sound none hj hids
  cases hwaitingRow.symm.trans hrow
  have hclaimed := accept_eq_ok.mp haccept
  obtain ⟨verdicts, hjudge⟩ := judge_succeeds.mpr (judgeable _ hrow hwaiting)
  have hjob : jobOf id claimed.toJobRow = jobOf id waitingRow.toJobRow := by
    rw [hclaimed, jobOf_claim]
  have hplace : u.judges j = .judging (jobOf id waitingRow.toJobRow) := by
    rw [hjudges, Function.update_self, hjob]
  obtain ⟨v, hstep, hv⟩ : ∃ v, machine.step u (.judge j host) = some v ∧
      v = (u.setJudge j (.judged (jobOf id waitingRow.toJobRow) verdicts)).record
        [.judged j host (jobOf id waitingRow.toJobRow)] :=
    ⟨_, by simp only [machine, step, hplace, hjudge], rfl⟩
  have hjudged : v.judges j = .judged (jobOf id waitingRow.toJobRow) verdicts := by
    rw [hv]
    exact Function.update_self ..
  have sound' := sound_of_run sound hclaim
  obtain ⟨t, row', finished, hfinish, hrow', _, _, haccept', hcommitted', hnone', hjudges', hlog',
    hclock'⟩ := finishCall_runs (step_sound _ _ _ sound' hstep) (by rw [hv]; exact hnone) hjudged
  have hvdb : v.db.committed = s.db.committed.insert id claimed := by
    rw [hv]
    exact hcommitted
  have hvclock : v.clock = s.clock := by
    rw [hv]
    exact hclock
  rw [hvdb] at hrow' hcommitted'
  cases (AList.lookup_insert _).symm.trans hrow'
  have hfinished := accept_eq_ok.mp haccept'
  rw [hclaimed, hvclock] at hfinished
  refine ⟨t, waitingRow, finished,
    [.claimed j (jobOf id claimed.toJobRow), .judged j host (jobOf id waitingRow.toJobRow),
      .finished j id verdicts true], ?_, hrow, ?_, ?_, ?_, hnone', ?_, ?_, rfl,
    hclock'.trans hvclock⟩
  · rw [workCall, machine.run_append, hclaim]
    exact machine.run_cons_eq_some.mpr ⟨v, hstep, hfinish⟩
  · rw [Worked, if_pos hwaiting]
    exact ⟨verdicts, hjudge, hfinished⟩
  · exact hcommitted'.trans (AList.insert_insert _)
  · simp [hfinished, JobRow.finish]
  · rw [hjudges', Function.update_self]
  · rw [hlog', hv]
    simp [State.record, State.setJudge, hlog, jobOf]

theorem Worked.not_waiting {now : Timestamp} {row row' : Row} (h : Worked host now id row row') :
    row'.state ≠ .waiting := by
  unfold Worked at h
  split at h
  · obtain ⟨verdicts, _, hrow⟩ := h
    simp [hrow, JobRow.finish]
  · exact h ▸ ‹_›

theorem worked_of_insert {jobs last : Jobs} {now : Timestamp} {row finished : Row}
    (hrow : jobs.lookup id = some row) (worked : Worked host now id row finished)
    (rest : ∀ other, Option.Rel (Worked host now other) ((jobs.insert id finished).lookup other)
      (last.lookup other)) (other : Uuid) :
    Option.Rel (Worked host now other) (jobs.lookup other) (last.lookup other) := by
  have hrest := rest other
  by_cases hid : other = id
  · subst hid
    rw [AList.lookup_insert] at hrest
    obtain ⟨row', hrow', hsame⟩ := rel_some_left hrest
    rw [Worked, if_neg worked.not_waiting] at hsame
    rw [hrow, hrow', hsame]
    exact .some worked
  · rwa [AList.lookup_insert_ne hid] at hrest

theorem drains_of_sound (sound : Sound s) : Drains s := by
  intro none j host hj judgeable
  generalize hids : waitingIds s.db.committed = ids
  induction ids generalizing s with
  | nil =>
    refine ⟨s, [], rfl, (List.append_nil _).symm, rfl, hids, fun id => ?_⟩
    cases hrow : s.db.committed.lookup id with
    | none => exact .none
    | some row =>
      refine .some (Worked.refl_of_ne fun hwaiting => ?_)
      have hmem := mem_waitingIds.mpr ⟨row, hrow, hwaiting⟩
      rw [hids] at hmem
      cases hmem
  | cons id rest ih =>
    obtain ⟨u, row, finished, events, hwork, hrow, worked, hcommitted, hdone, hnone, hidle, hlog,
      hfinished, hclock⟩ := workCall_runs sound none hj hids (judgeable id)
    have hrest : waitingIds u.db.committed = rest := by
      rw [hcommitted]
      exact waitingIds_insert_head hids hdone
    have judgeable' : ∀ other row, u.db.committed.lookup other = some row → row.state = .waiting →
        Judgeable host (jobOf other row.toJobRow) := by
      intro other row hother hwaiting
      obtain ⟨_, rfl⟩ | ⟨_, hother⟩ := Jobs.lookup_insert (hcommitted ▸ hother)
      · exact absurd hwaiting hdone
      · exact judgeable other row hother hwaiting
    obtain ⟨t, events', hrun, hlog', hfinished', hlast, hworked⟩ :=
      ih (sound_of_run sound hwork) hnone hidle judgeable' hrest
    rw [hcommitted, hclock] at hworked
    refine ⟨t, events ++ events', ?_, ?_, ?_, hlast, worked_of_insert hrow worked hworked⟩
    · rw [List.flatMap_cons, machine.run_append, hwork]
      exact hrun
    · rw [hlog', hlog, List.append_assoc]
    · rw [List.filterMap_append, hfinished, hfinished']
      rfl

end Drain

/-- One judge empties the queue, from every state that a run reaches. -/
theorem one_judge_drains (schedule : List Action) : machine.Always Drains .init schedule :=
  Machine.always step_sound (fun _ => drains_of_sound) init_sound schedule

end Pals.Queue
