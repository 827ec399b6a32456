import Pals.Queue.Invariant
import Pals.Queue.Steps

/-! Every step of the system keeps the invariant. A step that commits nothing leaves
the queue as it is, and a commit takes it one act further, or several when a
transaction has inserted several jobs. -/
namespace Pals.Queue
open Pals.Library Pals.Contracts Pals.Judge

theorem State.now_eq {s : State} {session : Session} {tx : Tx Uuid Row}
    (h : s.db.txs session = some tx) : s.now session = tx.now := by
  simp [State.now, h]

section Judge
variable {s : State} {ledger : Ledger} {j : Nat} {place : JudgeState}
variable {db : Db Session Uuid Row} {events : List Event}

theorem judges_of_ne {j' : Nat} (hj' : Session.judge j' ≠ .judge j) :
    Function.update s.judges j place j' = s.judges j' := by
  refine Function.update_of_ne ?_ _ _
  rintro rfl
  exact hj' rfl

theorem situation_of_eq {ledger' : Ledger}
    (situation : Situation (s.after (Function.update s.judges j place) db events) ledger' j place)
    {j' : Nat} (hj' : Session.judge j' = .judge j) :
    Situation (s.after (Function.update s.judges j place) db events) ledger' j'
      (Function.update s.judges j place j') := by
  cases hj'
  rw [Function.update_self]
  exact situation

theorem Inv.judgeStep (inv : Inv s ledger)
    (others : ∀ other, other ≠ Session.judge j → s.db.Undisturbed other db)
    (committed : db.committed = s.db.committed) (silent : ∀ event ∈ events, event.act = none)
    (begun : ∀ tx, db.txs (.judge j) = some tx → tx.now ≤ s.clock)
    (situation : Situation (s.after (Function.update s.judges j place) db events) ledger j place) :
    Inv (s.after (Function.update s.judges j place) db events) ledger := by
  have acts : (s.after (Function.update s.judges j place) db events).acts = s.acts := by
    rw [State.acts, State.after, List.filterMap_append, List.filterMap_eq_nil_iff.mpr silent,
      List.append_nil, State.acts]
  suffices session : SessionStep (.judge j) s (s.after (Function.update s.judges j place) db events)
      ledger ledger from session.inv inv committed acts
  refine ⟨others, fun j' hj' => judges_of_ne hj', fun j' id job _ h => ⟨h, congrArg _ committed⟩,
    List.subset_append_left _ _, rfl, begun, fun j' hj' => situation_of_eq situation hj',
    fun n hn => ?_⟩
  cases hn

theorem Inv.goes (inv : Inv s ledger) (situation : Situation s ledger j place) :
    Inv (s.after (Function.update s.judges j place) s.db []) ledger :=
  inv.judgeStep (fun other _ => .refl other s.db) rfl nofun (inv.begun (.judge j))
    (situation.untouched ⟨.refl _ s.db, fun _ _ h => ⟨h, rfl⟩, List.subset_append_left _ _⟩)

theorem Inv.starts (inv : Inv s ledger) (started : s.db.start (.judge j) s.clock = some db)
    (situation : db.txs (.judge j) = some ⟨s.clock, ∅⟩ → db.committed = s.db.committed →
      Situation (s.after (Function.update s.judges j place) db []) ledger j place) :
    Inv (s.after (Function.update s.judges j place) db []) ledger := by
  obtain ⟨_, htx, hcommitted⟩ := Db.start_eq_some started
  refine inv.judgeStep (fun other hne => Db.start_undisturbed started hne) hcommitted nofun
    (fun tx htx' => ?_) (situation htx hcommitted)
  cases htx.symm.trans htx'
  exact Int.le_refl _

theorem Inv.stops (inv : Inv s ledger) (silent : ∀ event ∈ events, event.act = none) :
    Inv (s.after (Function.update s.judges j .stopped) (s.db.rollback (.judge j)) events)
      ledger := by
  refine inv.judgeStep (fun other hne => Db.rollback_undisturbed hne) rfl silent (fun tx htx => ?_)
    (Db.release_txs _)
  cases (Db.release_txs _).symm.trans htx

theorem Inv.locks (inv : Inv s ledger) {id : Uuid} (locked : s.db.lock (.judge j) id = some db)
    (situation : Situation (s.after (Function.update s.judges j place) db []) ledger j place) :
    Inv (s.after (Function.update s.judges j place) db []) ledger := by
  obtain ⟨_, htxs, hcommitted⟩ := Db.lock_eq_some locked
  exact inv.judgeStep (fun other hne => Db.lock_undisturbed locked hne) hcommitted nofun
    (fun tx htx => inv.begun _ tx (htxs ▸ htx)) situation

theorem Inv.select (inv : Inv s ledger) {id : Uuid} {row : Row} (unwritten : Unwritten s j)
    (locked : s.db.lock (.judge j) id = some db) (newest : db.newest (.judge j) id = some row)
    (waiting : row.state = .waiting) :
    Inv (s.after (Function.update s.judges j (.claimSelected id)) db []) ledger := by
  obtain ⟨now, htx⟩ := unwritten
  obtain ⟨hheld, htxs, hcommitted⟩ := Db.lock_eq_some locked
  have htx' : db.txs (.judge j) = some ⟨now, ∅⟩ := htxs ▸ htx
  rw [Db.newest_of_unwritten htx'] at newest
  exact inv.locks locked ⟨⟨now, htx'⟩, hheld, row, newest, waiting⟩

theorem Inv.selected_row (inv : Inv s ledger) {id : Uuid} (hj : s.judges j = .claimSelected id) :
    ∃ now row, s.db.txs (.judge j) = some ⟨now, ∅⟩ ∧ s.db.newest (.judge j) id = some row ∧
      s.db.committed.lookup id = some row ∧ row.state = .waiting := by
  obtain ⟨⟨now, htx⟩, _, row, hrow, hwaiting⟩ := inv.situation hj
  exact ⟨now, row, htx, (Db.newest_of_unwritten htx id).trans hrow, hrow, hwaiting⟩

theorem Inv.claim (inv : Inv s ledger) {id : Uuid} {row claimed : Row}
    (hj : s.judges j = .claimSelected id) (newest : s.db.newest (.judge j) id = some row)
    (accepted : accept (row.claim (s.now (.judge j))) = .ok claimed)
    (written : s.db.write (.judge j) id claimed = some db) :
    Inv (s.after (Function.update s.judges j (.claimed (some (jobOf id claimed.toJobRow)))) db [])
      ledger := by
  obtain ⟨now, row', htx, hnewest, hrow, hwaiting⟩ := inv.selected_row hj
  cases newest.symm.trans hnewest
  obtain ⟨tx, htx', _, htxs, _, hcommitted⟩ := Db.write_eq_some written
  cases htx.symm.trans htx'
  have hclaimed := accept_eq_ok.mp accepted
  rw [State.now_eq htx] at hclaimed
  refine inv.judgeStep (fun other hne => Db.write_undisturbed written hne) hcommitted nofun
    (fun tx' htx' => ?_) ⟨now, row, claimed, htxs, ?_, ⟨hwaiting, hclaimed⟩, ?_⟩
  · cases htxs.symm.trans htx'
    exact (inv.begun _ _ htx : now ≤ s.clock)
  · exact hcommitted ▸ hrow
  · rw [hclaimed]
    rfl

theorem Inv.finishable (inv : Inv s ledger) {job : Job} {verdicts : List Verdict}
    (before : ClaimedBefore s j job.id) (taken : ledger job.id = some (.taken j job))
    (obtained : Obtained s j job verdicts) :
    ∃ now row finished, s.db.txs (.judge j) = some ⟨now, ∅⟩ ∧
      s.db.committed.lookup job.id = some row ∧ row.state = .running ∧
      accept (row.finish (s.now (.judge j)) verdicts) = .ok finished ∧
      Finishes verdicts row now finished ∧ verdicts ≠ [] := by
  obtain ⟨now, htx, hclaimed⟩ := before
  obtain ⟨row, hrow, hrunning, _⟩ := inv.row_of_taken taken
  obtain ⟨claimedAt, hclaimedAt⟩ :=
    Option.isSome_iff_exists.mp (row.claimed_iff.mpr (.inl hrunning))
  obtain ⟨finished, hfinished⟩ :=
    (finish_accepted_iff row hclaimedAt now verdicts).mpr (hclaimed row claimedAt hrow hclaimedAt)
  refine ⟨now, row, finished, htx, hrow, hrunning, by rw [State.now_eq htx, hfinished],
    ⟨hrunning, accept_eq_ok.mp hfinished⟩, ?_⟩
  rintro rfl
  obtain ⟨host, _, hjudge⟩ := obtained
  exact judge_ne_nil hjudge

theorem Inv.finishing_row (inv : Inv s ledger) {job : Job} {verdicts : List Verdict} {row : Row}
    (before : ClaimedBefore s j job.id) (taken : ledger job.id = some (.taken j job))
    (obtained : Obtained s j job verdicts) {locked : Db Session Uuid Row}
    (lock : s.db.lock (.judge j) job.id = some locked)
    (newest : locked.newest (.judge j) job.id = some row) :
    ∃ now finished, s.db.txs (.judge j) = some ⟨now, ∅⟩ ∧
      s.db.committed.lookup job.id = some row ∧ row.state = .running ∧
      accept (row.finish (s.now (.judge j)) verdicts) = .ok finished ∧
      Finishes verdicts row now finished := by
  obtain ⟨now, row', finished, htx, hrow, hrunning, haccept, hfinishes, _⟩ :=
    inv.finishable before taken obtained
  obtain ⟨_, htxs, hcommitted⟩ := Db.lock_eq_some lock
  rw [Db.newest_of_unwritten (htxs ▸ htx), hcommitted, hrow] at newest
  cases newest
  exact ⟨now, finished, htx, hrow, hrunning, haccept, hfinishes⟩

theorem Inv.finish (inv : Inv s ledger) {job : Job} {verdicts : List Verdict} {row finished : Row}
    (before : ClaimedBefore s j job.id) (taken : ledger job.id = some (.taken j job))
    (obtained : Obtained s j job verdicts) {locked : Db Session Uuid Row}
    (lock : s.db.lock (.judge j) job.id = some locked)
    (newest : locked.newest (.judge j) job.id = some row)
    (accepted : accept (row.finish (s.now (.judge j)) verdicts) = .ok finished)
    (written : locked.write (.judge j) job.id finished = some db) :
    Inv (s.after (Function.update s.judges j (.finished job verdicts true)) db []) ledger := by
  obtain ⟨now, finished', htx, hrow, hrunning, haccept, hfinishes⟩ :=
    inv.finishing_row before taken obtained lock newest
  cases accepted.symm.trans haccept
  obtain ⟨_, htxs, hcommitted⟩ := Db.lock_eq_some lock
  obtain ⟨tx, htx', _, htxs', _, hcommitted'⟩ := Db.write_eq_some written
  rw [htxs] at htx'
  cases htx.symm.trans htx'
  refine inv.judgeStep
    (fun other hne => (Db.lock_undisturbed lock hne).trans (Db.write_undisturbed written hne))
    (hcommitted'.trans hcommitted) nofun (fun tx' htx' => ?_)
    ⟨rfl, ⟨now, row, finished, htxs', ?_, hfinishes⟩, taken,
      obtained.mono (List.subset_append_left _ _)⟩
  · cases htxs'.symm.trans htx'
    exact (inv.begun _ _ htx : now ≤ s.clock)
  · exact (congrArg (AList.lookup job.id) (hcommitted'.trans hcommitted)).trans hrow

theorem commitOne_session {event : Event} {id : Uuid} {now : Timestamp} {written : Row}
    {entry : Entry} (committed : s.db.commit (.judge j) = some db)
    (htx : s.db.txs (.judge j) = some ⟨now, AList.insert id written ∅⟩)
    (mine : ∀ j' job, ledger id = some (.taken j' job) → j' = j)
    (situation : db.txs (.judge j) = none →
      Situation (s.after (Function.update s.judges j place) db [event])
        (Function.update ledger id (some entry)) j place) :
    SessionStep (.judge j) s (s.after (Function.update s.judges j place) db [event])
      ledger (Function.update ledger id (some entry)) := by
  obtain ⟨htxs, hcommitted⟩ := Db.commit_one committed htx
  refine ⟨fun other hne => Db.commit_undisturbed committed hne, fun j' hj' => judges_of_ne hj',
    fun j' id' job hj' hentry => ?_, List.subset_append_left _ _, rfl, fun tx htx => ?_,
    fun j' hj' => situation_of_eq (situation htxs) hj', nofun⟩
  · have hne : id' ≠ id := by
      rintro rfl
      exact hj' (mine j' job hentry ▸ rfl)
    rw [Function.update_of_ne hne]
    exact ⟨hentry, (congrArg _ hcommitted).trans (AList.lookup_insert_ne hne)⟩
  · cases htxs.symm.trans htx

theorem Inv.commitOne (inv : Inv s ledger) {event : Event}
    {act : WorkQueue.Act Uuid Nat Job (List Verdict)} {id : Uuid} {now : Timestamp}
    {written : Row} {entry : Entry} (committed : s.db.commit (.judge j) = some db)
    (htx : s.db.txs (.judge j) = some ⟨now, AList.insert id written ∅⟩)
    (hact : event.act = some act)
    (hstep : WorkQueue.machine.step ledger act = some (Function.update ledger id (some entry)))
    (represents : Represents id written entry)
    (mine : ∀ j' job, ledger id = some (.taken j' job) → j' = j)
    (taken : ∀ j' job, entry = .taken j' job → .claimed j' job ∈ s.log ++ [event])
    (settled : ∀ j' job verdicts, entry = .settled j' job verdicts →
      .claimed j' job ∈ s.log ++ [event] ∧ Obtained s j' job verdicts)
    (claimed : ∀ claimedAt, written.claimedAt = some claimedAt → claimedAt ≤ s.clock)
    (situation : db.txs (.judge j) = none →
      Situation (s.after (Function.update s.judges j place) db [event])
        (Function.update ledger id (some entry)) j place) :
    Inv (s.after (Function.update s.judges j place) db [event])
      (Function.update ledger id (some entry)) := by
  obtain ⟨_, hcommitted⟩ := Db.commit_one committed htx
  have hlookup {id' : Uuid} (hne : id' ≠ id) :
      db.committed.lookup id' = s.db.committed.lookup id' := by
    rw [hcommitted, AList.lookup_insert_ne hne]
  have hwritten : db.committed.lookup id = some written := by
    rw [hcommitted, AList.lookup_insert]
  have log : s.log ⊆ s.log ++ [event] := List.subset_append_left _ _
  refine (commitOne_session committed htx mine situation).commitInv inv ?_ (fun id' => ?_)
    (fun id' j' job hentry => ?_) (fun id' j' job verdicts hentry => ?_)
    (fun id' row claimedAt hrow hclaimedAt => ?_)
  · have hacts : (s.after (Function.update s.judges j place) db [event]).acts = s.acts ++ [act] := by
      simp [State.acts, State.after, List.filterMap_append, hact]
    rw [hacts, WorkQueue.machine.run_append, inv.trace]
    exact WorkQueue.machine.run_cons_eq_some.mpr ⟨_, hstep, rfl⟩
  all_goals by_cases hid : id' = id
  · subst hid
    change Option.Rel _ (db.committed.lookup id') _
    rw [hwritten, Function.update_self]
    exact .some represents
  · change Option.Rel _ (db.committed.lookup id') _
    rw [hlookup hid, Function.update_of_ne hid]
    exact inv.rows id'
  · subst hid
    rw [Function.update_self] at hentry
    exact taken j' job (Option.some.inj hentry)
  · rw [Function.update_of_ne hid] at hentry
    exact log (inv.taken id' j' job hentry)
  · subst hid
    rw [Function.update_self] at hentry
    obtain ⟨hclaimed, hobtained⟩ := settled j' job verdicts (Option.some.inj hentry)
    exact ⟨hclaimed, hobtained.mono log⟩
  · rw [Function.update_of_ne hid] at hentry
    obtain ⟨hclaimed, hobtained⟩ := inv.settled id' j' job verdicts hentry
    exact ⟨log hclaimed, hobtained.mono log⟩
  · subst hid
    cases hwritten.symm.trans hrow
    exact claimed claimedAt hclaimedAt
  · exact inv.claimed id' row claimedAt ((hlookup hid).symm.trans hrow) hclaimedAt

theorem Inv.take (inv : Inv s ledger) {job : Job} (hj : s.judges j = .claimed (some job))
    (committed : s.db.commit (.judge j) = some db) :
    ∃ ledger', Inv (s.after (Function.update s.judges j (.judging job)) db [.claimed j job]) ledger' ∧
      WorkQueue.machine.Reaches ledger ledger' := by
  obtain ⟨now, row, written, htx, hrow, ⟨hwaiting, hwritten⟩, hjob⟩ := inv.situation hj
  have hentry := inv.entry_of_waiting hrow hwaiting
  rw [← hjob] at hentry
  have hstep : WorkQueue.machine.step ledger (.take j job.id) =
      some (Function.update ledger job.id (some (.taken j job))) := by
    simp [WorkQueue.machine, WorkQueue.step, hentry]
  refine ⟨_, inv.commitOne committed htx rfl hstep ?_ ?_ ?_ ?_ ?_ fun htxs => ?_,
    .step hstep (.refl _ _)⟩
  · exact ⟨by rw [hjob, hwritten]; rfl, by rw [hwritten]; rfl⟩
  · intro j' job' htaken
    cases hentry.symm.trans htaken
  · rintro j' job' ⟨⟩
    exact List.mem_append_right _ List.mem_cons_self
  · rintro j' job' verdicts' ⟨⟩
  · intro claimedAt hclaimedAt
    rw [hwritten] at hclaimedAt
    cases hclaimedAt
    exact inv.begun _ _ htx
  · exact ⟨htxs, Function.update_self ..⟩

theorem Inv.settle (inv : Inv s ledger) {job : Job} {verdicts : List Verdict} {answer : Bool}
    (hj : s.judges j = .finished job verdicts answer) (committed : s.db.commit (.judge j) = some db) :
    ∃ ledger', Inv (s.after (Function.update s.judges j .idle) db
        [.finished j job.id verdicts answer]) ledger' ∧ WorkQueue.machine.Reaches ledger ledger' := by
  obtain ⟨rfl, ⟨now, row, written, htx, hrow, _, hwritten⟩, htaken, hobtained⟩ :=
    inv.situation hj
  obtain ⟨row', hrow', _, hjob⟩ := inv.row_of_taken htaken
  cases hrow.symm.trans hrow'
  have hstep : WorkQueue.machine.step ledger (.settle j job.id verdicts) =
      some (Function.update ledger job.id (some (.settled j job verdicts))) := by
    simp [WorkQueue.machine, WorkQueue.step, htaken]
  refine ⟨_, inv.commitOne committed htx rfl hstep ?_ ?_ ?_ ?_ ?_ (fun htxs => htxs),
    .step hstep (.refl _ _)⟩
  · exact ⟨by rw [hwritten]; exact hjob, by rw [hwritten]; rfl, by rw [hwritten]; rfl⟩
  · intro j' job' htaken'
    cases htaken.symm.trans htaken'
    rfl
  · rintro j' job' ⟨⟩
  · rintro j' job' verdicts' ⟨⟩
    exact ⟨List.mem_append_left _ (inv.taken _ _ _ htaken), hobtained⟩
  · intro claimedAt hclaimedAt
    rw [hwritten] at hclaimedAt
    exact inv.claimed job.id row claimedAt hrow hclaimedAt

theorem Inv.leave (inv : Inv s ledger) (unwritten : Unwritten s j)
    (committed : s.db.commit (.judge j) = some db) :
    Inv (s.after (Function.update s.judges j .idle) db []) ledger := by
  obtain ⟨now, htx⟩ := unwritten
  obtain ⟨tx, htx', htxs, hcommitted⟩ := Db.commit_eq_some committed
  cases htx.symm.trans htx'
  refine inv.judgeStep (fun other hne => Db.commit_undisturbed committed hne)
    (hcommitted.trans AList.empty_union) nofun (fun tx htx => ?_) htxs
  cases htxs.symm.trans htx

theorem JudgeStep.inv {a : Action} (move : JudgeStep s j a (s.judges j) place db events)
    (inv : Inv s ledger) :
    ∃ ledger', Inv (s.after (Function.update s.judges j place) db events) ledger' ∧
      WorkQueue.machine.Reaches ledger ledger' := by
  have situation := inv.judges j
  have still (h : Inv (s.after (Function.update s.judges j place) db events) ledger) :
      ∃ ledger', Inv (s.after (Function.update s.judges j place) db events) ledger' ∧
        WorkQueue.machine.Reaches ledger ledger' := ⟨ledger, h, .refl _ ledger⟩
  generalize hj : s.judges j = before at move situation
  cases move with
  | claimBegin db started => exact still (inv.starts started fun htx _ => ⟨s.clock, htx⟩)
  | claimSnapshot | nothing | skip => exact still (inv.goes situation)
  | pass id rest db locked =>
    obtain ⟨now, htx⟩ := situation
    obtain ⟨_, htxs, _⟩ := Db.lock_eq_some locked
    exact still (inv.locks locked ⟨now, (congrFun htxs _).trans htx⟩)
  | select id rest db row locked newest waiting =>
    exact still (inv.select situation locked newest waiting)
  | claim id row claimed db newest accepted written =>
    exact still (inv.claim hj newest accepted written)
  | rejectClaim | rejectFinish => exact still (inv.stops (by simp [Event.act]))
  | leave db committed => exact still (inv.leave situation committed)
  | take job db committed => exact inv.take hj committed
  | judge host job verdicts ok =>
    refine still (inv.judgeStep (fun other _ => .refl other s.db) rfl (by simp [Event.act])
      (inv.begun (.judge j)) ⟨situation.1, situation.2, host, ?_, ok⟩)
    exact List.mem_append_right _ List.mem_cons_self
  | drop host job error failed =>
    exact still (inv.judgeStep (fun other _ => .refl other s.db) rfl (by simp [Event.act])
      (inv.begun (.judge j)) situation.1)
  | finishBegin job verdicts db started =>
    obtain ⟨_, htaken, hobtained⟩ := situation
    refine still (inv.starts started fun htx hcommitted => ⟨⟨s.clock, htx, ?_⟩, htaken,
      hobtained.mono (List.subset_append_left _ _)⟩)
    intro row claimedAt hrow
    exact inv.claimed job.id row claimedAt ((congrArg _ hcommitted).symm.trans hrow)
  | finishSnapshot => exact still (inv.goes situation)
  | finishMisses job verdicts missing =>
    obtain ⟨now, row, _, htx, hrow, hrunning, _, _, hne⟩ :=
      inv.finishable situation.1 situation.2.1 situation.2.2
    exact absurd hrunning (missing hne row ((Db.newest_of_unwritten htx job.id).trans hrow))
  | finish job verdicts row finished locked db lock newest running accepted written =>
    exact still (inv.finish situation.1 situation.2.1 situation.2.2 lock newest accepted written)
  | finishPasses job verdicts row locked lock newest changed =>
    obtain ⟨_, _, _, _, hrunning, _⟩ :=
      inv.finishing_row situation.1 situation.2.1 situation.2.2 lock newest
    exact absurd hrunning changed
  | settle job verdicts answer db committed => exact inv.settle hj committed
  | stop => exact still (inv.stops nofun)

end Judge

section Api
variable {s : State} {ledger : Ledger} {n : Nat} {db : Db Session Uuid Row}

theorem Inv.apiStep (inv : Inv s ledger)
    (others : ∀ other, other ≠ Session.api n → s.db.Undisturbed other db)
    (committed : db.committed = s.db.committed)
    (begun : ∀ tx, db.txs (.api n) = some tx → tx.now ≤ s.clock)
    (inserts : ∀ tx, db.txs (.api n) = some tx → ∀ id row, tx.writes.lookup id = some row →
      s.db.committed.lookup id = none ∧ row.state = .waiting) :
    Inv (s.after s.judges db []) ledger := by
  have acts : (s.after s.judges db []).acts = s.acts := by
    rw [State.acts, State.after, List.append_nil, State.acts]
  suffices session : SessionStep (.api n) s (s.after s.judges db []) ledger ledger from
    session.inv inv committed acts
  refine ⟨others, fun _ _ => rfl, fun j id job _ h => ⟨h, congrArg _ committed⟩,
    List.subset_append_left _ _, rfl, begun, fun j hj => ?_, fun n' hn' tx htx id row hrow => ?_⟩
  · cases hj
  · cases hn'
    obtain ⟨hnew, hwaiting⟩ := inserts tx htx id row hrow
    exact ⟨(congrArg _ committed).trans hnew, hwaiting⟩

theorem Inv.insert (inv : Inv s ledger) {id : Uuid} {submission : Submission} {row : Row}
    {locked : Db Session Uuid Row}
    (accepted : accept (submission.row (s.now (.api n))) = .ok row)
    (new : s.db.committed.lookup id = none) (lock : s.db.lock (.api n) id = some locked)
    (written : locked.write (.api n) id row = some db) : Inv (s.after s.judges db []) ledger := by
  obtain ⟨_, htxs, hcommitted⟩ := Db.lock_eq_some lock
  obtain ⟨tx, htx, _, htx', _, hcommitted'⟩ := Db.write_eq_some written
  rw [htxs] at htx
  refine inv.apiStep
    (fun other hne => (Db.lock_undisturbed lock hne).trans (Db.write_undisturbed written hne))
    (hcommitted'.trans hcommitted) (fun tx' h' => ?_) (fun tx' h' id' row' hrow' => ?_)
  · cases htx'.symm.trans h'
    exact (inv.begun _ _ htx : tx.now ≤ s.clock)
  · cases htx'.symm.trans h'
    obtain ⟨rfl, rfl⟩ | ⟨_, hrow'⟩ := Jobs.lookup_insert hrow'
    · refine ⟨new, ?_⟩
      rw [accept_eq_ok.mp accepted]
      rfl
    · exact inv.inserts n tx htx id' row' hrow'

def withSubmitted (ledger : Ledger) (entries : List (Σ _ : Uuid, Row)) : Ledger := fun id =>
  match entries.dlookup id with
  | some row => some (.waiting (jobOf id row.toJobRow))
  | none => ledger id

theorem withSubmitted_cons {entry : Σ _ : Uuid, Row} {entries : List (Σ _ : Uuid, Row)}
    (new : entry.1 ∉ entries.keys) :
    withSubmitted ledger (entry :: entries) =
      withSubmitted (Function.update ledger entry.1
        (some (.waiting (jobOf entry.1 entry.2.toJobRow)))) entries := by
  obtain ⟨key, row⟩ := entry
  funext id
  by_cases hid : id = key
  · subst hid
    simp [withSubmitted, List.dlookup_cons_eq, List.dlookup_eq_none.mpr new]
  · rw [withSubmitted, withSubmitted, List.dlookup_cons_ne _ _ hid, Function.update_of_ne hid]

theorem submits_run (entries : List (Σ _ : Uuid, Row)) (nodup : entries.NodupKeys)
    (ledger : Ledger) (fresh : ∀ entry ∈ entries, ledger entry.1 = none) :
    WorkQueue.machine.run ledger
        (entries.map fun entry => .submit entry.1 (jobOf entry.1 entry.2.toJobRow)) =
      some (withSubmitted ledger entries) := by
  induction entries generalizing ledger with
  | nil => rfl
  | cons entry entries ih =>
    obtain ⟨new, nodup⟩ := List.nodupKeys_cons.mp nodup
    obtain ⟨hfresh, fresh⟩ := List.forall_mem_cons.mp fresh
    rw [List.map_cons, withSubmitted_cons new]
    refine WorkQueue.machine.run_cons_eq_some.mpr ⟨_, ?_, ih nodup _ fun other hother => ?_⟩
    · simp [WorkQueue.machine, WorkQueue.step, hfresh]
    · rw [Function.update_of_ne, fresh other hother]
      exact fun he => new (he ▸ List.mem_map_of_mem hother)

theorem acts_insertions {tx : Tx Uuid Row} (htx : s.db.txs (.api n) = some tx) :
    (insertions s (.api n)).filterMap Event.act =
      tx.writes.entries.map fun entry => .submit entry.1 (jobOf entry.1 entry.2.toJobRow) := by
  simp only [insertions, htx, List.filterMap_map]
  induction tx.writes.entries with
  | nil => rfl
  | cons entry entries ih => exact congrArg (List.cons _) ih

theorem Inv.row_of_commit (inv : Inv s ledger) {tx : Tx Uuid Row} {committed : Jobs}
    (htx : s.db.txs (.api n) = some tx) (hcommitted : committed = tx.writes ∪ s.db.committed)
    (id : Uuid) :
    (committed.lookup id = s.db.committed.lookup id ∧
      withSubmitted ledger tx.writes.entries id = ledger id) ∨
    ∃ row, row.state = .waiting ∧ ledger id = none ∧ committed.lookup id = some row ∧
      withSubmitted ledger tx.writes.entries id = some (.waiting (jobOf id row.toJobRow)) := by
  cases hrow : tx.writes.lookup id with
  | none =>
    have hentry : tx.writes.entries.dlookup id = none := hrow
    refine .inl ⟨?_, by rw [withSubmitted, hentry]⟩
    rw [hcommitted, AList.lookup_union_right (AList.lookup_eq_none.mp hrow)]
  | some row =>
    obtain ⟨hnew, hwaiting⟩ := inv.inserts n tx htx id row hrow
    have hentry : tx.writes.entries.dlookup id = some row := hrow
    refine .inr ⟨row, hwaiting, inv.entry_of_none hnew, ?_, by rw [withSubmitted, hentry]⟩
    rw [hcommitted, AList.lookup_union_left (AList.lookup_isSome.mp (by simp [hrow])), hrow]

theorem Inv.commit_session (inv : Inv s ledger) {tx : Tx Uuid Row}
    (committed : s.db.commit (.api n) = some db) (htx : s.db.txs (.api n) = some tx) :
    SessionStep (.api n) s (s.after s.judges db (insertions s (.api n))) ledger
      (withSubmitted ledger tx.writes.entries) := by
  obtain ⟨_, htx', htxs, hcommitted⟩ := Db.commit_eq_some committed
  cases htx.symm.trans htx'
  refine ⟨fun other hne => Db.commit_undisturbed committed hne, fun _ _ => rfl,
    fun j id job _ hentry => ?_, List.subset_append_left _ _, rfl, fun tx htx => ?_, nofun,
    fun n' hn' tx htx => ?_⟩
  · obtain ⟨hold, hsame⟩ | ⟨row, _, hnone, _⟩ := inv.row_of_commit htx hcommitted id
    · exact ⟨hsame.trans hentry, hold⟩
    · cases hnone.symm.trans hentry
  · cases htxs.symm.trans htx
  · cases htxs.symm.trans htx

theorem Inv.commit (inv : Inv s ledger) (committed : s.db.commit (.api n) = some db) :
    ∃ ledger', Inv (s.after s.judges db (insertions s (.api n))) ledger' ∧
      WorkQueue.machine.Reaches ledger ledger' := by
  obtain ⟨tx, htx, _, hcommitted⟩ := Db.commit_eq_some committed
  have hrows := inv.row_of_commit htx hcommitted
  have log : s.log ⊆ s.log ++ insertions s (.api n) := List.subset_append_left _ _
  have hrun := submits_run _ tx.writes.nodupKeys ledger fun entry hentry =>
    inv.entry_of_none (inv.inserts n tx htx entry.1 entry.2 (AList.mem_lookup_iff.mpr hentry)).1
  have hsession := inv.commit_session committed htx
  refine ⟨withSubmitted ledger tx.writes.entries, hsession.commitInv inv ?_ (fun id => ?_)
    (fun id j job hentry => ?_) (fun id j job verdicts hentry => ?_)
    (fun id row claimedAt hrow hclaimedAt => ?_), ⟨_, hrun⟩⟩
  · change WorkQueue.machine.run _ ((s.log ++ insertions s (.api n)).filterMap Event.act) = _
    rw [List.filterMap_append, acts_insertions htx, WorkQueue.machine.run_append]
    change (WorkQueue.machine.run _ s.acts).bind _ = _
    rw [inv.trace]
    exact hrun
  all_goals obtain ⟨hold, hsame⟩ | ⟨new, hwaiting, _, hnew, hsubmitted⟩ := hrows id
  · change Option.Rel _ (db.committed.lookup id) _
    rw [hold, hsame]
    exact inv.rows id
  · change Option.Rel _ (db.committed.lookup id) _
    rw [hnew, hsubmitted]
    exact .some ⟨rfl, hwaiting⟩
  · rw [hsame] at hentry
    exact log (inv.taken id j job hentry)
  · cases hsubmitted.symm.trans hentry
  · rw [hsame] at hentry
    obtain ⟨hclaimed, hobtained⟩ := inv.settled id j job verdicts hentry
    exact ⟨log hclaimed, hobtained.mono log⟩
  · cases hsubmitted.symm.trans hentry
  · exact inv.claimed id row claimedAt (hold.symm.trans hrow) hclaimedAt
  · cases hnew.symm.trans hrow
    rw [row.claimedAt_of_waiting hwaiting] at hclaimedAt
    cases hclaimedAt

theorem ApiStep.inv {a : Action} {events : List Event} (move : ApiStep s n a db events)
    (inv : Inv s ledger) :
    ∃ ledger', Inv (s.after s.judges db events) ledger' ∧
      WorkQueue.machine.Reaches ledger ledger' := by
  cases move with
  | begin db started =>
    obtain ⟨_, htx, hcommitted⟩ := Db.start_eq_some started
    refine ⟨ledger, inv.apiStep (fun other hne => Db.start_undisturbed started hne) hcommitted
      (fun tx htx' => ?_) (fun tx htx' id row hrow => ?_), .refl _ ledger⟩
    · cases htx.symm.trans htx'
      exact Int.le_refl _
    · cases htx.symm.trans htx'
      cases hrow
  | insert id submission row locked db accepted new lock written =>
    exact ⟨ledger, inv.insert accepted new lock written, .refl _ ledger⟩
  | commit db committed => exact inv.commit committed
  | rollback =>
    refine ⟨ledger, inv.apiStep (fun other hne => Db.rollback_undisturbed hne) rfl
      (fun tx htx => ?_) (fun tx htx => ?_), .refl _ ledger⟩
    · cases (Db.release_txs _).symm.trans htx
    · cases (Db.release_txs _).symm.trans htx

end Api

theorem Inv.tick {s : State} {ledger : Ledger} (inv : Inv s ledger) (elapsed : Nat) :
    Inv { s with clock := s.clock + elapsed } ledger := by
  have later : s.clock ≤ s.clock + elapsed := Int.le_add_of_nonneg_right (Int.natCast_nonneg _)
  exact {
    inv with
    begun := fun session tx htx => (inv.begun session tx htx).trans later
    claimed := fun id row claimedAt hrow h => (inv.claimed id row claimedAt hrow h).trans later }

/-- The system is simulated by a queue of work: a step of it is no act of the queue,
or those of a commit. -/
theorem step_simulated (s : State) (a : Action) (t : State) (ledger : Ledger) (inv : Inv s ledger)
    (h : machine.step s a = some t) :
    ∃ ledger', Inv t ledger' ∧ WorkQueue.machine.Reaches ledger ledger' := by
  cases step_cases h with
  | tick elapsed => exact ⟨ledger, inv.tick elapsed, .refl _ ledger⟩
  | api n db events move => exact move.inv inv
  | judge j place db events move => exact move.inv inv

theorem step_inv (s : State) (a : Action) (t : State) (inv : ∃ ledger, Inv s ledger)
    (h : machine.step s a = some t) : ∃ ledger, Inv t ledger := by
  obtain ⟨ledger, inv⟩ := inv
  obtain ⟨ledger', inv', _⟩ := step_simulated s a t ledger inv h
  exact ⟨ledger', inv'⟩

theorem init_inv : Inv .init fun _ => none where
  trace := rfl
  rows _ := .none
  taken _ _ _ h := nomatch h
  settled _ _ _ _ h := nomatch h
  judges _ := rfl
  inserts _ _ h := nomatch h
  begun _ _ h := nomatch h
  claimed _ _ _ h := nomatch h

def Refines (s : State) : Prop :=
  ∃ ledger, WorkQueue.machine.run (fun _ => none) s.acts = some ledger ∧
    ∀ id, Option.Rel (Represents id) (s.db.committed.lookup id) (ledger id)

theorem table_refines_workQueue (schedule : List Action) :
    machine.Always Refines .init schedule :=
  Machine.always step_inv (fun _ ⟨ledger, inv⟩ => ⟨ledger, inv.trace, inv.rows⟩) ⟨_, init_inv⟩
    schedule

end Pals.Queue
