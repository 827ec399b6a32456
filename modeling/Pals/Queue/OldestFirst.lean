import Pals.Queue.Timestamps
import Pals.Queue.Visits

/-! The order in which jobs are claimed. Among rivals a call takes the first row that
it can have; alone, calls take the waiting rows one by one, the oldest first. -/
namespace Pals.Queue
open Pals.Library Pals.Contracts Pals.Judge

/-- A call of `claim_job` by judge `j`: it takes its snapshot in `s`, and has
answered in `t`. -/
structure Call (s : State) (j : Nat) (schedule : List Action) (t : State)
    (answer : Option Job) : Prop where
  begun : s.judges j = .claimBegun
  single : .claimSnapshot j ∉ schedule
  run : machine.run s (.claimSnapshot j :: schedule) = some t
  answered : t.judges j = .claimed answer

section Rivals
variable {s t : State} {j : Nat} {schedule : List Action}

theorem Call.oldest {job : Job} (call : Call s j schedule t (some job)) (sound : Sound s) :
    job.id ∈ waitingIds (s.db.snapshot (.judge j)) ∧
    ∀ id ∈ waitingIds (s.db.snapshot (.judge j)), Before (s.db.snapshot (.judge j)) id job.id →
      PassedOver s j (.claimSnapshot j :: schedule) id := by
  have hprogress := progress_run sound call.begun call.single call.run
  rw [call.answered] at hprogress
  obtain ⟨passed, rest, hids, hpassed⟩ := hprogress
  have hsorted := waitingIds_pairwise (s.db.snapshot (.judge j))
  rw [hids] at hsorted ⊢
  refine ⟨by simp, fun id hid hbefore => hpassed id ?_⟩
  obtain hid | hid := List.mem_append.mp hid
  · exact hid
  · obtain rfl | hid := List.mem_cons.mp hid
    · exact absurd hbefore hbefore.asymm
    · have hafter := List.rel_of_pairwise_cons (List.pairwise_append.mp hsorted).2.1 hid
      exact absurd hbefore hafter.asymm

theorem Call.nothing (call : Call s j schedule t none) (sound : Sound s) :
    ∀ id ∈ waitingIds (s.db.snapshot (.judge j)),
      PassedOver s j (.claimSnapshot j :: schedule) id := by
  have hprogress := progress_run sound call.begun call.single call.run
  rw [call.answered] at hprogress
  exact hprogress

end Rivals

def NoTransaction (s : State) : Prop := ∀ session, s.db.txs session = none

def Sole (s : State) (j : Nat) : Prop := ∀ other, other ≠ Session.judge j → s.db.txs other = none

/-- Nothing is inserted, and calls of `claim_job` have the database for themselves. -/
def Alone (s : State) : Action → Prop
  | .apiBegin _ | .apiInsert _ _ _ | .apiCommit _ | .apiRollback _ => False
  | .claimBegin j | .claimSnapshot j | .claimVisit j | .claimUpdate j | .claimCommit j => Sole s j
  | _ => True

def Turn (ids : List Uuid) : JudgeState → Prop
  | .claimVisiting rest => rest = ids
  | .claimSelected id => ids.head? = some id
  | .claimed (some job) => ids.head? = some job.id
  | .claimed none => ids = []
  | _ => True

/-- The rows that were claimed since `before`, followed by those that still wait, are
`ids`. -/
structure InTurn (ids : List Uuid) (before : List Event) (s : State) : Prop where
  claimed : ∃ events, s.log = before ++ events ∧
    events.filterMap Event.claimedId ++ waitingIds s.db.committed = ids
  turns : ∀ j, Turn (waitingIds s.db.committed) (s.judges j)

section Alone
variable {s t : State} {ledger : Ledger} {j : Nat} {id : Uuid}

theorem Inv.turn_of_resting (inv : Inv s ledger) (h : s.db.txs (.judge j) = none)
    (ids : List Uuid) : Turn ids (s.judges j) := by
  have situation := inv.judges j
  generalize s.judges j = place at situation
  cases place with
  | claimVisiting rest => exact absurd h (Unwritten.running situation)
  | claimSelected id => exact absurd h situation.1.running
  | claimed answer =>
    cases answer with
    | none => exact absurd h (Unwritten.running situation)
    | some job =>
      obtain ⟨now, row, written, htx, _⟩ := situation
      cases h.symm.trans htx
  | _ => trivial

theorem Sole.available (sole : Sole s j) (hid : id ∈ waitingIds s.db.committed) :
    ¬Unavailable s j id := by
  rintro (⟨other, hne, _, htx⟩ | ⟨row, hrow, hstate⟩)
  · exact htx (sole other hne)
  · exact notMem_waitingIds hrow hstate hid

theorem JudgeStep.inTurn {a : Action} {place : JudgeState} {db : Db Session Uuid Row}
    {events : List Event} (move : JudgeStep s j a (s.judges j) place db events)
    (inv : Inv s ledger) (tidy : Tidy s) (alone : Alone s a)
    (turn : Turn (waitingIds s.db.committed) (s.judges j)) :
    events.filterMap Event.claimedId ++ waitingIds db.committed = waitingIds s.db.committed ∧
      Turn (waitingIds db.committed) place ∧
      (waitingIds db.committed = waitingIds s.db.committed ∨ Sole s j) := by
  have situation := inv.judges j
  generalize s.judges j = before at move situation turn
  have still {db : Db Session Uuid Row} {events : List Event} {place : JudgeState}
      (hdb : db.committed = s.db.committed) (hevents : events.filterMap Event.claimedId = [])
      (hturn : Turn (waitingIds s.db.committed) place) :
      events.filterMap Event.claimedId ++ waitingIds db.committed = waitingIds s.db.committed ∧
        Turn (waitingIds db.committed) place ∧
        (waitingIds db.committed = waitingIds s.db.committed ∨ Sole s j) := by
    rw [hdb, hevents]
    exact ⟨rfl, hturn, .inl rfl⟩
  cases move with
  | claimBegin db started => exact still (Db.start_eq_some started).2.2 rfl trivial
  | claimSnapshot =>
    obtain ⟨now, htx⟩ := situation
    rw [Db.snapshot_of_unwritten htx]
    exact still rfl rfl rfl
  | nothing => exact still rfl rfl turn.symm
  | skip id rest held =>
    have hid : id ∈ waitingIds s.db.committed := turn ▸ List.mem_cons_self
    exact absurd (unavailable_of_lock_none tidy held) (Sole.available alone hid)
  | pass id rest db locked stale =>
    have hid : id ∈ waitingIds s.db.committed := turn ▸ List.mem_cons_self
    obtain ⟨row, hrow, _⟩ := mem_waitingIds.mp hid
    exact absurd (unavailable_of_stale situation locked stale ⟨row, hrow⟩)
      (Sole.available alone hid)
  | select id rest db row locked newest waiting =>
    refine still (Db.lock_eq_some locked).2.2 rfl ?_
    rw [← turn]
    rfl
  | claim id row claimed db newest accepted written =>
    obtain ⟨_, _, _, _, _, hcommitted⟩ := Db.write_eq_some written
    exact still hcommitted rfl turn
  | leave db committed =>
    obtain ⟨now, htx⟩ := situation
    obtain ⟨tx, htx', _, hcommitted⟩ := Db.commit_eq_some committed
    cases htx.symm.trans htx'
    exact still (hcommitted.trans AList.empty_union) rfl trivial
  | take job db committed =>
    obtain ⟨now, row, written, htx, _, ⟨_, hwritten⟩, _⟩ := situation
    obtain ⟨rest, hids⟩ := List.head?_eq_some_iff.mp turn
    have hrunning : written.state ≠ .waiting := by simp [hwritten, JobRow.claim]
    rw [(Db.commit_one committed htx).2, waitingIds_insert_head hids hrunning, hids]
    exact ⟨rfl, trivial, .inr alone⟩
  | settle job verdicts answer db committed =>
    obtain ⟨now, row, written, htx, hrow, hrunning, hwritten⟩ := situation.2.1
    have hdone : written.state ≠ .waiting := by simp [hwritten, JobRow.finish]
    have hid : job.id ∉ waitingIds s.db.committed := notMem_waitingIds hrow (by simp [hrunning])
    rw [(Db.commit_one committed htx).2, waitingIds_insert_of_notMem hid hdone]
    cases answer <;> exact ⟨rfl, trivial, .inl rfl⟩
  | finish job verdicts row finished locked db lock newest running accepted written =>
    obtain ⟨_, _, _, _, _, hcommitted⟩ := Db.write_eq_some written
    exact still (hcommitted.trans (Db.lock_eq_some lock).2.2) rfl trivial
  | finishPasses job verdicts row locked lock =>
    exact still (Db.lock_eq_some lock).2.2 rfl trivial
  | finishBegin job verdicts db started => exact still (Db.start_eq_some started).2.2 rfl trivial
  | _ => exact still rfl rfl trivial

theorem inTurn_step {ids : List Uuid} {before : List Event} {a : Action} (inv : Inv s ledger)
    (tidy : Tidy s) (turns : InTurn ids before s) (alone : Alone s a)
    (h : machine.step s a = some t) : InTurn ids before t := by
  obtain ⟨⟨events, hlog, hids⟩, hturns⟩ := turns
  cases step_cases h with
  | tick elapsed => exact ⟨⟨events, hlog, hids⟩, hturns⟩
  | api n db events move => cases move <;> exact absurd alone id
  | judge j place db new move =>
    obtain ⟨hnew, hplace, hothers⟩ := move.inTurn inv tidy alone (hturns j)
    refine ⟨⟨events ++ new, ?_, ?_⟩, fun i => ?_⟩
    · rw [State.after, hlog, List.append_assoc]
    · rw [List.filterMap_append, List.append_assoc]
      exact (congrArg _ hnew).trans hids
    · change Turn (waitingIds db.committed) (Function.update s.judges j place i)
      by_cases hi : i = j
      · subst hi
        rw [Function.update_self]
        exact hplace
      · rw [Function.update_of_ne hi]
        obtain hsame | sole := hothers
        · rw [hsame]
          exact hturns i
        · exact inv.turn_of_resting (sole _ fun he => hi (Session.judge.inj he)) _

theorem claims_in_turn {schedule : List Action} (sound : Sound s) (none : NoTransaction s)
    (alone : machine.Meets Alone s schedule) (hrun : machine.run s schedule = some t) :
    InTurn (waitingIds s.db.committed) s.log t := by
  have start : Sound s ∧ InTurn (waitingIds s.db.committed) s.log s := by
    obtain ⟨⟨ledger, inv⟩, tidy⟩ := id sound
    exact ⟨sound, ⟨[], (List.append_nil _).symm, rfl⟩, fun j => inv.turn_of_resting (none _) _⟩
  refine (Machine.Meets.always (I := fun u => Sound u ∧ InTurn (waitingIds s.db.committed) s.log u)
    (fun u a u' ⟨hsound, hturns⟩ halone hstep => ⟨step_sound u a u' hsound hstep, ?_⟩)
    (fun _ => And.right) start alone).last hrun
  obtain ⟨⟨ledger, inv⟩, tidy⟩ := hsound
  exact inTurn_step inv tidy hturns halone hstep

end Alone

section Calls
variable {s u : State} {j : Nat} {id : Uuid} {rest : List Uuid}

theorem Sole.lock (sole : Sole s j) (tidy : Tidy s) (id : Uuid) :
    ∃ db, s.db.lock (.judge j) id = some db := by
  apply Db.lock_succeeds
  cases hheld : s.db.holder id with
  | none => exact .inl rfl
  | some other =>
    by_cases hother : other = .judge j
    · exact .inr (congrArg some hother)
    · exact absurd (sole other hother) (tidy.locks id other hheld)

structure Visiting (s u : State) (j : Nat) : Prop where
  run : machine.run s [.claimBegin j, .claimSnapshot j] = some u
  judges : u.judges = Function.update s.judges j (.claimVisiting (waitingIds s.db.committed))
  tx : u.db.txs (.judge j) = some ⟨s.clock, ∅⟩
  sole : Sole u j
  committed : u.db.committed = s.db.committed
  log : u.log = s.log
  clock : u.clock = s.clock

theorem visiting_of_idle (none : NoTransaction s) (hj : s.judges j = .idle) :
    ∃ u, Visiting s u j := by
  obtain ⟨db, hstart⟩ := Db.start_succeeds (none (.judge j)) s.clock
  obtain ⟨_, htx, hcommitted⟩ := Db.start_eq_some hstart
  have hbegin : machine.step s (.claimBegin j) = some { s.setJudge j .claimBegun with db } := by
    simp [machine, step, claimStep, hj, hstart]
  refine ⟨{ s.setJudge j (.claimVisiting (waitingIds s.db.committed)) with db },
    machine.run_cons_eq_some.mpr ⟨_, hbegin, ?_⟩, rfl, htx, fun other hne => ?_, hcommitted, rfl, rfl⟩
  · simp [Machine.run, machine, step, claimStep, State.setJudge, Db.snapshot_of_unwritten htx, hcommitted]
  · exact (Db.start_undisturbed hstart hne).tx.trans (none other)

theorem Visiting.nothing (h : Visiting s u j) (hids : waitingIds s.db.committed = []) :
    ∃ t, machine.run s [.claimBegin j, .claimSnapshot j, .claimVisit j] = some t ∧
      t.judges j = .claimed none := by
  have hj : u.judges j = .claimVisiting [] := by rw [h.judges, Function.update_self, hids]
  refine ⟨u.setJudge j (.claimed none), ?_, Function.update_self ..⟩
  refine machine.run_concat_eq_some.mpr ⟨u, h.run, ?_⟩
  simp only [machine, step, claimStep, hj]

theorem Visiting.selects (h : Visiting s u j) (tidy : Tidy u)
    (hids : waitingIds s.db.committed = id :: rest) :
    ∃ t, machine.step u (.claimVisit j) = some t ∧
      t.judges = Function.update s.judges j (.claimSelected id) ∧
      t.db.txs (.judge j) = some ⟨s.clock, ∅⟩ ∧ Sole t j ∧ t.db.committed = s.db.committed ∧
      t.log = s.log ∧ t.clock = s.clock := by
  have hj : u.judges j = .claimVisiting (id :: rest) := by rw [h.judges, Function.update_self, hids]
  obtain ⟨db, hlock⟩ := h.sole.lock tidy id
  obtain ⟨_, htxs, hcommitted⟩ := Db.lock_eq_some hlock
  obtain ⟨row, hrow, hwaiting⟩ := mem_waitingIds.mp (hids ▸ List.mem_cons_self)
  have hnewest : db.newest (.judge j) id = some row := by
    rw [Db.newest_of_unwritten (htxs ▸ h.tx), hcommitted, h.committed, hrow]
  refine ⟨{ u.setJudge j (.claimSelected id) with db }, ?_, ?_, ?_, ?_, ?_, h.log, h.clock⟩
  · simp [machine, step, claimStep, hj, hlock, hnewest, hwaiting]
  · exact (congrArg (Function.update · j _) h.judges).trans (Function.update_idem ..)
  · exact (congrFun htxs _).trans h.tx
  · exact fun other hne => (congrFun htxs other).trans (h.sole other hne)
  · exact hcommitted.trans h.committed

theorem Inv.completes {ledger : Ledger} (inv : Inv s ledger) (sole : Sole s j)
    (hj : s.judges j = .claimSelected id) (enqueued : ∀ row,
      s.db.committed.lookup id = some row → row.enqueuedAt ≤ s.now (.judge j)) :
    ∃ t row claimed, machine.run s [.claimUpdate j, .claimCommit j] = some t ∧
      s.db.committed.lookup id = some row ∧
      accept (row.claim (s.now (.judge j))) = .ok claimed ∧
      t.db.committed = s.db.committed.insert id claimed ∧ NoTransaction t ∧
      t.judges = Function.update s.judges j (.judging (jobOf id claimed.toJobRow)) ∧
      t.log = s.log ++ [.claimed j (jobOf id claimed.toJobRow)] ∧ t.clock = s.clock := by
  obtain ⟨_, hheld, _⟩ := inv.situation hj
  obtain ⟨now, row, htx, hnewest, hrow, hwaiting⟩ := inv.selected_row hj
  obtain ⟨claimed, haccept⟩ := (claim_accepted_iff row hwaiting _).mpr (enqueued row hrow)
  obtain ⟨db, hwrite⟩ := Db.write_succeeds htx hheld claimed
  obtain ⟨tx, htx', _, htxs, _, hcommitted⟩ := Db.write_eq_some hwrite
  cases htx.symm.trans htx'
  obtain ⟨last, hcommit⟩ := Db.commit_succeeds htxs
  obtain ⟨hnone, hlast⟩ := Db.commit_one hcommit htxs
  have hupdate : machine.step s (.claimUpdate j) = some { s.setJudge j
      (.claimed (some (jobOf id claimed.toJobRow))) with db } := by
    simp [machine, step, claimStep, hj, hnewest, haccept, hwrite]
  refine ⟨{ s with
      db := last
      judges := Function.update s.judges j (.judging (jobOf id claimed.toJobRow))
      log := s.log ++ [.claimed j (jobOf id claimed.toJobRow)] },
    row, claimed, machine.run_cons_eq_some.mpr ⟨_, hupdate, ?_⟩, hrow, haccept,
    hlast.trans (congrArg _ hcommitted), fun other => ?_, rfl, rfl, rfl⟩
  · simp [Machine.run, machine, step, claimStep, State.setJudge, State.record, hcommit]
  · by_cases hne : other = .judge j
    · rw [hne]
      exact hnone
    · exact (Db.commit_undisturbed hcommit hne).tx.trans
        ((Db.write_undisturbed hwrite hne).tx.trans (sole other hne))

def claimCall (j : Nat) : List Action :=
  [.claimBegin j, .claimSnapshot j, .claimVisit j, .claimUpdate j, .claimCommit j]

theorem claimCall_runs (sound : Sound s) (none : NoTransaction s) (hj : s.judges j = .idle)
    (hids : waitingIds s.db.committed = id :: rest) :
    ∃ t row claimed, machine.run s (claimCall j) = some t ∧
      s.db.committed.lookup id = some row ∧ accept (row.claim s.clock) = .ok claimed ∧
      t.db.committed = s.db.committed.insert id claimed ∧ NoTransaction t ∧
      t.judges = Function.update s.judges j (.judging (jobOf id claimed.toJobRow)) ∧
      t.log = s.log ++ [.claimed j (jobOf id claimed.toJobRow)] ∧ t.clock = s.clock := by
  obtain ⟨u, h⟩ := visiting_of_idle none hj
  obtain ⟨v, hvisit, hjudges, htx, sole, hcommitted, hlog, hclock⟩ :=
    h.selects (sound_of_run sound h.run).2 hids
  have hrun : machine.run s [.claimBegin j, .claimSnapshot j, .claimVisit j] = some v :=
    machine.run_concat_eq_some.mpr ⟨u, h.run, hvisit⟩
  obtain ⟨⟨ledger, inv⟩, _⟩ := sound_of_run sound hrun
  have hselected : v.judges j = .claimSelected id := by rw [hjudges, Function.update_self]
  have hnow : v.now (.judge j) = s.clock := State.now_eq htx
  obtain ⟨t, row, claimed, hrest, hrow, haccept, hcommitted', hnone, hjudges', hlog', hclock'⟩ :=
    inv.completes sole hselected fun row hrow => by
      rw [hnow]
      exact sound.2.enqueued.committed id row (hcommitted ▸ hrow)
  refine ⟨t, row, claimed, ?_, hcommitted ▸ hrow, hnow ▸ haccept, hcommitted ▸ hcommitted', hnone,
    ?_, hlog ▸ hlog', hclock'.trans hclock⟩
  · change machine.run s ([.claimBegin j, .claimSnapshot j, .claimVisit j] ++ _) = _
    rw [machine.run_append, hrun]
    exact hrest
  · rw [hjudges', hjudges, Function.update_idem]

theorem claimCalls_run {judges : List Nat} {ids : List Uuid} (sound : Sound s)
    (none : NoTransaction s) (nodup : judges.Nodup) (idle : ∀ j ∈ judges, s.judges j = .idle)
    (hids : waitingIds s.db.committed = ids) (hlength : judges.length = ids.length) :
    ∃ t events, machine.run s (judges.flatMap claimCall) = some t ∧ NoTransaction t ∧
      t.log = s.log ++ events ∧ events.filterMap Event.claimedId = ids ∧
      waitingIds t.db.committed = [] := by
  induction judges generalizing s ids with
  | nil =>
    cases List.eq_nil_of_length_eq_zero hlength.symm
    exact ⟨s, [], rfl, none, (List.append_nil _).symm, rfl, hids⟩
  | cons j judges ih =>
    obtain ⟨hj, nodup⟩ := List.nodup_cons.mp nodup
    obtain ⟨hidle, idle⟩ := List.forall_mem_cons.mp idle
    cases ids with
    | nil => cases hlength
    | cons id rest =>
      obtain ⟨u, row, claimed, hrun, _, haccept, hcommitted, hnone, hjudges, hlog, _⟩ :=
        claimCall_runs sound none hidle hids
      have hrest : waitingIds u.db.committed = rest := by
        rw [hcommitted]
        exact waitingIds_insert_head hids (by simp [accept_eq_ok.mp haccept, JobRow.claim])
      have idle' : ∀ i ∈ judges, u.judges i = .idle := by
        intro i hi
        have hne : i ≠ j := by
          rintro rfl
          exact hj hi
        rw [hjudges, Function.update_of_ne hne]
        exact idle i hi
      obtain ⟨t, events, hrun', hnone', hlog', hclaimed, hlast⟩ :=
        ih (sound_of_run sound hrun) hnone nodup idle' hrest (Nat.succ.inj hlength)
      refine ⟨t, .claimed j (jobOf id claimed.toJobRow) :: events, ?_, hnone', ?_, ?_, hlast⟩
      · rw [List.flatMap_cons, machine.run_append, hrun]
        exact hrun'
      · rw [hlog', hlog, List.append_assoc, List.singleton_append]
      · exact congrArg (List.cons id) hclaimed

end Calls

/-- Claims are oldest first, and no call is idle beside work that it could have: in any
interleaving, and with the database for themselves in particular. -/
theorem claims_are_oldest_first (history : List Action) (s : State)
    (reached : machine.run .init history = some s) :
    (∀ j schedule t job, Call s j schedule t (some job) →
      job.id ∈ waitingIds (s.db.snapshot (.judge j)) ∧
      ∀ id ∈ waitingIds (s.db.snapshot (.judge j)), Before (s.db.snapshot (.judge j)) id job.id →
        PassedOver s j (.claimSnapshot j :: schedule) id) ∧
    (∀ j schedule t, Call s j schedule t none → ∀ id ∈ waitingIds (s.db.snapshot (.judge j)),
      PassedOver s j (.claimSnapshot j :: schedule) id) ∧
    (NoTransaction s → ∀ schedule t, machine.Meets Alone s schedule →
      machine.run s schedule = some t →
        (waitingIds s.db.committed).Pairwise (Before s.db.committed) ∧
        (∃ events, t.log = s.log ++ events ∧
          events.filterMap Event.claimedId ++ waitingIds t.db.committed =
            waitingIds s.db.committed) ∧
        ∀ j, t.judges j = .claimed none → waitingIds t.db.committed = []) ∧
    (NoTransaction s → ∀ judges : List Nat, judges.Nodup → (∀ j ∈ judges, s.judges j = .idle) →
      judges.length = (waitingIds s.db.committed).length →
        ∃ t events, machine.run s (judges.flatMap claimCall) = some t ∧
          t.log = s.log ++ events ∧
          events.filterMap Event.claimedId = waitingIds s.db.committed ∧
          ∀ j, t.judges j = .idle → ∃ u,
            machine.run t [.claimBegin j, .claimSnapshot j, .claimVisit j] = some u ∧
              u.judges j = .claimed none) := by
  have sound := sound_of_run init_sound reached
  refine ⟨fun j schedule t job call => call.oldest sound,
    fun j schedule t call => call.nothing sound, ?_, ?_⟩
  · intro none schedule t alone hrun
    have turns := claims_in_turn sound none alone hrun
    refine ⟨waitingIds_pairwise _, turns.claimed, fun j hj => ?_⟩
    have turn := turns.turns j
    rw [hj] at turn
    exact turn
  · intro none judges nodup idle hlength
    obtain ⟨t, events, hrun, hnone, hlog, hclaimed, hlast⟩ :=
      claimCalls_run sound none nodup idle rfl hlength
    refine ⟨t, events, hrun, hlog, hclaimed, fun j hj => ?_⟩
    obtain ⟨u, h⟩ := visiting_of_idle hnone hj
    exact h.nothing hlast

def secondId : Uuid := ⟨9, by decide⟩

/-- Two jobs wait, and judge 1 has selected the first one when judge 0 begins its
call. -/
def rivals : List Action :=
  [.apiBegin 0, .apiInsert 0 firstId printZero, .apiInsert 0 secondId printZero, .apiCommit 0,
    .claimBegin 1, .claimSnapshot 1, .claimVisit 1, .claimBegin 0]

theorem claims_are_oldest_first_rivals : ∃ s t job, machine.run .init rivals = some s ∧
    Call s 0 [.claimVisit 0, .claimVisit 0, .claimUpdate 0] t (some job) ∧ job.id = secondId ∧
    PassedOver s 0 [.claimSnapshot 0, .claimVisit 0, .claimVisit 0, .claimUpdate 0] firstId := by
  have h : ((machine.run .init rivals).bind fun s =>
      (machine.run s [.claimSnapshot 0, .claimVisit 0, .claimVisit 0, .claimUpdate 0]).map fun t =>
        (s.judges 0, waitingIds (s.db.snapshot (.judge 0)), t.judges 0)) =
      some (.claimBegun, [firstId, secondId],
        .claimed (some (jobOf secondId (printZero.row 0)))) := by rfl
  obtain ⟨s, hs, h⟩ := Option.bind_eq_some_iff.mp h
  obtain ⟨t, ht, h⟩ := Option.map_eq_some_iff.mp h
  obtain ⟨hbegun, hids, hanswered⟩ := by simpa only [Prod.mk.injEq] using h
  have call : Call s 0 [.claimVisit 0, .claimVisit 0, .claimUpdate 0] t
      (some (jobOf secondId (printZero.row 0))) := ⟨hbegun, by simp, ht, hanswered⟩
  obtain ⟨_, hpassed⟩ := (claims_are_oldest_first rivals s hs).1 0 _ t _ call
  have hsorted := waitingIds_pairwise (s.db.snapshot (.judge 0))
  rw [hids] at hsorted hpassed
  exact ⟨s, t, _, hs, call, rfl, hpassed firstId List.mem_cons_self
    ((List.pairwise_cons.mp hsorted).1 secondId List.mem_cons_self)⟩

end Pals.Queue
