import Pals.Queue.EndStates
import Pals.Queue.Locks

/-! Who waits for whom. A call of `claim_job` goes past what is locked and never waits;
a call of `finish_job` waits for such calls only, and so every verdict list that a judge
has can be stored. -/
namespace Pals.Queue
open Pals.Library Pals.Contracts Pals.Judge

def JudgeState.inClaim : JudgeState → Bool
  | claimBegun | claimVisiting _ | claimSelected _ | claimed _ => true
  | _ => false

def JudgeState.given : JudgeState → Option (Job × List Verdict)
  | judged job verdicts | finishBegun job verdicts | finishVisiting job verdicts
  | finished job verdicts _ => some (job, verdicts)
  | _ => none

def Action.claims (j : Nat) : Action → Bool
  | claimSnapshot i | claimVisit i | claimUpdate i | claimCommit i => i = j
  | _ => false

def Action.finishes (j : Nat) : Action → Bool
  | finishBegin i | finishSnapshot i | finishUpdate i | finishCommit i => i = j
  | _ => false

def State.claimLeft (s : State) (j : Nat) : Nat :=
  match s.judges j with
  | .claimBegun => (waitingIds (s.db.snapshot (.judge j))).length + 3
  | .claimVisiting rest => rest.length + 2
  | .claimSelected _ => 2
  | .claimed _ => 1
  | _ => 0

/-- Whatever the others do, a call of `claim_job` can go on, and has answered after a
visit to each of its rows and two more steps. -/
structure WaitFree (s : State) : Prop where
  goesOn : ∀ j, (s.judges j).inClaim = true →
    ∃ a t, a.claims j = true ∧ machine.step s a = some t
  bounded : ∀ j rest, s.judges j = .claimVisiting rest → ∀ schedule t,
    .claimBegin j ∉ schedule → machine.run s schedule = some t →
      schedule.countP (Action.claims j) ≤ rest.length + 2

section Claims
variable {s t : State} {j : Nat} {a : Action} {place : JudgeState}
variable {db : Db Session Uuid Row} {events : List Event} {ledger : Ledger}

theorem Inv.claim_goes (inv : Inv s ledger) (hj : (s.judges j).inClaim = true) :
    ∃ a t, a.claims j = true ∧ machine.step s a = some t := by
  suffices h : ∃ a : Action, a.claims j = true ∧ (machine.step s a).isSome = true by
    obtain ⟨a, ha, hstep⟩ := h
    obtain ⟨t, ht⟩ := Option.isSome_iff_exists.mp hstep
    exact ⟨a, t, ha, ht⟩
  have situation := inv.judges j
  generalize hplace : s.judges j = place at hj situation
  cases place with
  | claimBegun => exact ⟨.claimSnapshot j, decide_eq_true rfl, by simp [machine, step, claimStep, hplace]⟩
  | claimVisiting rest =>
    refine ⟨.claimVisit j, decide_eq_true rfl, ?_⟩
    cases rest with
    | nil => simp [machine, step, claimStep, hplace]
    | cons id rest =>
      cases hlock : s.db.lock (.judge j) id <;> simp [machine, step, claimStep, hplace, hlock]
  | claimSelected id =>
    obtain ⟨now, row, htx, hnewest, _, _⟩ := inv.selected_row hplace
    refine ⟨.claimUpdate j, decide_eq_true rfl, ?_⟩
    cases haccept : accept (row.claim (s.now (.judge j))) with
    | error check => simp [machine, step, claimStep, hplace, hnewest, haccept]
    | ok claimed =>
      obtain ⟨db, hwrite⟩ := Db.write_succeeds htx situation.2.1 claimed
      simp [machine, step, claimStep, hplace, hnewest, haccept, hwrite]
  | claimed answer =>
    refine ⟨.claimCommit j, decide_eq_true rfl, ?_⟩
    cases answer with
    | none =>
      obtain ⟨now, htx⟩ := situation
      obtain ⟨db, hcommit⟩ := Db.commit_succeeds htx
      simp [machine, step, claimStep, hplace, hcommit]
    | some job =>
      obtain ⟨now, row, written, htx, _⟩ := situation
      obtain ⟨db, hcommit⟩ := Db.commit_succeeds htx
      simp [machine, step, claimStep, hplace, hcommit]
  | _ => cases hj

theorem JudgeStep.claimLeft (move : JudgeStep s j a (s.judges j) place db events)
    (begun : a ≠ .claimBegin j) :
    let t := s.after (Function.update s.judges j place) db events
    (if a.claims j then t.claimLeft j + 1 else t.claimLeft j) ≤ s.claimLeft j := by
  generalize hj : s.judges j = before at move
  cases move <;> simp_all [Action.claims, State.claimLeft, State.after]

theorem JudgeStep.claims_of_ne {i : Nat} {before : JudgeState}
    (move : JudgeStep s i a before place db events) (hne : i ≠ j) : a.claims j = false := by
  cases move <;> simp [Action.claims, hne]

theorem ApiStep.claims {n : Nat} (move : ApiStep s n a db events) : a.claims j = false := by
  cases move <;> rfl

theorem claimLeft_congr (same : t.judges j = s.judges j) (begun : s.judges j ≠ .claimBegun) :
    t.claimLeft j = s.claimLeft j := by
  unfold State.claimLeft
  rw [same]
  split
  · contradiction
  all_goals rfl

theorem Step.others (h : Step s a t) :
    (t.judges j = s.judges j ∧ a.claims j = false) ∨
    ∃ place db events, JudgeStep s j a (s.judges j) place db events ∧
      t = s.after (Function.update s.judges j place) db events := by
  cases h with
  | tick elapsed time => exact .inl ⟨rfl, time ▸ rfl⟩
  | api n db events move => exact .inl ⟨rfl, move.claims⟩
  | judge i place db events move =>
    by_cases hi : i = j
    · subst hi
      exact .inr ⟨place, db, events, move, rfl⟩
    · exact .inl ⟨Function.update_of_ne (Ne.symm hi) _ _, move.claims_of_ne hi⟩

theorem claimLeft_step (h : machine.step s a = some t) (begin : a ≠ .claimBegin j)
    (begun : s.judges j ≠ .claimBegun) :
    (if a.claims j then t.claimLeft j + 1 else t.claimLeft j) ≤ s.claimLeft j := by
  obtain ⟨same, hclaims⟩ | ⟨place, db, events, move, rfl⟩ := (step_cases h).others (j := j)
  · rw [hclaims, claimLeft_congr same begun]
    exact Nat.le_refl _
  · exact move.claimLeft begin

theorem notBegun_step (h : machine.step s a = some t) (begin : a ≠ .claimBegin j)
    (begun : s.judges j ≠ .claimBegun) : t.judges j ≠ .claimBegun := by
  obtain ⟨same, _⟩ | ⟨place, db, events, move, rfl⟩ := (step_cases h).others (j := j)
  · rwa [same]
  · change Function.update s.judges j place j ≠ _
    rw [Function.update_self]
    generalize s.judges j = before at move
    cases move <;> simp_all

theorem Inv.waitFree (inv : Inv s ledger) : WaitFree s where
  goesOn _ hj := inv.claim_goes hj
  bounded j rest hj schedule t single hrun := by
    have hbound := Machine.run_measure (fun u => State.claimLeft u j) (Action.claims j)
      (I := fun u => u.judges j ≠ .claimBegun) (D := (· ≠ .claimBegin j))
      (fun _ _ _ begun begin h => notBegun_step h begin begun)
      (fun _ _ _ begun begin h => claimLeft_step h begin begun) (by simp [hj]) hrun
      (fun a ha => fun he => single (he ▸ ha))
    simp only [State.claimLeft, hj] at hbound
    omega

end Claims

/-- However the transactions of any number of API sessions and judges interleave. -/
theorem claims_are_waitFree (schedule : List Action) : machine.Always WaitFree .init schedule :=
  Machine.always step_inv (fun _ ⟨_, inv⟩ => inv.waitFree) ⟨_, init_inv⟩ schedule

def Held (db : Db Session Uuid Row) (j : Nat) : JudgeState → Prop
  | .finishBegun _ _ | .finishVisiting _ _ => ∀ id, db.holder id ≠ some (.judge j)
  | .finished job _ _ => ∀ id, db.holder id = some (.judge j) → id = job.id
  | _ => True

/-- An API session has locked no row that others can see, and a judge that finishes a
job no row but that of the job. -/
structure Guarded (s : State) : Prop where
  api : ∀ n id, s.db.holder id = some (.api n) → s.db.committed.lookup id = none
  judges : ∀ j, Held s.db j (s.judges j)

def Stored (s : State) (j : Nat) (job : Job) (verdicts : List Verdict) : Prop :=
  s.log.getLast? = some (.finished j job.id verdicts true) ∧
    ∃ row, s.db.committed.lookup job.id = some row ∧ row.state = .done ∧
      row.result = some (resultOf verdicts)

/-- The judge can store the verdicts, with no other steps but those of calls of
`claim_job` that are in its way. -/
def Storable (s : State) (j : Nat) (job : Job) (verdicts : List Verdict) : Prop :=
  ∃ schedule t, (∀ a ∈ schedule, a.finishes j = true ∨ ∃ i, i ≠ j ∧ a.claims i = true) ∧
    machine.run s schedule = some t ∧ Stored t j job verdicts

/-- A call of `finish_job` waits for calls of `claim_job` only, which do not wait, and
so every verdict list can be stored. -/
structure DeadlockFree (s : State) : Prop where
  waits : ∀ j job verdicts, s.judges j = .finishVisiting job verdicts →
    machine.step s (.finishUpdate j) = none →
      ∃ i, i ≠ j ∧ s.db.holder job.id = some (.judge i) ∧ (s.judges i).inClaim = true
  storable : ∀ j job verdicts, (s.judges j).given = some (job, verdicts) →
    Storable s j job verdicts

section Finishes
variable {s t : State} {j n : Nat} {a : Action} {place : JudgeState} {session : Session}
variable {db : Db Session Uuid Row} {events : List Event} {ledger : Ledger}
variable {job : Job} {verdicts : List Verdict}

theorem Tidy.noLock (tidy : Tidy s) (ended : s.db.txs session = none) (id : Uuid) :
    s.db.holder id ≠ some session :=
  fun held => tidy.locks id session held ended

theorem Held.ops (held : Held s.db j place) {P : Row → Prop}
    (ops : Relation.ReflTransGen (Db.Op P session) s.db db) (hne : Session.judge j ≠ session) :
    Held db j place := by
  have before (id : Uuid) : db.holder id = some (.judge j) → s.db.holder id = some (.judge j) :=
    Db.ops_holder_other ops hne
  cases place with
  | finishBegun job verdicts | finishVisiting job verdicts =>
    exact fun id hid => held id (before id hid)
  | finished job verdicts answer => exact fun id hid => held id (before id hid)
  | _ => trivial

theorem JudgeStep.held (move : JudgeStep s j a (s.judges j) place db events) (inv : Inv s ledger)
    (tidy : Tidy s) (held : Held s.db j (s.judges j)) : Held db j place := by
  have situation := inv.judges j
  generalize s.judges j = before at move situation held
  -- The lock of a finishing judge is the only one that it has.
  have only {job : Job} {locked : Db Session Uuid Row}
      (none : ∀ id, s.db.holder id ≠ some (.judge j))
      (lock : s.db.lock (.judge j) job.id = some locked) (id : Uuid)
      (hid : locked.holder id = some (.judge j)) : id = job.id := by
    by_contra hne
    exact none id ((Db.lock_holder_of_ne lock hne).symm.trans hid)
  cases move with
  | finishBegin job verdicts db started =>
    intro id hid
    exact tidy.noLock situation.1 id (Db.start_holder started ▸ hid)
  | finishSnapshot => exact held
  | finishMisses => exact fun id hid => absurd hid (held id)
  | finish job verdicts row finished locked db lock newest running accepted written =>
    obtain ⟨_, _, _, _, hholder, _⟩ := Db.write_eq_some written
    exact fun id hid => only held lock id (hholder ▸ hid)
  | finishPasses job verdicts row locked lock => exact fun id hid => only held lock id hid
  | _ => trivial

theorem ApiStep.held (move : ApiStep s n a db events) (tidy : Tidy (s.after s.judges db events))
    (guarded : Guarded s) {id : Uuid} (held : db.holder id = some (.api n)) :
    db.committed.lookup id = none := by
  cases move with
  | begin db started =>
    rw [(Db.start_eq_some started).2.2]
    exact guarded.api n id (Db.start_holder started ▸ held)
  | insert id' submission row locked db accepted new lock written =>
    obtain ⟨_, _, _, _, hholder, hcommitted⟩ := Db.write_eq_some written
    rw [hcommitted, (Db.lock_eq_some lock).2.2]
    by_cases hid : id = id'
    · exact hid ▸ new
    · rw [hholder, Db.lock_holder_of_ne lock hid] at held
      exact guarded.api n id held
  | commit db committed =>
    obtain ⟨_, _, hended, _⟩ := Db.commit_eq_some committed
    exact absurd held (tidy.noLock hended id)
  | rollback => exact absurd held (tidy.noLock (Db.release_txs _) id)

theorem guarded_step (inv : Inv s ledger) (tidy : Tidy s) (guarded : Guarded s)
    (h : machine.step s a = some t) : Guarded t := by
  have tidy' := tidy_step inv tidy h
  have others {P : Row → Prop} {db : Db Session Uuid Row} {session : Session}
      (ops : Relation.ReflTransGen (Db.Op P session) s.db db) (n : Nat) (id : Uuid)
      (hne : Session.api n ≠ session) (held : db.holder id = some (.api n)) :
      db.committed.lookup id = none := by
    have before := Db.ops_holder_other ops hne held
    rw [(Db.ops_undisturbed ops hne).row id before]
    exact guarded.api n id before
  cases step_cases h with
  | tick elapsed => exact ⟨guarded.api, guarded.judges⟩
  | api n db events move =>
    have ops := move.ops inv
    refine ⟨fun m id held => ?_, fun j => (guarded.judges j).ops ops nofun⟩
    by_cases hm : m = n
    · subst hm
      exact move.held tidy' guarded held
    · exact others ops m id (fun he => hm (Session.api.inj he)) held
  | judge j place db events move =>
    have ops := move.ops inv tidy.enqueued
    refine ⟨fun n id held => others ops n id nofun held, fun i => ?_⟩
    change Held db i (Function.update s.judges j place i)
    by_cases hi : i = j
    · subst hi
      rw [Function.update_self]
      exact move.held inv tidy (guarded.judges i)
    · rw [Function.update_of_ne hi]
      exact (guarded.judges i).ops ops fun he => hi (Session.judge.inj he)

theorem Inv.finish_waits (inv : Inv s ledger) (tidy : Tidy s) (guarded : Guarded s)
    (hj : s.judges j = .finishVisiting job verdicts) :
    s.db.holder job.id = none ∨
      ∃ i, i ≠ j ∧ s.db.holder job.id = some (.judge i) ∧ (s.judges i).inClaim = true := by
  obtain ⟨before, taken, obtained⟩ := inv.situation hj
  obtain ⟨_, row, _, _, hrow, _⟩ := inv.finishable before taken obtained
  cases hheld : s.db.holder job.id with
  | none => exact .inl rfl
  | some session =>
    have running := tidy.locks _ _ hheld
    cases session with
    | api n => cases hrow.symm.trans (guarded.api n _ hheld)
    | judge i =>
      have hne : i ≠ j := by
        rintro rfl
        have free : Held s.db i (.finishVisiting job verdicts) := hj ▸ guarded.judges i
        exact free _ hheld
      refine .inr ⟨i, hne, rfl, ?_⟩
      have situation := inv.judges i
      have held := guarded.judges i
      generalize s.judges i = place at situation held
      cases place with
      | idle | stopped => exact absurd situation running
      | judging | judged => exact absurd situation.1 running
      | finishBegun | finishVisiting => exact absurd hheld (held _)
      | finished job' verdicts' answer =>
        -- Two judges would have claimed the same job.
        obtain ⟨_, _, taken', _⟩ := situation
        have hid : job.id = job'.id := held _ hheld
        cases (hid ▸ taken).symm.trans taken'
        exact absurd rfl hne
      | _ => rfl

theorem Storable.step {u : State} (h : machine.step s a = some u)
    (allowed : a.finishes j = true ∨ ∃ i, i ≠ j ∧ a.claims i = true)
    (rest : Storable u j job verdicts) : Storable s j job verdicts := by
  obtain ⟨schedule, t, all, hrun, stored⟩ := rest
  exact ⟨a :: schedule, t, List.forall_mem_cons.mpr ⟨allowed, all⟩,
    machine.run_cons_eq_some.mpr ⟨u, h, hrun⟩, stored⟩

theorem Inv.storable_of_finished (inv : Inv s ledger) {answer : Bool}
    (hj : s.judges j = .finished job verdicts answer) : Storable s j job verdicts := by
  obtain ⟨rfl, ⟨now, row, written, htx, _⟩, _⟩ := inv.situation hj
  obtain ⟨db, hcommit⟩ := Db.commit_succeeds htx
  obtain ⟨t, hstep, hlog⟩ : ∃ t, machine.step s (.finishCommit j) = some t ∧
      t.log = s.log ++ [.finished j job.id verdicts true] :=
    ⟨{ s.setJudge j .idle with db }.record [.finished j job.id verdicts true],
      by simp [machine, Queue.step, finishStep, hj, hcommit], rfl⟩
  refine ⟨[.finishCommit j], t, by simp [Action.finishes],
    machine.run_cons_eq_some.mpr ⟨t, hstep, rfl⟩, hlog ▸ List.getLast?_concat .., ?_⟩
  obtain ⟨ledger', inv'⟩ := step_inv _ _ _ ⟨ledger, inv⟩ hstep
  have hfinished : .finished j job.id verdicts true ∈ t.log :=
    hlog ▸ List.mem_append_right s.log List.mem_cons_self
  obtain ⟨_, hentry⟩ := inv'.settled_iff.mpr hfinished
  obtain ⟨row', hrow', _, hdone, hresult⟩ := inv'.row_of_entry hentry
  exact ⟨row', hrow', hdone, hresult⟩

theorem Inv.finish_goes (inv : Inv s ledger) (hj : s.judges j = .finishVisiting job verdicts)
    (free : s.db.holder job.id = none) : ∃ t, machine.step s (.finishUpdate j) = some t ∧
      t.judges j = .finished job verdicts true := by
  obtain ⟨before, taken, obtained⟩ := inv.situation hj
  obtain ⟨now, row, finished, htx, hrow, hrunning, haccept, _⟩ :=
    inv.finishable before taken obtained
  obtain ⟨locked, hlock⟩ := Db.lock_succeeds (.inl free)
  obtain ⟨hheld, htxs, hcommitted⟩ := Db.lock_eq_some hlock
  have htx' : locked.txs (.judge j) = some ⟨now, ∅⟩ := htxs ▸ htx
  have hnewest : locked.newest (.judge j) job.id = some row := by
    rw [Db.newest_of_unwritten htx', hcommitted, hrow]
  obtain ⟨db, hwrite⟩ := Db.write_succeeds htx' hheld finished
  refine ⟨{ s.setJudge j (.finished job verdicts true) with db }, ?_, Function.update_self ..⟩
  simp [machine, Queue.step, finishStep, hj, hlock, hnewest, hrunning, haccept, hwrite]

theorem Inv.storable_of_free (inv : Inv s ledger) (hj : s.judges j = .finishVisiting job verdicts)
    (free : s.db.holder job.id = none) : Storable s j job verdicts := by
  obtain ⟨t, hstep, ht⟩ := inv.finish_goes hj free
  obtain ⟨ledger', inv'⟩ := step_inv _ _ _ ⟨ledger, inv⟩ hstep
  exact .step hstep (.inl (decide_eq_true rfl)) (inv'.storable_of_finished ht)

structure WaitsFor (i j : Nat) (job : Job) (verdicts : List Verdict) (s : State) : Prop where
  sound : Sound s
  guarded : Guarded s
  place : s.judges j = .finishVisiting job verdicts
  holder : ∀ session, s.db.holder job.id = some session → session = .judge i

theorem WaitsFor.step {i : Nat} (waits : WaitsFor i j job verdicts s) (hne : i ≠ j)
    (claims : a.claims i = true) (h : machine.step s a = some t) : WaitsFor i j job verdicts t := by
  obtain ⟨⟨ledger, inv⟩, tidy⟩ := waits.sound
  refine ⟨step_sound s a t waits.sound h, guarded_step inv tidy waits.guarded h, ?_, ?_⟩
  · obtain ⟨same, _⟩ | ⟨place, db, events, move, _⟩ := (step_cases h).others (j := j)
    · exact same.trans waits.place
    · cases claims.symm.trans (move.claims_of_ne hne.symm)
  · obtain ⟨_, quiet⟩ | ⟨place, db, events, move, rfl⟩ := (step_cases h).others (j := i)
    · cases claims.symm.trans quiet
    · intro session held
      by_contra hother
      exact hother (waits.holder session
        (Db.ops_holder_other (move.ops inv tidy.enqueued) hother held))

/-- The call of `claim_job` that is in the way comes to its end. -/
theorem WaitsFor.storable {i : Nat} (waits : WaitsFor i j job verdicts s) (hne : i ≠ j) :
    Storable s j job verdicts := by
  obtain ⟨schedule, t, allowed, hrun, ended, hanswered⟩ := Machine.run_ends
    (P := fun u => (u.judges i).inClaim = true) (D := fun a => a.claims i = true)
    (fun u => u.claimLeft i) (fun _ _ _ waits claims h => waits.step hne claims h)
    (fun u waits hclaim => by
      obtain ⟨⟨ledger, inv⟩, _⟩ := waits.sound
      obtain ⟨a, v, claims, hstep⟩ := inv.claim_goes hclaim
      refine ⟨a, v, claims, hstep, ?_⟩
      obtain ⟨_, quiet⟩ | ⟨place, db, events, move, rfl⟩ := (step_cases hstep).others (j := i)
      · cases claims.symm.trans quiet
      · have hleft := move.claimLeft (by rintro rfl; cases claims)
        rw [claims] at hleft
        exact hleft) waits
  have rest : Storable t j job verdicts := by
    obtain ⟨⟨ledger, inv⟩, tidy⟩ := ended.sound
    refine inv.storable_of_free ended.place ?_
    obtain hfree | ⟨i', _, hheld, hclaim⟩ := inv.finish_waits tidy ended.guarded ended.place
    · exact hfree
    · cases ended.holder _ hheld
      exact absurd hclaim hanswered
  obtain ⟨schedule', t', allowed', hrun', stored⟩ := rest
  refine ⟨schedule ++ schedule', t', fun a ha => ?_, ?_, stored⟩
  · obtain ha | ha := List.mem_append.mp ha
    · exact .inr ⟨i, hne, allowed a ha⟩
    · exact allowed' a ha
  · rw [machine.run_append, hrun]
    exact hrun'

theorem storable_of_finishVisiting (sound : Sound s) (guarded : Guarded s)
    (hj : s.judges j = .finishVisiting job verdicts) : Storable s j job verdicts := by
  obtain ⟨⟨ledger, inv⟩, tidy⟩ := id sound
  obtain hfree | ⟨i, hne, hheld, _⟩ := inv.finish_waits tidy guarded hj
  · exact inv.storable_of_free hj hfree
  · refine WaitsFor.storable (i := i) ⟨sound, guarded, hj, fun session hsession => ?_⟩ hne
    exact Option.some.inj (hsession.symm.trans hheld)

theorem storable_of_finishBegun (sound : Sound s) (guarded : Guarded s)
    (hj : s.judges j = .finishBegun job verdicts) : Storable s j job verdicts := by
  obtain ⟨⟨ledger, inv⟩, tidy⟩ := id sound
  obtain ⟨before, taken, obtained⟩ := inv.situation hj
  obtain ⟨now, row, _, htx, hrow, hrunning, _, _, hnonempty⟩ := inv.finishable before taken obtained
  have hstep : machine.step s (.finishSnapshot j) =
      some (s.setJudge j (.finishVisiting job verdicts)) := by
    simp [machine, Queue.step, finishStep, hj, Db.snapshot_of_unwritten htx, hrow, hrunning, hnonempty]
  exact .step hstep (.inl (decide_eq_true rfl)) (storable_of_finishVisiting
    (step_sound _ _ _ sound hstep) (guarded_step inv tidy guarded hstep) (Function.update_self ..))

theorem storable_of_given (sound : Sound s) (guarded : Guarded s)
    (hj : (s.judges j).given = some (job, verdicts)) : Storable s j job verdicts := by
  obtain ⟨⟨ledger, inv⟩, tidy⟩ := id sound
  cases hplace : s.judges j with
  | judged job verdicts =>
    rw [hplace] at hj
    cases hj
    obtain ⟨hnone, _⟩ := inv.situation hplace
    obtain ⟨db, hstart⟩ := Db.start_succeeds hnone s.clock
    have hstep : machine.step s (.finishBegin j) =
        some { s.setJudge j (.finishBegun job verdicts) with db } := by
      simp [machine, Queue.step, finishStep, hplace, hstart]
    exact .step hstep (.inl (decide_eq_true rfl)) (storable_of_finishBegun
      (step_sound _ _ _ sound hstep) (guarded_step inv tidy guarded hstep) (Function.update_self ..))
  | finishBegun job verdicts =>
    rw [hplace] at hj
    cases hj
    exact storable_of_finishBegun sound guarded hplace
  | finishVisiting job verdicts =>
    rw [hplace] at hj
    cases hj
    exact storable_of_finishVisiting sound guarded hplace
  | finished job verdicts answer =>
    rw [hplace] at hj
    cases hj
    exact inv.storable_of_finished hplace
  | _ =>
    rw [hplace] at hj
    cases hj

end Finishes

theorem init_guarded : Guarded .init := ⟨fun _ _ h => (nomatch h), fun _ => trivial⟩

/-- However the transactions of any number of API sessions and judges interleave. -/
theorem finishes_are_deadlockFree (schedule : List Action) :
    machine.Always DeadlockFree .init schedule := by
  refine Machine.always (I := fun s => Sound s ∧ Guarded s)
    (fun s a t ⟨sound, guarded⟩ h => ⟨step_sound s a t sound h, ?_⟩) (fun s ⟨sound, guarded⟩ => ?_)
    ⟨init_sound, init_guarded⟩ schedule
  · obtain ⟨⟨ledger, inv⟩, tidy⟩ := sound
    exact guarded_step inv tidy guarded h
  · refine ⟨fun j job verdicts hj blocked => ?_,
      fun j job verdicts hj => storable_of_given sound guarded hj⟩
    obtain ⟨⟨ledger, inv⟩, tidy⟩ := id sound
    obtain hfree | hwaits := inv.finish_waits tidy guarded hj
    · obtain ⟨t, hstep, _⟩ := inv.finish_goes hj hfree
      cases blocked.symm.trans hstep
    · exact hwaits

end Pals.Queue
