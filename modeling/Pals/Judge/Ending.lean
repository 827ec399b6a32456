import Pals.Judge.Faults
import Pals.Judge.Removal

/-! What a run of the sandbox comes to: it ends whoever steps when, unless `docker rm`
does not, and a verdict on an output is given to a program that has run. -/
namespace Pals.Judge.Run
open Pals.Library Pals.Library.Time Pals.Contracts

def Action.own : Action → Bool
  | spawn _ | feed _ | read _ | wait _ | deadline | remove _ | removeWait _ | removeHangs => true
  | _ => false

def Call.left : Call → Nat
  | spawning => 6
  | waiting fed kept => 3 + (if fed then 0 else 1) + (if kept.isSome then 0 else 1)
  | removing _ => 2
  | removed _ => 1
  | hung _ | returned _ => 0

def Cli.left : Cli → Nat
  | absent => 0
  | preparing => 7
  | creating | created => 5
  | starting | attached => 2
  | ending _ => 1
  | exited _ | killed => 0

def Request.left : Request → Nat
  | create => 1
  | start => 2

def Call.reserve : Call → Nat
  | spawning => 7
  | _ => 0

def Container.left : Container → Nat
  | running => 1
  | _ => 0

def State.dockerLeft (s : State) : Nat :=
  s.call.reserve + s.cli.left + (s.request.map Request.left).getD 0 + s.container.left

theorem Cli.left_drop (cli : Cli) : cli.drop.left ≤ cli.left := by
  cases cli <;> simp [drop, left]

theorem Cli.left_ite {p : Prop} [Decidable p] (cli next : Cli) (h : p → next.left ≤ cli.left) :
    (if p then next else cli).left ≤ cli.left := by
  split
  · exact h ‹_›
  · exact Nat.le_refl _

theorem discard_left (s : State) (status : ExitStatus) :
    (s.discard status).dockerLeft + s.container.left ≤ s.dockerLeft := by
  have hcli := Cli.left_ite s.cli (.ending status) (p := s.cli = .attached)
    fun attached => by simp [attached, Cli.left]
  simp only [State.dockerLeft, State.discard, Container.left]
  omega

theorem return_left (s : State) (result : IoResult Outcome) :
    (s.return result).dockerLeft + s.call.reserve ≤ s.dockerLeft := by
  have hcli := s.cli.left_drop
  simp only [State.dockerLeft, State.return, Call.reserve]
  omega

theorem CallMove.left {s t : State} {a : Action} (move : CallMove s a t) :
    a.own = true ∧ t.call.left + 1 ≤ s.call.left ∧ t.dockerLeft ≤ s.dockerLeft := by
  cases move with
  | spawned place =>
    refine ⟨rfl, by simp [place, Call.left], ?_⟩
    simp only [State.dockerLeft, Call.reserve, place, Cli.left]
    omega
  | spawnFails error place | removeFails error why place | leavesFailing error why place =>
    have := return_left s (.error error)
    exact ⟨rfl, by simp [place, State.return, Call.left], by omega⟩
  | waits stdout status place exited =>
    have := return_left s (.ok (.exited status stdout))
    exact ⟨rfl, by simp [place, State.return, Call.left], by omega⟩
  | leaves why place =>
    have := return_left s why.result
    exact ⟨rfl, by simp [place, State.return, Call.left], by omega⟩
  | removes why place =>
    have := discard_left s programKilled
    refine ⟨rfl, by simp [place, Call.left], ?_⟩
    simp only [State.dockerLeft, State.discard, Call.reserve, place] at this ⊢
    omega
  | hangs why place =>
    rcases place with place | place <;>
      exact ⟨rfl, by simp [place, Call.left], by simp [State.dockerLeft, Call.reserve, place]⟩
  | fed kept place | inputClosed error kept closed place | feedFails error kept unclosed place
  | reads written fed place | readFails error fed place | waitFails error stdout place
  | deadline fed kept place | removeRefused why place =>
    exact ⟨rfl, by simp [place, Call.left] <;> omega, by simp [State.dockerLeft, Call.reserve, place]⟩

theorem DockerMove.left {s t : State} {a : Action} (move : DockerMove s a t) :
    a.own = false ∧ t.dockerLeft + 1 ≤ s.dockerLeft := by
  cases move with
  | cliCreates preparing =>
    refine ⟨rfl, ?_⟩
    simp only [State.dockerLeft, preparing, Cli.left, Option.map_some, Option.getD_some, Request.left]
    omega
  | cliStarts created =>
    refine ⟨rfl, ?_⟩
    simp only [State.dockerLeft, created, Cli.left, Option.map_some, Option.getD_some, Request.left]
    omega
  | cliGivesUp talks =>
    have hcli : 1 < s.cli.left := by
      cases hcli : s.cli <;> simp_all [Cli.canGiveUp, Cli.left]
    have hending : (Cli.ending daemonFailed).left = 1 := rfl
    refine ⟨rfl, ?_⟩
    simp only [State.dockerLeft, hending]
    omega
  | cliExits status ending =>
    refine ⟨rfl, ?_⟩
    simp only [State.dockerLeft, ending, Cli.left]
    omega
  | daemonCreates asked free =>
    have hcli := Cli.left_ite s.cli .created (p := s.cli = .creating)
      fun creating => by simp [creating, Cli.left]
    refine ⟨rfl, ?_⟩
    simp only [State.dockerLeft, asked, free, Option.map_some, Option.map_none, Option.getD_some,
      Option.getD_none, Request.left, Container.left]
    omega
  | daemonStarts asked created =>
    have hcli := Cli.left_ite s.cli .attached (p := s.cli = .starting)
      fun starting => by simp [starting, Cli.left]
    refine ⟨rfl, ?_⟩
    simp only [State.dockerLeft, asked, created, Option.map_some, Option.map_none, Option.getD_some,
      Option.getD_none, Request.left, Container.left]
    omega
  | daemonRefuses request asked =>
    have hcli := Cli.left_ite s.cli (.ending daemonFailed)
      (p := s.cli = .creating ∨ s.cli = .starting)
      fun asking => by rcases asking with asking | asking <;> simp [asking, Cli.left]
    have hrequest : 1 ≤ request.left := by cases request <;> decide
    refine ⟨rfl, ?_⟩
    simp only [State.dockerLeft, asked, Option.map_some, Option.map_none, Option.getD_some,
      Option.getD_none, Container.left]
    omega
  | programExits status running =>
    have := discard_left s (.code status)
    rw [running] at this
    exact ⟨rfl, this⟩

section Runs
variable {s t : State} {schedule : List Action}

theorem own_steps_le (h : machine.run .init schedule = some s) :
    schedule.countP Action.own + s.call.left ≤ 6 := by
  refine Machine.run_measure (fun s => s.call.left) Action.own (I := fun _ => True)
    (D := fun _ => True) (fun _ _ _ _ _ _ => trivial) (fun s a t _ _ hstep => ?_) trivial h
    (fun _ _ => trivial)
  obtain move | move := step_moves hstep
  · obtain ⟨hown, hleft, _⟩ := move.left
    simpa [hown] using hleft
  · simp [move.left.1, move.call]

theorem docker_steps_le (h : machine.run .init schedule = some s) :
    schedule.countP (fun a => ¬a.own = true) + s.dockerLeft ≤ 7 := by
  refine Machine.run_measure State.dockerLeft (fun a => ¬a.own = true) (I := fun _ => True)
    (D := fun _ => True) (fun _ _ _ _ _ _ => trivial) (fun s a t _ _ hstep => ?_) trivial h
    (fun _ _ => trivial)
  obtain move | move := step_moves hstep
  · obtain ⟨hown, _, hleft⟩ := move.left
    simpa [hown] using hleft
  · obtain ⟨hown, hleft⟩ := move.left
    simpa [hown] using hleft

/-- Short of a `docker rm` that hangs there is always a step: before it, the deadline. -/
theorem call_moves (s : State) (unreturned : ∀ result, s.call ≠ .returned result)
    (unhung : ∀ why, s.call ≠ .hung why) :
    ∃ a, a.own = true ∧ (machine.step s a).isSome = true := by
  simp only [machine, step]
  cases hcall : s.call with
  | spawning => exact ⟨.spawn (.ok ()), rfl, by simp [callStep, hcall]⟩
  | waiting fed kept => exact ⟨.deadline, rfl, by simp [callStep, hcall]⟩
  | removing why => exact ⟨.remove .refused, rfl, by simp [callStep, hcall]⟩
  | removed why => exact ⟨.removeWait (.ok ()), rfl, by simp [callStep, hcall]⟩
  | hung why => exact absurd hcall (unhung why)
  | returned result => exact absurd hcall (unreturned result)

theorem step_hung (s : State) (a : Action) (t : State) (h : machine.step s a = some t)
    (now : ∃ why, t.call = .hung why) : (∃ why, s.call = .hung why) ∨ a = .removeHangs := by
  obtain move | move := step_moves h
  · cases move with
    | hangs => exact .inr rfl
    | _ => simp_all [State.return]
  · exact .inl (move.call ▸ now)

/-- The process and the daemon can go on while they have something to do, a program that
runs aside. -/
theorem docker_moves (s : State) (busy : s.request ≠ none ∨ s.cli.dropped = false) :
    ∃ a, (∀ status, a ≠ .programExits status) ∧ (machine.step s a).isSome = true := by
  simp only [machine, step]
  cases hrequest : s.request with
  | some request => exact ⟨.daemonRefuses, by simp, by simp [callStep, dockerStep, hrequest]⟩
  | none =>
    have hcli := busy.resolve_left (not_not.mpr hrequest)
    by_cases talks : s.cli.canGiveUp = true
    · exact ⟨.cliGivesUp, by simp, by simp [callStep, dockerStep, talks]⟩
    · cases hplace : s.cli with
      | ending status => exact ⟨.cliExits, by simp, by simp [callStep, dockerStep, hplace]⟩
      | _ => simp_all [Cli.dropped, Cli.canGiveUp]

/-- A run of the sandbox has at most thirteen steps, six of them the call's own. Until it
has returned the call can go on, or hangs in its `docker rm`; and when nothing is left that
could be done, but for a program that may still exit, the process is gone, the daemon has
no request of it, and the call has returned unless its `docker rm` has hung. -/
theorem sandbox_runs_end (schedule : List Action) (s : State)
    (h : machine.run .init schedule = some s) :
    schedule.countP Action.own ≤ 6 ∧ schedule.length ≤ 13 ∧
    ((∀ result, s.call ≠ .returned result) →
      (∃ a, a.own = true ∧ (machine.step s a).isSome = true) ∨ .removeHangs ∈ schedule) ∧
    ((∀ a, (machine.step s a).isSome = true → ∃ status, a = .programExits status) →
      (.removeHangs ∉ schedule → ∃ result, s.call = .returned result) ∧
        s.request = none ∧ s.cli.dropped = true) := by
  have hown := own_steps_le h
  have hdocker := docker_steps_le h
  have hlength := List.length_eq_countP_add_countP Action.own (l := schedule)
  have hmoves (unreturned : ∀ result, s.call ≠ .returned result) :
      (∃ a, a.own = true ∧ (machine.step s a).isSome = true) ∨ .removeHangs ∈ schedule := by
    by_cases hung : ∃ why, s.call = .hung why
    · obtain ⟨why, init⟩ | ⟨_, hmem, rfl⟩ :=
        Machine.run_brought (P := fun s => ∃ why, s.call = .hung why) step_hung h hung
      · cases init
      · exact .inr hmem
    · exact .inl (call_moves s unreturned (not_exists.mp hung))
  refine ⟨by omega, by omega, hmoves, fun rests => ⟨fun unhung => ?_, ?_⟩⟩
  · by_contra unreturned
    obtain ⟨a, hown, hmoves⟩ := (hmoves (not_exists.mp unreturned)).resolve_right unhung
    obtain ⟨status, rfl⟩ := rests a hmoves
    cases hown
  · by_contra busy
    rw [not_and_or, Bool.not_eq_true] at busy
    obtain ⟨a, hother, hmoves⟩ := docker_moves s busy
    obtain ⟨status, rfl⟩ := rests a hmoves
    exact hother status rfl

/-- The longest run: the process gives up on a request that the daemon still serves. -/
def longest : List Action :=
  [.spawn (.ok ()), .feed (.ok ()), .read (.ok []), .cliCreates, .daemonCreates, .cliStarts,
    .cliGivesUp, .cliExits, .daemonStarts, .programExits 0, .deadline, .remove .refused,
    .removeWait (.ok ())]

theorem sandbox_runs_end_longest : longest.length = 13 ∧
    (∃ result, (State.mk (.returned (.ok .timedOut)) (.exited daemonFailed) none .absent true).call =
      .returned result) ∧ longest.countP Action.own ≤ 6 := by
  obtain ⟨hown, _, _, hrests⟩ := sandbox_runs_end longest
    ⟨.returned (.ok .timedOut), .exited daemonFailed, none, .absent, true⟩ rfl
  refine ⟨rfl, (hrests fun a hmoves => ?_).1 (by simp [longest]), hown⟩
  cases a <;> simp [machine, step, callStep, dockerStep, Cli.canGiveUp] at hmoves

end Runs

def Succeeded (s : State) : Prop :=
  s.cli = .ending (.code 0) ∨ s.cli = .exited (.code 0)

def Holding (stdout : Bytes) (s : State) : Prop :=
  (∃ fed, s.call = .waiting fed (some stdout)) ∨
    ∃ status, s.call = .returned (.ok (.exited status stdout))

def Late (s : State) : Prop :=
  s.call = .removing .timedOut ∨ s.call = .removed .timedOut ∨ s.call = .returned (.ok .timedOut)

def Reported (s : State) : Prop :=
  ∀ status stdout, s.call = .returned (.ok (.exited status stdout)) → s.cli = .exited status

section Grounds
variable {s t : State} {a : Action}

theorem step_succeeded (h : machine.step s a = some t) (now : Succeeded t) :
    Succeeded s ∨ a = .programExits 0 := by
  have hdrop : Succeeded { s with cli := s.cli.drop } → Succeeded s := by
    cases hcli : s.cli <;> simp [Succeeded, Cli.drop, hcli]
  have hdiscard (status : ExitStatus) (hnow : Succeeded (s.discard status)) :
      Succeeded s ∨ status = .code 0 := by
    simp only [Succeeded, State.discard] at hnow ⊢
    split at hnow <;> simp_all
  obtain move | move := step_moves h
  · cases move with
    | spawnFails | waits | removeFails | leaves | leavesFailing => exact .inl (hdrop now)
    | removes => exact .inl ((hdiscard _ now).resolve_right (by decide))
    | spawned => simp [Succeeded] at now
    | _ => exact .inl now
  · cases move with
    | programExits status =>
      refine (hdiscard _ now).imp_right fun hstatus => ?_
      cases hstatus
      rfl
    | cliExits status ending => simp_all [Succeeded]
    | cliGivesUp => simp [Succeeded, daemonFailed] at now
    | cliCreates | cliStarts => simp [Succeeded] at now
    | daemonCreates | daemonStarts | daemonRefuses =>
      simp only [Succeeded] at now ⊢
      split at now <;> simp_all [daemonFailed]

theorem step_holding {stdout : Bytes} (h : machine.step s a = some t) (now : Holding stdout t) :
    Holding stdout s ∨ ∃ written, a = .read (.ok written) ∧ kept written = stdout := by
  obtain move | move := step_moves h
  · cases move with
    | fed kept place | inputClosed error kept closed place => simp_all [Holding]
    | reads written fed place => simp_all [Holding]
    | waits stdout status place exited => simp_all [Holding, State.return]
    | leaves why place => cases why <;> simp_all [Holding, State.return, Stop.result]
    | _ => simp_all [Holding, State.return]
  · exact .inl (by rwa [Holding, ← move.call])

theorem step_late (h : machine.step s a = some t) (now : Late t) : Late s ∨ a = .deadline := by
  obtain move | move := step_moves h
  · cases move with
    | leaves why place => cases why <;> simp_all [Late, State.return, Stop.result]
    | _ => simp_all [Late, State.return]
  · exact .inl (by rwa [Late, ← move.call])

theorem step_reported (s : State) (a : Action) (t : State) (reported : Reported s)
    (h : machine.step s a = some t) : Reported t := by
  intro status stdout returned
  obtain move | move := step_moves h
  · cases move with
    | leaves why place => cases why <;> simp_all [State.return, Stop.result]
    | waits found status' place exited =>
      cases returned
      simp [State.return, exited, Cli.drop]
    | _ => simp_all [State.return]
  · have hcli := reported status stdout (move.call ▸ returned)
    cases move <;> simp_all [State.discard, Cli.canGiveUp]

end Grounds

/-- What a behaviour must be for a verdict to be given on it. -/
def Grounds (behaviour : Behaviour) (expected : Bytes) : Verdict → Prop
  | .passed => behaviour.started ∧ .programExits 0 ∈ behaviour.schedule ∧
      ∃ written, .read (.ok written) ∈ behaviour.schedule ∧
        sameOutput expected (kept written) = true
  | .wrongAnswer => behaviour.started ∧ .programExits 0 ∈ behaviour.schedule ∧
      ∃ written, .read (.ok written) ∈ behaviour.schedule ∧
        sameOutput expected (kept written) = false
  | .crashed => ∃ status, status ≠ .code 0 ∧ behaviour.final.cli = .exited status
  | .timedOut => .deadline ∈ behaviour.schedule

section Behaviour
variable (behaviour : Behaviour) {outcome : Outcome}

theorem Behaviour.exited {status : ExitStatus} {stdout : Bytes}
    (h : behaviour.result = .ok (.exited status stdout)) :
    behaviour.final.cli = .exited status ∧
      ∃ written, .read (.ok written) ∈ behaviour.schedule ∧ kept written = stdout := by
  have returned : behaviour.final.call = .returned (.ok (.exited status stdout)) := by
    rw [behaviour.returns, h]
  have reported : Reported behaviour.final :=
    Machine.run_invariant step_reported (by rintro _ _ ⟨⟩) behaviour.runs
  refine ⟨reported status stdout returned, ?_⟩
  obtain holding | ⟨_, hmem, written, rfl, hkept⟩ :=
    Machine.run_brought (P := Holding stdout) (fun _ _ _ => step_holding) behaviour.runs
      (.inr ⟨status, returned⟩)
  · simp [Holding, State.init] at holding
  · exact ⟨written, hmem, hkept⟩

theorem Behaviour.programExits (h : Succeeded behaviour.final) :
    .programExits 0 ∈ behaviour.schedule := by
  obtain init | ⟨_, hmem, rfl⟩ :=
    Machine.run_brought (P := Succeeded) (fun _ _ _ => step_succeeded) behaviour.runs h
  · simp [Succeeded, State.init] at init
  · exact hmem

theorem Behaviour.deadline (h : behaviour.result = .ok .timedOut) :
    .deadline ∈ behaviour.schedule := by
  obtain init | ⟨_, hmem, rfl⟩ :=
    Machine.run_brought (P := Late) (fun _ _ _ => step_late) behaviour.runs
      (.inr (.inr (by rw [behaviour.returns, h])))
  · simp [Late, State.init] at init
  · exact hmem

theorem Behaviour.grounds (h : behaviour.result = .ok outcome) (expected : Bytes) :
    Grounds behaviour expected (caseVerdict outcome expected) := by
  cases outcome with
  | timedOut => exact behaviour.deadline h
  | exited status stdout =>
    obtain ⟨hcli, written, hread, rfl⟩ := behaviour.exited h
    by_cases hstatus : status = .code 0
    · subst hstatus
      have hexits := behaviour.programExits (.inr hcli)
      have hverdict : caseVerdict (.exited (.code 0) (kept written)) expected =
          if sameOutput expected (kept written) then .passed else .wrongAnswer := rfl
      have started : behaviour.started := by
        by_contra unstarted
        have hagainst := behaviour.unstarted_verdict unstarted h expected
        rw [hverdict] at hagainst
        split at hagainst <;> simp at hagainst
      rw [hverdict]
      cases hsame : sameOutput expected (kept written) with
      | true => exact ⟨started, hexits, written, hread, hsame⟩
      | false => exact ⟨started, hexits, written, hread, hsame⟩
    · have hcrashed : caseVerdict (.exited status (kept written)) expected = .crashed := by
        simp [caseVerdict, ExitStatus.success, hstatus]
      rw [hcrashed]
      exact ⟨status, hstatus, hcli⟩

end Behaviour

section Judge
variable (behave : List String → Bytes → Duration → Behaviour)

def behaviourOn (job : Job) (index : Nat) (case : Case) : Behaviour :=
  behaviourOf behave s!"judge-{Uuid.text job.id}" image ["python3", "-c", job.source] timeout
    (case, index)

/-- Whatever docker does, a job whose cases can be read has verdicts unless an operation
of the judge's own fails in one of them, and each verdict has its grounds: only a program
that was started and has exited with success is told right or wrong, by what was read of
the docker process. -/
theorem verdicts_have_grounds (files : FileSystem) (content : Path) (job : Job) :
    ((∃ verdicts, judge ⟨files, dockerOf behave, content⟩ job = .ok verdicts) ↔
      job.languagePack = "python" ∧
        ∃ cases, readCases files (assessmentOf content job.exercise) = .ok cases ∧
          ∀ (i : Nat) (case : Case), cases[i]? = some case →
            ¬(behaviourOn behave job i case).faults) ∧
    ∀ verdicts cases, judge ⟨files, dockerOf behave, content⟩ job = .ok verdicts →
      readCases files (assessmentOf content job.exercise) = .ok cases →
        verdicts.length = cases.length ∧
        ∀ (i : Nat) (case : Case) (verdict : Verdict), cases[i]? = some case →
          verdicts[i]? = some verdict →
            Grounds (behaviourOn behave job i case) case.expected verdict := by
  simp only [judge_eq_ok]
  constructor
  · have hcases (cases : List Case) : (∃ verdicts, judgeCases (dockerOf behave)
        s!"judge-{Uuid.text job.id}" image ["python3", "-c", job.source] cases timeout =
          .ok verdicts) ↔
        ∀ (i : Nat) (case : Case), cases[i]? = some case →
          ¬(behaviourOn behave job i case).faults := by
      rw [← not_iff_not, ← exists_error_iff, judgeCases_fails]
      simp only [Prod.exists, List.mem_zipIdx_iff_getElem?]
      push Not
      exact exists_comm
    constructor
    · rintro ⟨verdicts, hpack, cases, hread, hverdicts⟩
      exact ⟨hpack, cases, hread, (hcases cases).mp ⟨verdicts, hverdicts⟩⟩
    · rintro ⟨hpack, cases, hread, faultless⟩
      obtain ⟨verdicts, hverdicts⟩ := (hcases cases).mpr faultless
      exact ⟨verdicts, hpack, cases, hread, hverdicts⟩
  · rintro verdicts cases ⟨_, cases', hread', hverdicts⟩ hread
    cases hread.symm.trans hread'
    obtain ⟨hlength, hrounds⟩ := judgeCases_get _ _ _ _ _ hverdicts
    refine ⟨hlength, fun i case verdict hcase hverdict => ?_⟩
    obtain ⟨outcome, hrun, rfl⟩ := hrounds i case verdict hcase hverdict
    exact (behaviourOn behave job i case).grounds hrun case.expected

end Judge

end Pals.Judge.Run
