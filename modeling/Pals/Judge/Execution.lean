import Pals.Judge.Transparency

/-! The run of a case down to its bytes: when it ends, and what its verdict says of it. -/
namespace Pals.Judge.Plumbing
open Pals.Library Pals.Library.Time Pals.Contracts

variable {inCapacity outCapacity : Nat}

/-- The tasks of the judge come to rest, a program that waits for them is let go, and the
end of the program is the end of the call, with all that is kept of its output. -/
structure Live (s : State inCapacity outCapacity) : Prop where
  bounded : ∀ tasks t, (∀ a ∈ tasks, a.isTask = true) → machine.run s tasks = some t →
    tasks.length ≤ s.rank
  unblocked : s.phase = .waiting → ∃ tasks t, (∀ a ∈ tasks, a.isTask = true) ∧
    machine.run s tasks = some t ∧ t.phase = .waiting ∧ ¬Blocked t
  answered : s.phase = .waiting → ∀ status, s.program = .exited status →
    ∃ tasks t, (∀ a ∈ tasks, a.isTask = true) ∧ machine.run s (tasks ++ [.wait]) = some t ∧
      t.phase = .returned (.exited (.code status) (kept s.written))
  atRest : s.phase = .waiting → ∀ status, s.program = .exited status → ∀ tasks t,
    (∀ a ∈ tasks, a.isTask = true) → machine.run s tasks = some t →
      (∀ a, a.isTask = true → machine.step t a = none) → ∃ u, machine.step t .wait = some u ∧
        u.phase = .returned (.exited (.code status) (kept s.written))

section Live
variable {input : Bytes} {s t : State inCapacity outCapacity}

theorem task_frame {a : Action} (task : a.isTask = true) (h : machine.step s a = some t) :
    t.program = s.program ∧ t.written = s.written := by
  obtain ⟨_, move⟩ := step_moves h
  cases move with
  | feeds | feedEnds | keeps | keepEnds | discards | discardEnds => exact ⟨rfl, rfl⟩
  | _ => cases task

structure Exited (input : Bytes) (status : UInt8) (written : Bytes)
    (s : State inCapacity outCapacity) : Prop where
  inv : Inv input s
  waiting : s.phase = .waiting
  program : s.program = .exited status
  written : s.written = written

theorem Exited.step {a : Action} {status : UInt8} {written : Bytes}
    (exited : Exited input status written s) (task : a.isTask = true)
    (h : machine.step s a = some t) : Exited input status written t := by
  obtain ⟨hprogram, hwritten⟩ := task_frame task h
  exact ⟨exited.inv.step h, (task_step task h).1, hprogram.trans exited.program,
    hwritten.trans exited.written⟩

theorem wait_eq_some (h : wait s = some t) : ∃ found status, s.feed = .done ∧
    s.read = .done found ∧ s.program = .exited status ∧
      t = { s with phase := .returned (.exited (.code status) found) } := by
  have move := wait_move h
  cases move with
  | waits found status fed drained exited => exact ⟨found, status, fed, drained, exited, rfl⟩

theorem Exited.goes {status : UInt8} {written : Bytes} (exited : Exited input status written s)
    (hin : 0 < inCapacity) :
    (∃ a t, a.isTask = true ∧ machine.step s a = some t) ∨ ∃ t, machine.step s .wait = some t ∧
      t.phase = .returned (.exited (.code status) (kept written)) := by
  have hstep (a : Action) : machine.step s a = Plumbing.step s a := rfl
  simp only [hstep, Plumbing.step, exited.waiting]
  rcases exited_progress exited.inv hin exited.program with hfeed | hread | hwait
  · obtain ⟨t, ht⟩ := Option.isSome_iff_exists.mp hfeed
    exact .inl ⟨.feed 1, t, rfl, ht⟩
  · obtain ⟨t, ht⟩ := Option.isSome_iff_exists.mp hread
    exact .inl ⟨.read 1, t, rfl, ht⟩
  · obtain ⟨t, ht⟩ := Option.isSome_iff_exists.mp hwait
    refine .inr ⟨t, ht, ?_⟩
    obtain ⟨found, status', _, drained, ended, rfl⟩ := wait_eq_some ht
    cases exited.program.symm.trans ended
    rw [(exited.inv.faithful drained).1, exited.written]

theorem Exited.run {status : UInt8} {written : Bytes} {tasks : List Action}
    (exited : Exited input status written s) (all : ∀ a ∈ tasks, a.isTask = true)
    (h : machine.run s tasks = some t) : Exited input status written t := by
  induction tasks generalizing s with
  | nil =>
    cases h
    exact exited
  | cons a tasks ih =>
    obtain ⟨u, hu, hrun⟩ := machine.run_cons_eq_some.mp h
    obtain ⟨task, all⟩ := List.forall_mem_cons.mp all
    exact ih (exited.step task hu) all hrun

theorem Exited.atRest {status : UInt8} {written : Bytes} (exited : Exited input status written s)
    (hin : 0 < inCapacity) (rest : ∀ a, a.isTask = true → machine.step s a = none) :
    ∃ t, machine.step s .wait = some t ∧
      t.phase = .returned (.exited (.code status) (kept written)) := by
  obtain ⟨a, t, task, h⟩ | hwait := exited.goes hin
  · cases (rest a task).symm.trans h
  · exact hwait

theorem Exited.answered {status : UInt8} {written : Bytes} (exited : Exited input status written s)
    (hin : 0 < inCapacity) : ∃ tasks t, (∀ a ∈ tasks, a.isTask = true) ∧
      machine.run s (tasks ++ [.wait]) = some t ∧
        t.phase = .returned (.exited (.code status) (kept written)) := by
  obtain ⟨tasks, t, all, hrun, exited', hrest⟩ := Machine.run_ends State.rank
    (P := fun u => ∃ a v, a.isTask = true ∧ machine.step u a = some v)
    (fun _ _ _ exited task h => Exited.step exited task h)
    (fun u _ ⟨a, v, task, h⟩ => ⟨a, v, task, h, (task_step task h).2⟩) exited
  obtain hgoes | ⟨u, hwait, hphase⟩ := exited'.goes hin
  · exact absurd hgoes hrest
  · exact ⟨tasks, u, all, machine.run_concat_eq_some.mpr ⟨t, hrun, hwait⟩, hphase⟩

theorem Inv.live (inv : Inv input s) (hin : 0 < inCapacity) (hout : 0 < outCapacity) : Live s where
  bounded tasks t all h := (Nat.le_add_right ..).trans (tasks_end all h)
  unblocked waiting := tasks_unblock inv hin hout waiting
  answered waiting status program := Exited.answered ⟨inv, waiting, program, rfl⟩ hin
  atRest waiting status program tasks t all h rest := by
    have exited : Exited input status s.written s := ⟨inv, waiting, program, rfl⟩
    exact (exited.run all h).atRest hin rest

end Live

/-- Whatever the program does, through pipes of any size but none. -/
theorem plumbing_is_live (input : Bytes) (schedule : List Action) :
    machine.Always Live (State.init input : State (inCapacity + 1) (outCapacity + 1)) schedule :=
  Machine.always (fun _ _ _ => Inv.step)
    (fun _ inv => inv.live (Nat.succ_pos _) (Nat.succ_pos _)) Inv.init schedule

def Phase.outcome : Phase → Option Outcome
  | .returned outcome => some outcome
  | .stopped .timedOut => some .timedOut
  | _ => none

/-- A program run on an input until the call is over. -/
structure Execution (input : Bytes) where
  inCapacity : Nat
  outCapacity : Nat
  schedule : List Action
  final : State inCapacity outCapacity
  outcome : Outcome
  runs : machine.run (State.init input) schedule = some final
  answers : final.phase.outcome = some outcome

def Tells {input : Bytes} (execution : Execution input) (expected : Bytes) : Verdict → Prop
  | .passed => execution.final.phase ≠ .stopped .timedOut ∧ execution.final.program = .exited 0 ∧
      sameOutput expected (kept execution.final.written) = true
  | .wrongAnswer => execution.final.phase ≠ .stopped .timedOut ∧
      execution.final.program = .exited 0 ∧
      sameOutput expected (kept execution.final.written) = false
  | .crashed => execution.final.phase ≠ .stopped .timedOut ∧
      ∃ status, status ≠ 0 ∧ execution.final.program = .exited status
  | .timedOut => execution.final.phase = .stopped .timedOut

def dockerOf (execute : List String → (input : Bytes) → Duration → Execution input) : Docker :=
  fun command input timeout => .ok (execute command input timeout).outcome

section Verdict
variable {input : Bytes}

def Returned (s : State inCapacity outCapacity) : Prop :=
  ∀ outcome, s.phase = .returned outcome →
    ∃ status stdout, outcome = .exited (.code status) stdout ∧ s.program = .exited status

theorem step_returned {s t : State inCapacity outCapacity} {a : Action}
    (h : machine.step s a = some t) : Returned t := by
  obtain ⟨waiting, move⟩ := step_moves h
  intro outcome returned
  cases move with
  | waits found status fed drained exited =>
    cases returned
    exact ⟨status, found, rfl, exited⟩
  | deadline => cases returned
  | _ => cases waiting.symm.trans returned

theorem Execution.returned (execution : Execution input) {outcome : Outcome}
    (h : execution.final.phase = .returned outcome) : ∃ status,
      outcome = .exited (.code status) (kept execution.final.written) ∧
        execution.final.program = .exited status := by
  have inv : Inv input execution.final :=
    Machine.run_invariant (fun _ _ _ => Inv.step) Inv.init execution.runs
  have returned : Returned execution.final :=
    Machine.run_invariant (I := Returned) (fun _ _ _ _ => step_returned) (by rintro _ ⟨⟩)
      execution.runs
  obtain ⟨status, stdout, rfl, hprogram⟩ := returned outcome h
  obtain ⟨_, houtcome⟩ := inv.result _ h
  cases houtcome
  exact ⟨status, rfl, hprogram⟩

theorem Execution.verdict_iff (execution : Execution input) (expected : Bytes) (verdict : Verdict) :
    caseVerdict execution.outcome expected = verdict ↔ Tells execution expected verdict := by
  have answers := execution.answers
  cases hphase : execution.final.phase with
  | waiting => simp [hphase, Phase.outcome] at answers
  | stopped why =>
    rw [hphase] at answers
    cases why with
    | failed error => cases answers
    | timedOut =>
      rw [← Option.some.inj answers]
      cases verdict <;> simp [Tells, hphase, caseVerdict]
  | returned outcome =>
    rw [hphase] at answers
    obtain ⟨status, rfl, hprogram⟩ := execution.returned hphase
    rw [← Option.some.inj answers]
    by_cases hstatus : status = 0
    · subst hstatus
      cases hsame : sameOutput expected (kept execution.final.written) <;>
        cases verdict <;> simp [Tells, hphase, hprogram, hsame, caseVerdict, ExitStatus.success]
    · cases verdict <;> simp [Tells, hphase, hprogram, hstatus, caseVerdict, ExitStatus.success]

end Verdict

section Judge
variable (execute : List String → (input : Bytes) → Duration → Execution input)

theorem judgeCases_dockerOf (name image : String) (command : List String) (cases : List Case)
    (timeout : Duration) : judgeCases (dockerOf execute) name image command cases timeout =
      .ok (cases.zipIdx.map fun case => caseVerdict
        (execute (container s!"{name}-{case.2}" image command) case.1.input timeout).outcome
        case.1.expected) := by
  rw [judgeCases_eq, mapM_eq_ok, List.forall₂_map_right_iff]
  exact List.forall₂_same.mpr fun _ _ => rfl

def executionOf (job : Job) (index : Nat) (case : Case) : Execution case.input :=
  execute (container (containerName job.id index) image ["python3", "-c", job.source])
    case.input timeout

/-- A judge whose commands are executed, and do not fail, has a verdict for every case
that it can read, and each says what its own execution came to. -/
theorem verdicts_tell_executions (files : FileSystem) (content : Path) (job : Job) :
    ((∃ verdicts, judge ⟨files, dockerOf execute, content⟩ job = .ok verdicts) ↔
      job.languagePack = "python" ∧
        ∃ cases, readCases files (assessmentOf content job.exercise) = .ok cases) ∧
    ∀ verdicts cases, judge ⟨files, dockerOf execute, content⟩ job = .ok verdicts →
      readCases files (assessmentOf content job.exercise) = .ok cases →
        verdicts.length = cases.length ∧
        ∀ (i : Nat) (case : Case) (verdict : Verdict), cases[i]? = some case →
          (verdicts[i]? = some verdict ↔
            Tells (executionOf execute job i case) case.expected verdict) := by
  simp only [judge_eq_ok, judgeCases_dockerOf]
  constructor
  · constructor
    · rintro ⟨_, hpack, cases, hcases, _⟩
      exact ⟨hpack, cases, hcases⟩
    · rintro ⟨hpack, cases, hcases⟩
      exact ⟨_, hpack, cases, hcases, rfl⟩
  · rintro verdicts cases ⟨_, cases', hcases', hverdicts⟩ hcases
    cases hcases.symm.trans hcases'
    cases hverdicts
    refine ⟨by simp, fun i case verdict hcase => ?_⟩
    simp only [← Execution.verdict_iff, List.getElem?_map, List.getElem?_zipIdx, hcase,
      Option.map_some, Option.some.injEq, Nat.zero_add]
    exact Iff.rfl

end Judge
end Pals.Judge.Plumbing
