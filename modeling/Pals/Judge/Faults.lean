import Pals.Judge.Run

/-! Whether the faults of a host show in the verdicts of a job. -/
namespace Pals.Judge.Run
open Pals.Library Pals.Library.Time

/-- An operation of the judge's own that fails. A closed input is none. -/
def Action.fault : Action → Bool
  | .spawn (.error _) | .read (.error _) | .wait (.error _) => true
  | .feed (.error error) => error.kind ≠ .brokenPipe
  | .remove (.failed _) | .removeWait (.error _) => true
  | _ => false

def Call.faulty : Call → Bool
  | .removing (.failed _) | .removed (.failed _) | .hung (.failed _) | .returned (.error _) => true
  | _ => false

theorem step_faulty {s t : State} {a : Action} (h : machine.step s a = some t) :
    t.call.faulty = (s.call.faulty || a.fault) := by
  obtain move | move := step_moves h
  · cases move with
    | inputClosed error kept closed waiting => simp [waiting, Call.faulty, Action.fault, closed]
    | feedFails error kept unclosed waiting => simp [waiting, Call.faulty, Action.fault, unclosed]
    | removes why removing | removeRefused why removing =>
      simp only [removing]
      cases why <;> rfl
    | removeFails error why removing => simp [removing, State.return, Call.faulty, Action.fault]
    | leaves why removed =>
      simp only [removed]
      cases why <;> rfl
    | leavesFailing error why removed => simp [removed, State.return, Call.faulty, Action.fault]
    | hangs why removing =>
      rcases removing with removing | removing <;> simp only [removing] <;> cases why <;> rfl
    | spawned place | spawnFails error place | fed kept place | reads written fed place
    | readFails error fed place | waits stdout status place exited
    | waitFails error stdout place | deadline fed kept place =>
      simp [place, State.return, Call.faulty, Action.fault]
  · rw [move.call]
    cases move <;> simp [Action.fault]

theorem run_faulty {s t : State} {schedule : List Action} (h : machine.run s schedule = some t) :
    t.call.faulty = (s.call.faulty || schedule.any Action.fault) := by
  induction schedule generalizing s with
  | nil => cases h; simp
  | cons a schedule ih =>
    obtain ⟨u, hu, ht⟩ := machine.run_cons_eq_some.mp h
    rw [ih ht, step_faulty hu, List.any_cons, Bool.or_assoc]

/-- How docker and the daemon behave during one call, up to the step with which it
returns. A call that `docker rm` does not let go of has no result. -/
structure Behaviour where
  schedule : List Action
  final : State
  result : IoResult Outcome
  runs : machine.run .init schedule = some final
  returns : final.call = .returned result
  unreturned : ∀ s result, machine.run .init schedule.dropLast = some s → s.call ≠ .returned result

namespace Behaviour

def started (behaviour : Behaviour) : Prop := behaviour.final.started = true

def faults (behaviour : Behaviour) : Prop := ∃ a ∈ behaviour.schedule, a.fault = true

theorem error_iff_faults (behaviour : Behaviour) :
    (∃ error, behaviour.result = .error error) ↔ behaviour.faults := by
  have h := run_faulty behaviour.runs
  rw [behaviour.returns] at h
  simp only [State.init, Call.faulty, Bool.false_or] at h
  rw [faults, ← List.any_eq_true, ← h]
  cases behaviour.result <;> simp

end Behaviour

def Cli.reportsDaemon : Cli → Prop
  | attached => False
  | ending status | exited status => status = daemonFailed
  | _ => True

def Call.reportsDaemon : Call → Prop
  | .returned (.ok (.exited status _)) => status = daemonFailed
  | _ => True

/-- While the program is not started, all that the process can report is that the
daemon failed. -/
structure Unstarted (s : State) : Prop where
  stopped : s.container ≠ .running
  cli : s.cli.reportsDaemon
  call : s.call.reportsDaemon

theorem Cli.reportsDaemon.drop {cli : Cli} (h : cli.reportsDaemon) : cli.drop.reportsDaemon := by
  cases cli <;> simp_all [Cli.drop, Cli.reportsDaemon]

theorem Unstarted.return {s : State} {result : IoResult Outcome} (unstarted : Unstarted s)
    (h : (Call.returned result).reportsDaemon) : Unstarted (s.return result) :=
  ⟨unstarted.stopped, unstarted.cli.drop, h⟩

theorem Unstarted.discard {s : State} (unstarted : Unstarted s) (status : ExitStatus) :
    Unstarted (s.discard status) := by
  refine ⟨nofun, ?_, unstarted.call⟩
  have hcli : s.cli ≠ .attached := by
    intro attached
    have := unstarted.cli
    rw [attached] at this
    exact this
  rw [State.discard, if_neg hcli]
  exact unstarted.cli

theorem CallMove.started {s t : State} {a : Action} (move : CallMove s a t) :
    t.started = s.started := by
  cases move <;> rfl

theorem CallMove.unstarted {s t : State} {a : Action} (move : CallMove s a t)
    (unstarted : Unstarted s) : Unstarted t := by
  cases move with
  | spawned => exact ⟨unstarted.stopped, trivial, trivial⟩
  | spawnFails | removeFails | leavesFailing => exact unstarted.return trivial
  | waits stdout status waiting exited =>
    have hcli := unstarted.cli
    rw [exited] at hcli
    exact unstarted.return hcli
  | removes =>
    obtain ⟨stopped, cli, _⟩ := unstarted.discard programKilled
    exact ⟨stopped, cli, trivial⟩
  | leaves why => cases why <;> exact unstarted.return trivial
  | _ => exact ⟨unstarted.stopped, unstarted.cli, trivial⟩

theorem DockerMove.unstarted {s t : State} {a : Action} (move : DockerMove s a t)
    (unstarted : s.started = false → Unstarted s) (hstarted : t.started = false) : Unstarted t := by
  cases move with
  | daemonStarts => cases hstarted
  | programExits status => exact (unstarted hstarted).discard _
  | cliCreates | cliStarts | cliGivesUp =>
    exact ⟨(unstarted hstarted).stopped, by trivial, (unstarted hstarted).call⟩
  | cliExits status ending =>
    have hcli := (unstarted hstarted).cli
    rw [ending] at hcli
    exact ⟨(unstarted hstarted).stopped, hcli, (unstarted hstarted).call⟩
  | daemonCreates =>
    refine ⟨nofun, ?_, (unstarted hstarted).call⟩
    split
    · trivial
    · exact (unstarted hstarted).cli
  | daemonRefuses =>
    refine ⟨nofun, ?_, (unstarted hstarted).call⟩
    split
    · rfl
    · exact (unstarted hstarted).cli

theorem step_unstarted (s : State) (a : Action) (t : State)
    (unstarted : s.started = false → Unstarted s) (h : machine.step s a = some t)
    (hstarted : t.started = false) : Unstarted t := by
  obtain move | move := step_moves h
  · exact move.unstarted (unstarted (move.started ▸ hstarted))
  · exact move.unstarted unstarted hstarted

/-- A program that is not started comes to a verdict against it, unless the call
fails. -/
theorem Behaviour.unstarted_verdict (behaviour : Behaviour) (unstarted : ¬behaviour.started)
    {outcome : Outcome} (h : behaviour.result = .ok outcome) (expected : Bytes) :
    caseVerdict outcome expected = .crashed ∨ caseVerdict outcome expected = .timedOut := by
  have init : State.init.started = false → Unstarted .init := fun _ => ⟨nofun, trivial, trivial⟩
  have hcall := (Machine.run_invariant step_unstarted init behaviour.runs
    (Bool.eq_false_iff.mpr unstarted)).call
  rw [behaviour.returns, h] at hcall
  cases outcome with
  | timedOut => exact .inr rfl
  | exited status stdout =>
    cases hcall
    exact .inl rfl

def dockerOf (behave : List String → Bytes → Duration → Behaviour) : Docker :=
  fun command input timeout => (behave command input timeout).result

section Cases
variable (behave : List String → Bytes → Duration → Behaviour) (name image : String)
  (command : List String) (cases : List Case) (timeout : Duration)

def behaviourOf (case : Case × Nat) : Behaviour :=
  behave (container s!"{name}-{case.2}" image command) case.1.input timeout

theorem judgeCases_fails :
    (∃ error, judgeCases (dockerOf behave) name image command cases timeout = .error error) ↔
      ∃ case ∈ cases.zipIdx, (behaviourOf behave name image command timeout case).faults := by
  simp only [exists_error_iff, judgeCases_succeeds, ← Behaviour.error_iff_faults]
  push Not
  rfl

/-- A case whose program is never started makes the whole job an error exactly when
an operation of the judge's own fails. What docker reports, and the deadline, end
in a verdict. -/
theorem unstarted_is_error_iff :
    ((∃ case ∈ cases.zipIdx, ¬(behaviourOf behave name image command timeout case).started) →
      ∃ error, judgeCases (dockerOf behave) name image command cases timeout = .error error) ↔
    (∀ case ∈ cases.zipIdx, (behaviourOf behave name image command timeout case).started) ∨
      ∃ case ∈ cases.zipIdx, (behaviourOf behave name image command timeout case).faults := by
  rw [judgeCases_fails]
  constructor
  · intro h
    by_cases hstarted :
        ∀ case ∈ cases.zipIdx, (behaviourOf behave name image command timeout case).started
    · exact .inl hstarted
    · push Not at hstarted
      exact .inr (h hstarted)
  · rintro (hstarted | hfaults) ⟨case, hcase, hunstarted⟩
    · exact absurd (hstarted case hcase) hunstarted
    · exact hfaults

end Cases

/-- The daemon refuses to create the container, for want of its runtime or of its
image. -/
def refused : Behaviour where
  schedule := [.spawn (.ok ()), .cliCreates, .daemonRefuses, .cliExits, .feed (.ok ()),
    .read (.ok []), .wait (.ok ())]
  final := ⟨.returned (.ok (.exited daemonFailed [])), .exited daemonFailed, none, .absent, false⟩
  result := .ok (.exited daemonFailed [])
  runs := rfl
  returns := rfl
  unreturned := by rintro _ _ ⟨⟩ ⟨⟩

/-- The image is still being pulled at the deadline. -/
def pulling : Behaviour where
  schedule := [.spawn (.ok ()), .deadline, .remove .refused, .removeWait (.ok ())]
  final := ⟨.returned (.ok .timedOut), .killed, none, .absent, false⟩
  result := .ok .timedOut
  runs := rfl
  returns := rfl
  unreturned := by rintro _ _ ⟨⟩ ⟨⟩

example : judgeCases (dockerOf fun _ _ _ => pulling) "judge" image ["python3", "-c", ""] [⟨[], []⟩]
    timeout = .ok [.timedOut] := rfl

theorem refused_is_crashed :
    judgeCases (dockerOf fun _ _ _ => refused) "judge" image ["python3", "-c", ""] [⟨[], []⟩] timeout =
        .ok [.crashed] ∧
      ¬((∃ case ∈ [(⟨[], []⟩ : Case)].zipIdx, ¬(behaviourOf (fun _ _ _ => refused) "judge" image
          ["python3", "-c", ""] timeout case).started) →
        ∃ error, judgeCases (dockerOf fun _ _ _ => refused) "judge" image ["python3", "-c", ""]
          [⟨[], []⟩] timeout = .error error) := by
  have hcrashed : judgeCases (dockerOf fun _ _ _ => refused) "judge" image ["python3", "-c", ""]
      [⟨[], []⟩] timeout = .ok [.crashed] := rfl
  refine ⟨hcrashed, fun h => ?_⟩
  obtain ⟨error, herror⟩ := h ⟨_, List.mem_singleton_self _, nofun⟩
  cases hcrashed.symm.trans herror

end Pals.Judge.Run
