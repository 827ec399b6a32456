import Pals.Judge.Judging
import Pals.Library.Machine

/-! One run of the sandbox, step by step: the call of `run_in_sandbox`, the docker
process that it spawns, and the daemon that handles the requests of both. -/
namespace Pals.Judge.Run
open Pals.Library Pals.Library.Time

inductive Stop where
  | failed (error : IoError)
  | timedOut
deriving DecidableEq, Repr

def Stop.result : Stop → IoResult Outcome
  | failed error => .error error
  | timedOut => .ok .timedOut

/-- Where the call is. While it waits, it feeds the input and reads the output, in
whichever order, and then waits for the process. There is no deadline for `docker rm`,
which may hang for good. -/
inductive Call where
  | spawning
  | waiting (fed : Bool) (kept : Option Bytes)
  | removing (why : Stop)
  | removed (why : Stop)
  | hung (why : Stop)
  | returned (result : IoResult Outcome)

inductive Cli where
  | absent
  | preparing
  | creating
  | created
  | starting
  | attached
  | ending (status : ExitStatus)
  | exited (status : ExitStatus)
  | killed
deriving DecidableEq, Repr

inductive Request where
  | create
  | start
deriving DecidableEq, Repr

inductive Container where
  | absent
  | created
  | running
deriving DecidableEq, Repr

/-- `request` is what the daemon has accepted and not yet answered. `started` says
whether the program was ever started. -/
structure State where
  call : Call
  cli : Cli
  request : Option Request
  container : Container
  started : Bool

/-- The name is given to this run only. -/
def State.init : State := ⟨.spawning, .absent, none, .absent, false⟩

inductive Removal where
  | done
  | refused
  | failed (error : IoError)
deriving DecidableEq, Repr

inductive Action where
  | spawn (result : IoResult Unit)
  | feed (result : IoResult Unit)
  | read (result : IoResult Bytes)
  | wait (result : IoResult Unit)
  | deadline
  | remove (removal : Removal)
  | removeWait (result : IoResult Unit)
  | removeHangs
  | cliCreates
  | cliStarts
  | cliGivesUp
  | cliExits
  | daemonCreates
  | daemonStarts
  | daemonRefuses
  | programExits (status : UInt8)

/-- The status of `docker run` when the daemon fails, and of a program that was
killed. -/
def daemonFailed : ExitStatus := .code 125
def programKilled : ExitStatus := .code 137

/-- The child is dropped with the call: the process is killed if it was not waited
for, and a request that the daemon has accepted is not withdrawn. -/
def Cli.drop : Cli → Cli
  | absent => absent
  | exited status => exited status
  | _ => killed

def State.return (s : State) (result : IoResult Outcome) : State :=
  { s with call := .returned result, cli := s.cli.drop }

def Cli.canGiveUp : Cli → Bool
  | preparing | creating | created | starting | attached => true
  | _ => false

def State.discard (s : State) (status : ExitStatus) : State :=
  { s with container := .absent, cli := if s.cli = .attached then .ending status else s.cli }

def callStep (s : State) : Action → Option State
  | .spawn result =>
      match s.call, result with
      | .spawning, .ok () => some { s with call := .waiting false none, cli := .preparing }
      | .spawning, .error error => some (s.return (.error error))
      | _, _ => none
  | .feed result =>
      match s.call, result with
      | .waiting false kept, .ok () => some { s with call := .waiting true kept }
      | .waiting false kept, .error error =>
          if error.kind = .brokenPipe then some { s with call := .waiting true kept }
          else some { s with call := .removing (.failed error) }
      | _, _ => none
  | .read result =>
      match s.call, result with
      | .waiting fed none, .ok written => some { s with call := .waiting fed (some (kept written)) }
      | .waiting _ none, .error error => some { s with call := .removing (.failed error) }
      | _, _ => none
  | .wait result =>
      match s.call, result, s.cli with
      | .waiting true (some stdout), .ok (), .exited status =>
          some (s.return (.ok (.exited status stdout)))
      | .waiting true (some _), .error error, _ =>
          some { s with call := .removing (.failed error) }
      | _, _, _ => none
  | .deadline =>
      match s.call with
      | .waiting _ _ => some { s with call := .removing .timedOut }
      | _ => none
  | .remove removal =>
      match s.call, removal with
      | .removing why, .done => some { s.discard programKilled with call := .removed why }
      | .removing why, .refused => some { s with call := .removed why }
      | .removing _, .failed error => some (s.return (.error error))
      | _, _ => none
  | .removeWait result =>
      match s.call, result with
      | .removed why, .ok () => some (s.return why.result)
      | .removed _, .error error => some (s.return (.error error))
      | _, _ => none
  | .removeHangs =>
      match s.call with
      | .removing why | .removed why => some { s with call := .hung why }
      | _ => none
  | _ => none

def dockerStep (s : State) : Action → Option State
  | .cliCreates =>
      if s.cli = .preparing then some { s with cli := .creating, request := some .create } else none
  | .cliStarts =>
      if s.cli = .created then some { s with cli := .starting, request := some .start } else none
  | .cliGivesUp => if s.cli.canGiveUp then some { s with cli := .ending daemonFailed } else none
  | .cliExits =>
      match s.cli with
      | .ending status => some { s with cli := .exited status }
      | _ => none
  | .daemonCreates =>
      if s.request = some .create ∧ s.container = .absent then
        some { s with
          request := none
          container := .created
          cli := if s.cli = .creating then .created else s.cli }
      else none
  | .daemonStarts =>
      if s.request = some .start ∧ s.container = .created then
        some { s with
          request := none
          container := .running
          cli := if s.cli = .starting then .attached else s.cli
          started := true }
      else none
  | .daemonRefuses =>
      match s.request with
      | none => none
      | some _ => some { s with
          request := none
          container := .absent
          cli := if s.cli = .creating ∨ s.cli = .starting then .ending daemonFailed else s.cli }
  | .programExits status =>
      if s.container = .running then some (s.discard (.code status)) else none
  | _ => none

def step (s : State) (a : Action) : Option State :=
  match callStep s a with
  | some t => some t
  | none => dockerStep s a

def machine : Machine State Action := ⟨step⟩

inductive CallMove (s : State) : Action → State → Prop where
  | spawned (spawning : s.call = .spawning) :
      CallMove s (.spawn (.ok ())) { s with call := .waiting false none, cli := .preparing }
  | spawnFails (error : IoError) (spawning : s.call = .spawning) :
      CallMove s (.spawn (.error error)) (s.return (.error error))
  | fed (kept : Option Bytes) (waiting : s.call = .waiting false kept) :
      CallMove s (.feed (.ok ())) { s with call := .waiting true kept }
  | inputClosed (error : IoError) (kept : Option Bytes) (closed : error.kind = .brokenPipe)
      (waiting : s.call = .waiting false kept) :
      CallMove s (.feed (.error error)) { s with call := .waiting true kept }
  | feedFails (error : IoError) (kept : Option Bytes) (unclosed : error.kind ≠ .brokenPipe)
      (waiting : s.call = .waiting false kept) :
      CallMove s (.feed (.error error)) { s with call := .removing (.failed error) }
  | reads (written : Bytes) (fed : Bool) (waiting : s.call = .waiting fed none) :
      CallMove s (.read (.ok written)) { s with call := .waiting fed (some (kept written)) }
  | readFails (error : IoError) (fed : Bool) (waiting : s.call = .waiting fed none) :
      CallMove s (.read (.error error)) { s with call := .removing (.failed error) }
  | waits (stdout : Bytes) (status : ExitStatus) (waiting : s.call = .waiting true (some stdout))
      (exited : s.cli = .exited status) :
      CallMove s (.wait (.ok ())) (s.return (.ok (.exited status stdout)))
  | waitFails (error : IoError) (stdout : Bytes) (waiting : s.call = .waiting true (some stdout)) :
      CallMove s (.wait (.error error)) { s with call := .removing (.failed error) }
  | deadline (fed : Bool) (kept : Option Bytes) (waiting : s.call = .waiting fed kept) :
      CallMove s .deadline { s with call := .removing .timedOut }
  | removes (why : Stop) (removing : s.call = .removing why) :
      CallMove s (.remove .done) { s.discard programKilled with call := .removed why }
  | removeRefused (why : Stop) (removing : s.call = .removing why) :
      CallMove s (.remove .refused) { s with call := .removed why }
  | removeFails (error : IoError) (why : Stop) (removing : s.call = .removing why) :
      CallMove s (.remove (.failed error)) (s.return (.error error))
  | leaves (why : Stop) (removed : s.call = .removed why) :
      CallMove s (.removeWait (.ok ())) (s.return why.result)
  | leavesFailing (error : IoError) (why : Stop) (removed : s.call = .removed why) :
      CallMove s (.removeWait (.error error)) (s.return (.error error))
  | hangs (why : Stop) (removing : s.call = .removing why ∨ s.call = .removed why) :
      CallMove s .removeHangs { s with call := .hung why }

inductive DockerMove (s : State) : Action → State → Prop where
  | cliCreates (preparing : s.cli = .preparing) :
      DockerMove s .cliCreates { s with cli := .creating, request := some .create }
  | cliStarts (created : s.cli = .created) :
      DockerMove s .cliStarts { s with cli := .starting, request := some .start }
  | cliGivesUp (talks : s.cli.canGiveUp = true) :
      DockerMove s .cliGivesUp { s with cli := .ending daemonFailed }
  | cliExits (status : ExitStatus) (ending : s.cli = .ending status) :
      DockerMove s .cliExits { s with cli := .exited status }
  | daemonCreates (asked : s.request = some .create) (free : s.container = .absent) :
      DockerMove s .daemonCreates { s with
        request := none
        container := .created
        cli := if s.cli = .creating then .created else s.cli }
  | daemonStarts (asked : s.request = some .start) (created : s.container = .created) :
      DockerMove s .daemonStarts { s with
        request := none
        container := .running
        cli := if s.cli = .starting then .attached else s.cli
        started := true }
  | daemonRefuses (request : Request) (asked : s.request = some request) :
      DockerMove s .daemonRefuses { s with
        request := none
        container := .absent
        cli := if s.cli = .creating ∨ s.cli = .starting then .ending daemonFailed else s.cli }
  | programExits (status : UInt8) (running : s.container = .running) :
      DockerMove s (.programExits status) (s.discard (.code status))

theorem callStep_move {s t : State} {a : Action} (h : callStep s a = some t) : CallMove s a t := by
  cases a with
  | spawn result =>
    simp only [callStep] at h
    split at h <;> cases h
    · exact .spawned ‹_›
    · exact .spawnFails _ ‹_›
  | feed result =>
    simp only [callStep] at h
    split at h
    · cases h
      exact .fed _ ‹_›
    · split at h <;> cases h
      · exact .inputClosed _ _ ‹_› ‹_›
      · exact .feedFails _ _ ‹_› ‹_›
    · cases h
  | read result =>
    simp only [callStep] at h
    split at h <;> cases h
    · exact .reads _ _ ‹_›
    · exact .readFails _ _ ‹_›
  | wait result =>
    simp only [callStep] at h
    split at h <;> cases h
    · exact .waits _ _ ‹_› ‹_›
    · exact .waitFails _ _ ‹_›
  | deadline =>
    simp only [callStep] at h
    split at h <;> cases h
    exact .deadline _ _ ‹_›
  | remove removal =>
    simp only [callStep] at h
    split at h <;> cases h
    · exact .removes _ ‹_›
    · exact .removeRefused _ ‹_›
    · exact .removeFails _ _ ‹_›
  | removeWait result =>
    simp only [callStep] at h
    split at h <;> cases h
    · exact .leaves _ ‹_›
    · exact .leavesFailing _ _ ‹_›
  | removeHangs =>
    simp only [callStep] at h
    split at h <;> cases h
    · exact .hangs _ (.inl ‹_›)
    · exact .hangs _ (.inr ‹_›)
  | _ => cases h

theorem dockerStep_move {s t : State} {a : Action} (h : dockerStep s a = some t) :
    DockerMove s a t := by
  cases a with
  | cliCreates =>
    simp only [dockerStep] at h
    split at h <;> cases h
    exact .cliCreates ‹_›
  | cliStarts =>
    simp only [dockerStep] at h
    split at h <;> cases h
    exact .cliStarts ‹_›
  | cliGivesUp =>
    simp only [dockerStep] at h
    split at h <;> cases h
    exact .cliGivesUp ‹_›
  | cliExits =>
    simp only [dockerStep] at h
    split at h <;> cases h
    exact .cliExits _ ‹_›
  | daemonCreates =>
    simp only [dockerStep] at h
    split at h <;> cases h
    rename_i hasked
    exact .daemonCreates hasked.1 hasked.2
  | daemonStarts =>
    simp only [dockerStep] at h
    split at h <;> cases h
    rename_i hasked
    exact .daemonStarts hasked.1 hasked.2
  | daemonRefuses =>
    simp only [dockerStep] at h
    split at h <;> cases h
    exact .daemonRefuses _ ‹_›
  | programExits status =>
    simp only [dockerStep] at h
    split at h <;> cases h
    exact .programExits status ‹_›
  | _ => cases h

theorem step_moves {s t : State} {a : Action} (h : machine.step s a = some t) :
    CallMove s a t ∨ DockerMove s a t := by
  simp only [machine, step] at h
  split at h
  · rename_i u hu
    cases h
    exact .inl (callStep_move hu)
  · exact .inr (dockerStep_move h)

theorem DockerMove.call {s t : State} {a : Action} (move : DockerMove s a t) : t.call = s.call := by
  cases move <;> rfl

end Pals.Judge.Run
