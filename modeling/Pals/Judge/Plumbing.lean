import Pals.Judge.Run
import Pals.Library.Pipe

/-! The wait of `run_in_sandbox` byte by byte: a program at one end of two pipes, and at
the other the two tasks that feed it and read from it. The docker process relays both
streams in order and closes them with the program, so each pipe is all that lies between
the program and the judge. -/
namespace Pals.Judge.Plumbing
open Pals.Library

inductive Syscall where
  | read
  | write (bytes : Bytes)
  | closeStdin
  | closeStdout

/-- Where the program is. While it writes, `rest` has not been taken from it yet. -/
inductive Program where
  | ready
  | reading
  | writing (rest : Bytes)
  | exited (status : UInt8)

/-- `write_all`, until the input is written or nobody reads it. Its end drops stdin. -/
inductive Feed where
  | writing (rest : Bytes)
  | done

/-- `read_to_end` of the first bytes, and the copy of the others to nowhere. -/
inductive Read where
  | keeping (kept : Bytes)
  | discarding (kept : Bytes)
  | done (kept : Bytes)

inductive Phase where
  | waiting
  | stopped (why : Run.Stop)
  | returned (outcome : Outcome)

structure State (inCapacity outCapacity : Nat) where
  program : Program
  stdin : Pipe UInt8 inCapacity
  stdout : Pipe UInt8 outCapacity
  feed : Feed
  read : Read
  phase : Phase
  received : Bytes
  written : Bytes

inductive Action where
  | ask (call : Syscall)
  | receive (n : Nat)
  | send (n : Nat)
  | exit (status : UInt8)
  | feed (n : Nat)
  | read (n : Nat)
  | wait
  | deadline

variable {inCapacity outCapacity : Nat}

def State.init (input : Bytes) : State inCapacity outCapacity where
  program := .ready
  stdin := .empty
  stdout := .empty
  feed := .writing input
  read := .keeping []
  phase := .waiting
  received := []
  written := []

def ask (s : State inCapacity outCapacity) (call : Syscall) : Option (State inCapacity outCapacity) :=
  match s.program, call with
  | .ready, .read => some { s with program := .reading }
  | .ready, .write bytes => some { s with program := .writing bytes }
  | .ready, .closeStdin => some { s with stdin := s.stdin.closeReader }
  | .ready, .closeStdout => some { s with stdout := s.stdout.closeWriter }
  | _, _ => none

/-- A read of a stream that the program has closed fails at once. -/
def receive (s : State inCapacity outCapacity) (n : Nat) : Option (State inCapacity outCapacity) :=
  match s.program with
  | .reading =>
      if s.stdin.readable then
        (s.stdin.read n).map fun (bytes, stdin) =>
          { s with program := .ready, stdin, received := s.received ++ bytes }
      else some { s with program := .ready }
  | _ => none

def send (s : State inCapacity outCapacity) (n : Nat) : Option (State inCapacity outCapacity) :=
  match s.program with
  | .writing rest =>
      if rest = [] ∨ s.stdout.writable = false then some { s with program := .ready }
      else (s.stdout.write rest n).map fun answer =>
        match answer with
        | .ok (left, stdout) =>
            { s with program := .writing left, stdout, written := s.written ++ rest.take n }
        | .error _ => { s with program := .ready }
  | _ => none

/-- A program may end in the middle of a call, when it is killed. -/
def exit (s : State inCapacity outCapacity) (status : UInt8) : Option (State inCapacity outCapacity) :=
  match s.program with
  | .exited _ => none
  | _ => some { s with
      program := .exited status
      stdin := s.stdin.closeReader
      stdout := s.stdout.closeWriter }

/-- `stdin` is moved into the task, and dropped with it. -/
def State.dropStdin (s : State inCapacity outCapacity) : State inCapacity outCapacity :=
  { s with feed := .done, stdin := s.stdin.closeWriter }

def feed (s : State inCapacity outCapacity) (n : Nat) : Option (State inCapacity outCapacity) :=
  match s.feed with
  | .writing [] => some s.dropStdin
  | .writing rest =>
      (s.stdin.write rest n).map fun answer =>
        match answer with
        | .ok (left, stdin) => { s with feed := .writing left, stdin }
        | .error errno =>
            if errno.kind = .brokenPipe then s.dropStdin
            else { s with phase := .stopped (.failed (.ofErrno errno)) }
  | .done => none

/-- `take` lets no more than the bound through, and then is at its end. -/
def read (s : State inCapacity outCapacity) (n : Nat) : Option (State inCapacity outCapacity) :=
  match s.read with
  | .keeping kept =>
      if kept.length = maxOutput then some { s with read := .discarding kept }
      else if n ≤ maxOutput - kept.length then
        (s.stdout.read n).map fun (bytes, stdout) =>
          { s with stdout, read := if bytes = [] then .discarding kept else .keeping (kept ++ bytes) }
      else none
  | .discarding kept =>
      (s.stdout.read n).map fun (bytes, stdout) =>
        { s with stdout, read := if bytes = [] then .done kept else .discarding kept }
  | .done _ => none

/-- Both tasks have to be done before the process is waited for. -/
def wait (s : State inCapacity outCapacity) : Option (State inCapacity outCapacity) :=
  match s.feed, s.read, s.program with
  | .done, .done kept, .exited status =>
      some { s with phase := .returned (.exited (.code status) kept) }
  | _, _, _ => none

def step (s : State inCapacity outCapacity) (a : Action) : Option (State inCapacity outCapacity) :=
  match s.phase with
  | .waiting =>
      match a with
      | .ask call => ask s call
      | .receive n => receive s n
      | .send n => send s n
      | .exit status => exit s status
      | .feed n => feed s n
      | .read n => read s n
      | .wait => wait s
      | .deadline => some { s with phase := .stopped .timedOut }
  | _ => none

def machine : Machine (State inCapacity outCapacity) Action := ⟨step⟩

/-- The program is in a call that no choice of the scheduler lets advance. -/
def Blocked (s : State inCapacity outCapacity) : Prop :=
  (s.program = .reading ∧ ∀ n, step s (.receive n) = none) ∨
    ∃ rest, s.program = .writing rest ∧ ∀ n, step s (.send n) = none

inductive Move (s : State inCapacity outCapacity) : Action → State inCapacity outCapacity → Prop where
  | asksRead (ready : s.program = .ready) : Move s (.ask .read) { s with program := .reading }
  | asksWrite (bytes : Bytes) (ready : s.program = .ready) :
      Move s (.ask (.write bytes)) { s with program := .writing bytes }
  | closesStdin (ready : s.program = .ready) :
      Move s (.ask .closeStdin) { s with stdin := s.stdin.closeReader }
  | closesStdout (ready : s.program = .ready) :
      Move s (.ask .closeStdout) { s with stdout := s.stdout.closeWriter }
  | receives (n : Nat) (bytes : Bytes) (stdin : Pipe UInt8 inCapacity)
      (reading : s.program = .reading) (readable : s.stdin.readable = true)
      (taken : s.stdin.read n = some (bytes, stdin)) :
      Move s (.receive n) { s with program := .ready, stdin, received := s.received ++ bytes }
  | receiveFails (n : Nat) (reading : s.program = .reading) :
      Move s (.receive n) { s with program := .ready }
  | sends (n : Nat) (rest left : Bytes) (stdout : Pipe UInt8 outCapacity)
      (writing : s.program = .writing rest) (writable : s.stdout.writable = true)
      (sent : s.stdout.write rest n = some (.ok (left, stdout))) :
      Move s (.send n) { s with program := .writing left, stdout, written := s.written ++ rest.take n }
  | sendEnds (n : Nat) (rest : Bytes) (writing : s.program = .writing rest) :
      Move s (.send n) { s with program := .ready }
  | exits (status : UInt8) (running : ∀ status, s.program ≠ .exited status) : Move s (.exit status) { s with
      program := .exited status
      stdin := s.stdin.closeReader
      stdout := s.stdout.closeWriter }
  | feeds (n : Nat) (rest left : Bytes) (stdin : Pipe UInt8 inCapacity)
      (feeding : s.feed = .writing rest) (sent : s.stdin.write rest n = some (.ok (left, stdin))) :
      Move s (.feed n) { s with feed := .writing left, stdin }
  | feedEnds (n : Nat) (rest : Bytes) (feeding : s.feed = .writing rest)
      (ended : rest = [] ∨ s.stdin.readable = false) : Move s (.feed n) s.dropStdin
  | keeps (n : Nat) (found bytes : Bytes) (stdout : Pipe UInt8 outCapacity)
      (keeping : s.read = .keeping found) (room : n ≤ maxOutput - found.length)
      (taken : s.stdout.read n = some (bytes, stdout)) (more : bytes ≠ []) :
      Move s (.read n) { s with stdout, read := .keeping (found ++ bytes) }
  | keepEnds (n : Nat) (found : Bytes) (keeping : s.read = .keeping found)
      (ended : found.length = maxOutput ∨ s.stdout.held = [] ∧ s.stdout.writable = false) :
      Move s (.read n) { s with read := .discarding found }
  | discards (n : Nat) (found bytes : Bytes) (stdout : Pipe UInt8 outCapacity)
      (discarding : s.read = .discarding found) (taken : s.stdout.read n = some (bytes, stdout))
      (more : bytes ≠ []) :
      Move s (.read n) { s with stdout, read := .discarding found }
  | discardEnds (n : Nat) (found : Bytes) (discarding : s.read = .discarding found)
      (ended : s.stdout.held = [] ∧ s.stdout.writable = false) :
      Move s (.read n) { s with read := .done found }
  | waits (found : Bytes) (status : UInt8) (fed : s.feed = .done) (drained : s.read = .done found)
      (exited : s.program = .exited status) :
      Move s .wait { s with phase := .returned (.exited (.code status) found) }
  | deadline : Move s .deadline { s with phase := .stopped .timedOut }

section Moves
variable {s t : State inCapacity outCapacity}

theorem ask_move {call : Syscall} (h : ask s call = some t) : Move s (.ask call) t := by
  unfold ask at h
  split at h <;> cases h
  · exact .asksRead ‹_›
  · exact .asksWrite _ ‹_›
  · exact .closesStdin ‹_›
  · exact .closesStdout ‹_›

theorem receive_move {n : Nat} (h : receive s n = some t) : Move s (.receive n) t := by
  unfold receive at h
  split at h
  · split at h
    · obtain ⟨⟨bytes, stdin⟩, htaken, rfl⟩ := Option.map_eq_some_iff.mp h
      exact .receives n bytes stdin ‹_› ‹_› htaken
    · cases h
      exact .receiveFails n ‹_›
  · cases h

theorem send_move {n : Nat} (h : send s n = some t) : Move s (.send n) t := by
  unfold send at h
  split at h
  · rename_i rest hwriting
    split at h
    · cases h
      exact .sendEnds n rest hwriting
    · rename_i hopen
      obtain ⟨answer, hsent, rfl⟩ := Option.map_eq_some_iff.mp h
      cases answer with
      | error errno => exact .sendEnds n rest hwriting
      | ok answer => exact .sends n rest _ _ hwriting (by simpa using (not_or.mp hopen).2) hsent
  · cases h

theorem exit_move {status : UInt8} (h : exit s status = some t) : Move s (.exit status) t := by
  unfold exit at h
  split at h <;> cases h
  exact .exits status ‹_›

theorem feed_move {n : Nat} (h : feed s n = some t) : Move s (.feed n) t := by
  unfold feed at h
  split at h
  · cases h
    exact .feedEnds n [] ‹_› (.inl rfl)
  · rename_i rest _ hfeeding
    obtain ⟨answer, hsent, rfl⟩ := Option.map_eq_some_iff.mp h
    cases answer with
    | ok answer => exact .feeds n rest _ _ hfeeding hsent
    | error errno =>
      -- The only error that a pipe answers with is the one that is let pass.
      obtain ⟨rfl, hclosed⟩ := Pipe.write_error hsent
      exact .feedEnds n rest hfeeding (.inr hclosed)
  · cases h

theorem read_move {n : Nat} (h : read s n = some t) : Move s (.read n) t := by
  unfold read at h
  split at h
  · rename_i found hkeeping
    split at h
    · cases h
      exact .keepEnds n found hkeeping (.inl ‹_›)
    · split at h
      · obtain ⟨⟨bytes, stdout⟩, htaken, rfl⟩ := Option.map_eq_some_iff.mp h
        obtain ⟨_, _, _, _, hend⟩ := Pipe.read_spec htaken
        by_cases hbytes : bytes = []
        · obtain ⟨rfl, hover⟩ := hend hbytes
          simp only [hbytes, if_true]
          exact .keepEnds n found hkeeping (.inr hover)
        · simp only [hbytes, if_false]
          exact .keeps n found bytes stdout hkeeping ‹_› htaken hbytes
      · cases h
  · rename_i found hdiscarding
    obtain ⟨⟨bytes, stdout⟩, htaken, rfl⟩ := Option.map_eq_some_iff.mp h
    obtain ⟨_, _, _, _, hend⟩ := Pipe.read_spec htaken
    by_cases hbytes : bytes = []
    · obtain ⟨rfl, hover⟩ := hend hbytes
      simp only [hbytes, if_true]
      exact .discardEnds n found hdiscarding hover
    · simp only [hbytes, if_false]
      exact .discards n found bytes stdout hdiscarding htaken hbytes
  · cases h

theorem wait_move (h : wait s = some t) : Move s .wait t := by
  unfold wait at h
  split at h <;> cases h
  exact .waits _ _ ‹_› ‹_› ‹_›

theorem step_moves {a : Action} (h : machine.step s a = some t) : s.phase = .waiting ∧ Move s a t := by
  simp only [machine, step] at h
  split at h
  · refine ⟨‹_›, ?_⟩
    cases a with
    | ask call => exact ask_move h
    | receive n => exact receive_move h
    | send n => exact send_move h
    | exit status => exact exit_move h
    | feed n => exact feed_move h
    | read n => exact read_move h
    | wait => exact wait_move h
    | deadline =>
      cases h
      exact .deadline
  · cases h

end Moves

end Pals.Judge.Plumbing
