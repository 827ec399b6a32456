import Pals.Judge.Plumbing

/-! What the plumbing of a run keeps: the order and the bytes of both streams, and a
program that never waits for a judge that waits for it. -/
namespace Pals.Judge.Plumbing
open Pals.Library

variable {inCapacity outCapacity : Nat}

def Feed.rest : Feed → Bytes
  | writing rest => rest
  | done => []

def Faithful (stdout : Pipe UInt8 outCapacity) (written : Bytes) : Read → Prop
  | .keeping found => found ++ stdout.held = written ∧ found.length ≤ maxOutput
  | .discarding found => found = kept written ∧
      (found.length = maxOutput ∨ stdout.held = [] ∧ stdout.writable = false)
  | .done found => found = kept written ∧ stdout.writable = false

/-- `input` is fed in order, and each end of the pipes is closed by its owner only. -/
structure Inv (input : Bytes) (s : State inCapacity outCapacity) : Prop where
  output : Faithful s.stdout s.written s.read
  drained : s.stdout.readable = true
  fed : s.stdin.readable = true → s.received ++ s.stdin.held ++ s.feed.rest = input
  received : s.received <+: input
  dropped : s.stdin.writable = false ↔ s.feed = .done
  closed : ∀ status, s.program = .exited status →
    s.stdin.readable = false ∧ s.stdout.writable = false
  fault : ∀ error, s.phase ≠ .stopped (.failed error)
  result : ∀ outcome, s.phase = .returned outcome →
    ∃ status, outcome = .exited (.code status) (kept s.written)

theorem kept_append {written : Bytes} (h : (kept written).length = maxOutput) (more : Bytes) :
    kept (written ++ more) = kept written := by
  rw [kept, List.length_take] at h
  rw [kept, kept, List.take_append_of_le_length (by omega)]

section Faithful
variable {stdout next : Pipe UInt8 outCapacity} {written : Bytes} {state : Read}

theorem Faithful.closeWriter (h : Faithful stdout written state) :
    Faithful stdout.closeWriter written state := by
  cases state with
  | keeping found => exact h
  | discarding found => exact ⟨h.1, h.2.imp_right fun ended => ⟨ended.1, rfl⟩⟩
  | done found => exact ⟨h.1, rfl⟩

theorem Faithful.write (h : Faithful stdout written state) (writable : stdout.writable = true)
    {sent : Bytes} (held : next.held = stdout.held ++ sent) :
    Faithful next (written ++ sent) state := by
  cases state with
  | keeping found => exact ⟨by rw [held, ← List.append_assoc, h.1], h.2⟩
  | discarding found =>
    obtain ⟨hfound, hfull | ⟨_, hclosed⟩⟩ := h
    · exact ⟨by rw [kept_append (hfound ▸ hfull), hfound], .inl hfull⟩
    · simp [writable] at hclosed
  | done found => simp [h.2] at writable

variable {found bytes : Bytes}

theorem Faithful.keep (h : Faithful stdout written (.keeping found))
    (held : bytes ++ next.held = stdout.held) (room : bytes.length ≤ maxOutput - found.length) :
    Faithful next written (.keeping (found ++ bytes)) := by
  obtain ⟨hwritten, hlength⟩ := h
  refine ⟨by rw [List.append_assoc, held, hwritten], ?_⟩
  rw [List.length_append]
  omega

theorem Faithful.keepEnd (h : Faithful stdout written (.keeping found))
    (ended : found.length = maxOutput ∨ stdout.held = [] ∧ stdout.writable = false) :
    Faithful stdout written (.discarding found) := by
  obtain ⟨hwritten, hlength⟩ := h
  refine ⟨?_, ended⟩
  rcases ended with hfull | ⟨hempty, _⟩
  · rw [← hwritten, kept, ← hfull, List.take_left]
  · rw [← hwritten, hempty, List.append_nil, kept, List.take_of_length_le hlength]

theorem Faithful.discard (h : Faithful stdout written (.discarding found))
    (held : bytes ++ next.held = stdout.held) (more : bytes ≠ []) :
    Faithful next written (.discarding found) := by
  obtain ⟨hfound, hfull | ⟨hempty, _⟩⟩ := h
  · exact ⟨hfound, .inl hfull⟩
  · rw [hempty, List.append_eq_nil_iff] at held
    exact absurd held.1 more

end Faithful

section Steps
variable {input : Bytes} {s t : State inCapacity outCapacity}

theorem Inv.init : Inv input (State.init input : State inCapacity outCapacity) where
  output := ⟨rfl, Nat.zero_le _⟩
  drained := rfl
  fed _ := rfl
  received := List.nil_prefix
  dropped := by simp [State.init, Pipe.empty]
  closed _ h := nomatch h
  fault _ h := nomatch h
  result _ h := nomatch h

theorem Inv.faithful (inv : Inv input s) {state : Read} (h : s.read = state) :
    Faithful s.stdout s.written state := h ▸ inv.output

theorem Inv.step {a : Action} (inv : Inv input s) (h : machine.step s a = some t) : Inv input t := by
  obtain ⟨hwaiting, move⟩ := step_moves h
  cases move with
  | asksRead ready => exact { inv with closed := by simp }
  | asksWrite bytes ready => exact { inv with closed := by simp }
  | closesStdin ready => exact { inv with fed := by simp, closed := by simp [ready] }
  | closesStdout ready =>
    exact { inv with output := inv.output.closeWriter, closed := by simp [ready] }
  | receives n bytes stdin reading readable taken =>
    obtain ⟨hheld, hreadable, hwritable, _, _⟩ := Pipe.read_spec taken
    have hfed := inv.fed readable
    rw [← hheld] at hfed
    refine { inv with fed := fun _ => ?_, received := ?_, dropped := ?_, closed := by simp }
    · simpa only [List.append_assoc] using hfed
    · exact ⟨stdin.held ++ s.feed.rest, by simpa only [List.append_assoc] using hfed⟩
    · rw [← inv.dropped, ← hwritable]
  | receiveFails n reading => exact { inv with closed := by simp }
  | sends n rest left stdout writing writable sent =>
    obtain ⟨_, _, hheld, _, hreadable, hwritable⟩ := Pipe.write_spec sent
    exact { inv with
      output := inv.output.write writable hheld
      drained := hreadable
      closed := by simp
      result := by simp [hwaiting] }
  | sendEnds n rest writing => exact { inv with closed := by simp }
  | exits status running =>
    exact { inv with output := inv.output.closeWriter, fed := by simp, closed := fun _ _ => ⟨rfl, rfl⟩ }
  | feeds n rest left stdin feeding sent =>
    obtain ⟨rfl, _, hheld, hbefore, _, hwritable⟩ := Pipe.write_spec sent
    have hfed := inv.fed hbefore
    have hdropped := inv.dropped
    rw [feeding] at hfed hdropped
    refine { inv with fed := fun _ => ?_, dropped := ?_, closed := fun status exited => ?_ }
    · simpa [hheld, Feed.rest] using hfed
    · simpa [hwritable] using hdropped
    · simp [(inv.closed status exited).1] at hbefore
  | feedEnds n rest feeding ended =>
    refine { inv with fed := fun readable => ?_, dropped := by simp [State.dropStdin] }
    have hrest : rest = [] := ended.resolve_right (by simpa [State.dropStdin] using readable)
    have hfed := inv.fed readable
    rwa [feeding, hrest] at hfed
  | keeps n found bytes stdout keeping room taken more =>
    obtain ⟨hheld, hreadable, hwritable, hlength, _⟩ := Pipe.read_spec taken
    exact { inv with
      output := (inv.faithful keeping).keep hheld (hlength.trans room)
      drained := hreadable.trans inv.drained
      closed := by simpa only [hwritable] using inv.closed }
  | keepEnds n found keeping ended =>
    exact { inv with output := (inv.faithful keeping).keepEnd ended }
  | discards n found bytes stdout discarding taken more =>
    obtain ⟨hheld, hreadable, hwritable, _⟩ := Pipe.read_spec taken
    exact { inv with
      output := (inv.faithful discarding).discard hheld more
      drained := hreadable.trans inv.drained
      closed := by simpa only [hwritable] using inv.closed }
  | discardEnds n found discarding ended =>
    exact { inv with output := ⟨(inv.faithful discarding).1, ended.2⟩ }
  | waits found status fed drained exited =>
    refine { inv with fault := by simp, result := ?_ }
    rintro _ ⟨⟩
    exact ⟨status, by rw [(inv.faithful drained).1]⟩
  | deadline => exact { inv with fault := by simp, result := by simp }

end Steps

section Progress
variable {input : Bytes} {s : State inCapacity outCapacity}

theorem feed_can_step {rest : Bytes} (positive : 0 < inCapacity) (feeding : s.feed = .writing rest)
    (room : s.stdin.held = [] ∨ s.stdin.readable = false) : (feed s 1).isSome = true := by
  unfold feed
  rw [feeding]
  cases rest with
  | nil => rfl
  | cons byte rest =>
    simp only [Option.isSome_map]
    refine Pipe.write_one (List.cons_ne_nil byte rest) (room.imp_left fun hempty => ?_)
    rw [hempty]
    exact positive

theorem read_can_step (inv : Inv input s) (undone : ∀ found, s.read ≠ .done found)
    (available : s.stdout.held ≠ [] ∨ s.stdout.writable = false) : (read s 1).isSome = true := by
  have hread := Pipe.read_one available
  unfold read
  cases hstate : s.read with
  | keeping found =>
    by_cases hfull : found.length = maxOutput
    · simp [hfull]
    · have hroom : 1 ≤ maxOutput - found.length := by
        have := (inv.faithful hstate).2
        omega
      simp [hfull, hroom, hread]
  | discarding found => simp [hread]
  | done found => exact absurd hstate (undone found)

/-- A program waits for input at an empty pipe, and for room at a full one. -/
theorem blocked_waits (waiting : s.phase = .waiting) (blocked : Blocked s) :
    (s.stdin.held = [] ∧ s.stdin.writable = true) ∨
      (s.stdout.held.length = outCapacity ∧ s.stdout.writable = true) := by
  simp only [Blocked, step, waiting] at blocked
  rcases blocked with ⟨reading, hblocked⟩ | ⟨rest, writing, hblocked⟩
  · simp only [receive, reading] at hblocked
    split at hblocked
    · simp only [Option.map_eq_none_iff] at hblocked
      exact .inl (Pipe.read_waits_iff.mp hblocked)
    · simp at hblocked
  · simp only [send, writing] at hblocked
    split at hblocked
    · simp at hblocked
    · rename_i hopen
      rw [not_or] at hopen
      simp only [Option.map_eq_none_iff] at hblocked
      exact .inr ⟨((Pipe.write_waits_iff hopen.1).mp hblocked).1, by simpa using hopen.2⟩

/-- A task of the judge can move whenever the program cannot. -/
theorem tasks_progress (inv : Inv input s) (hin : 0 < inCapacity) (hout : 0 < outCapacity)
    (waiting : s.phase = .waiting) (blocked : Blocked s) :
    (feed s 1).isSome = true ∨ (read s 1).isSome = true := by
  rcases blocked_waits waiting blocked with ⟨hempty, hopen⟩ | ⟨hfull, hopen⟩
  · left
    cases hfeed : s.feed with
    | writing rest => exact feed_can_step hin hfeed (.inl hempty)
    | done => simp [inv.dropped.mpr hfeed] at hopen
  · right
    refine read_can_step inv (fun found hdone => ?_) (.inl fun hempty => ?_)
    · simp [(inv.faithful hdone).2] at hopen
    · rw [hempty] at hfull
      exact absurd hfull hout.ne

theorem exited_progress (inv : Inv input s) {status : UInt8} (hin : 0 < inCapacity)
    (exited : s.program = .exited status) :
    (feed s 1).isSome = true ∨ (read s 1).isSome = true ∨ (wait s).isSome = true := by
  obtain ⟨hstdin, hstdout⟩ := inv.closed status exited
  cases hfeed : s.feed with
  | writing rest => exact .inl (feed_can_step hin hfeed (.inr hstdin))
  | done =>
    right
    cases hread : s.read with
    | done found => exact .inr (by simp [wait, hfeed, hread, exited])
    | _ => exact .inl (read_can_step inv (by simp [hread]) (.inr hstdout))

def Action.isTask : Action → Bool
  | feed _ => true
  | read _ => true
  | _ => false

def Feed.rank : Feed → Nat
  | writing rest => rest.length + 1
  | done => 0

def Read.rank : Read → Nat
  | keeping _ => 2
  | discarding _ => 1
  | done _ => 0

def State.rank (s : State inCapacity outCapacity) : Nat :=
  s.feed.rank + s.stdout.held.length + s.read.rank

theorem task_step {t : State inCapacity outCapacity} {a : Action} (task : a.isTask = true)
    (h : machine.step s a = some t) : t.phase = .waiting ∧ t.rank < s.rank := by
  obtain ⟨waiting, move⟩ := step_moves h
  have hstdout {bytes : Bytes} {stdout : Pipe UInt8 outCapacity} {n : Nat}
      (taken : s.stdout.read n = some (bytes, stdout)) (more : bytes ≠ []) :
      stdout.held.length < s.stdout.held.length := by
    obtain ⟨hheld, _⟩ := Pipe.read_spec taken
    have := List.length_pos_iff.mpr more
    rw [← hheld, List.length_append]
    omega
  cases move with
  | feeds n rest left stdin feeding sent =>
    obtain ⟨_, hless, _⟩ := Pipe.write_spec sent
    refine ⟨waiting, ?_⟩
    simp only [State.rank, feeding, Feed.rank]
    omega
  | feedEnds n rest feeding ended =>
    refine ⟨waiting, ?_⟩
    simp only [State.rank, State.dropStdin, feeding, Feed.rank]
    omega
  | keeps n found bytes stdout keeping room taken more =>
    have := hstdout taken more
    refine ⟨waiting, ?_⟩
    simp only [State.rank, keeping, Read.rank]
    omega
  | keepEnds n found keeping ended => exact ⟨waiting, by simp [State.rank, keeping, Read.rank]⟩
  | discards n found bytes stdout discarding taken more =>
    have := hstdout taken more
    refine ⟨waiting, ?_⟩
    simp only [State.rank, discarding, Read.rank]
    omega
  | discardEnds n found discarding ended =>
    exact ⟨waiting, by simp [State.rank, discarding, Read.rank]⟩
  | _ => cases task

theorem tasks_end {t : State inCapacity outCapacity} {as : List Action}
    (tasks : ∀ a ∈ as, a.isTask = true) (h : machine.run s as = some t) :
    as.length + t.rank ≤ s.rank := by
  induction as generalizing s with
  | nil =>
    cases h
    exact (Nat.zero_add _).le
  | cons a as ih =>
    obtain ⟨htask, htasks⟩ := List.forall_mem_cons.mp tasks
    obtain ⟨u, hstep, hrun⟩ := machine.run_cons_eq_some.mp h
    have hless := (task_step htask hstep).2
    have hrest := ih htasks hrun
    rw [List.length_cons]
    omega

theorem tasks_unblock (inv : Inv input s) (hin : 0 < inCapacity) (hout : 0 < outCapacity)
    (waiting : s.phase = .waiting) : ∃ as t, (∀ a ∈ as, a.isTask = true) ∧
      machine.run s as = some t ∧ t.phase = .waiting ∧ ¬Blocked t := by
  induction hrank : s.rank using Nat.strongRecOn generalizing s with
  | ind rank ih =>
    by_cases blocked : Blocked s
    · obtain ⟨a, t, htask, hstep⟩ : ∃ a t, a.isTask = true ∧ machine.step s a = some t := by
        simp only [machine, step, waiting]
        rcases tasks_progress inv hin hout waiting blocked with hfeed | hread
        · exact ⟨.feed 1, _, rfl, (Option.some_get hfeed).symm⟩
        · exact ⟨.read 1, _, rfl, (Option.some_get hread).symm⟩
      obtain ⟨hwaiting, hless⟩ := task_step htask hstep
      obtain ⟨as, u, htasks, hrun, hphase, hfree⟩ :=
        ih t.rank (hrank ▸ hless) (inv.step hstep) hwaiting rfl
      exact ⟨a :: as, u, List.forall_mem_cons.mpr ⟨htask, htasks⟩,
        machine.run_cons_eq_some.mpr ⟨t, hstep, hrun⟩, hphase, hfree⟩
    · exact ⟨[], s, by simp, rfl, waiting, blocked⟩

/-- Whatever the program does with its streams, and whatever the sizes of the pipes and
the order of the steps, the judge never keeps the program waiting, no use of the streams
is an error, and the output of a program that has ended is what it wrote, cut at the
bound. -/
theorem plumbing_is_transparent (hin : 0 < inCapacity) (hout : 0 < outCapacity) (input : Bytes)
    (as : List Action) (s : State inCapacity outCapacity)
    (h : machine.run (State.init input) as = some s) :
    (s.phase = .waiting → Blocked s →
      ∃ n, (step s (.feed n)).isSome = true ∨ (step s (.read n)).isSome = true) ∧
    (s.phase = .waiting → ∀ status, s.program = .exited status →
      ∃ n, (step s (.feed n)).isSome = true ∨ (step s (.read n)).isSome = true ∨
        (step s .wait).isSome = true) ∧
    (∀ error, s.phase ≠ .stopped (.failed error)) ∧
    (∀ status stdout, s.phase = .returned (.exited status stdout) →
      stdout = s.written.take maxOutput) ∧
    s.received <+: input := by
  have inv : Inv input s := Machine.run_invariant (fun _ _ _ => Inv.step) Inv.init h
  refine ⟨fun waiting blocked => ⟨1, ?_⟩, fun waiting status exited => ⟨1, ?_⟩, inv.fault,
    fun status stdout returned => ?_, inv.received⟩
  · simpa only [step, waiting] using tasks_progress inv hin hout waiting blocked
  · simpa only [step, waiting] using exited_progress inv hin exited
  · obtain ⟨_, houtcome⟩ := inv.result _ returned
    cases houtcome
    rfl

end Progress

def echo : List Action :=
  [.ask .read, .feed 1, .receive 1, .feed 0, .ask (.write [50, 51]), .send 1, .read 1, .send 1,
    .send 0, .exit 0, .read 1, .read 0, .read 0, .wait]

theorem plumbing_is_transparent_echo : ∃ s : State 1 1,
    machine.run (State.init [49]) echo = some s ∧
      s.phase = .returned (.exited (.code 0) [50, 51]) ∧ [50, 51] = s.written.take maxOutput := by
  obtain ⟨s, h, hphase⟩ : ∃ s : State 1 1, machine.run (State.init [49]) echo = some s ∧
      s.phase = .returned (.exited (.code 0) [50, 51]) := ⟨_, rfl, rfl⟩
  have hresult := plumbing_is_transparent Nat.one_pos Nat.one_pos [49] echo s h
  exact ⟨s, h, hphase, hresult.2.2.2.1 _ _ hphase⟩

section Refinement
variable {input : Bytes} {s t : State inCapacity outCapacity}

def Feed.ended : Feed → Bool
  | writing _ => false
  | done => true

def Read.answer : Read → Option Bytes
  | done found => some found
  | _ => none

def State.call (s : State inCapacity outCapacity) : Run.Call :=
  match s.phase with
  | .waiting => .waiting s.feed.ended s.read.answer
  | .stopped why => .removing why
  | .returned outcome => .returned (.ok outcome)

/-- The run of the sandbox with all that goes through the pipes left out. -/
def State.run (s : State inCapacity outCapacity) : Run.State where
  call := s.call
  cli := match s.program with
    | .exited status => .exited (.code status)
    | _ => .attached
  request := none
  container := match s.program with
    | .exited _ => .absent
    | _ => .running
  started := true

theorem init_reached : Run.machine.Reaches Run.State.init
    (State.init input : State inCapacity outCapacity).run :=
  ⟨[.spawn (.ok ()), .cliCreates, .daemonCreates, .cliStarts, .daemonStarts], rfl⟩

/-- Bytes move without a step of the run; what ends a task, the program or the wait is
one of its steps. -/
theorem step_run {a : Action} (inv : Inv input s) (h : machine.step s a = some t) :
    Run.machine.Reaches s.run t.run := by
  obtain ⟨hwaiting, move⟩ := step_moves h
  have stutter (heq : t.run = s.run) : Run.machine.Reaches s.run t.run := heq ▸ .refl _ _
  cases move with
  | asksRead ready => exact stutter (by simp [State.run, State.call, ready])
  | asksWrite bytes ready => exact stutter (by simp [State.run, State.call, ready])
  | closesStdin ready => exact stutter rfl
  | closesStdout ready => exact stutter rfl
  | receives n bytes stdin reading readable taken =>
    exact stutter (by simp [State.run, State.call, reading])
  | receiveFails n reading => exact stutter (by simp [State.run, State.call, reading])
  | sends n rest left stdout writing writable sent =>
    exact stutter (by simp [State.run, State.call, writing])
  | sendEnds n rest writing => exact stutter (by simp [State.run, State.call, writing])
  | exits status running =>
    refine ⟨[.programExits status, .cliExits], ?_⟩
    cases hprogram : s.program with
    | exited status => exact absurd hprogram (running status)
    | _ => simp [Machine.run, Run.machine, Run.step, Run.callStep, Run.dockerStep, State.run, hprogram,
        Run.State.discard, State.call]
  | feeds n rest left stdin feeding sent =>
    exact stutter (by simp [State.run, State.call, hwaiting, feeding, Feed.ended])
  | feedEnds n rest feeding ended =>
    refine ⟨[.feed (if rest = [] then .ok () else .error (.ofErrno .EPIPE))], ?_⟩
    split <;> simp [Machine.run, Run.machine, Run.step, Run.callStep, State.run, State.call, hwaiting,
      feeding, Feed.ended, State.dropStdin, IoError.ofErrno, Errno.kind]
  | keeps n found bytes stdout keeping room taken more =>
    exact stutter (by simp [State.run, State.call, hwaiting, keeping, Read.answer])
  | keepEnds n found keeping ended =>
    exact stutter (by simp [State.run, State.call, hwaiting, keeping, Read.answer])
  | discards n found bytes stdout discarding taken more =>
    exact stutter (by simp [State.run, State.call, hwaiting, discarding, Read.answer])
  | discardEnds n found discarding ended =>
    have hout := inv.faithful discarding
    refine ⟨[.read (.ok s.written)], ?_⟩
    simp [Machine.run, Run.machine, Run.step, Run.callStep, State.run, State.call, hwaiting,
      discarding, Read.answer, hout.1]
  | waits found status fed drained exited =>
    refine ⟨[.wait (.ok ())], ?_⟩
    simp [Machine.run, Run.machine, Run.step, Run.callStep, State.run, State.call, hwaiting, fed,
      drained, exited, Read.answer, Feed.ended, Run.State.return, Run.Cli.drop]
  | deadline =>
    refine ⟨[.deadline], ?_⟩
    simp [Machine.run, Run.machine, Run.step, Run.callStep, State.run, State.call, hwaiting]

/-- Every run of the plumbing is one of the sandbox, seen from closer. -/
theorem refines_run (input : Bytes) (schedule : List Action) :
    machine.Always (fun s => Run.machine.Reaches Run.State.init s.run)
      (State.init input : State inCapacity outCapacity) schedule :=
  Machine.always (I := fun s => Inv input s ∧ Run.machine.Reaches Run.State.init s.run)
    (fun _ _ _ ⟨inv, hreach⟩ h => ⟨inv.step h, hreach.trans (step_run inv h)⟩)
    (fun _ => And.right) ⟨Inv.init, init_reached⟩ schedule

end Refinement

end Pals.Judge.Plumbing
