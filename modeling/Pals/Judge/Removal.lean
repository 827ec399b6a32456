import Pals.Judge.Run

/-! What a run of the sandbox leaves behind when it is over. -/
namespace Pals.Judge.Run
open Pals.Library

def State.Quiet (s : State) : Prop := s.request = none ∧ s.container ≠ .running

def Cli.over : Cli → Bool
  | ending _ | exited _ => true
  | _ => false

/-- No container of the name is running, and no request in flight will create or
start one. -/
structure State.Clear (s : State) : Prop where
  stopped : s.container ≠ .running
  uncreated : s.request ≠ some .create
  unstarted : ¬(s.request = some .start ∧ s.container = .created)

def ClearOnReturn (s : State) : Prop := ∀ result, s.call = .returned result → s.Clear

/-- A removal comes once the creation of the container was asked for and answered. It
is refused only after the end of the process, with nothing left to remove, and cannot
be run only when the daemon is quiet. While the call waits, the process does not give
up on a request or on a program. -/
def Timely (s : State) : Action → Prop
  | .remove .done => s.cli ≠ .preparing ∧ s.request ≠ some .create
  | .remove .refused => s.cli.over ∧ s.Quiet
  | .remove (.failed _) => s.Quiet
  | .cliGivesUp => (∃ fed kept, s.call = .waiting fed kept) → s.Quiet
  | _ => True

/-- Until a removal, the daemon is as far as the process is. -/
def Abreast (s : State) : Prop :=
  match s.cli with
  | .preparing => s.request = none ∧ s.container = .absent
  | .creating => s.request = some .create ∧ s.container = .absent
  | .created => s.request = none ∧ s.container = .created
  | .starting => s.request = some .start ∧ s.container = .created
  | .attached => s.request = none ∧ s.container = .running
  | .ending _ | .exited _ => s.request = some .start → s.container = .created
  | .absent | .killed => False

def Settled (s : State) : Prop :=
  match s.cli with
  | .created | .starting => s.container = .absent ∧ s.request ≠ some .create
  | .ending _ | .exited _ => s.container = .absent ∧ s.request ≠ some .create ∨ s.Quiet
  | _ => False

def Cli.dropped : Cli → Bool
  | absent | exited _ | killed => true
  | _ => false

def Inv (s : State) : Prop :=
  match s.call with
  | .spawning => s.cli = .absent ∧ s.request = none ∧ s.container = .absent
  | .waiting _ _ => Abreast s ∧ (s.cli.over → s.Quiet)
  | .removing _ => Abreast s
  | .removed _ => Settled s
  | .hung _ => True
  | .returned _ => s.Clear ∧ s.cli.dropped

@[simp] theorem Cli.dropped_drop (cli : Cli) : cli.drop.dropped = true := by
  cases cli <;> rfl

theorem State.Clear.of_eq {s t : State} (clear : s.Clear) (request : t.request = s.request)
    (container : t.container = s.container) : t.Clear where
  stopped := container ▸ clear.stopped
  uncreated := request ▸ clear.uncreated
  unstarted := request ▸ container ▸ clear.unstarted

theorem State.Quiet.clear {s : State} (quiet : s.Quiet) : s.Clear where
  stopped := quiet.2
  uncreated := by simp [quiet.1]
  unstarted := by simp [quiet.1]

theorem State.Clear.of_absent {s : State} (absent : s.container = .absent)
    (uncreated : s.request ≠ some .create) : s.Clear where
  stopped := by simp [absent]
  uncreated := uncreated
  unstarted := by simp [absent]

theorem Settled.clear {s : State} (settled : Settled s) : s.Clear := by
  unfold Settled at settled
  split at settled
  · exact .of_absent settled.1 settled.2
  · exact .of_absent settled.1 settled.2
  · exact settled.elim (fun h => .of_absent h.1 h.2) State.Quiet.clear
  · exact settled.elim (fun h => .of_absent h.1 h.2) State.Quiet.clear
  · exact settled.elim

theorem Inv.abreast {s : State} {fed : Bool} {kept : Option Bytes} (inv : Inv s)
    (waiting : s.call = .waiting fed kept) : Abreast s ∧ (s.cli.over → s.Quiet) := by
  simpa only [Inv, waiting] using inv

theorem Inv.removing {s : State} {why : Stop} (inv : Inv s) (removing : s.call = .removing why) :
    Abreast s := by
  simpa only [Inv, removing] using inv

theorem Inv.removed {s : State} {why : Stop} (inv : Inv s) (removed : s.call = .removed why) :
    Settled s := by
  simpa only [Inv, removed] using inv

theorem Inv.return {s : State} (clear : s.Clear) (result : IoResult Outcome) :
    Inv (s.return result) :=
  ⟨clear.of_eq rfl rfl, Cli.dropped_drop _⟩

/-- A removal that is done in time leaves the process nothing that it could start. -/
theorem Abreast.settled_discard {s : State} (abreast : Abreast s) (asked : s.cli ≠ .preparing)
    (answered : s.request ≠ some .create) : Settled (s.discard programKilled) := by
  unfold Abreast at abreast
  unfold Settled State.discard
  cases hcli : s.cli <;> rw [hcli] at abreast
  case preparing => exact absurd hcli asked
  case creating => exact absurd abreast.1 answered
  case created | starting => exact ⟨rfl, answered⟩
  case attached | ending | exited => exact .inl ⟨rfl, answered⟩
  case absent | killed => exact abreast.elim

theorem Settled.of_over {s : State} (ended : s.cli.over) (quiet : s.Quiet) : Settled s := by
  unfold Settled
  cases hcli : s.cli <;> rw [hcli] at ended
  case ending | exited => exact .inr quiet
  all_goals cases ended

theorem CallMove.inv {s t : State} {a : Action} (move : CallMove s a t) (inv : Inv s)
    (timely : Timely s a) : Inv t := by
  cases move with
  | spawned spawning =>
    simp only [Inv, spawning] at inv
    exact ⟨⟨inv.2.1, inv.2.2⟩, fun hover => nomatch hover⟩
  | spawnFails error spawning =>
    simp only [Inv, spawning] at inv
    exact .return (.of_absent inv.2.2 (by simp [inv.2.1])) _
  | fed kept waiting | inputClosed error kept closed waiting | reads written fed waiting =>
    exact inv.abreast waiting
  | feedFails error kept unclosed waiting | readFails error fed waiting
  | waitFails error stdout waiting | deadline fed kept waiting =>
    exact (inv.abreast waiting).1
  | waits stdout status waiting exited =>
    have quiet := (inv.abreast waiting).2 (by rw [exited]; rfl)
    exact .return quiet.clear _
  | removes why removing => exact (inv.removing removing).settled_discard timely.1 timely.2
  | removeRefused why removing => exact Settled.of_over timely.1 timely.2
  | removeFails error why removing => exact .return (State.Quiet.clear timely) _
  | leaves why removed => exact .return (inv.removed removed).clear _
  | leavesFailing error why removed => exact .return (inv.removed removed).clear _
  | hangs => trivial

theorem DockerMove.abreast {s t : State} {a : Action} (move : DockerMove s a t)
    (abreast : Abreast s) : Abreast t := by
  unfold Abreast at abreast
  cases move with
  | cliCreates preparing =>
    rw [preparing] at abreast
    exact ⟨rfl, abreast.2⟩
  | cliStarts created =>
    rw [created] at abreast
    exact ⟨rfl, abreast.2⟩
  | cliGivesUp talks =>
    change s.request = some .start → s.container = .created
    intro asked
    cases hcli : s.cli <;> rw [hcli] at abreast talks
    case starting => exact abreast.2
    case preparing | creating | created | attached => cases asked.symm.trans abreast.1
    all_goals cases talks
  | cliExits status ending =>
    rw [ending] at abreast
    exact abreast
  | daemonCreates | daemonStarts | daemonRefuses | programExits =>
    -- The daemon answers at whichever place the process is.
    cases hcli : s.cli <;> simp_all [Abreast, State.discard]

theorem DockerMove.settled {s t : State} {a : Action} (move : DockerMove s a t)
    (settled : Settled s) : Settled t := by
  unfold Settled at settled
  cases move with
  | cliCreates preparing =>
    rw [preparing] at settled
    exact settled.elim
  | cliStarts created =>
    rw [created] at settled
    exact ⟨settled.1, nofun⟩
  | cliGivesUp talks =>
    cases hcli : s.cli <;> rw [hcli] at settled talks
    case created | starting => exact .inl settled
    case preparing | creating | attached => exact settled.elim
    all_goals cases talks
  | cliExits status ending =>
    rw [ending] at settled
    exact settled
  | daemonCreates | daemonStarts | daemonRefuses | programExits =>
    cases hcli : s.cli <;> simp_all [Settled, State.Quiet]

theorem DockerMove.clear {s t : State} {a : Action} (move : DockerMove s a t) (clear : s.Clear)
    (dropped : s.cli.dropped) : t.Clear ∧ t.cli.dropped := by
  cases move with
  | cliCreates preparing =>
    rw [preparing] at dropped
    cases dropped
  | cliStarts created =>
    rw [created] at dropped
    cases dropped
  | cliGivesUp talks =>
    cases hcli : s.cli <;> simp_all [Cli.dropped, Cli.canGiveUp]
  | cliExits status ending =>
    rw [ending] at dropped
    cases dropped
  | daemonCreates asked free => exact absurd asked clear.uncreated
  | daemonStarts asked created => exact absurd ⟨asked, created⟩ clear.unstarted
  | daemonRefuses request asked =>
    refine ⟨.of_absent rfl nofun, ?_⟩
    cases hcli : s.cli <;> simp_all [Cli.dropped]
  | programExits status running => exact absurd running clear.stopped

theorem DockerMove.quiet {s t : State} {a : Action} (move : DockerMove s a t)
    (timely : a = .cliGivesUp → s.Quiet) (abreast : Abreast s)
    (quiet : s.cli.over → s.Quiet) : t.cli.over → t.Quiet := by
  unfold Abreast at abreast
  cases move with
  | cliCreates | cliStarts => exact nofun
  | cliGivesUp => exact fun _ => timely rfl
  | cliExits status ending => exact fun _ => quiet (by rw [ending]; rfl)
  | daemonCreates | daemonStarts | daemonRefuses | programExits =>
    cases hcli : s.cli <;> simp_all [State.Quiet, State.discard, Cli.over]

theorem DockerMove.inv {s t : State} {a : Action} (move : DockerMove s a t) (inv : Inv s)
    (timely : Timely s a) : Inv t := by
  unfold Inv at inv ⊢
  rw [move.call]
  split at inv
  · obtain ⟨hcli, hrequest, hcontainer⟩ := inv
    cases move <;> simp_all [Cli.canGiveUp]
  · rename_i fed kept hwait
    exact ⟨move.abreast inv.1, move.quiet
      (fun hgive => by subst hgive; exact timely ⟨fed, kept, hwait⟩) inv.1 inv.2⟩
  · exact move.abreast inv
  · exact move.settled inv
  · trivial
  · exact move.clear inv.1 inv.2

theorem step_inv (s : State) (a : Action) (t : State) (inv : Inv s) (timely : Timely s a)
    (h : machine.step s a = some t) : Inv t :=
  (step_moves h).elim (·.inv inv timely) (·.inv inv timely)

theorem Inv.clearOnReturn (s : State) (inv : Inv s) : ClearOnReturn s := by
  intro result hcall
  simp only [Inv, hcall] at inv
  exact inv.1

theorem init_inv : Inv State.init := ⟨rfl, rfl, rfl⟩

/-- A run whose removals are timely leaves nothing behind, however its three
parties take turns. -/
theorem nothing_left (schedule : List Action) (timely : machine.Meets Timely .init schedule) :
    machine.Always ClearOnReturn .init schedule :=
  timely.always step_inv Inv.clearOnReturn init_inv

def endless : List Action :=
  [.spawn (.ok ()), .cliCreates, .daemonCreates, .cliStarts, .daemonStarts, .feed (.ok ()),
    .deadline, .remove .done, .removeWait (.ok ())]

theorem nothing_left_endless : machine.Always ClearOnReturn .init endless :=
  nothing_left endless (by
    simp [endless, Machine.Meets, machine, step, callStep, dockerStep, State.init, Timely,
      State.discard])

/-- The image is still being pulled at the deadline: there is no container to
remove, and the process goes on to create one. -/
def slowPull : List Action :=
  [.spawn (.ok ()), .deadline, .remove .done, .cliCreates, .daemonCreates, .cliStarts,
    .removeWait (.ok ()), .daemonStarts]

theorem slowPull_left_running : ¬machine.Always ClearOnReturn .init slowPull := by
  intro h
  have clear := h.last (t := ⟨.returned (.ok .timedOut), .killed, none, .running, true⟩) rfl
  exact (clear _ rfl).stopped rfl

def Leaves (s : State) : Prop := ∃ rest t, machine.run s rest = some t ∧ ¬ClearOnReturn t

theorem Leaves.step {s t : State} {a : Action} (h : machine.step s a = some t) (leaves : Leaves t) :
    Leaves s := by
  obtain ⟨rest, u, hrun, hu⟩ := leaves
  exact ⟨a :: rest, u, machine.run_cons_eq_some.mpr ⟨t, h, hrun⟩, hu⟩

theorem Leaves.of_return {s : State} {result : IoResult Outcome} (hcall : s.call = .returned result)
    (unclear : ¬s.Clear) : Leaves s := ⟨[], s, rfl, fun h => unclear (h result hcall)⟩

theorem Leaves.of_removed {s : State} {why : Stop} (hcall : s.call = .removed why)
    (unclear : ¬s.Clear) : Leaves s := by
  refine .step (a := .removeWait (.ok ())) (t := s.return why.result) ?_ (.of_return rfl ?_)
  · simp [machine, Run.step, callStep, hcall]
  · exact fun clear => unclear (clear.of_eq rfl rfl)

theorem Abreast.quiet_of_clear {s : State} (abreast : Abreast s) (clear : s.Clear) : s.Quiet := by
  obtain ⟨call, cli, request, container, started⟩ := s
  obtain ⟨stopped, uncreated, unstarted⟩ := clear
  refine ⟨?_, stopped⟩
  cases cli <;> cases request with
  | none => simp_all
  | some request => cases request <;> simp_all [Abreast]

theorem Leaves.of_exited {s : State} {status : ExitStatus} {fed : Bool} {kept : Option Bytes}
    (hcall : s.call = .waiting fed kept) (hcli : s.cli = .exited status) (unclear : ¬s.Clear) :
    Leaves s := by
  obtain ⟨call, cli, request, container, started⟩ := s
  subst hcall hcli
  have hwait (stdout : Bytes) : Leaves ⟨.waiting true (some stdout), .exited status, request,
      container, started⟩ :=
    .step (a := .wait (.ok ())) rfl (.of_return rfl fun clear => unclear (clear.of_eq rfl rfl))
  have hfed (kept : Option Bytes) : Leaves ⟨.waiting true kept, .exited status, request, container,
      started⟩ := by
    cases kept with
    | none => exact .step (a := .read (.ok [])) rfl (hwait _)
    | some stdout => exact hwait stdout
  cases fed with
  | false => exact .step (a := .feed (.ok ())) rfl (hfed kept)
  | true => exact hfed kept

theorem Leaves.of_asking {s : State} {why : Stop} (hcall : s.call = .removed why)
    (abreast : Abreast s) (asking : s.cli.over = false) : Leaves s := by
  by_cases clear : s.Clear
  · obtain ⟨call, cli, request, container, started⟩ := s
    obtain ⟨hrequest, hcontainer⟩ := abreast.quiet_of_clear clear
    subst hcall hrequest
    cases cli with
    | preparing =>
      exact .step (a := .cliCreates) rfl (.of_removed rfl fun clear => clear.uncreated rfl)
    | created =>
      exact .step (a := .cliStarts) rfl
        (.of_removed rfl fun clear => clear.unstarted ⟨rfl, abreast.2⟩)
    | ending | exited => cases asking
    | absent | killed => exact abreast.elim
    | creating | starting => cases abreast.1
    | attached => exact absurd abreast.2 hcontainer
  · exact .of_removed hcall clear

theorem CallMove.leaves_of_untimely {s t : State} {a : Action} (move : CallMove s a t) (inv : Inv s)
    (untimely : ¬Timely s a) : Leaves t := by
  cases move with
  | removes why removing =>
    by_cases answered : s.request = some .create
    · exact .of_removed rfl fun clear => clear.uncreated answered
    · have preparing : s.cli = .preparing := by
        by_contra asked
        exact untimely ⟨asked, answered⟩
      refine .step (a := .cliCreates) (t := { s.discard programKilled with
        call := .removed why, cli := .creating, request := some .create }) ?_
        (.of_removed rfl fun clear => clear.uncreated rfl)
      simp [machine, Run.step, callStep, dockerStep, State.discard, preparing]
  | removeRefused why removing =>
    cases ended : s.cli.over with
    | false => exact .of_asking rfl (inv.removing removing) ended
    | true =>
      exact .of_removed rfl fun clear =>
        untimely ⟨ended, (inv.removing removing).quiet_of_clear (clear.of_eq rfl rfl)⟩
  | removeFails error why removing =>
    exact .of_return rfl fun clear =>
      untimely ((inv.removing removing).quiet_of_clear (clear.of_eq rfl rfl))
  | _ => exact absurd trivial untimely

theorem DockerMove.leaves_of_untimely {s t : State} {a : Action} (move : DockerMove s a t)
    (inv : Inv s) (untimely : ¬Timely s a) : Leaves t := by
  cases move with
  | cliGivesUp talks =>
    simp only [Timely, Classical.not_imp] at untimely
    obtain ⟨⟨fed, kept, waiting⟩, unquiet⟩ := untimely
    have unclear : ¬s.Clear := fun clear =>
      unquiet ((inv.abreast waiting).1.quiet_of_clear clear)
    refine .step (a := .cliExits) rfl (.of_exited waiting rfl fun clear => unclear ?_)
    exact clear.of_eq rfl rfl
  | _ => exact absurd trivial untimely

/-- Nothing less would do: once a step is untimely, the run can end with something
left to the daemon. -/
theorem untimely_leaves {schedule : List Action} {s t : State} {a : Action}
    (run : machine.run .init schedule = some s) (timely : machine.Meets Timely .init schedule)
    (h : machine.step s a = some t) (untimely : ¬Timely s a) :
    ∃ rest u, machine.run .init (schedule ++ a :: rest) = some u ∧ ¬ClearOnReturn u := by
  have inv : Inv s := (timely.always step_inv (fun _ => id) init_inv).last run
  have leaves : Leaves t :=
    (step_moves h).elim (·.leaves_of_untimely inv untimely) (·.leaves_of_untimely inv untimely)
  obtain ⟨rest, u, hrest, hu⟩ := leaves
  refine ⟨rest, u, ?_, hu⟩
  rw [machine.run_append, run, Option.bind_some]
  exact machine.run_cons_eq_some.mpr ⟨t, h, hrest⟩

theorem untimely_leaves_early : ∃ rest u,
    machine.run .init ([.spawn (.ok ()), .deadline] ++ .remove .refused :: rest) = some u ∧
      ¬ClearOnReturn u := by
  refine untimely_leaves (s := ⟨.removing .timedOut, .preparing, none, .absent, false⟩) rfl
    (fun _ _ => ⟨trivial, fun _ _ => ⟨trivial, trivial⟩⟩) rfl ?_
  rintro ⟨ended, _⟩
  cases ended

end Pals.Judge.Run
