import Pals.Queue.Exclusive
import Pals.Queue.Locks

/-! A call of `claim_job` as it goes over the rows of its snapshot, while the
transactions of others go on. -/
namespace Pals.Queue
open Pals.Library Pals.Contracts Pals.Judge

/-- A row that judge `j` cannot have: another transaction in progress has locked it,
or its newest committed version does not wait. -/
def Unavailable (s : State) (j : Nat) (id : Uuid) : Prop :=
  (∃ other, other ≠ Session.judge j ∧ s.db.holder id = some other ∧ s.db.txs other ≠ none) ∨
  ∃ row, s.db.committed.lookup id = some row ∧ row.state ≠ .waiting

/-- In a run from `s`, the call of judge `j` went on from the row to the next one, at a
moment when the row was unavailable. -/
def PassedOver (s : State) (j : Nat) (schedule : List Action) (id : Uuid) : Prop :=
  ∃ front back u v rest, schedule = front ++ .claimVisit j :: back ∧
    machine.run s front = some u ∧ u.judges j = .claimVisiting (id :: rest) ∧
    machine.step u (.claimVisit j) = some v ∧ v.judges j = .claimVisiting rest ∧
    Unavailable u j id

def Progress (s : State) (j : Nat) (ids : List Uuid) (schedule : List Action) :
    JudgeState → Prop
  | .claimVisiting rest =>
      ∃ passed, ids = passed ++ rest ∧ ∀ id ∈ passed, PassedOver s j schedule id
  | .claimSelected id =>
      ∃ passed rest, ids = passed ++ id :: rest ∧ ∀ id ∈ passed, PassedOver s j schedule id
  | .claimed (some job) =>
      ∃ passed rest, ids = passed ++ job.id :: rest ∧ ∀ id ∈ passed, PassedOver s j schedule id
  | .claimed none => ∀ id ∈ ids, PassedOver s j schedule id
  | _ => True

section Steps
variable {s u t : State} {j : Nat} {schedule : List Action} {id : Uuid} {ids : List Uuid}

theorem PassedOver.append (h : PassedOver s j schedule id) (more : List Action) :
    PassedOver s j (schedule ++ more) id := by
  obtain ⟨front, back, u, v, rest, rfl, h⟩ := h
  exact ⟨front, back ++ more, u, v, rest, by simp, h⟩

theorem Progress.append {place : JudgeState} (h : Progress s j ids schedule place)
    (more : List Action) : Progress s j ids (schedule ++ more) place := by
  cases place with
  | claimVisiting rest =>
    obtain ⟨passed, hids, hpassed⟩ := h
    exact ⟨passed, hids, fun id hid => (hpassed id hid).append more⟩
  | claimSelected id =>
    obtain ⟨passed, rest, hids, hpassed⟩ := h
    exact ⟨passed, rest, hids, fun id hid => (hpassed id hid).append more⟩
  | claimed answer =>
    cases answer with
    | none => exact fun id hid => (h id hid).append more
    | some job =>
      obtain ⟨passed, rest, hids, hpassed⟩ := h
      exact ⟨passed, rest, hids, fun id hid => (hpassed id hid).append more⟩
  | _ => trivial

theorem unavailable_of_lock_none (tidy : Tidy s) (h : s.db.lock (.judge j) id = none) :
    Unavailable s j id := by
  unfold Db.lock at h
  split at h
  · cases h
  · rename_i hheld
    rw [not_or] at hheld
    obtain ⟨other, hother⟩ := Option.ne_none_iff_exists'.mp hheld.1
    refine .inl ⟨other, ?_, hother, tidy.locks id other hother⟩
    rintro rfl
    exact hheld.2 hother

theorem unavailable_of_stale {db : Db Session Uuid Row} (unwritten : Unwritten s j)
    (locked : s.db.lock (.judge j) id = some db)
    (stale : ∀ row, db.newest (.judge j) id = some row → row.state ≠ .waiting)
    (known : ∃ row, s.db.committed.lookup id = some row) : Unavailable s j id := by
  obtain ⟨now, htx⟩ := unwritten
  obtain ⟨_, htxs, hcommitted⟩ := Db.lock_eq_some locked
  obtain ⟨row, hrow⟩ := known
  refine .inr ⟨row, hrow, stale row ?_⟩
  rw [Db.newest_of_unwritten (htxs ▸ htx), hcommitted, hrow]

theorem Progress.pass {rest : List Uuid} (hrun : machine.run s schedule = some u)
    (hj : u.judges j = .claimVisiting (id :: rest))
    (hstep : machine.step u (.claimVisit j) = some t) (ht : t.judges j = .claimVisiting rest)
    (unavailable : Unavailable u j id) (h : Progress s j ids schedule (.claimVisiting (id :: rest))) :
    Progress s j ids (schedule ++ [.claimVisit j]) (.claimVisiting rest) := by
  obtain ⟨passed, rfl, hpassed⟩ := h
  refine ⟨passed ++ [id], by simp, fun id' hid' => ?_⟩
  obtain hid' | hid' := List.mem_append.mp hid'
  · exact (hpassed id' hid').append _
  · cases List.mem_singleton.mp hid'
    exact ⟨schedule, [], u, t, rest, rfl, hrun, hj, hstep, ht, unavailable⟩

theorem JudgeStep.progress {ledger : Ledger} {a : Action} {place : JudgeState}
    {db : Db Session Uuid Row} {events : List Event}
    (move : JudgeStep u j a (u.judges j) place db events) (inv : Inv u ledger) (tidy : Tidy u)
    (hrun : machine.run s schedule = some u) (hstep : machine.step u a = some t)
    (ht : t.judges j = place) (hsame : a ≠ .claimSnapshot j)
    (known : ∀ id ∈ ids, ∃ row, u.db.committed.lookup id = some row)
    (h : Progress s j ids schedule (u.judges j)) : Progress s j ids (schedule ++ [a]) place := by
  have situation := inv.judges j
  generalize hj : u.judges j = before at move situation h
  cases move with
  | claimSnapshot => exact absurd rfl hsame
  | nothing =>
    obtain ⟨passed, rfl, hpassed⟩ := h
    rw [List.append_nil]
    exact fun id hid => (hpassed id hid).append _
  | skip id rest held => exact h.pass hrun hj hstep ht (unavailable_of_lock_none tidy held)
  | pass id rest db locked stale =>
    have hmem : id ∈ ids := by
      obtain ⟨passed, rfl, _⟩ := h
      simp
    exact h.pass hrun hj hstep ht (unavailable_of_stale situation locked stale (known id hmem))
  | select id rest db row locked newest waiting =>
    obtain ⟨passed, rfl, hpassed⟩ := h
    exact ⟨passed, rest, rfl, fun id hid => (hpassed id hid).append _⟩
  | claim id row claimed db newest accepted written =>
    exact (show Progress s j ids schedule (.claimSelected id) from h).append _
  | _ => trivial

theorem progress_step {ledger : Ledger} {a : Action} (inv : Inv u ledger) (tidy : Tidy u)
    (hrun : machine.run s schedule = some u) (hstep : machine.step u a = some t)
    (hsame : a ≠ .claimSnapshot j)
    (known : ∀ id ∈ ids, ∃ row, u.db.committed.lookup id = some row)
    (h : Progress s j ids schedule (u.judges j)) :
    Progress s j ids (schedule ++ [a]) (t.judges j) := by
  cases step_cases hstep with
  | tick elapsed => exact h.append _
  | api n db events move => exact h.append _
  | judge i place db events move =>
    by_cases hi : j = i
    · subst hi
      have ht : (u.after (Function.update u.judges j place) db events).judges j = place :=
        Function.update_self ..
      rw [ht]
      exact move.progress inv tidy hrun hstep ht hsame known h
    · change Progress s j ids _ (Function.update u.judges i place j)
      rw [Function.update_of_ne hi]
      exact h.append _

theorem progress_run (sound : Sound s) (hj : s.judges j = .claimBegun)
    (hsame : .claimSnapshot j ∉ schedule)
    (hrun : machine.run s (.claimSnapshot j :: schedule) = some t) :
    Progress s j (waitingIds (s.db.snapshot (.judge j))) (.claimSnapshot j :: schedule)
      (t.judges j) := by
  induction schedule using List.reverseRecOn generalizing t with
  | nil =>
    obtain ⟨_, hstep, hrest⟩ := machine.run_cons_eq_some.mp hrun
    cases hrest
    simp only [machine, step, claimStep, hj] at hstep
    cases hstep
    change Progress _ _ _ _ (Function.update s.judges j _ j)
    rw [Function.update_self]
    exact ⟨[], rfl, fun _ h => absurd h List.not_mem_nil⟩
  | append_singleton schedule a ih =>
    rw [List.mem_append, List.mem_singleton, not_or] at hsame
    rw [← List.cons_append] at hrun ⊢
    obtain ⟨u, hfront, hstep⟩ := machine.run_concat_eq_some.mp hrun
    obtain ⟨⟨ledger, inv⟩, tidy⟩ := sound_of_run sound hfront
    refine progress_step inv tidy hfront hstep (fun he => hsame.2 he.symm) (fun id hid => ?_)
      (ih hsame.1 hfront)
    obtain ⟨⟨ledger', inv'⟩, _⟩ := sound
    obtain ⟨now, htx⟩ := inv'.situation hj
    obtain ⟨row, hrow, _⟩ := mem_waitingIds.mp hid
    have hcommitted := (Db.newest_of_unwritten htx id).symm.trans hrow
    obtain ⟨row', hrow', _⟩ := inv'.exclusive.kept _ u hfront id row hcommitted
    exact ⟨row', hrow'⟩

end Steps
end Pals.Queue
