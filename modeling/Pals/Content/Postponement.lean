import Pals.Content.Range

/-! What a postponement does: all windows of all students move by one span, and so
does everything that the opening rule makes of them. -/
namespace Pals.Content
open Pals.Library Pals.Library.Time

def Window.postpone (window : Window) (delay : Duration) : Checked Window := do
  return { opensAt := ← window.opensAt.add delay, closesAt := ← window.closesAt.add delay }

def Schedule.postpone (schedule : Schedule) (delay : Duration) : Checked Schedule := do
  let extension ← schedule.extension.mapM (·.postpone delay)
  let group ← schedule.group.mapM (·.postpone delay)
  let offering ← schedule.offering.mapM (·.postpone delay)
  return { schedule with extension, group, offering }

/-- `moved` is the schedule of a student whose windows were all postponed: the window
comes out later, with the length and the extra time it had. -/
structure Postponed (delay : Duration) (student moved : Schedule) : Prop where
  window : ∃ first second, student.window = .ok first ∧ moved.window = .ok second ∧
    Option.Rel (fun w w' => w.postpone delay = .ok w' ∧ w'.length = w.length) first second
  extra : ∀ window ∈ student.governing, ∀ window' ∈ moved.governing, ∀ accommodation,
    Accommodation.extra accommodation window' = accommodation.extra window
  isOpen : ∀ now later, now.add delay = .ok later → moved.isOpen later = student.isOpen now

variable {delay : Duration}

theorem Window.postpone_eq_ok {window later : Window} :
    window.postpone delay = .ok later ↔
      later.opensAt.nanos = window.opensAt.nanos + delay.nanos ∧
      later.closesAt.nanos = window.closesAt.nanos + delay.nanos := by
  unfold postpone
  simp only [bind_eq_ok, SystemTime.add_eq_ok]
  constructor
  · rintro ⟨opens, hopens, closes, hcloses, h⟩
    cases h
    exact ⟨hopens, hcloses⟩
  · rintro ⟨hopens, hcloses⟩
    exact ⟨_, hopens, _, hcloses, rfl⟩

section Window
variable {window later : Window} (h : window.postpone delay = .ok later)
include h

theorem Window.postpone_length : later.length = window.length := by
  obtain ⟨hopens, hcloses⟩ := postpone_eq_ok.mp h
  have hnanos : later.length.nanos = window.length.nanos := by
    rw [length_nanos, length_nanos, hopens, hcloses, add_sub_add_right_eq_sub]
  cases hl : later.length
  cases hw : window.length
  simpa [hl, hw] using hnanos

theorem Window.postpone_nonempty : later.nonempty ↔ window.nonempty := by
  obtain ⟨hopens, hcloses⟩ := postpone_eq_ok.mp h
  rw [nonempty, nonempty, hopens, hcloses, add_lt_add_iff_right]

theorem Window.postpone_contains {now moment : SystemTime} (hadd : now.add delay = .ok moment) :
    later.contains moment = window.contains now := by
  obtain ⟨hopens, hcloses⟩ := postpone_eq_ok.mp h
  rw [SystemTime.add_eq_ok] at hadd
  rw [Bool.eq_iff_iff, contains_iff, contains_iff, hopens, hcloses, hadd]
  omega

theorem Accommodation.postpone_extra (accommodation : Accommodation) :
    accommodation.extra later = accommodation.extra window := by
  unfold extra
  rw [Window.postpone_length h]

theorem Accommodation.postpone_extraNanos (accommodation : Accommodation) :
    accommodation.extraNanos later = accommodation.extraNanos window := by
  obtain ⟨hopens, hcloses⟩ := Window.postpone_eq_ok.mp h
  unfold extraNanos
  rw [hopens, hcloses, add_sub_add_right_eq_sub]

theorem Accommodation.InRange.of_postpone {accommodation : Accommodation}
    (hrange : accommodation.InRange later) : accommodation.InRange window := by
  obtain ⟨hopens, hcloses⟩ := Window.postpone_eq_ok.mp h
  obtain ⟨hproduct, hclosing⟩ := hrange
  rw [hopens, hcloses, add_sub_add_right_eq_sub] at hproduct
  rw [hcloses, postpone_extraNanos h] at hclosing
  exact ⟨hproduct, by omega⟩

theorem Accommodation.postpone_apply {accommodation : Accommodation} {moved : Window}
    (hmoved : accommodation.apply later = .ok moved) :
    ∃ resolved, accommodation.apply window = .ok resolved ∧
      resolved.postpone delay = .ok moved := by
  have hrange : window.nonempty → accommodation.InRange window := fun hnonempty =>
    .of_postpone h (apply_succeeds.mp ⟨moved, hmoved⟩ ((Window.postpone_nonempty h).mpr hnonempty))
  obtain ⟨resolved, hresolved⟩ := apply_succeeds.mpr hrange
  refine ⟨resolved, hresolved, ?_⟩
  obtain ⟨hempty, rfl⟩ | ⟨hnonempty, hopens, hcloses⟩ := apply_eq_ok hresolved
  · obtain ⟨_, rfl⟩ | ⟨hnonempty, _⟩ := apply_eq_ok hmoved
    · exact h
    · exact absurd ((Window.postpone_nonempty h).mp hnonempty) hempty
  · obtain ⟨hempty, _⟩ | ⟨_, hopens', hcloses'⟩ := apply_eq_ok hmoved
    · exact absurd ((Window.postpone_nonempty h).mpr hnonempty) hempty
    · rw [postpone_extraNanos h] at hcloses'
      rw [Window.postpone_eq_ok] at h ⊢
      omega

end Window

theorem Schedule.postpone_eq_ok {schedule later : Schedule}
    (h : schedule.postpone delay = .ok later) :
    later.applied = schedule.applied ∧
      Option.Rel (fun w w' => w.postpone delay = .ok w') schedule.governing later.governing := by
  rcases schedule with ⟨extension, group, offering, accommodation, mode⟩
  obtain ⟨extension', hextension, h⟩ := bind_eq_ok.mp h
  obtain ⟨group', hgroup, h⟩ := bind_eq_ok.mp h
  obtain ⟨offering', hoffering, h⟩ := bind_eq_ok.mp h
  cases h
  rw [optionMapM_eq_ok] at hextension hgroup hoffering
  refine ⟨rfl, ?_⟩
  unfold governing
  cases hextension with
  | some hwindow => exact .some hwindow
  | none =>
    cases hgroup with
    | some hwindow => exact .some hwindow
    | none => exact hoffering

theorem Schedule.postpone_window {schedule later : Schedule} {second : Option Window}
    (h : schedule.postpone delay = .ok later) (hsecond : later.window = .ok second) :
    ∃ first, schedule.window = .ok first ∧
      Option.Rel (fun w w' => w.postpone delay = .ok w') first second := by
  obtain ⟨happlied, hgoverning⟩ := postpone_eq_ok h
  rw [window_eq, happlied] at hsecond
  rw [window_eq]
  generalize schedule.governing = before, later.governing = after at *
  cases hgoverning with
  | none =>
    cases hsecond
    exact ⟨none, rfl, .none⟩
  | some hwindow =>
    obtain ⟨moved, hmoved, rfl⟩ := map_eq_ok.mp hsecond
    generalize schedule.applied = applied at *
    cases applied with
    | none =>
      cases hmoved
      exact ⟨_, rfl, .some hwindow⟩
    | some accommodation =>
      obtain ⟨resolved, hresolved, hpostpone⟩ := Accommodation.postpone_apply hwindow hmoved
      exact ⟨some resolved, map_eq_ok.mpr ⟨resolved, hresolved, rfl⟩, .some hpostpone⟩

theorem Schedule.postponed {schedule later : Schedule} {second : Option Window}
    (h : schedule.postpone delay = .ok later) (hsecond : later.window = .ok second) :
    Postponed delay schedule later := by
  obtain ⟨first, hfirst, hrel⟩ := postpone_window h hsecond
  refine ⟨⟨first, second, hfirst, hsecond, ?_⟩, ?_, ?_⟩
  · cases hrel with
    | none => exact .none
    | some hpostpone => exact .some ⟨hpostpone, Window.postpone_length hpostpone⟩
  · intro window hwindow window' hwindow' accommodation
    have hgoverning := (postpone_eq_ok h).2
    rw [hwindow, hwindow'] at hgoverning
    cases hgoverning with
    | some hpostpone => exact accommodation.postpone_extra hpostpone
  · intro now moment hadd
    unfold isOpen
    rw [hfirst, hsecond]
    cases hrel with
    | none => rfl
    | some hpostpone =>
      exact congrArg Except.ok (Window.postpone_contains hpostpone hadd)

section Session
variable {students later : List Schedule} (h : students.mapM (·.postpone delay) = .ok later)
include h

theorem closings_postponed {moved : SystemTime} (hmoved : moved ∈ closings later) :
    ∃ instant ∈ closings students, instant.add delay = .ok moved := by
  obtain ⟨student', hmem', window, hwindow, rfl⟩ := hmoved
  obtain ⟨student, hmem, hpostpone⟩ := (mem_mapM h student').mp hmem'
  obtain ⟨first, second, hfirst, hsecond, hrel⟩ := (Schedule.postponed hpostpone hwindow).window
  cases hwindow.symm.trans hsecond
  cases hrel with
  | some hpostpone =>
    have hcloses := (Window.postpone_eq_ok.mp hpostpone.1).2
    exact ⟨_, ⟨student, hmem, _, hfirst, rfl⟩, SystemTime.add_eq_ok.mpr hcloses⟩

variable (hresolved : Resolved later)
include hresolved

theorem postponed_of_mem {student : Schedule} (hmem : student ∈ students) :
    ∃ moved ∈ later, Postponed delay student moved := by
  obtain ⟨moved, hpostpone⟩ := mapM_succeeds.mp ⟨later, h⟩ student hmem
  have hmoved : moved ∈ later := (mem_mapM h moved).mpr ⟨student, hmem, hpostpone⟩
  obtain ⟨second, hsecond⟩ := hresolved moved hmoved
  exact ⟨moved, hmoved, Schedule.postponed hpostpone hsecond⟩

theorem closings_postpone {instant : SystemTime} (hinstant : instant ∈ closings students) :
    ∃ moved ∈ closings later, instant.add delay = .ok moved := by
  obtain ⟨student, hmem, window, hwindow, rfl⟩ := hinstant
  obtain ⟨moved, hmoved, hpostponed⟩ := postponed_of_mem h hresolved hmem
  obtain ⟨first, second, hfirst, hsecond, hrel⟩ := hpostponed.window
  cases hwindow.symm.trans hfirst
  cases hrel with
  | some hpostpone =>
    have hcloses := (Window.postpone_eq_ok.mp hpostpone.1).2
    exact ⟨_, ⟨moved, hmoved, _, hsecond, rfl⟩, SystemTime.add_eq_ok.mpr hcloses⟩

theorem SessionEnd.postpone {first second : Option SystemTime}
    (hfirst : SessionEnd students first) (hsecond : SessionEnd later second) :
    Option.Rel (fun instant moved => instant.add delay = .ok moved) first second := by
  cases first with
  | none =>
    cases second with
    | none => exact .none
    | some moved =>
      obtain ⟨instant, hinstant, _⟩ := closings_postponed h hsecond.1
      exact absurd hinstant (hfirst.notMem instant)
  | some instant =>
    obtain ⟨later', hlater', hadd⟩ := closings_postpone h hresolved hfirst.1
    cases second with
    | none => exact absurd hlater' (hsecond.notMem later')
    | some moved =>
      obtain ⟨instant', hinstant', hadd'⟩ := closings_postponed h hsecond.1
      have hle : instant'.nanos ≤ instant.nanos := hfirst.2 hinstant'
      have hle' : later'.nanos ≤ moved.nanos := hsecond.2 hlater'
      rw [SystemTime.add_eq_ok] at hadd hadd'
      exact .some (SystemTime.add_eq_ok.mpr (by omega))

end Session

/-- A postponement moves every window, every answer about an instant and the end of
the session by the same span. -/
theorem postponement_moves_everyone (delay : Duration) (students later : List Schedule)
    (h : students.mapM (·.postpone delay) = .ok later) (hresolved : Resolved later) :
    List.Forall₂ (Postponed delay) students later ∧
    ∃ first second, sessionClosesAt students = .ok first ∧ sessionClosesAt later = .ok second ∧
      Option.Rel (fun instant moved => instant.add delay = .ok moved) first second := by
  have hstudents : Resolved students := by
    intro student hmem
    obtain ⟨_, _, hpostponed⟩ := postponed_of_mem h hresolved hmem
    obtain ⟨first, _, hfirst, _⟩ := hpostponed.window
    exact ⟨first, hfirst⟩
  obtain ⟨first, hfirst⟩ := sessionClosesAt_total hstudents
  obtain ⟨second, hsecond⟩ := sessionClosesAt_total hresolved
  refine ⟨?_, first, second, hfirst, hsecond, SessionEnd.postpone h hresolved
    (sessionClosesAt_eq_ok.mp hfirst).2 (sessionClosesAt_eq_ok.mp hsecond).2⟩
  obtain ⟨hlength, hpairs⟩ := List.forall₂_iff_zip.mp (mapM_eq_ok.mp h)
  refine List.forall₂_iff_zip.mpr ⟨hlength, fun hpair => ?_⟩
  obtain ⟨window, hwindow⟩ := hresolved _ (List.of_mem_zip hpair).2
  exact Schedule.postponed (hpairs hpair) hwindow

def delayedStudent : Schedule := { groupStudent with group := some (between 160 260) }

def delayedAccommodatedStudent : Schedule :=
  { accommodatedStudent with group := some (between 160 260) }

theorem postponement_moves_everyone_one_minute :
    sessionClosesAt [groupStudent, accommodatedStudent] = .ok (some (.second 250)) ∧
      sessionClosesAt [delayedStudent, delayedAccommodatedStudent] = .ok (some (.second 310)) ∧
      delayedAccommodatedStudent.isOpen (.second 309) = accommodatedStudent.isOpen (.second 249) := by
  obtain ⟨hall, _⟩ := postponement_moves_everyone ⟨60 * nanosPerSec, by decide⟩
    [groupStudent, accommodatedStudent] [delayedStudent, delayedAccommodatedStudent] (by decide)
    (fun moved hmoved => by
      simp only [List.mem_cons, List.not_mem_nil, or_false] at hmoved
      obtain rfl | rfl := hmoved
      · exact ⟨_, rfl⟩
      · exact ⟨_, rfl⟩)
  refine ⟨by decide, by decide, ?_⟩
  cases hall with
  | cons _ hrest =>
    cases hrest with
    | cons hlast _ => exact hlast.isOpen _ _ (by decide)

end Pals.Content
