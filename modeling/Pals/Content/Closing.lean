import Pals.Content.Session

/-! Whom a session stays open for. The greatest closing instant is taken over all
windows, those that never open included. -/
namespace Pals.Content
open Pals.Library Pals.Library.Time

def Schedule.WorksUntil (student : Schedule) (instant : SystemTime) : Prop :=
  ∃ window, student.window = .ok (some window) ∧ window.nonempty ∧ window.closesAt = instant

def Schedule.Idle (student : Schedule) : Prop :=
  ∃ window, student.window = .ok (some window) ∧ ¬window.nonempty

/-- The session stays open for someone, and idle students do not count. -/
structure Tight (students : List Schedule) (closing : Option SystemTime) : Prop where
  someone : ∀ instant ∈ closing, ∀ now < instant, ∃ student ∈ students, ∃ later,
    now ≤ later ∧ later < instant ∧ student.isOpen later = .ok true
  nobody : (∀ student ∈ students, ∀ now, student.isOpen now ≠ .ok true) → closing = none
  idle : ∀ before student after, students = before ++ student :: after → student.Idle →
    sessionClosesAt (before ++ after) = .ok closing

def Schedule.lastNanos (schedule : Schedule) (window : Window) : Int :=
  match schedule.applied with
  | none => window.closesAt.nanos
  | some accommodation =>
      window.closesAt.nanos + accommodation.startShift.nanos + accommodation.extraNanos window

/-- Whoever has an empty or reversed window, some other student has one that opens and
lasts until its closing instant or longer. -/
def LastWorks (students : List Schedule) : Prop :=
  ∀ student ∈ students, ∀ window ∈ student.governing, ¬window.nonempty →
    ∃ worker ∈ students, ∃ opened ∈ worker.governing, opened.nonempty ∧
      window.closesAt.nanos ≤ worker.lastNanos opened

/-- A window that never opens resolves to itself, and one that opens to one that
does and that ends where it should. -/
theorem Schedule.window_eq_some {schedule : Schedule} {resolved : Window}
    (h : schedule.window = .ok (some resolved)) :
    ∃ window, schedule.governing = some window ∧
      ((¬window.nonempty ∧ resolved = window) ∨
        (window.nonempty ∧ resolved.nonempty ∧
          resolved.closesAt.nanos = schedule.lastNanos window)) := by
  rw [window_eq] at h
  cases hgov : schedule.governing with
  | none =>
    rw [hgov] at h
    cases h
  | some window =>
    rw [hgov] at h
    obtain ⟨_, hresolved, hsome⟩ := map_eq_ok.mp h
    cases hsome
    refine ⟨window, rfl, ?_⟩
    unfold lastNanos
    cases happ : schedule.applied with
    | none =>
      rw [happ] at hresolved
      cases hresolved
      by_cases hnonempty : resolved.nonempty
      · exact .inr ⟨hnonempty, hnonempty, rfl⟩
      · exact .inl ⟨hnonempty, rfl⟩
    | some accommodation =>
      rw [happ] at hresolved
      obtain hempty | ⟨hnonempty, hopens, hcloses⟩ := Accommodation.apply_eq_ok hresolved
      · exact .inl hempty
      · refine .inr ⟨hnonempty, ?_, hcloses⟩
        unfold Window.nonempty at hnonempty ⊢
        omega

theorem Schedule.WorksUntil.governing {student : Schedule} {last : SystemTime}
    (h : student.WorksUntil last) :
    ∃ window ∈ student.governing, window.nonempty ∧ last.nanos = student.lastNanos window := by
  obtain ⟨resolved, hwindow, hnonempty, rfl⟩ := h
  obtain ⟨window, hgov, ⟨hempty, rfl⟩ | ⟨hopens, _, hcloses⟩⟩ := window_eq_some hwindow
  · exact absurd hnonempty hempty
  · exact ⟨window, hgov, hopens, hcloses⟩

theorem Schedule.worksUntil_of_governing {student : Schedule} {window : Window}
    (h : ∃ result, student.window = .ok result) (hgov : student.governing = some window)
    (hnonempty : window.nonempty) :
    ∃ last, student.WorksUntil last ∧ last.nanos = student.lastNanos window := by
  obtain ⟨result, hwindow⟩ := h
  obtain ⟨hnone, _⟩ | ⟨_, resolved, _, rfl, _⟩ := window_eq_ok hwindow
  · cases hnone.symm.trans hgov
  · obtain ⟨_, hgov', hresolved⟩ := window_eq_some hwindow
    cases hgov.symm.trans hgov'
    obtain ⟨hempty, _⟩ | ⟨_, hopens, hcloses⟩ := hresolved
    · exact absurd hnonempty hempty
    · exact ⟨resolved.closesAt, ⟨resolved, hwindow, hopens, rfl⟩, hcloses⟩

theorem Schedule.isOpen_of_window {schedule : Schedule} {window : Window} {now : SystemTime}
    (h : schedule.window = .ok (some window)) :
    schedule.isOpen now = .ok true ↔ window.contains now = true := by
  rw [isOpen_eq_ok]
  constructor
  · rintro ⟨_, hwindow, hopen⟩
    cases h.symm.trans hwindow
    exact hopen
  · exact fun hopen => ⟨_, h, hopen⟩

theorem Schedule.WorksUntil.of_isOpen {student : Schedule} {now : SystemTime}
    (h : student.isOpen now = .ok true) : ∃ last, student.WorksUntil last ∧ now < last := by
  obtain ⟨result, hwindow, hopen⟩ := isOpen_eq_ok.mp h
  cases result with
  | none => cases hopen
  | some window =>
    have hcontains := (window.contains_iff now).mp hopen
    exact ⟨_, ⟨window, hwindow, hcontains.1.trans_lt hcontains.2, rfl⟩, hcontains.2⟩

theorem Schedule.WorksUntil.isOpen {student : Schedule} {last now : SystemTime}
    (h : student.WorksUntil last) (hnow : now < last) :
    ∃ later, now ≤ later ∧ later < last ∧ student.isOpen later = .ok true := by
  obtain ⟨window, hwindow, hnonempty, rfl⟩ := h
  have hlater : max now window.opensAt < window.closesAt := max_lt hnow hnonempty
  refine ⟨max now window.opensAt, le_max_left _ _, hlater, ?_⟩
  rw [isOpen_of_window hwindow, Window.contains_iff]
  exact ⟨le_max_right now window.opensAt, hlater⟩

theorem Schedule.WorksUntil.mem_closings {students : List Schedule} {worker : Schedule}
    {last : SystemTime} (h : worker.WorksUntil last) (hmem : worker ∈ students) :
    last ∈ closings students := by
  obtain ⟨window, hwindow, _, hclose⟩ := h
  exact ⟨worker, hmem, window, hwindow, hclose⟩

theorem LastWorks.worker {students : List Schedule} {student : Schedule} {window : Window}
    (h : LastWorks students) (hresolved : Resolved students) (hmem : student ∈ students)
    (hgov : student.governing = some window) (hempty : ¬window.nonempty) :
    ∃ worker ∈ students, ∃ last, worker.WorksUntil last ∧ window.closesAt ≤ last := by
  obtain ⟨worker, hworker, opened, hopened, hnonempty, hle⟩ := h student hmem window hgov hempty
  obtain ⟨last, hlast, hnanos⟩ :=
    Schedule.worksUntil_of_governing (hresolved worker hworker) hopened hnonempty
  refine ⟨worker, hworker, last, hlast, ?_⟩
  rw [SystemTime.le_def, hnanos]
  exact hle

theorem LastWorks.attained {students : List Schedule} {closing : SystemTime}
    (h : LastWorks students) (hresolved : Resolved students)
    (hend : SessionEnd students (some closing)) :
    ∃ worker ∈ students, worker.WorksUntil closing := by
  obtain ⟨⟨student, hmem, resolved, hwindow, hclose⟩, hgreatest⟩ := hend
  obtain ⟨window, hgov, ⟨hempty, rfl⟩ | ⟨_, hnonempty, _⟩⟩ := Schedule.window_eq_some hwindow
  · obtain ⟨worker, hworker, last, hlast, hle⟩ := h.worker hresolved hmem hgov hempty
    have hsame : last = closing :=
      le_antisymm (hgreatest (hlast.mem_closings hworker)) (hclose ▸ hle)
    exact ⟨worker, hworker, hsame ▸ hlast⟩
  · exact ⟨student, hmem, resolved, hwindow, hnonempty, hclose⟩

theorem append_subset_append_cons (before after : List Schedule) (student : Schedule) :
    before ++ after ⊆ before ++ student :: after :=
  ((List.sublist_cons_self student after).append_left before).subset

theorem SessionEnd.remove_idle {before after : List Schedule} {student : Schedule}
    {closing : Option SystemTime} (h : LastWorks (before ++ student :: after))
    (hresolved : Resolved (before ++ student :: after))
    (hend : SessionEnd (before ++ student :: after) closing) (hidle : student.Idle) :
    SessionEnd (before ++ after) closing := by
  have hsubset : closings (before ++ after) ⊆ closings (before ++ student :: after) :=
    fun instant ⟨s, hs, hwindow⟩ => ⟨s, append_subset_append_cons _ _ _ hs, hwindow⟩
  cases closing with
  | none =>
    have hnone : closings (before ++ student :: after) = ∅ := hend
    exact Set.subset_empty_iff.mp (hnone ▸ hsubset)
  | some instant =>
    obtain ⟨worker, hworker, hlast⟩ := h.attained hresolved hend
    refine ⟨hlast.mem_closings ?_, fun other hother => hend.2 (hsubset hother)⟩
    have hne : worker ≠ student := by
      rintro rfl
      obtain ⟨window, hwindow, hempty⟩ := hidle
      obtain ⟨_, hwindow', hnonempty, _⟩ := hlast
      cases hwindow.symm.trans hwindow'
      exact hempty hnonempty
    simp only [List.mem_append, List.mem_cons] at hworker ⊢
    exact hworker.imp_right fun hafter => hafter.resolve_left hne

theorem Tight.attained {students : List Schedule} {closing : SystemTime}
    (h : Tight students (some closing)) (hend : SessionEnd students (some closing)) :
    ∃ worker ∈ students, worker.WorksUntil closing := by
  have hopen : ∃ student ∈ students, ∃ now, student.isOpen now = .ok true := by
    by_contra hne
    simp only [not_exists, not_and] at hne
    cases h.nobody hne
  obtain ⟨student, hmem, now, hnow⟩ := hopen
  obtain ⟨first, hfirst, hlt⟩ := Schedule.WorksUntil.of_isOpen hnow
  have hbefore : now.nanos < closing.nanos := hlt.trans_le (hend.2 (hfirst.mem_closings hmem))
  have hlower := now.lower
  have hupper := closing.upper
  obtain ⟨worker, hworker, later, hle, _, hlater⟩ := h.someone closing rfl
    ⟨closing.nanos - 1, by omega, by omega⟩ (sub_one_lt closing.nanos)
  obtain ⟨last, hlast, hafter⟩ := Schedule.WorksUntil.of_isOpen hlater
  have hsame : last = closing := by
    apply le_antisymm (hend.2 (hlast.mem_closings hworker))
    rw [SystemTime.le_def] at hle ⊢
    rw [SystemTime.lt_def] at hafter
    simp only at hle
    omega
  exact ⟨worker, hworker, hsame ▸ hlast⟩

/-- A session stays open for someone exactly when no empty or reversed window closes
after every student who works. -/
theorem session_tight_iff {students : List Schedule} {closing : Option SystemTime}
    (h : sessionClosesAt students = .ok closing) : Tight students closing ↔ LastWorks students := by
  obtain ⟨hresolved, hend⟩ := sessionClosesAt_eq_ok.mp h
  constructor
  · intro htight student hmem window hgov hempty
    have hclosing : window.closesAt ∈ closings students :=
      ⟨student, hmem, window, Schedule.window_of_empty hgov hempty, rfl⟩
    obtain ⟨last, hlast, hle⟩ := hend.bound hclosing
    cases hlast
    obtain ⟨worker, hworker, hworks⟩ := htight.attained hend
    obtain ⟨opened, hopened, hnonempty, hnanos⟩ := hworks.governing
    exact ⟨worker, hworker, opened, hopened, hnonempty, hnanos ▸ hle⟩
  · intro hworks
    refine ⟨?_, ?_, ?_⟩
    · intro instant hinstant now hnow
      cases hinstant
      obtain ⟨worker, hworker, hlast⟩ := hworks.attained hresolved hend
      exact ⟨worker, hworker, hlast.isOpen hnow⟩
    · intro hnobody
      cases closing with
      | none => rfl
      | some instant =>
        obtain ⟨worker, hworker, window, hwindow, hnonempty, rfl⟩ := hworks.attained hresolved hend
        obtain ⟨later, _, _, hlater⟩ :=
          Schedule.WorksUntil.isOpen ⟨window, hwindow, hnonempty, rfl⟩ hnonempty
        exact absurd hlater (hnobody worker hworker later)
    · rintro before student after rfl hidle
      exact sessionClosesAt_eq_ok.mpr ⟨fun s hs => hresolved s (append_subset_append_cons _ _ _ hs),
        hend.remove_idle hworks hresolved hidle⟩

/-- A student whose extension was entered the wrong way round. -/
def reversedStudent : Schedule := { groupStudent with extension := some (between 400 300) }

theorem session_tight_accommodated : Tight [groupStudent, accommodatedStudent] (some (.second 250)) := by
  refine (session_tight_iff (by decide)).mpr ?_
  intro student hmem window hgov hempty
  simp only [List.mem_cons, List.not_mem_nil, or_false] at hmem
  obtain rfl | rfl := hmem <;>
  · cases hgov
    exact absurd (by decide) hempty

theorem session_stays_open_for_nobody :
    sessionClosesAt [groupStudent, reversedStudent] = .ok (some (.second 300)) ∧
      ¬Tight [groupStudent, reversedStudent] (some (.second 300)) := by
  refine ⟨by decide, fun htight => ?_⟩
  obtain ⟨student, hmem, later, hle, hlt, hopen⟩ := htight.someone _ rfl (.second 200) (by decide)
  obtain ⟨result, hwindow, hcontains⟩ := Schedule.isOpen_eq_ok.mp hopen
  simp only [List.mem_cons, List.not_mem_nil, or_false] at hmem
  obtain rfl | rfl := hmem
  · cases hwindow
    exact absurd hle (not_le.mpr ((Window.contains_iff _ _).mp hcontains).2)
  · cases hwindow
    have hnever := (Window.contains_iff _ _).mp hcontains
    exact absurd (hnever.1.trans_lt hnever.2) (by decide)

end Pals.Content
