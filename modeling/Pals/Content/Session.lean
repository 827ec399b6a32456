import Mathlib.Order.Bounds.Basic
import Pals.Content.OpeningRule

/-! The end of a session is the greatest closing instant among the windows of its
students. Everything else about it follows from that description, which does not
mention the order in which students are listed. -/
namespace Pals.Content
open Pals.Library Pals.Library.Time

def Resolved (students : List Schedule) : Prop :=
  ∀ student ∈ students, ∃ window, student.window = .ok window

def closings (students : List Schedule) : Set SystemTime :=
  { instant | ∃ student ∈ students, ∃ window,
      student.window = .ok (some window) ∧ window.closesAt = instant }

def SessionEnd (students : List Schedule) : Option SystemTime → Prop
  | none => closings students = ∅
  | some instant => IsGreatest (closings students) instant

theorem SessionEnd.notMem {students : List Schedule} (h : SessionEnd students none)
    (instant : SystemTime) : instant ∉ closings students := by
  rw [show closings students = ∅ from h]
  exact Set.notMem_empty instant

theorem SessionEnd.bound {students : List Schedule} {closing : Option SystemTime}
    (h : SessionEnd students closing) {instant : SystemTime}
    (hmem : instant ∈ closings students) : ∃ last ∈ closing, instant ≤ last := by
  cases closing with
  | none => exact absurd hmem (h.notMem instant)
  | some last => exact ⟨last, rfl, h.2 hmem⟩

theorem SessionEnd.unique {students : List Schedule} {first second : Option SystemTime}
    (left : SessionEnd students first) (right : SessionEnd students second) : first = second := by
  cases first with
  | none =>
    cases second with
    | none => rfl
    | some instant => exact absurd right.1 (left.notMem instant)
  | some instant =>
    cases second with
    | none => exact absurd left.1 (right.notMem instant)
    | some other => exact congrArg some (IsGreatest.unique left right)

theorem max?_sessionEnd {students : List Schedule} {instants : List SystemTime}
    (h : ∀ instant, instant ∈ instants ↔ instant ∈ closings students) :
    SessionEnd students instants.max? := by
  cases hmax : instants.max? with
  | none =>
    rw [List.max?_eq_none_iff] at hmax
    ext instant
    simp [← h, hmax]
  | some instant =>
    rw [List.max?_eq_some_iff] at hmax
    exact ⟨(h _).mp hmax.1, fun other hother => hmax.2 _ ((h _).mpr hother)⟩

theorem mem_resolved_closings {students : List Schedule} {windows : List (Option Window)}
    (h : students.mapM Schedule.window = .ok windows) (instant : SystemTime) :
    (instant ∈ windows.filterMap fun window => window.map Window.closesAt) ↔
      instant ∈ closings students := by
  simp only [List.mem_filterMap, mem_mapM h, Option.map_eq_some_iff]
  constructor
  · rintro ⟨_, ⟨student, hmem, hwindow⟩, window, rfl, hclose⟩
    exact ⟨student, hmem, window, hwindow, hclose⟩
  · rintro ⟨student, hmem, window, hwindow, hclose⟩
    exact ⟨some window, ⟨student, hmem, hwindow⟩, window, rfl, hclose⟩

/-- `session_closes_at` answers exactly when no window overflows, and then with
the greatest closing instant. -/
theorem sessionClosesAt_eq_ok {students : List Schedule} {closing : Option SystemTime} :
    sessionClosesAt students = .ok closing ↔ Resolved students ∧ SessionEnd students closing := by
  unfold sessionClosesAt
  rw [bind_eq_ok]
  constructor
  · rintro ⟨windows, hwindows, h⟩
    cases h
    exact ⟨mapM_succeeds.mp ⟨_, hwindows⟩, max?_sessionEnd (mem_resolved_closings hwindows)⟩
  · rintro ⟨hresolved, hend⟩
    obtain ⟨windows, hwindows⟩ := mapM_succeeds.mpr hresolved
    refine ⟨windows, hwindows, congrArg Except.ok ?_⟩
    exact (max?_sessionEnd (mem_resolved_closings hwindows)).unique hend

theorem sessionClosesAt_total {students : List Schedule} (h : Resolved students) :
    ∃ closing, sessionClosesAt students = .ok closing := by
  obtain ⟨windows, hwindows⟩ := mapM_succeeds.mpr h
  exact ⟨_, bind_eq_ok.mpr ⟨windows, hwindows, rfl⟩⟩

theorem Resolved.congr {left right : List Schedule} (same : ∀ s, s ∈ left ↔ s ∈ right)
    (h : Resolved left) : Resolved right := fun s hs => h s ((same s).mpr hs)

theorem closings_congr {left right : List Schedule} (same : ∀ s, s ∈ left ↔ s ∈ right) :
    closings left = closings right := by
  ext instant
  simp [closings, same]

theorem closings_append (left right : List Schedule) :
    closings (left ++ right) = closings left ∪ closings right := by
  ext instant
  simp only [closings, List.mem_append, Set.mem_ofPred_eq, Set.mem_union]
  constructor
  · rintro ⟨s, hs | hs, h⟩
    · exact .inl ⟨s, hs, h⟩
    · exact .inr ⟨s, hs, h⟩
  · rintro (⟨s, hs, h⟩ | ⟨s, hs, h⟩)
    · exact ⟨s, .inl hs, h⟩
    · exact ⟨s, .inr hs, h⟩

theorem SessionEnd.congr {left right : List Schedule} {closing : Option SystemTime}
    (same : ∀ s, s ∈ left ↔ s ∈ right) (h : SessionEnd left closing) :
    SessionEnd right closing := by
  cases closing with
  | none => exact (closings_congr same).symm.trans h
  | some instant =>
    change IsGreatest (closings right) instant
    rw [← closings_congr same]
    exact h

theorem SessionEnd.append {left right : List Schedule} {first second : Option SystemTime}
    (hl : SessionEnd left first) (hr : SessionEnd right second) :
    SessionEnd (left ++ right) (first.merge max second) := by
  cases first with
  | none =>
    have hempty : closings left = ∅ := hl
    cases second with
    | none =>
      change closings (left ++ right) = ∅
      rw [closings_append, hempty, show closings right = ∅ from hr, Set.empty_union]
    | some instant =>
      change IsGreatest (closings (left ++ right)) instant
      rw [closings_append, hempty, Set.empty_union]
      exact hr
  | some instant =>
    cases second with
    | none =>
      change IsGreatest (closings (left ++ right)) instant
      rw [closings_append, show closings right = ∅ from hr, Set.union_empty]
      exact hl
    | some other =>
      change IsGreatest (closings (left ++ right)) (max instant other)
      rw [closings_append]
      exact IsGreatest.union hl hr

theorem SessionEnd.closed {students : List Schedule} {closing : Option SystemTime}
    (hresolved : Resolved students) (hend : SessionEnd students closing) {now : SystemTime}
    (past : ∀ instant ∈ closing, instant ≤ now) {student : Schedule}
    (hmem : student ∈ students) : student.isOpen now = .ok false := by
  obtain ⟨result, hwindow⟩ := hresolved student hmem
  rw [Schedule.isOpen_eq_ok]
  refine ⟨result, hwindow, ?_⟩
  cases result with
  | none => rfl
  | some window =>
    have hclosing : window.closesAt ∈ closings students := ⟨student, hmem, window, hwindow, rfl⟩
    obtain ⟨last, hlast, hbound⟩ := hend.bound hclosing
    have hle : window.closesAt ≤ now := hbound.trans (past last hlast)
    rw [SystemTime.le_def] at hle
    rw [Option.any_some, Bool.eq_false_iff, Ne, Window.contains_iff]
    omega

def groupStudent : Schedule := { Schedule.closed with group := some (between 100 200) }

/-- A session is never closed while a student can still work, and its end depends
on the set of its students only. -/
theorem session_outlasts_students (students : List Schedule) (closing : Option SystemTime)
    (h : sessionClosesAt students = .ok closing) :
    (∀ now, (∀ instant ∈ closing, instant ≤ now) →
      ∀ student ∈ students, student.isOpen now = .ok false) ∧
    (∀ others, (∀ s, s ∈ others ↔ s ∈ students) → sessionClosesAt others = .ok closing) ∧
    (∀ left right, students = left ++ right → ∃ first second,
      sessionClosesAt left = .ok first ∧ sessionClosesAt right = .ok second ∧
        closing = first.merge max second) ∧
    (∀ student later, sessionClosesAt (student :: students) = .ok later →
      ∀ instant ∈ closing, ∃ last ∈ later, instant ≤ last) := by
  obtain ⟨hresolved, hend⟩ := sessionClosesAt_eq_ok.mp h
  refine ⟨fun now past student => hend.closed hresolved past, ?_, ?_, ?_⟩
  · intro others same
    have same' := fun s => (same s).symm
    exact sessionClosesAt_eq_ok.mpr ⟨hresolved.congr same', hend.congr same'⟩
  · rintro left right rfl
    have hl : Resolved left := fun s hs => hresolved s (List.mem_append_left _ hs)
    have hr : Resolved right := fun s hs => hresolved s (List.mem_append_right _ hs)
    obtain ⟨first, hfirst⟩ := sessionClosesAt_total hl
    obtain ⟨second, hsecond⟩ := sessionClosesAt_total hr
    refine ⟨first, second, hfirst, hsecond, hend.unique ?_⟩
    exact (sessionClosesAt_eq_ok.mp hfirst).2.append (sessionClosesAt_eq_ok.mp hsecond).2
  · intro student later hlater instant hinstant
    cases hinstant
    have hlast := (sessionClosesAt_eq_ok.mp hlater).2
    have hmem : instant ∈ closings (student :: students) := by
      obtain ⟨s, hs, hw⟩ := hend.1
      exact ⟨s, List.mem_cons_of_mem _ hs, hw⟩
    exact hlast.bound hmem

def accommodatedStudent : Schedule :=
  { groupStudent with accommodation := some ⟨.percent 50, .zero⟩, modeAppliesAccommodation := true }

theorem session_outlasts_students_accommodated :
    sessionClosesAt [groupStudent, accommodatedStudent] = .ok (some (.second 250)) ∧
      accommodatedStudent.isOpen (.second 250) = .ok false := by
  have h : sessionClosesAt [groupStudent, accommodatedStudent] = .ok (some (.second 250)) := by decide
  obtain ⟨closed, _⟩ := session_outlasts_students _ _ h
  exact ⟨h, closed _ (fun _ hinstant => by cases hinstant; exact le_rfl) _ (by simp)⟩

end Pals.Content
