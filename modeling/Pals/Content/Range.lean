import Pals.Content.Session

/-! When the opening rule returns a value, for one student and for a session. -/
namespace Pals.Content
open Pals.Library Pals.Library.Time

theorem sessionClosesAt_succeeds {students : List Schedule} :
    (∃ closing, sessionClosesAt students = .ok closing) ↔
      ∀ student ∈ students, student.InRange := by
  constructor
  · rintro ⟨closing, h⟩ student hmem
    exact Schedule.window_succeeds.mp ((sessionClosesAt_eq_ok.mp h).1 student hmem)
  · exact fun h => sessionClosesAt_total fun student hmem =>
      Schedule.window_succeeds.mpr (h student hmem)

/-- The rule returns a value, for one student and for a session, exactly when the
arithmetic of each accommodation that counts is in range. -/
theorem opening_rule_returns_iff (schedule : Schedule) (now : SystemTime)
    (students : List Schedule) :
    ((∃ window, schedule.window = .ok window) ↔ schedule.InRange) ∧
    ((∃ answer, schedule.isOpen now = .ok answer) ↔ schedule.InRange) ∧
    ((∃ closing, sessionClosesAt students = .ok closing) ↔
      ∀ student ∈ students, student.InRange) :=
  ⟨Schedule.window_succeeds, Schedule.isOpen_succeeds, sessionClosesAt_succeeds⟩

def endlessStudent : Schedule :=
  { groupStudent with
    accommodation := some ⟨.fixed ⟨durationLimit - 1, by decide⟩, .zero⟩
    modeAppliesAccommodation := true }

/-- Three percent more of half the time line: the result would fit, the product does
not. -/
def percentStudent : Schedule :=
  { Schedule.closed with
    group := some ⟨⟨-(instantLimit / 2), by decide, by decide⟩,
      ⟨instantLimit / 2, by decide, by decide⟩⟩
    accommodation := some ⟨.percent 3, .zero⟩
    modeAppliesAccommodation := true }

theorem opening_rule_overflows :
    endlessStudent.window = .error .overflow ∧
      endlessStudent.isOpen (.second 150) = .error .overflow ∧
      sessionClosesAt [groupStudent, endlessStudent] = .error .overflow ∧
      percentStudent.window = .error .overflow := by
  decide

end Pals.Content
