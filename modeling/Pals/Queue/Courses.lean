import Pals.Judge.Confinement
import Pals.Queue.Jobs

/-! Whose assessment a row of the queue is judged by. The path that the judge makes
of a row has no place for its course. -/
namespace Pals.Queue
open Pals.Library Pals.Contracts Pals.Judge

def casesDir (content : Path) (row : Row) : Path := assessmentOf content row.exercise.value

/-- The second host differs from the first in the files at and below `dir` only, as
far as any path outside shows. Hosts are not so when a link outside leads to what is
different there. -/
structure DiffersWithin (dir : Path) (host other : Host) : Prop where
  docker : host.docker = other.docker
  content : host.content = other.content
  files : ∀ path, ¬path.Within dir → ¬dir.Within path →
    host.files.stat path = other.files.stat path

/-- The cases of two rows come from separate paths below the content, and a difference
that shows at the second path only is nothing to the first row. This is about paths:
links below the content may still lead both of them to one directory. -/
structure KeptApart (content : Path) (first second : Row) : Prop where
  below : ∀ row ∈ [first, second], ∃ names : List Name, names ≠ [] ∧
    casesDir content row = ⟨content.absolute, content.components ++ names.map .name⟩
  different : casesDir content first ≠ casesDir content second
  outside : ¬(casesDir content first).Within (casesDir content second) ∧
    ¬(casesDir content second).Within (casesDir content first)
  independent : ∀ host other id, host.content = content →
    DiffersWithin (casesDir content second) host other →
    judge host (jobOf id first.toJobRow) = judge other (jobOf id first.toJobRow)

theorem casesDir_eq (content : Path) (row : Row) : casesDir content row =
    ⟨content.absolute, content.components ++ (assessmentNames row.exercise).map .name⟩ :=
  assessmentOf_eq content row.exercise

/-- Directories of cases are equally deep, so one lies in another only if they are the
same, and then their exercises have one name. -/
theorem exercise_eq_of_within {content : Path} {first second : Row}
    (h : (casesDir content first).Within (casesDir content second)) :
    first.exercise = second.exercise := by
  rw [casesDir_eq, casesDir_eq] at h
  have heq := h.2.eq_of_length (by simp [assessmentNames])
  simp only [assessmentNames, List.map_cons, List.append_cancel_left_eq, List.cons.injEq,
    Component.name.injEq] at heq
  obtain ⟨_, hexercise, _⟩ := heq
  cases hfirst : first.exercise
  cases hsecond : second.exercise
  simpa [hfirst, hsecond] using (utf8_injective hexercise).symm

theorem judge_of_differsWithin {host other : Host} {dir : Path} {job : Job}
    (h : DiffersWithin dir host other)
    (hinside : ¬(assessmentOf host.content job.exercise).Within dir)
    (houtside : ¬dir.Within (assessmentOf host.content job.exercise)) :
    judge host job = judge other job :=
  judge_congr h.docker h.content (h.files _ hinside houtside)

/-- Two rows are kept apart exactly when their exercises have different names,
whatever their courses. -/
theorem keptApart_iff_exercise_ne (content : Path) (first second : Row) :
    KeptApart content first second ↔ first.exercise ≠ second.exercise := by
  constructor
  · intro hapart hsame
    apply hapart.different
    rw [casesDir, casesDir, hsame]
  · intro hne
    have houtside : ¬(casesDir content first).Within (casesDir content second) :=
      fun hwithin => hne (exercise_eq_of_within hwithin)
    have houtside' : ¬(casesDir content second).Within (casesDir content first) :=
      fun hwithin => hne (exercise_eq_of_within hwithin).symm
    refine ⟨fun row _ => ⟨_, List.cons_ne_nil _ _, casesDir_eq content row⟩, fun hsame => ?_,
      ⟨houtside, houtside'⟩, ?_⟩
    · exact houtside ⟨congrArg Path.absolute hsame, hsame ▸ List.prefix_refl _⟩
    · rintro host other id rfl hdiffers
      exact judge_of_differsWithin hdiffers houtside houtside'

def sumRow (course : Identifier) : Row where
  contract := 1
  course := course
  exercise := sum
  languagePack := python
  source := "pass"
  state := .waiting
  enqueuedAt := 0
  claimedAt := none
  finishedAt := none
  result := none
  valid := fun check => by cases check <;> rfl

def log791 : Identifier := ⟨"log791", by decide⟩

theorem sumRow_not_keptApart :
    (sumRow log200).course ≠ (sumRow log791).course ∧
      ¬KeptApart ⟨true, [.name (utf8 "content")]⟩ (sumRow log200) (sumRow log791) := by
  refine ⟨by decide, fun hapart => hapart.different ?_⟩
  rfl

end Pals.Queue
