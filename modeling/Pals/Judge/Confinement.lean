import Pals.Judge.Judging

/-! Where the cases of an exercise are read from, in content that may hold symbolic
links. -/
namespace Pals.Judge
open Pals.Library Pals.Contracts

def assessmentNames (exercise : Identifier) : List Name :=
  [utf8 "exercises", utf8 exercise.value, utf8 "assessment"]

/-- The bytes of a regular file of the exercise's assessment directory, no link
having been followed below the content. -/
def IsOwnFile (fs : FileSystem) (base : Location) (exercise : Identifier) (bytes : Bytes) : Prop :=
  ∃ name, fs.root.get (base ++ assessmentNames exercise ++ [name]) = some (.file true bytes)

def Confined (fs : FileSystem) (content : Path) (exercise : Identifier) : Prop :=
  ∀ cases, readCases fs (assessmentOf content exercise.value) = .ok cases →
    ∃ base, fs.resolve content = .ok base ∧ ∀ case ∈ cases,
      IsOwnFile fs base exercise case.input ∧ IsOwnFile fs base exercise case.expected

/-- Below the content, `exercises`, the exercise's directory or its `assessment` is
a symbolic link, and the path leads to usable cases all the same. -/
def LedAway (fs : FileSystem) (content : Path) (exercise : Identifier) : Prop :=
  ∃ base node, fs.resolve content = .ok base ∧
    (∃ front target, front <+: assessmentNames exercise ∧ front ≠ [] ∧
      fs.root.get (base ++ front) = some (.link target)) ∧
    fs.stat (assessmentOf content exercise.value) = .ok node ∧ HoldsCases node

theorem assessmentOf_eq (content : Path) (exercise : Identifier) :
    assessmentOf content exercise.value =
      ⟨content.absolute, content.components ++ (assessmentNames exercise).map .name⟩ := by
  have hexercises : content.join (utf8 "exercises") = content.entry (utf8 "exercises") :=
    join_of_identifierByte _ (by decide) (List.all_eq_true.mp (by decide))
  rw [assessmentOf, hexercises, exercise.join_eq,
    join_of_identifierByte _ (by decide) (List.all_eq_true.mp (by decide))]
  simp [Path.entry, assessmentNames]

theorem resolve_assessmentOf {fs : FileSystem} {content : Path} {exercise : Identifier}
    {reached : Location} (h : fs.resolve (assessmentOf content exercise.value) = .ok reached) :
    ∃ base left, fs.resolve content = .ok base ∧
      fs.root.walk left base ((assessmentNames exercise).map .name) = .ok reached := by
  have hcontinues := Node.walk_continues fs.root FileSystem.maxLinks
    (if content.absolute then [] else fs.workingDir) content.components
  rw [assessmentOf_eq, FileSystem.resolve] at h
  cases hbase : fs.resolve content with
  | error errno =>
    rw [hcontinues.1 errno hbase] at h
    cases h
  | ok base =>
    obtain ⟨left, _, hrest⟩ := hcontinues.2 base hbase
    exact ⟨base, left, rfl, (hrest _).symm.trans h⟩

/-- Nothing is reached past a link without following it. -/
theorem not_isOwnFile_of_link {fs : FileSystem} {base front : Location} {exercise : Identifier}
    {target : Bytes} (hfront : front <+: assessmentNames exercise)
    (hlink : fs.root.get (base ++ front) = some (.link target)) (bytes : Bytes) :
    ¬IsOwnFile fs base exercise bytes := by
  rintro ⟨name, hfile⟩
  obtain ⟨rest, hrest⟩ := hfront
  rw [← hrest, ← List.append_assoc, List.append_assoc (base ++ front),
    Node.get_past_link hlink (by simp)] at hfile
  cases hfile

/-- The cases of an exercise are its own files exactly when no link leads the judge
to other ones. -/
theorem confined_iff_not_ledAway (fs : FileSystem) (content : Path) (exercise : Identifier) :
    Confined fs content exercise ↔ ¬LedAway fs content exercise := by
  constructor
  · rintro hconfined ⟨base, node, hbase, ⟨front, target, hfront, _, hlink⟩, hstat, hholds⟩
    obtain ⟨cases, hcases⟩ := readCases_succeeds.mpr ⟨node, hstat, hholds⟩
    obtain ⟨_, _, hne, _⟩ := readCases_source hcases
    obtain ⟨case, hcase⟩ := List.exists_mem_of_ne_nil _ hne
    obtain ⟨base', hbase', hown⟩ := hconfined cases hcases
    cases hbase.symm.trans hbase'
    exact not_isOwnFile_of_link hfront hlink _ (hown case hcase).1
  · intro hled cases hcases
    obtain ⟨entries, hstat, _, hsource⟩ := readCases_source hcases
    obtain ⟨node, hstat', hholds⟩ := readCases_succeeds.mp ⟨cases, hcases⟩
    obtain ⟨reached, hreached, hdir⟩ := FileSystem.stat_eq_ok.mp hstat
    obtain ⟨base, left, hbase, hwalk⟩ := resolve_assessmentOf hreached
    -- None of the three names is a link, or the exercise would be led away.
    have hlocation : reached = base ++ assessmentNames exercise := by
      refine Node.walk_names (fun front hfront hne found hfound => ?_) hwalk
      cases found with
      | link target => exact absurd ⟨base, node, hbase, ⟨front, target, hfront, hne, hfound⟩,
          hstat', hholds⟩ hled
      | _ => rfl
    have hown : ∀ name bytes, caseFile entries name = some bytes →
        IsOwnFile fs base exercise bytes := by
      intro name bytes hfile
      refine ⟨name, ?_⟩
      rw [← hlocation, Node.get_append_of hdir]
      simp [Node.get, Node.child, (caseFile_eq_some.mp hfile).1]
    refine ⟨base, hbase, fun case hcase => ?_⟩
    obtain ⟨name, hinput, hexpected⟩ := hsource case hcase
    exact ⟨hown _ _ hinput, hown _ _ hexpected⟩

/-- An author's content in which the assessment of `copy` is a link to a directory
of the judge's own host. -/
def linkedAssessment : FileSystem where
  workingDir := []
  root := .directory true true [
    (utf8 "content", .directory true true [
      (utf8 "exercises", .directory true true [
        (utf8 "copy", .directory true true [
          (utf8 "assessment", .link (utf8 "/srv"))])])]),
    (utf8 "srv", .directory true true [
      (utf8 "1.in", .file true (utf8 "in")),
      (utf8 "1.out", .file true (utf8 "out"))])]

def copy : Identifier := ⟨"copy", by decide⟩

theorem linkedAssessment_not_confined :
    readCases linkedAssessment (assessmentOf ⟨true, [.name (utf8 "content")]⟩ copy.value) =
        .ok [⟨utf8 "in", utf8 "out"⟩] ∧
      ¬Confined linkedAssessment ⟨true, [.name (utf8 "content")]⟩ copy := by
  have hbase : linkedAssessment.resolve ⟨true, [.name (utf8 "content")]⟩ =
      .ok [utf8 "content"] := by decide +kernel
  have hcases : readCases linkedAssessment
      (assessmentOf ⟨true, [.name (utf8 "content")]⟩ copy.value) =
        .ok [⟨utf8 "in", utf8 "out"⟩] := by decide +kernel
  refine ⟨hcases, fun hconfined => ?_⟩
  obtain ⟨base, hbase', hown⟩ := hconfined _ hcases
  cases hbase.symm.trans hbase'
  have hlink : linkedAssessment.root.get ([utf8 "content"] ++ assessmentNames copy) =
      some (.link (utf8 "/srv")) := rfl
  exact not_isOwnFile_of_link (List.prefix_refl _) hlink _ (hown _ (List.mem_singleton_self _)).1

end Pals.Judge
