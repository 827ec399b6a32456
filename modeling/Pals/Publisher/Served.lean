import Pals.Publisher.Reader

/-! A release that was validated, as the gate serves it. -/
namespace Pals.Publisher
open Pals.Library Pals.Library.Time Pals.Contracts Std

def releaseDir (courseDir : Path) (revision : String) : Path :=
  (courseDir.join (utf8 "releases")).join (utf8 revision)

def answerAt (schedule : Content.Schedule) (now : SystemTime) (id : Id) (path : Path) :
    Checked (IoResult Path) := do
  if ← schedule.isOpen now then return .ok path
  else return .error (.new .permissionDenied s!"exercise {id.value.quote} is closed")

section
variable {tree : Tree} {courseDir : Path} {revision : String} {map : ExtTreeMap Id Path compare}

theorem currentExercise_of_pointsTo (pointsTo : Content.PointsTo tree.toFileSystem courseDir revision)
    (id : Id) : Content.currentExercise tree.toFileSystem courseDir id =
      Content.exerciseDir tree.toFileSystem (releaseDir courseDir revision) id := by
  have hrelease := Content.activeRelease_eq_ok.mpr ⟨revision, pointsTo, rfl⟩
  simp only [Content.currentExercise, hrelease, bind, Except.bind]
  rfl

theorem accessibleExercise_of_some {id : Id} {path : Path}
    (h : Content.currentExercise tree.toFileSystem courseDir id = .ok path)
    (schedule : Content.Schedule) (now : SystemTime) :
    Content.accessibleExercise tree.toFileSystem courseDir id schedule now =
      answerAt schedule now id path := by
  simp only [Content.accessibleExercise, h]
  rfl

theorem exerciseDir_of_none {content : Path}
    (h : exercises tree.toFileSystem content = .ok map)
    (valid : validate tree.toFileSystem content = .ok ()) {id : Id} (hnone : map[id]? = none) :
    ∃ errno, (errno = .ENOENT ∨ errno = .EACCES ∧ map = ∅) ∧
      Content.exerciseDir tree.toFileSystem content id = .error (.ofErrno errno) := by
  obtain ⟨searchable, entries, hstat, hentries⟩ := validate_eq_ok.mp valid
  have hlookup : entries.lookup (utf8 id.value) = none := by
    rw [← Option.not_isSome_iff_eq_none, Option.isSome_iff_exists]
    rintro ⟨node, hnode⟩
    have hentry := (lookup_eq_some_iff_mem (tree.nodup_of_stat hstat)).mp hnode
    have hget := (exercises_get hstat h id _).mpr ⟨List.mem_map_of_mem hentry, rfl⟩
    simp [hnone] at hget
  have hlstat := FileSystem.lstat_entry hstat (utf8 id.value)
  simp only [Content.exerciseDir, join_exercises, Id.join_eq, hlstat, hlookup]
  cases searchable with
  | true => exact ⟨.ENOENT, .inl rfl, rfl⟩
  | false =>
    have hempty : entries = [] :=
      List.eq_nil_iff_forall_not_mem.mpr fun entry hentry => by simpa using hentries entry hentry
    refine ⟨.EACCES, .inr ⟨rfl, ExtTreeMap.eq_empty_iff_size_eq_zero.mpr ?_⟩, rfl⟩
    rw [exercises_size hstat h, hempty, List.length_nil]

/-- Once a release is validated, what the gate answers is decided by the exercises of the
publisher and by the schedule alone: an exercise of the release is served at its place
when it is open, and has one statement and no report there; what is none is an error. -/
theorem validated_release_is_served (tree : Tree) (courseDir : Path) (revision : String)
    (pointsTo : Content.PointsTo tree.toFileSystem courseDir revision)
    (valid : validate tree.toFileSystem (releaseDir courseDir revision) = .ok ()) :
    ∃ map, exercises tree.toFileSystem (releaseDir courseDir revision) = .ok map ∧
      (∀ id path, map[id]? = some path →
        (∀ schedule now, Content.accessibleExercise tree.toFileSystem courseDir id schedule now =
          answerAt schedule now id path) ∧
        noImportReport tree.toFileSystem path = .ok () ∧
        ∃ file, statement tree.toFileSystem path = .ok file) ∧
      ∀ (id : Id), map[id]? = none → ∃ errno, (errno = .ENOENT ∨ errno = .EACCES ∧ map = ∅) ∧
        ∀ schedule now, Content.accessibleExercise tree.toFileSystem courseDir id schedule now =
          .ok (.error (.ofErrno errno)) := by
  obtain ⟨map, hmap, hchecks⟩ := bind_eq_ok.mp valid
  have agrees := agrees_of_validate hmap valid
  refine ⟨map, hmap, fun id path hget => ⟨fun schedule now => ?_, ?_⟩, fun id hnone => ?_⟩
  · refine accessibleExercise_of_some ?_ schedule now
    rw [currentExercise_of_pointsTo pointsTo, (agrees id path).mpr hget]
  · have hcheck := forM_eq_ok.mp hchecks _ (ExtTreeMap.mem_toList_iff_getElem?_eq_some.mpr hget)
    obtain ⟨_, hreport, hrest⟩ := bind_eq_ok.mp hcheck
    obtain ⟨file, hfile, _⟩ := bind_eq_ok.mp hrest
    exact ⟨hreport, file, hfile⟩
  · obtain ⟨errno, herrno, hdir⟩ := exerciseDir_of_none hmap valid hnone
    refine ⟨errno, herrno, fun schedule now => ?_⟩
    rw [Content.accessibleExercise, currentExercise_of_pointsTo pointsTo, hdir]
    rfl

end

def course : Tree where
  workingDir := []
  root := .directory true true [(utf8 "current", .file true (utf8 "ab12\n")),
    (utf8 "releases", .directory true true [(utf8 "ab12", (repository true).root)])]
  distinct := by decide

theorem validated_release_is_served_course : ∃ map : ExtTreeMap Id Path compare, ∃ path,
    exercises course.toFileSystem (releaseDir ⟨true, []⟩ "ab12") = .ok map ∧
      map[sum]? = some path ∧ ∀ schedule now,
        Content.accessibleExercise course.toFileSystem ⟨true, []⟩ sum schedule now =
          answerAt schedule now sum path := by
  have pointsTo : Content.PointsTo course.toFileSystem ⟨true, []⟩ "ab12" :=
    ⟨"ab12\n", by rfl, by decide, (Content.isHash_iff _).mp (by decide)⟩
  have hstat : course.stat (exercisesDir (releaseDir ⟨true, []⟩ "ab12")) = .ok (.directory true true
      [(utf8 "sum", .directory true true [(utf8 "statement.md", .file true (utf8 "Add."))])]) := rfl
  have hpublishable : Publishable
      (.directory true true [(utf8 "statement.md", .file true (utf8 "Add."))]) := by
    refine ⟨rfl, by rfl, "statement.md", by decide, ⟨_, by rfl, rfl⟩, ?_⟩
    decide
  have valid : validate course.toFileSystem (releaseDir ⟨true, []⟩ "ab12") = .ok () := by
    refine validate_eq_ok.mpr ⟨true, _, hstat, List.forall_mem_singleton.mpr ⟨rfl, ?_, hpublishable⟩⟩
    exact (validName_iff _).mpr ⟨sum, rfl⟩
  obtain ⟨map, hmap, hserved, _⟩ :=
    validated_release_is_served course ⟨true, []⟩ "ab12" pointsTo valid
  have hget := (exercises_get hstat hmap sum _).mpr ⟨List.mem_cons_self, rfl⟩
  exact ⟨map, _, hmap, hget, (hserved sum _ hget).1⟩

end Pals.Publisher
