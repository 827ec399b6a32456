import Pals.Content.Gate
import Pals.Publisher.Validation

/-! The publisher and the reader of a release on the same directory: which exercises
there are, and where. -/
namespace Pals.Publisher
open Pals.Library Pals.Contracts Std

/-- The reader finds the exercises of the publisher, at their places, and no others. -/
def Agrees (fs : FileSystem) (content : Path) (map : ExtTreeMap Id Path compare) : Prop :=
  ∀ (id : Id) (path : Path), Content.exerciseDir fs content id = .ok path ↔ map[id]? = some path

def Searchable (fs : FileSystem) (content : Path) : Prop :=
  ∃ listable entries, fs.stat (exercisesDir content) = .ok (.directory listable true entries)

section
variable {tree : Tree} {content : Path} {searchable : Bool} {entries : List (Name × Node)}
  {map : ExtTreeMap Id Path compare}

theorem exerciseDir_entry
    (hstat : tree.stat (exercisesDir content) = .ok (.directory true searchable entries))
    (id : Id) (path : Path) :
    Content.exerciseDir tree.toFileSystem content id = .ok path ↔
      path = (exercisesDir content).entry (utf8 id.value) ∧ searchable = true ∧
        ∃ node, (utf8 id.value, node) ∈ entries ∧ node.isDir = true := by
  rw [Content.exerciseDir_eq_ok, join_exercises, Id.join_eq]
  refine and_congr_right fun hpath => ?_
  rw [hpath, Content.IsDirectory, FileSystem.lstat_entry hstat]
  simp only [← lookup_eq_some_iff_mem (tree.nodup_of_stat hstat)]
  cases searchable with
  | false => simp
  | true => cases entries.lookup (utf8 id.value) <;> simp

/-- An exercise that the reader finds is one of the publisher's. -/
theorem map_of_exerciseDir (h : exercises tree.toFileSystem content = .ok map) {id : Id} {path : Path}
    (hdir : Content.exerciseDir tree.toFileSystem content id = .ok path) :
    map[id]? = some path := by
  obtain ⟨searchable, entries, hstat, _⟩ := exercises_succeeds.mp ⟨map, h⟩
  obtain ⟨hpath, _, node, hentry, _⟩ := (exerciseDir_entry hstat id path).mp hdir
  exact (exercises_get hstat h id path).mpr ⟨List.mem_map_of_mem hentry, hpath⟩

theorem agrees_of_searchable (h : exercises tree.toFileSystem content = .ok map)
    (search : Searchable tree.toFileSystem content) : Agrees tree.toFileSystem content map := by
  intro id path
  refine ⟨map_of_exerciseDir h, fun hget => ?_⟩
  obtain ⟨_, entries, hstat⟩ := search
  obtain ⟨rfl, _⟩ := entries_of_exercises hstat h
  obtain ⟨entry, hentry, hid, hpath, hdir⟩ := entry_of_get hstat h hget
  rw [exerciseDir_entry hstat id path, hid]
  exact ⟨hpath, rfl, entry.2, hentry, hdir⟩

theorem searchable_of_agrees (h : exercises tree.toFileSystem content = .ok map)
    (agrees : Agrees tree.toFileSystem content map) (hne : map ≠ ∅) :
    Searchable tree.toFileSystem content := by
  obtain ⟨searchable, entries, hstat, _⟩ := exercises_succeeds.mp ⟨map, h⟩
  obtain ⟨⟨id, path⟩, hmem⟩ := List.exists_mem_of_ne_nil _ (ExtTreeMap.toList_eq_nil_iff.not.mpr hne)
  have hdir := (agrees id path).mpr (ExtTreeMap.mem_toList_iff_getElem?_eq_some.mp hmem)
  obtain ⟨_, rfl, _⟩ := (exerciseDir_entry hstat id path).mp hdir
  exact ⟨true, entries, hstat⟩

theorem agrees_of_empty (h : exercises tree.toFileSystem content = .ok ∅) :
    Agrees tree.toFileSystem content ∅ :=
  fun _ _ => ⟨map_of_exerciseDir h, fun hget => by simp at hget⟩

theorem agrees_of_validate (h : exercises tree.toFileSystem content = .ok map)
    (valid : validate tree.toFileSystem content = .ok ()) : Agrees tree.toFileSystem content map := by
  obtain ⟨searchable, entries, hstat, hentries⟩ := validate_eq_ok.mp valid
  by_cases hempty : map = ∅
  · exact hempty ▸ agrees_of_empty (hempty ▸ h)
  · obtain ⟨⟨id, path⟩, hmem⟩ := List.exists_mem_of_ne_nil _ (ExtTreeMap.toList_eq_nil_iff.not.mpr hempty)
    have hget := ExtTreeMap.mem_toList_iff_getElem?_eq_some.mp hmem
    obtain ⟨entry, hentry, _⟩ := entry_of_get hstat h hget
    obtain ⟨rfl, _⟩ := hentries entry hentry
    exact agrees_of_searchable h ⟨true, entries, hstat⟩

/-- What the publisher has collected is what the reader finds, as far as the reader may
go into the directory; a repository that the publisher has validated is such a one. -/
theorem reader_agrees (tree : Tree) (content : Path) (map : ExtTreeMap Id Path compare)
    (h : exercises tree.toFileSystem content = .ok map) :
    (Agrees tree.toFileSystem content map ↔ Searchable tree.toFileSystem content ∨ map = ∅) ∧
    (∀ id path, Content.exerciseDir tree.toFileSystem content id = .ok path →
      map[id]? = some path) ∧
    (validate tree.toFileSystem content = .ok () → Agrees tree.toFileSystem content map) := by
  refine ⟨⟨fun agrees => ?_, fun reachable => ?_⟩, fun _ _ => map_of_exerciseDir h, agrees_of_validate h⟩
  · by_cases hempty : map = ∅
    · exact .inr hempty
    · exact .inl (searchable_of_agrees h agrees hempty)
  · rcases reachable with search | rfl
    · exact agrees_of_searchable h search
    · exact agrees_of_empty h

end

def sum : Id := ⟨"sum", by decide⟩

def repository (searchable : Bool) : Tree where
  workingDir := []
  root := .directory true true [(utf8 "exercises", .directory true searchable
    [(utf8 "sum", .directory true true [(utf8 "statement.md", .file true (utf8 "Add."))])])]
  distinct := by cases searchable <;> decide

theorem repository_exercises (searchable : Bool) : ∃ map : ExtTreeMap Id Path compare,
    exercises (repository searchable).toFileSystem ⟨true, []⟩ = .ok map ∧
      map[sum]? = some ((exercisesDir ⟨true, []⟩).entry (utf8 "sum")) := by
  have hstat : (repository searchable).stat (exercisesDir ⟨true, []⟩) = .ok (.directory true searchable
      [(utf8 "sum", .directory true true [(utf8 "statement.md", .file true (utf8 "Add."))])]) := rfl
  have hname : ValidName (utf8 "sum") := (validName_iff _).mpr ⟨sum, rfl⟩
  obtain ⟨map, h⟩ := exercises_succeeds.mpr ⟨searchable, _, hstat, by simp [hname, Node.isDir]⟩
  refine ⟨map, h, (exercises_get hstat h sum _).mpr ⟨?_, rfl⟩⟩
  exact List.mem_cons_self

theorem reader_agrees_repository : ∃ map : ExtTreeMap Id Path compare,
    exercises (repository true).toFileSystem ⟨true, []⟩ = .ok map ∧
      Agrees (repository true).toFileSystem ⟨true, []⟩ map := by
  obtain ⟨map, h, _⟩ := repository_exercises true
  exact ⟨map, h, (reader_agrees (repository true) ⟨true, []⟩ map h).1.mpr (.inl ⟨true, _, rfl⟩)⟩

theorem unsearchable_disagrees : ∃ map : ExtTreeMap Id Path compare,
    exercises (repository false).toFileSystem ⟨true, []⟩ = .ok map ∧
      map[sum]? = some ((exercisesDir ⟨true, []⟩).entry (utf8 "sum")) ∧
      Content.exerciseDir (repository false).toFileSystem ⟨true, []⟩ sum =
        .error (.ofErrno .EACCES) := by
  obtain ⟨map, h, hget⟩ := repository_exercises false
  exact ⟨map, h, hget, rfl⟩

end Pals.Publisher
