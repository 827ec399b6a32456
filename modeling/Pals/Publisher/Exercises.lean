import Pals.Contracts.Identifier
import Pals.Library.SortedMap
import Pals.Library.Tree

/-! The exercises of a content repository, as the publisher finds them. -/
namespace Pals.Publisher
open Pals.Library Pals.Contracts Std

/-- The identifier and the directory of an entry of `exercises`. The listing says what
the entry is, and a link is no directory. -/
def exercise (exercises : Path) (entry : Name × Node) : IoResult (Id × Path) :=
  let dir := exercises.entry entry.1
  match (fromUtf8 entry.1).bind fun name => (Id.fromStr name).toOption, entry.2.isDir with
  | some id, true => .ok (id, dir)
  | _, _ => .error (.atPath .invalidData dir "expected a directory named [a-z0-9-]+")

/-- The first entry that is none ends the collection. -/
def exercises (fs : FileSystem) (content : Path) : IoResult (ExtTreeMap Id Path compare) := do
  let dir := content.join (utf8 "exercises")
  let entries ← (fs.readEntries dir).mapError .ofErrno
  return .ofList (← entries.mapM (exercise dir)) compare

def ValidName (name : Name) : Prop := name ≠ [] ∧ ∀ byte ∈ name, IdentifierCode byte.toNat

def exercisesDir (content : Path) : Path := content.entry (utf8 "exercises")

theorem join_exercises (content : Path) : content.join (utf8 "exercises") = exercisesDir content :=
  join_of_identifierByte content (by decide) (List.all_eq_true.mp (by decide))

theorem validName_iff (name : Name) : ValidName name ↔ ∃ id : Id, utf8 id.value = name := by
  constructor
  · rintro ⟨hne, hbytes⟩
    obtain ⟨text, rfl⟩ := exists_utf8_of_ascii fun byte hbyte => by
      have hcode := hbytes byte hbyte
      rw [IdentifierCode] at hcode
      omega
    refine ⟨⟨text, ?_⟩, rfl⟩
    rw [Bool.and_eq_true, Bool.not_eq_true', Bool.eq_false_iff, Ne, String.isEmpty_iff,
      ← utf8_eq_nil_iff, List.all_eq_true]
    exact ⟨hne, fun byte hbyte => (identifierByte_iff byte).mpr (hbytes byte hbyte)⟩
  · rintro ⟨id, rfl⟩
    exact ⟨id.bytes_ne_nil, fun byte hbyte => (identifierByte_iff byte).mp (id.bytes_valid byte hbyte)⟩

theorem id_of_name {name : Name} {id : Id} :
    ((fromUtf8 name).bind fun text => (Id.fromStr text).toOption) = some id ↔
      utf8 id.value = name := by
  rw [Option.bind_eq_some_iff]
  constructor
  · rintro ⟨text, htext, hid⟩
    cases hparse : Id.fromStr text with
    | error invalid => simp [hparse, Except.toOption] at hid
    | ok found =>
      rw [hparse] at hid
      cases hid
      rw [Id.fromStr_eq_ok.mp hparse, fromUtf8_eq_some.mp htext]
  · rintro rfl
    refine ⟨id.value, fromUtf8_utf8 _, ?_⟩
    rw [Id.fromStr_eq_ok.mpr rfl]
    rfl

theorem exercise_eq_ok {dir path : Path} {entry : Name × Node} {id : Id} :
    exercise dir entry = .ok (id, path) ↔
      utf8 id.value = entry.1 ∧ entry.2.isDir = true ∧ path = dir.entry entry.1 := by
  rw [← id_of_name]
  simp only [exercise]
  split
  · rename_i found hid hdir
    rw [hid, hdir]
    simp [eq_comm]
  · rename_i hnone
    constructor
    · intro h
      cases h
    · rintro ⟨hid, hdir, -⟩
      exact absurd hdir (hnone id hid)

theorem exercise_succeeds {dir : Path} {entry : Name × Node} :
    (∃ pair, exercise dir entry = .ok pair) ↔ ValidName entry.1 ∧ entry.2.isDir = true := by
  rw [validName_iff]
  constructor
  · rintro ⟨⟨id, path⟩, h⟩
    obtain ⟨hid, hdir, -⟩ := exercise_eq_ok.mp h
    exact ⟨⟨id, hid⟩, hdir⟩
  · rintro ⟨⟨id, hid⟩, hdir⟩
    exact ⟨(id, dir.entry entry.1), exercise_eq_ok.mpr ⟨hid, hdir, rfl⟩⟩

theorem exercises_eq_ok {fs : FileSystem} {content : Path} {map : ExtTreeMap Id Path compare} :
    exercises fs content = .ok map ↔ ∃ searchable entries,
      fs.stat (exercisesDir content) = .ok (.directory true searchable entries) ∧
      ∃ pairs, entries.mapM (exercise (exercisesDir content)) = .ok pairs ∧
        .ofList pairs compare = map := by
  simp only [exercises, join_exercises, bind_eq_ok, mapError_eq_ok, FileSystem.readEntries_eq_ok]
  constructor
  · rintro ⟨entries, ⟨searchable, hstat⟩, pairs, hpairs, h⟩
    exact ⟨searchable, entries, hstat, pairs, hpairs, Except.ok.inj h⟩
  · rintro ⟨searchable, entries, hstat, pairs, hpairs, rfl⟩
    exact ⟨entries, ⟨searchable, hstat⟩, pairs, hpairs, rfl⟩

theorem keys_of_entries {dir : Path} {entries : List (Name × Node)} {pairs : List (Id × Path)}
    (h : entries.mapM (exercise dir) = .ok pairs) :
    pairs.map (fun pair => utf8 pair.1.value) = entries.map Prod.fst := by
  rw [mapM_eq_ok] at h
  induction h with
  | nil => rfl
  | cons head _ ih =>
    obtain ⟨hid, _, _⟩ := exercise_eq_ok.mp head
    rw [List.map_cons, List.map_cons, ih, hid]

theorem exercises_succeeds {fs : FileSystem} {content : Path} :
    (∃ map, exercises fs content = .ok map) ↔ ∃ searchable entries,
      fs.stat (exercisesDir content) = .ok (.directory true searchable entries) ∧
      ∀ entry ∈ entries, ValidName entry.1 ∧ entry.2.isDir = true := by
  simp only [exercises_eq_ok]
  constructor
  · rintro ⟨_, searchable, entries, hstat, pairs, hpairs, _⟩
    refine ⟨searchable, entries, hstat, fun entry hentry => ?_⟩
    exact exercise_succeeds.mp (mapM_succeeds.mp ⟨pairs, hpairs⟩ entry hentry)
  · rintro ⟨searchable, entries, hstat, hentries⟩
    obtain ⟨pairs, hpairs⟩ := mapM_succeeds.mpr fun entry hentry =>
      exercise_succeeds.mpr (hentries entry hentry)
    exact ⟨_, searchable, entries, hstat, pairs, hpairs, rfl⟩

theorem entries_of_exercises {fs : FileSystem} {content : Path} {listable searchable : Bool}
    {entries : List (Name × Node)} {map : ExtTreeMap Id Path compare}
    (hstat : fs.stat (exercisesDir content) = .ok (.directory listable searchable entries))
    (h : exercises fs content = .ok map) :
    listable = true ∧ ∀ entry ∈ entries, ValidName entry.1 ∧ entry.2.isDir = true := by
  obtain ⟨_, _, hstat', hentries⟩ := exercises_succeeds.mp ⟨map, h⟩
  cases hstat.symm.trans hstat'
  exact ⟨rfl, hentries⟩

section Listed
variable {tree : Tree} {content : Path} {searchable : Bool} {entries : List (Name × Node)}
  {map : ExtTreeMap Id Path compare}
  (hstat : tree.stat (exercisesDir content) = .ok (.directory true searchable entries))
include hstat

theorem distinct_keys {pairs : List (Id × Path)}
    (h : entries.mapM (exercise (exercisesDir content)) = .ok pairs) :
    (pairs.map Prod.fst).Nodup := by
  have hnames := tree.nodup_of_stat hstat
  rw [← keys_of_entries h] at hnames
  apply List.Nodup.of_map fun id : Id => utf8 id.value
  rwa [List.map_map]

theorem exercises_get (h : exercises tree.toFileSystem content = .ok map) (id : Id) (path : Path) :
    map[id]? = some path ↔
      utf8 id.value ∈ entries.map Prod.fst ∧ path = (exercisesDir content).entry (utf8 id.value) := by
  obtain ⟨_, _, hstat', pairs, hpairs, rfl⟩ := exercises_eq_ok.mp h
  cases hstat.symm.trans hstat'
  rw [getElem?_ofList_eq_some (distinct_keys hstat hpairs), mem_mapM hpairs]
  constructor
  · rintro ⟨entry, hentry, hpair⟩
    obtain ⟨hid, _, rfl⟩ := exercise_eq_ok.mp hpair
    rw [hid]
    exact ⟨List.mem_map_of_mem hentry, rfl⟩
  · rintro ⟨hname, rfl⟩
    obtain ⟨entry, hentry, hid⟩ := List.mem_map.mp hname
    obtain ⟨pair, hpair⟩ := mapM_succeeds.mp ⟨pairs, hpairs⟩ entry hentry
    obtain ⟨_, hdir, _⟩ := exercise_eq_ok.mp hpair
    exact ⟨entry, hentry, exercise_eq_ok.mpr ⟨hid.symm, hdir, by rw [hid]⟩⟩

theorem entry_of_get (h : exercises tree.toFileSystem content = .ok map) {id : Id} {path : Path}
    (hget : map[id]? = some path) : ∃ entry ∈ entries, utf8 id.value = entry.1 ∧
      path = (exercisesDir content).entry entry.1 ∧ entry.2.isDir = true := by
  obtain ⟨hname, hpath⟩ := (exercises_get hstat h id path).mp hget
  obtain ⟨entry, hentry, hid⟩ := List.mem_map.mp hname
  have hdir := ((entries_of_exercises hstat h).2 entry hentry).2
  exact ⟨entry, hentry, hid.symm, by rw [hpath, hid], hdir⟩

theorem get_of_entry (h : exercises tree.toFileSystem content = .ok map) {entry : Name × Node}
    (hentry : entry ∈ entries) :
    ∃ id : Id, map[id]? = some ((exercisesDir content).entry entry.1) := by
  obtain ⟨id, hid⟩ := (validName_iff _).mp ((entries_of_exercises hstat h).2 entry hentry).1
  refine ⟨id, (exercises_get hstat h id _).mpr ⟨?_, by rw [hid]⟩⟩
  rw [hid]
  exact List.mem_map_of_mem hentry

theorem exercises_size (h : exercises tree.toFileSystem content = .ok map) :
    map.size = entries.length := by
  obtain ⟨_, _, hstat', pairs, hpairs, rfl⟩ := exercises_eq_ok.mp h
  cases hstat.symm.trans hstat'
  rw [size_ofList (distinct_keys hstat hpairs)]
  simpa using congrArg List.length (keys_of_entries hpairs)

end Listed

end Pals.Publisher
