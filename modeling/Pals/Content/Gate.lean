import Pals.Content.Schedule
import Pals.Contracts.Identifier
import Pals.Library.FileSystem

/-! The single gate that every read of an exercise goes through: the pointer to the
release, the directory of the exercise in it, and the opening rule. -/
namespace Pals.Content
open Pals.Library Pals.Library.Time Pals.Contracts

/-- `fs::read_to_string` -/
def readToString (fs : FileSystem) (path : Path) : IoResult String := do
  let bytes ← (fs.read path).mapError .ofErrno
  match fromUtf8 bytes with
  | some text => return text
  | none => .error (.new .invalidData "stream did not contain valid UTF-8")

/-- `b'0'..=b'9' | b'a'..=b'f'` -/
def hashByte (byte : UInt8) : Bool := (48 ≤ byte && byte ≤ 57) || (97 ≤ byte && byte ≤ 102)

def isHash (revision : String) : Bool := !revision.isEmpty && (utf8 revision).all hashByte

def activeRelease (fs : FileSystem) (courseDir : Path) : IoResult Path := do
  let pointer ← readToString fs (courseDir.join (utf8 "current"))
  let revision := trim pointer
  if isHash revision then
    return (courseDir.join (utf8 "releases")).join (utf8 revision)
  else .error (.new .invalidData s!"invalid release pointer: {revision.quote}")

def exerciseDir (fs : FileSystem) (release : Path) (id : Id) : IoResult Path := do
  let dir := (release.join (utf8 "exercises")).join (utf8 id.value)
  let metadata ← (fs.lstat dir).mapError .ofErrno
  if metadata.isDir then return dir
  else .error (.new .invalidData s!"exercise {id.value.quote} is not a directory")

/-- `exercise_dir(&active_release(course_dir)?, id)` -/
def currentExercise (fs : FileSystem) (courseDir : Path) (id : Id) : IoResult Path := do
  exerciseDir fs (← activeRelease fs courseDir) id

/-- The schedule is looked at when the exercise is there. -/
def accessibleExercise (fs : FileSystem) (courseDir : Path) (id : Id) (schedule : Schedule)
    (now : SystemTime) : Checked (IoResult Path) :=
  match currentExercise fs courseDir id with
  | .error error => return .error error
  | .ok dir => do
      if ← schedule.isOpen now then return .ok dir
      else return .error (.new .permissionDenied s!"exercise {id.value.quote} is closed")

def gateNames (revision : String) (id : Id) : List Name :=
  [utf8 "releases", utf8 revision, utf8 "exercises", utf8 id.value]

def exercisePath (courseDir : Path) (revision : String) (id : Id) : Path :=
  ⟨courseDir.absolute, courseDir.components ++ (gateNames revision id).map .name⟩

def PlainName (name : Name) : Prop :=
  name ≠ [] ∧ name ≠ [dot] ∧ name ≠ [dot, dot] ∧ slash ∉ name

def HashText (revision : String) : Prop :=
  revision ≠ "" ∧ ∀ char ∈ revision.toList, ('0' ≤ char ∧ char ≤ '9') ∨ ('a' ≤ char ∧ char ≤ 'f')

def PointsTo (fs : FileSystem) (courseDir : Path) (revision : String) : Prop :=
  ∃ text, readToString fs (courseDir.join (utf8 "current")) = .ok text ∧ trim text = revision ∧
    HashText revision

/-- The path itself leads to a directory, and is no link to one. -/
def IsDirectory (fs : FileSystem) (path : Path) : Prop :=
  ∃ node, fs.lstat path = .ok node ∧ node.isDir = true

theorem hashByte_iff (byte : UInt8) : hashByte byte = true ↔
    (48 ≤ byte.toNat ∧ byte.toNat ≤ 57) ∨ (97 ≤ byte.toNat ∧ byte.toNat ≤ 102) := by
  simp only [hashByte, Bool.or_eq_true, Bool.and_eq_true, decide_eq_true_eq, UInt8.le_iff_toNat_le]
  rfl

theorem hashChar_iff (char : Char) : (('0' ≤ char ∧ char ≤ '9') ∨ ('a' ≤ char ∧ char ≤ 'f')) ↔
    (48 ≤ char.val.toNat ∧ char.val.toNat ≤ 57) ∨
      (97 ≤ char.val.toNat ∧ char.val.toNat ≤ 102) := by
  simp only [Char.le_def, UInt32.le_iff_toNat_le]
  rfl

theorem identifierByte_of_hashByte {byte : UInt8} (h : hashByte byte = true) :
    identifierByte byte = true := by
  rw [hashByte_iff] at h
  rw [identifierByte_iff, IdentifierCode]
  omega

theorem hashByte_utf8EncodeChar (char : Char) :
    (∀ byte ∈ String.utf8EncodeChar char, hashByte byte = true) ↔
      ('0' ≤ char ∧ char ≤ '9') ∨ ('a' ≤ char ∧ char ≤ 'f') := by
  rw [hashChar_iff]
  constructor
  · intro h
    have hchar := identifierChar_of_utf8EncodeChar fun byte hbyte =>
      identifierByte_of_hashByte (h byte hbyte)
    rw [identifierChar_iff, IdentifierCode] at hchar
    rw [utf8EncodeChar_of_ascii (by omega)] at h
    have hbyte := (hashByte_iff _).mp (h _ (List.mem_singleton_self _))
    rw [UInt8.toNat_ofNat', Nat.mod_eq_of_lt (by omega)] at hbyte
    exact hbyte
  · intro h byte hbyte
    rw [utf8EncodeChar_of_ascii (by omega), List.mem_singleton] at hbyte
    rw [hbyte, hashByte_iff, UInt8.toNat_ofNat', Nat.mod_eq_of_lt (by omega)]
    exact h

theorem isHash_iff (revision : String) : isHash revision = true ↔ HashText revision := by
  simp only [isHash, Bool.and_eq_true, Bool.not_eq_true', Bool.eq_false_iff, ne_eq,
    String.isEmpty_iff, List.all_eq_true, HashText, ← hashByte_utf8EncodeChar, utf8,
    List.mem_flatMap, forall_exists_index, and_imp]
  exact and_congr_right fun _ => ⟨fun h char hchar byte hbyte => h byte char hchar hbyte,
    fun h byte char hchar hbyte => h char hchar byte hbyte⟩

example : isHash (trim " ab12cd\r\n") = true := by decide
example : isHash (trim "../abc123\n") = false := by decide

theorem HashText.bytes {revision : String} (h : HashText revision) :
    utf8 revision ≠ [] ∧ ∀ byte ∈ utf8 revision, identifierByte byte = true := by
  rw [← isHash_iff, isHash, Bool.and_eq_true, List.all_eq_true] at h
  refine ⟨(utf8_eq_nil_iff _).not.mpr (by simpa using h.1), fun byte hbyte => ?_⟩
  exact identifierByte_of_hashByte (h.2 byte hbyte)

theorem PointsTo.hashText {fs : FileSystem} {courseDir : Path} {revision : String}
    (h : PointsTo fs courseDir revision) : HashText revision := by
  obtain ⟨_, _, _, hhash⟩ := h
  exact hhash

theorem activeRelease_eq_ok {fs : FileSystem} {courseDir release : Path} :
    activeRelease fs courseDir = .ok release ↔ ∃ revision, PointsTo fs courseDir revision ∧
      release = (courseDir.join (utf8 "releases")).join (utf8 revision) := by
  rw [activeRelease, bind_eq_ok]
  constructor
  · rintro ⟨text, htext, h⟩
    dsimp only at h
    split at h
    · rename_i hhash
      exact ⟨_, ⟨text, htext, rfl, (isHash_iff _).mp hhash⟩, (Except.ok.inj h).symm⟩
    · cases h
  · rintro ⟨revision, ⟨text, htext, htrim, hhash⟩, hrelease⟩
    refine ⟨text, htext, ?_⟩
    rw [htrim, if_pos ((isHash_iff _).mpr hhash), hrelease]
    rfl

theorem exerciseDir_eq_ok {fs : FileSystem} {release dir : Path} {id : Id} :
    exerciseDir fs release id = .ok dir ↔
      dir = (release.join (utf8 "exercises")).join (utf8 id.value) ∧ IsDirectory fs dir := by
  simp only [exerciseDir, bind_eq_ok, mapError_eq_ok]
  constructor
  · rintro ⟨node, hnode, h⟩
    split at h <;> cases h
    exact ⟨rfl, node, hnode, ‹_›⟩
  · rintro ⟨rfl, node, hnode, hdir⟩
    refine ⟨node, hnode, ?_⟩
    rw [if_pos hdir]
    rfl

theorem accessibleExercise_eq_ok {fs : FileSystem} {courseDir path : Path} {id : Id}
    {schedule : Schedule} {now : SystemTime} :
    accessibleExercise fs courseDir id schedule now = .ok (.ok path) ↔
      currentExercise fs courseDir id = .ok path ∧ schedule.isOpen now = .ok true := by
  unfold accessibleExercise
  cases currentExercise fs courseDir id with
  | error error => simp [pure, Except.pure]
  | ok dir =>
    cases schedule.isOpen now with
    | error panic => simp [bind, Except.bind]
    | ok opened => cases opened <;> simp [bind, Except.bind, pure, Except.pure]

theorem accessibleExercise_closed {fs : FileSystem} {courseDir : Path} {id : Id}
    {schedule : Schedule} {now : SystemTime} (closed : schedule.isOpen now = .ok false) :
    ∃ error, accessibleExercise fs courseDir id schedule now = .ok (.error error) := by
  unfold accessibleExercise
  cases currentExercise fs courseDir id with
  | error error => exact ⟨error, rfl⟩
  | ok dir =>
    rw [closed]
    exact ⟨_, rfl⟩

theorem plainName_of_identifierByte {name : Name} (hne : name ≠ [])
    (h : ∀ byte ∈ name, identifierByte byte = true) : PlainName name := by
  have hdot : dot ∉ name := fun hmem => absurd (h dot hmem) (by decide)
  refine ⟨hne, ?_, ?_, fun hmem => absurd (h slash hmem) (by decide)⟩
  · rintro rfl
    simp at hdot
  · rintro rfl
    simp at hdot

theorem gateNames_bytes {revision : String} (h : HashText revision) (id : Id) :
    ∀ name ∈ gateNames revision id, name ≠ [] ∧ ∀ byte ∈ name, identifierByte byte = true := by
  intro name hname
  simp only [gateNames, List.mem_cons, List.not_mem_nil, or_false] at hname
  rcases hname with rfl | rfl | rfl | rfl
  · exact ⟨by decide, List.all_eq_true.mp (by decide)⟩
  · exact h.bytes
  · exact ⟨by decide, List.all_eq_true.mp (by decide)⟩
  · exact ⟨id.bytes_ne_nil, id.bytes_valid⟩

theorem join_eq_exercisePath {revision : String} (h : HashText revision) (courseDir : Path)
    (id : Id) : (((courseDir.join (utf8 "releases")).join (utf8 revision)).join
      (utf8 "exercises")).join (utf8 id.value) = exercisePath courseDir revision id := by
  have hjoin (name : Name) (hname : name ∈ gateNames revision id) (path : Path) :
      path.join name = path.entry name := by
    obtain ⟨hne, hbytes⟩ := gateNames_bytes h id name hname
    exact join_of_identifierByte path hne hbytes
  rw [hjoin (utf8 "releases") (by simp [gateNames]), hjoin (utf8 revision) (by simp [gateNames]),
    hjoin (utf8 "exercises") (by simp [gateNames]), hjoin (utf8 id.value) (by simp [gateNames])]
  simp [exercisePath, gateNames, Path.entry]

theorem currentExercise_eq_ok {fs : FileSystem} {courseDir path : Path} {id : Id} :
    currentExercise fs courseDir id = .ok path ↔ ∃ revision, PointsTo fs courseDir revision ∧
      IsDirectory fs path ∧ path = exercisePath courseDir revision id := by
  simp only [currentExercise, bind_eq_ok, activeRelease_eq_ok, exerciseDir_eq_ok]
  constructor
  · rintro ⟨_, ⟨revision, pointsTo, rfl⟩, hpath, isDirectory⟩
    have hhash := pointsTo.hashText
    exact ⟨revision, pointsTo, isDirectory, hpath.trans (join_eq_exercisePath hhash courseDir id)⟩
  · rintro ⟨revision, pointsTo, isDirectory, rfl⟩
    have hhash := pointsTo.hashText
    exact ⟨_, ⟨revision, pointsTo, rfl⟩, (join_eq_exercisePath hhash courseDir id).symm, isDirectory⟩

/-- Exercises of one course never lie in one another. -/
theorem exercisePath_prefix {courseDir : Path} {revision revision' : String} {id id' : Id}
    (h : (exercisePath courseDir revision id).components <+:
      (exercisePath courseDir revision' id').components) : revision = revision' ∧ id = id' := by
  have heq := h.eq_of_length (by simp [exercisePath, gateNames])
  simp only [exercisePath, gateNames, List.map_cons, List.append_cancel_left_eq, List.cons.injEq,
    Component.name.injEq] at heq
  obtain ⟨_, hrevision, _, hid, _⟩ := heq
  refine ⟨utf8_injective hrevision, ?_⟩
  cases id
  cases id'
  simpa using utf8_injective hid

/-- The gate is exact, and what it answers stays below the directory of the course. -/
theorem gate_is_exact (fs : FileSystem) (courseDir : Path) (id : Id) (schedule : Schedule)
    (now : SystemTime) :
    (∀ path, accessibleExercise fs courseDir id schedule now = .ok (.ok path) ↔
      ∃ revision, PointsTo fs courseDir revision ∧ path = exercisePath courseDir revision id ∧
        IsDirectory fs path ∧ schedule.isOpen now = .ok true) ∧
    (∀ revision, HashText revision → ∀ name ∈ gateNames revision id, PlainName name) ∧
    (∀ revision revision' id', (revision, id) ≠ (revision', id') →
        exercisePath courseDir revision id ≠ exercisePath courseDir revision' id' ∧
        ¬(exercisePath courseDir revision id).components <+:
          (exercisePath courseDir revision' id').components ∧
        ¬(exercisePath courseDir revision' id').components <+:
          (exercisePath courseDir revision id).components) ∧
    (schedule.isOpen now = .ok false →
      ∃ error, accessibleExercise fs courseDir id schedule now = .ok (.error error)) := by
  refine ⟨fun path => ?_, fun revision hhash name hname => ?_, ?_, accessibleExercise_closed⟩
  · rw [accessibleExercise_eq_ok, currentExercise_eq_ok]
    constructor
    · rintro ⟨⟨revision, pointsTo, isDirectory, hpath⟩, opened⟩
      exact ⟨revision, pointsTo, hpath, isDirectory, opened⟩
    · rintro ⟨revision, pointsTo, hpath, isDirectory, opened⟩
      exact ⟨⟨revision, pointsTo, isDirectory, hpath⟩, opened⟩
  · obtain ⟨hne, hbytes⟩ := gateNames_bytes hhash id name hname
    exact plainName_of_identifierByte hne hbytes
  · intro revision revision' id' different
    refine ⟨fun heq => different ?_, fun hprefix => different ?_, fun hprefix => different ?_⟩
    · obtain ⟨rfl, rfl⟩ := exercisePath_prefix (heq ▸ List.prefix_refl _ :
        (exercisePath courseDir revision id).components <+:
          (exercisePath courseDir revision' id').components)
      rfl
    · obtain ⟨rfl, rfl⟩ := exercisePath_prefix hprefix
      rfl
    · obtain ⟨rfl, rfl⟩ := exercisePath_prefix hprefix
      rfl

end Pals.Content
