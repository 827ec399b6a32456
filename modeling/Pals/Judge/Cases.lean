import Mathlib.Data.List.Sort
import Pals.Judge.Sandbox
import Pals.Library.FileSystem

/-! The cases of an exercise: each `<name>.in` of its assessment directory with its
`<name>.out`. -/
namespace Pals.Judge
open Pals.Library

def maxCaseFile : Nat := maxOutput

structure Case where
  input : Bytes
  expected : Bytes
deriving DecidableEq, Repr

/-- Only the last component of `path` is kept from being a link. -/
def readCaseFile (fs : FileSystem) (path : Path) : IoResult Bytes := do
  let metadata ← (fs.lstat path).mapError fun errno => .atPath errno.kind path errno.text
  if metadata.isFile && metadata.len ≤ maxCaseFile then
    (fs.read path).mapError .ofErrno
  else
    .error (.atPath .invalidData path s!"not a regular file of at most {maxCaseFile} bytes")

def readCase (fs : FileSystem) (input : Path) : IoResult Case := do
  let bytes ← readCaseFile fs input
  let expected ← readCaseFile fs (input.withExtension (utf8 "out"))
  return ⟨bytes, expected⟩

def inputPaths (assessment : Path) (names : List Name) : List Path :=
  ((names.map assessment.entry).filter (·.extension = some (utf8 "in"))).insertionSort
    (·.le · = true)

def readCases (fs : FileSystem) (assessment : Path) : IoResult (List Case) := do
  let names ← (fs.readDir assessment).mapError .ofErrno
  let inputs := inputPaths assessment names
  if inputs.isEmpty then .error (.atPath .invalidData assessment "no .in case")
  else inputs.mapM (readCase fs)

def isInput (name : Name) : Bool := (splitExtension name).2 = some (utf8 "in")

def outName (name : Name) : Name := (splitExtension name).1 ++ dot :: utf8 "out"

/-- The one input from which `with_extension` does not lead to its sibling: what it leaves
of the name is the parent directory. -/
def parentInput : Name := utf8 "..in"

def caseFile (entries : List (Name × Node)) (name : Name) : Option Bytes :=
  match entries.lookup name with
  | some (.file true content) => if content.length ≤ maxCaseFile then some content else none
  | _ => none

/-- The content of the expected output of an input; `..in` has none. -/
def expectedFile (entries : List (Name × Node)) (name : Name) : Option Bytes :=
  if name = parentInput then none else caseFile entries (outName name)

/-- A directory from which the judge can take cases: one at least, and both files of
each of them. -/
def HoldsCases : Node → Prop
  | .directory true true entries =>
      (∃ name ∈ entries.map Prod.fst, isInput name = true) ∧
      ∀ name ∈ entries.map Prod.fst, isInput name = true →
        (caseFile entries name).isSome ∧ (expectedFile entries name).isSome
  | _ => False

def inputNames (entries : List (Name × Node)) : List Name :=
  ((entries.map Prod.fst).filter isInput).insertionSort (· ≤ ·)

def casesOf (entries : List (Name × Node)) : List Case :=
  (inputNames entries).filterMap fun name => do
    return ⟨← caseFile entries name, ← expectedFile entries name⟩

theorem caseFile_eq_some {entries : List (Name × Node)} {name : Name} {content : Bytes} :
    caseFile entries name = some content ↔
      entries.lookup name = some (.file true content) ∧ content.length ≤ maxCaseFile := by
  unfold caseFile
  constructor
  · intro h
    split at h
    · rename_i bytes hentry
      split at h
      · cases h
        exact ⟨hentry, ‹_›⟩
      · cases h
    · cases h
  · rintro ⟨hentry, hlen⟩
    simp [hentry, hlen]

theorem caseFile_of_expectedFile {entries : List (Name × Node)} {name : Name} {content : Bytes}
    (h : expectedFile entries name = some content) :
    caseFile entries (outName name) = some content := by
  unfold expectedFile at h
  split at h
  · cases h
  · exact h

theorem withExtension_input (path : Path) {name : Name} (hinput : isInput name = true)
    (hname : name ≠ parentInput) :
    (path.entry name).withExtension (utf8 "out") = path.entry (outName name) := by
  have hsplit : splitExtension name = ((splitExtension name).1, some (utf8 "in")) :=
    Prod.ext rfl (of_decide_eq_true hinput)
  refine Path.withExtension_entry_of_name path _ hsplit fun hdot => hname ?_
  rw [eq_of_splitExtension hsplit, hdot]
  rfl

theorem withExtension_parentInput (path : Path) :
    (path.entry parentInput).withExtension (utf8 "out") = path.up := by
  have hsplit : splitExtension parentInput = ([dot], some (utf8 "in")) := by decide
  exact Path.withExtension_entry_of_dot path _ hsplit

section Directory
variable {fs : FileSystem} {assessment : Path} {listable : Bool} {entries : List (Name × Node)}

theorem readCaseFile_up (h : fs.stat assessment = .ok (.directory listable true entries)) :
    readCaseFile fs assessment.up = .error (.atPath .invalidData assessment.up
      s!"not a regular file of at most {maxCaseFile} bytes") := by
  obtain ⟨node, hnode, hdir⟩ := FileSystem.stat_up h
  have hfile : node.isFile = false := by cases node <;> simp [Node.isDir, Node.isFile] at hdir ⊢
  rw [readCaseFile, FileSystem.lstat_up, hnode]
  simp [Except.mapError, bind, Except.bind, hfile]

theorem readCaseFile_entry (h : fs.stat assessment = .ok (.directory listable true entries))
    (name : Name) (content : Bytes) :
    readCaseFile fs (assessment.entry name) = .ok content ↔
      caseFile entries name = some content := by
  rw [caseFile_eq_some, readCaseFile, bind_eq_ok]
  simp only [mapError_eq_ok, FileSystem.lstat_entry h, if_true]
  constructor
  · rintro ⟨node, hnode, hread⟩
    cases hentry : entries.lookup name with
    | none => simp [hentry] at hnode
    | some found =>
      rw [hentry] at hnode
      cases hnode
      split at hread
      · rename_i hfile
        obtain ⟨readable, bytes, rfl, hlen⟩ := Node.isFile_and_len_iff.mp hfile
        rw [mapError_eq_ok, FileSystem.read_entry h hentry] at hread
        cases readable with
        | false => cases hread
        | true =>
          cases hread
          exact ⟨rfl, hlen⟩
      · cases hread
  · rintro ⟨hentry, hlen⟩
    refine ⟨.file true content, by rw [hentry], ?_⟩
    rw [if_pos (Node.isFile_and_len_iff.mpr ⟨_, _, rfl, hlen⟩), mapError_eq_ok,
      FileSystem.read_entry h hentry]
    rfl

/-- A file is read only in a directory that can be searched. -/
theorem stat_of_readCaseFile {name : Name} {content : Bytes}
    (h : readCaseFile fs (assessment.entry name) = .ok content) :
    ∃ listable entries, fs.stat assessment = .ok (.directory listable true entries) := by
  obtain ⟨node, hnode, _⟩ := bind_eq_ok.mp h
  rw [mapError_eq_ok, FileSystem.lstat_entry_eq] at hnode
  obtain ⟨dir, hstat, hentry⟩ := bind_eq_ok.mp hnode
  cases dir with
  | directory listable searchable entries =>
    cases searchable with
    | false => cases hentry
    | true => exact ⟨listable, entries, hstat⟩
  | _ => cases hentry

theorem readCase_entry (h : fs.stat assessment = .ok (.directory listable true entries))
    {name : Name} (hinput : isInput name = true) (case : Case) :
    readCase fs (assessment.entry name) = .ok case ↔
      caseFile entries name = some case.input ∧ expectedFile entries name = some case.expected := by
  have hout (content : Bytes) :
      readCaseFile fs ((assessment.entry name).withExtension (utf8 "out")) = .ok content ↔
        expectedFile entries name = some content := by
    by_cases hname : name = parentInput
    · subst hname
      simp [withExtension_parentInput, readCaseFile_up h, expectedFile]
    · rw [withExtension_input assessment hinput hname, readCaseFile_entry h, expectedFile,
        if_neg hname]
  rw [readCase, bind_eq_ok]
  simp only [readCaseFile_entry h]
  constructor
  · rintro ⟨bytes, hbytes, hrest⟩
    obtain ⟨expected, hexpected, hcase⟩ := bind_eq_ok.mp hrest
    cases hcase
    exact ⟨hbytes, (hout _).mp hexpected⟩
  · rintro ⟨hbytes, hexpected⟩
    exact ⟨_, hbytes, bind_eq_ok.mpr ⟨_, (hout _).mpr hexpected, rfl⟩⟩

end Directory

theorem mem_inputPaths {assessment path : Path} {names : List Name} :
    path ∈ inputPaths assessment names ↔
      ∃ name ∈ names, isInput name = true ∧ path = assessment.entry name := by
  simp only [inputPaths, List.mem_insertionSort, List.mem_filter, List.mem_map, decide_eq_true_eq]
  constructor
  · rintro ⟨⟨name, hname, rfl⟩, hext⟩
    rw [Path.extension_entry] at hext
    exact ⟨name, hname, by simp [isInput, hext], rfl⟩
  · rintro ⟨name, hname, hinput, rfl⟩
    refine ⟨⟨name, hname, rfl⟩, ?_⟩
    rw [Path.extension_entry]
    simpa [isInput] using hinput

theorem readCases_eq_ok {fs : FileSystem} {assessment : Path} {cases : List Case} :
    readCases fs assessment = .ok cases ↔ ∃ searchable entries,
      fs.stat assessment = .ok (.directory true searchable entries) ∧
      inputPaths assessment (entries.map Prod.fst) ≠ [] ∧
      (inputPaths assessment (entries.map Prod.fst)).mapM (readCase fs) = .ok cases := by
  rw [readCases, bind_eq_ok]
  simp only [mapError_eq_ok, FileSystem.readDir_eq_ok]
  constructor
  · rintro ⟨names, ⟨searchable, entries, hstat, rfl⟩, h⟩
    split at h
    · cases h
    · rename_i hsome
      exact ⟨searchable, entries, hstat, by simpa [List.isEmpty_iff] using hsome, h⟩
  · rintro ⟨searchable, entries, hstat, hsome, h⟩
    refine ⟨_, ⟨searchable, entries, hstat, rfl⟩, ?_⟩
    rw [if_neg (by simpa [List.isEmpty_iff] using hsome)]
    exact h

theorem readCases_source {fs : FileSystem} {assessment : Path} {cases : List Case}
    (h : readCases fs assessment = .ok cases) : ∃ entries,
      fs.stat assessment = .ok (.directory true true entries) ∧ cases ≠ [] ∧
      ∀ case ∈ cases, ∃ name, caseFile entries name = some case.input ∧
        caseFile entries (outName name) = some case.expected := by
  obtain ⟨searchable, entries, hstat, hsome, hcases⟩ := readCases_eq_ok.mp h
  have hmem := mem_mapM hcases
  obtain ⟨first, hfirst⟩ := List.exists_mem_of_ne_nil _ hsome
  obtain ⟨case, hcase⟩ := mapM_succeeds.mp ⟨_, hcases⟩ first hfirst
  have hsearch : searchable = true := by
    obtain ⟨name, _, _, rfl⟩ := mem_inputPaths.mp hfirst
    obtain ⟨_, hbytes, _⟩ := bind_eq_ok.mp hcase
    obtain ⟨_, _, hsearchable⟩ := stat_of_readCaseFile hbytes
    cases hstat.symm.trans hsearchable
    rfl
  subst hsearch
  refine ⟨entries, hstat, List.ne_nil_of_mem ((hmem case).mpr ⟨first, hfirst, hcase⟩), ?_⟩
  intro other hother
  obtain ⟨path, hpath, hread⟩ := (hmem other).mp hother
  obtain ⟨name, _, hinput, rfl⟩ := mem_inputPaths.mp hpath
  obtain ⟨hin, hout⟩ := (readCase_entry hstat hinput other).mp hread
  exact ⟨name, hin, caseFile_of_expectedFile hout⟩

theorem readCaseFile_of_stat {fs other : FileSystem} {assessment : Path}
    (h : fs.stat assessment = other.stat assessment) (name : Name) :
    readCaseFile fs (assessment.entry name) = readCaseFile other (assessment.entry name) := by
  unfold readCaseFile
  rw [← FileSystem.lstat_entry_congr h name]
  cases hnode : fs.lstat (assessment.entry name) with
  | error errno => rfl
  | ok node =>
    cases node with
    | file readable content => rw [FileSystem.read_entry_congr h name hnode]
    | _ => rfl

theorem readCase_of_stat {fs other : FileSystem} {assessment : Path}
    (h : fs.stat assessment = other.stat assessment) {name : Name} (hinput : isInput name = true) :
    readCase fs (assessment.entry name) = readCase other (assessment.entry name) := by
  simp only [readCase, readCaseFile_of_stat h]
  by_cases hname : name = parentInput
  · subst hname
    cases hread : readCaseFile other (assessment.entry parentInput) with
    | error error => rfl
    | ok bytes =>
      obtain ⟨listable, entries, hstat⟩ := stat_of_readCaseFile hread
      rw [withExtension_parentInput, readCaseFile_up hstat, readCaseFile_up (h.trans hstat)]
  · simp only [withExtension_input assessment hinput hname, readCaseFile_of_stat h]

/-- The cases depend on the files only through the tree found at the directory. -/
theorem readCases_of_stat {fs other : FileSystem} {assessment : Path}
    (h : fs.stat assessment = other.stat assessment) :
    readCases fs assessment = readCases other assessment := by
  have hinputs (names : List Name) : (inputPaths assessment names).mapM (readCase fs) =
      (inputPaths assessment names).mapM (readCase other) := by
    refine mapM_congr fun path hpath => ?_
    obtain ⟨name, _, hinput, rfl⟩ := mem_inputPaths.mp hpath
    exact readCase_of_stat h hinput
  simp only [readCases, FileSystem.readDir, FileSystem.readEntries, h, hinputs]

theorem entry_le_iff (path : Path) (left right : Name) :
    (path.entry left).le (path.entry right) = true ↔ left ≤ right := by
  have hprefix (shared : List Component) :
      componentsLe (shared ++ [.name left]) (shared ++ [.name right]) =
        componentsLe [.name left] [.name right] := by
    induction shared with
    | nil => rfl
    | cons component shared ih => simp [componentsLe, ih]
  rw [Path.le, Path.entry, Path.entry, hprefix, List.le_iff_lt_or_eq]
  by_cases heq : left = right <;> simp [componentsLe, Component.before, heq]

theorem inputPaths_eq (assessment : Path) (entries : List (Name × Node)) :
    inputPaths assessment (entries.map Prod.fst) = (inputNames entries).map assessment.entry := by
  rw [inputNames, List.map_insertionSort _ (fun left right : Path => left.le right = true)
    assessment.entry _ fun left _ right _ => (entry_le_iff assessment left right).symm]
  simp [inputPaths, List.filter_map, Function.comp_def, isInput]

theorem readCases_eq_casesOf {fs : FileSystem} {assessment : Path} {entries : List (Name × Node)}
    (hstat : fs.stat assessment = .ok (.directory true true entries))
    (holds : HoldsCases (.directory true true entries)) :
    readCases fs assessment = .ok (casesOf entries) := by
  obtain ⟨⟨first, hfirst, hinput⟩, hall⟩ := holds
  refine readCases_eq_ok.mpr ⟨true, entries, hstat, ?_, mapM_eq_ok.mpr ?_⟩
  · exact List.ne_nil_of_mem (mem_inputPaths.mpr ⟨first, hfirst, hinput, rfl⟩)
  · rw [inputPaths_eq, List.forall₂_map_left_iff]
    have hinputs : ∀ name ∈ inputNames entries, name ∈ entries.map Prod.fst ∧ isInput name = true :=
      fun name hname => List.mem_filter.mp ((List.mem_insertionSort _).mp hname)
    refine ((List.forall₂_and_left _ _).mpr ⟨hinputs, forall₂_filterMap fun name hname => ?_⟩).imp
      fun name case hcase => ?_
    · obtain ⟨hfile, hout⟩ := hall name (hinputs name hname).1 (hinputs name hname).2
      obtain ⟨input, hinput⟩ := Option.isSome_iff_exists.mp hfile
      obtain ⟨expected, hexpected⟩ := Option.isSome_iff_exists.mp hout
      exact ⟨⟨input, expected⟩, by simp [hinput, hexpected]⟩
    · obtain ⟨⟨_, hin⟩, hcase⟩ := hcase
      simp only [Option.bind_eq_bind, Option.bind_eq_some_iff] at hcase
      obtain ⟨input, hinput, expected, hexpected, hcase⟩ := hcase
      cases hcase
      exact (readCase_entry hstat hin _).mpr ⟨hinput, hexpected⟩

theorem readCases_succeeds {fs : FileSystem} {assessment : Path} :
    (∃ cases, readCases fs assessment = .ok cases) ↔
      ∃ node, fs.stat assessment = .ok node ∧ HoldsCases node := by
  constructor
  · rintro ⟨cases, h⟩
    obtain ⟨entries, hstat, _, _⟩ := readCases_source h
    obtain ⟨_, _, hstat', hsome, hcases⟩ := readCases_eq_ok.mp h
    cases hstat.symm.trans hstat'
    refine ⟨_, hstat, ?_, ?_⟩
    · obtain ⟨path, hpath⟩ := List.exists_mem_of_ne_nil _ hsome
      obtain ⟨name, hname, hinput, _⟩ := mem_inputPaths.mp hpath
      exact ⟨name, hname, hinput⟩
    · intro name hname hinput
      obtain ⟨case, hcase⟩ := mapM_succeeds.mp ⟨_, hcases⟩ (assessment.entry name)
        (mem_inputPaths.mpr ⟨name, hname, hinput, rfl⟩)
      obtain ⟨hin, hout⟩ := (readCase_entry hstat hinput case).mp hcase
      simp [hin, hout]
  · rintro ⟨node, hstat, hholds⟩
    match node, hholds with
    | .directory true true entries, hholds => exact ⟨_, readCases_eq_casesOf hstat hholds⟩

end Pals.Judge
