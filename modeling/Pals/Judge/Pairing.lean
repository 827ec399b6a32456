import Pals.Judge.Cases
import Pals.Library.Tree

/-! The pairing of inputs with expected outputs, for any directory and in whatever
order it is listed. -/
namespace Pals.Judge
open Pals.Library

def readable : Node → Bool
  | .file readable _ => readable
  | _ => true

/-- A directory that the judge can list and search, with its regular files readable.
Its entries stand in the order in which it is listed. -/
structure Assessment where
  files : Tree
  path : Path
  entries : List (Name × Node)
  stat : files.stat path = .ok (.directory true true entries)
  readable : ∀ entry ∈ entries, readable entry.2 = true

namespace Assessment
variable (dir : Assessment)

def names : List Name := dir.entries.map Prod.fst

def read : IoResult (List Case) := readCases dir.files.toFileSystem dir.path

def Holds (name : Name) (content : Bytes) : Prop :=
  ∃ readable, dir.entries.lookup name = some (.file readable content)

def HoldsCaseFile (name : Name) : Prop :=
  ∃ content : Bytes, dir.Holds name content ∧ content.length ≤ maxCaseFile

def Relevant (name : Name) : Prop :=
  isInput name = true ∨ ∃ input ∈ dir.names, isInput input = true ∧ name = outName input

/-- There is an input, and every input and its sibling are regular files that are not
too long. -/
def HoldsPairs : Prop :=
  (∃ name ∈ dir.names, isInput name = true) ∧ ∀ name ∈ dir.names, isInput name = true →
    dir.HoldsCaseFile name ∧ dir.HoldsCaseFile (outName name)

/-- `read_cases` succeeds on the directory when it should. It answers one case an input, in
byte order of their names, each with its own expected output, and nothing else in the
directory has a part in the answer. -/
structure Paired : Prop where
  succeeds : (∃ cases, dir.read = .ok cases) ↔ dir.HoldsPairs
  cases : ∀ cases, dir.read = .ok cases → ∃ inputs : List Name,
    inputs.Pairwise (· < ·) ∧
    (∀ name, name ∈ inputs ↔ name ∈ dir.names ∧ isInput name = true) ∧
    (inputs.map outName).Nodup ∧
    List.Forall₂ (fun name case => dir.Holds name case.input ∧
      dir.Holds (outName name) case.expected) inputs cases
  others : ∀ other : Assessment, other.path = dir.path →
    (∀ name, dir.Relevant name → other.entries.lookup name = dir.entries.lookup name) ∨
      other.entries.Perm dir.entries → other.read = dir.read

end Assessment

/-- An input is its stem and `.in`, so no two of them have one expected output. -/
theorem outName_injective {left right : Name} (hl : isInput left = true)
    (hr : isInput right = true) (h : outName left = outName right) : left = right := by
  have hsplit {name : Name} (hname : isInput name = true) :
      name = (splitExtension name).1 ++ dot :: utf8 "in" :=
    eq_of_splitExtension (Prod.ext rfl (of_decide_eq_true hname))
  have hstem := List.append_cancel_right h
  rw [hsplit hl, hsplit hr, hstem]

theorem mem_inputNames {entries : List (Name × Node)} {name : Name} :
    name ∈ inputNames entries ↔ name ∈ entries.map Prod.fst ∧ isInput name = true := by
  rw [inputNames, List.mem_insertionSort, List.mem_filter]

theorem inputNames_pairwise {entries : List (Name × Node)}
    (distinct : (entries.map Prod.fst).Nodup) : (inputNames entries).Pairwise (· < ·) := by
  have hsorted : (inputNames entries).Pairwise (· ≤ ·) := List.pairwise_insertionSort _ _
  have hnodup : (inputNames entries).Nodup :=
    (List.perm_insertionSort _ _).nodup_iff.mpr (distinct.filter _)
  exact (hsorted.and hnodup).imp fun h => (List.le_iff_lt_or_eq.mp h.1).resolve_right h.2

section Agreement
variable {fs fs' : FileSystem} {path : Path} {entries entries' : List (Name × Node)}

theorem readCaseFile_congr (h : fs.stat path = .ok (.directory true true entries))
    (h' : fs'.stat path = .ok (.directory true true entries')) {name : Name}
    (same : entries'.lookup name = entries.lookup name) :
    readCaseFile fs' (path.entry name) = readCaseFile fs (path.entry name) := by
  simp only [readCaseFile, FileSystem.lstat_entry h, FileSystem.lstat_entry h', same]
  cases hentry : entries.lookup name with
  | none => rfl
  | some node =>
    cases node with
    | file readable content =>
      rw [FileSystem.read_entry h hentry, FileSystem.read_entry h' (same.trans hentry)]
    | _ => rfl

theorem readCase_congr (h : fs.stat path = .ok (.directory true true entries))
    (h' : fs'.stat path = .ok (.directory true true entries')) {name : Name}
    (hinput : isInput name = true) (same : entries'.lookup name = entries.lookup name)
    (out : entries'.lookup (outName name) = entries.lookup (outName name)) :
    readCase fs' (path.entry name) = readCase fs (path.entry name) := by
  simp only [readCase, readCaseFile_congr h h' same]
  by_cases hname : name = parentInput
  · subst hname
    rw [withExtension_parentInput, readCaseFile_up h, readCaseFile_up h']
  · rw [withExtension_input path hinput hname, readCaseFile_congr h h' out]

theorem readCases_congr (h : fs.stat path = .ok (.directory true true entries))
    (h' : fs'.stat path = .ok (.directory true true entries'))
    (inputs : inputNames entries' = inputNames entries)
    (same : ∀ name ∈ inputNames entries, entries'.lookup name = entries.lookup name ∧
      entries'.lookup (outName name) = entries.lookup (outName name)) :
    readCases fs' path = readCases fs path := by
  have hlist : fs.readDir path = .ok (entries.map Prod.fst) :=
    FileSystem.readDir_eq_ok.mpr ⟨_, _, h, rfl⟩
  have hlist' : fs'.readDir path = .ok (entries'.map Prod.fst) :=
    FileSystem.readDir_eq_ok.mpr ⟨_, _, h', rfl⟩
  have hinputs : inputPaths path (entries'.map Prod.fst) = inputPaths path (entries.map Prod.fst) := by
    rw [inputPaths_eq, inputPaths_eq, inputs]
  have hread : ∀ input ∈ inputPaths path (entries.map Prod.fst), readCase fs' input = readCase fs input := by
    intro input hinput
    rw [inputPaths_eq] at hinput
    obtain ⟨name, hname, rfl⟩ := List.mem_map.mp hinput
    obtain ⟨hsame, hout⟩ := same name hname
    exact readCase_congr h h' (mem_inputNames.mp hname).2 hsame hout
  rw [readCases, readCases, hlist, hlist']
  simp only [Except.mapError, bind, Except.bind, hinputs, mapM_congr hread]

end Agreement

namespace Assessment
variable {dir : Assessment}

theorem nodup : dir.names.Nodup := dir.files.nodup_of_stat dir.stat

theorem caseFile_eq_some_iff {name : Name} {content : Bytes} :
    caseFile dir.entries name = some content ↔
      dir.Holds name content ∧ content.length ≤ maxCaseFile := by
  rw [caseFile_eq_some]
  refine and_congr_left fun _ => ⟨fun h => ⟨true, h⟩, ?_⟩
  rintro ⟨readable, h⟩
  cases readable with
  | true => exact h
  | false =>
    have hmem := (lookup_eq_some_iff_mem dir.nodup).mp h
    cases dir.readable _ hmem

theorem caseFile_isSome_iff {name : Name} :
    (caseFile dir.entries name).isSome = true ↔ dir.HoldsCaseFile name := by
  simp only [Option.isSome_iff_exists, caseFile_eq_some_iff, HoldsCaseFile]

theorem expectedFile_isSome_iff {name : Name} : (expectedFile dir.entries name).isSome = true ↔
    name ≠ parentInput ∧ dir.HoldsCaseFile (outName name) := by
  rw [expectedFile, ← caseFile_isSome_iff]
  split <;> simp [*]

theorem read_succeeds : (∃ cases, dir.read = .ok cases) ↔
    parentInput ∉ dir.names ∧ dir.HoldsPairs := by
  rw [read, readCases_succeeds]
  simp only [dir.stat, Except.ok.injEq, exists_eq_left', HoldsCases, caseFile_isSome_iff,
    expectedFile_isSome_iff]
  constructor
  · rintro ⟨hsome, hall⟩
    refine ⟨fun hparent => (hall _ hparent rfl).2.1 rfl, hsome, fun name hname hinput => ?_⟩
    obtain ⟨hfile, _, hout⟩ := hall name hname hinput
    exact ⟨hfile, hout⟩
  · rintro ⟨hparent, hsome, hall⟩
    refine ⟨hsome, fun name hname hinput => ?_⟩
    obtain ⟨hfile, hout⟩ := hall name hname hinput
    exact ⟨hfile, fun h => hparent (h ▸ hname), hout⟩

theorem inputNames_eq {other : Assessment}
    (agree : ∀ name, dir.Relevant name → other.entries.lookup name = dir.entries.lookup name) :
    inputNames other.entries = inputNames dir.entries := by
  refine (inputNames_pairwise other.nodup).eq_of_mem_iff (inputNames_pairwise dir.nodup) fun name => ?_
  rw [mem_inputNames, mem_inputNames]
  refine and_congr_left fun hinput => ?_
  have hsame := agree name (.inl hinput)
  rw [← not_iff_not, ← lookup_eq_none_iff_notMem, ← lookup_eq_none_iff_notMem, hsame]

theorem read_congr {other : Assessment} (path : other.path = dir.path)
    (agree : ∀ name, dir.Relevant name → other.entries.lookup name = dir.entries.lookup name) :
    other.read = dir.read := by
  have hstat := other.stat
  rw [path] at hstat
  rw [read, path]
  refine readCases_congr dir.stat hstat (inputNames_eq agree) fun name hname => ?_
  obtain ⟨hname, hinput⟩ := mem_inputNames.mp hname
  exact ⟨agree _ (.inl hinput), agree _ (.inr ⟨name, hname, hinput, rfl⟩)⟩

theorem read_perm {other : Assessment} (path : other.path = dir.path)
    (perm : other.entries.Perm dir.entries) : other.read = dir.read :=
  read_congr path fun name _ => lookup_perm other.nodup perm name

theorem read_eq_ok {cases : List Case} (h : dir.read = .ok cases) :
    List.Forall₂ (fun name case => dir.Holds name case.input ∧
      dir.Holds (outName name) case.expected) (inputNames dir.entries) cases := by
  obtain ⟨searchable, entries, hstat, _, hcases⟩ := readCases_eq_ok.mp h
  cases dir.stat.symm.trans hstat
  rw [inputPaths_eq, mapM_eq_ok, List.forall₂_map_left_iff] at hcases
  have hinputs : ∀ name ∈ inputNames dir.entries, name ∈ dir.names ∧ isInput name = true :=
    fun _ => mem_inputNames.mp
  refine ((List.forall₂_and_left _ _).mpr ⟨hinputs, hcases⟩).imp fun name case hcase => ?_
  obtain ⟨⟨_, hinput⟩, hcase⟩ := hcase
  obtain ⟨hbytes, hexpected⟩ := (readCase_entry dir.stat hinput case).mp hcase
  exact ⟨(caseFile_eq_some_iff.mp hbytes).1,
    (caseFile_eq_some_iff.mp (caseFile_of_expectedFile hexpected)).1⟩

theorem read_cases_paired {cases : List Case} (h : dir.read = .ok cases) : ∃ inputs : List Name,
    inputs.Pairwise (· < ·) ∧
    (∀ name, name ∈ inputs ↔ name ∈ dir.names ∧ isInput name = true) ∧
    (inputs.map outName).Nodup ∧
    List.Forall₂ (fun name case => dir.Holds name case.input ∧
      dir.Holds (outName name) case.expected) inputs cases := by
  have hsorted := inputNames_pairwise dir.nodup
  refine ⟨inputNames dir.entries, hsorted, fun name => mem_inputNames, ?_, read_eq_ok h⟩
  refine List.Nodup.map_on (fun left hl right hr => ?_) hsorted.nodup
  exact outName_injective (mem_inputNames.mp hl).2 (mem_inputNames.mp hr).2

/-- Only an entry `..in` makes `read_cases` refuse what it should read. -/
theorem paired_iff (dir : Assessment) :
    dir.Paired ↔ parentInput ∉ dir.names ∨ ¬dir.HoldsPairs := by
  constructor
  · rintro ⟨succeeds, _, _⟩
    rw [read_succeeds] at succeeds
    by_cases hpairs : dir.HoldsPairs
    · exact .inl (succeeds.mpr hpairs).1
    · exact .inr hpairs
  · intro hparent
    refine ⟨?_, fun cases => read_cases_paired, fun other path agree => ?_⟩
    · rw [read_succeeds]
      constructor
      · exact And.right
      · exact fun hpairs => ⟨hparent.resolve_right (not_not.mpr hpairs), hpairs⟩
    · rcases agree with agree | perm
      · exact read_congr path agree
      · exact read_perm path perm

end Assessment

/-- One case, of which the expected output is looked for at `/assessment/..`. -/
def dotCase : Assessment where
  files.workingDir := []
  files.root := .directory true true [
    (utf8 "assessment", .directory true true [
      (utf8 "..in", .file true (utf8 "1 1")),
      (utf8 "..out", .file true (utf8 "2"))])]
  files.distinct := by decide
  path := ⟨true, [.name (utf8 "assessment")]⟩
  entries := [
    (utf8 "..in", .file true (utf8 "1 1")),
    (utf8 "..out", .file true (utf8 "2"))]
  stat := rfl
  readable := by decide

theorem dotCase_not_paired :
    dotCase.read = .error (.atPath .invalidData ⟨true, [.name (utf8 "assessment"), .parent]⟩
      s!"not a regular file of at most {maxCaseFile} bytes") ∧ ¬dotCase.Paired := by
  have hread : dotCase.read =
      .error (.atPath .invalidData ⟨true, [.name (utf8 "assessment"), .parent]⟩
        s!"not a regular file of at most {maxCaseFile} bytes") := by decide +kernel
  refine ⟨hread, fun paired => ?_⟩
  have hpairs : dotCase.HoldsPairs := by
    refine ⟨⟨utf8 "..in", List.mem_cons_self, by decide⟩, fun name hname hinput => ?_⟩
    obtain rfl | rfl : name = utf8 "..in" ∨ name = utf8 "..out" := by
      simpa [dotCase, Assessment.names] using hname
    · exact ⟨⟨utf8 "1 1", ⟨true, rfl⟩, by decide⟩, ⟨utf8 "2", ⟨true, rfl⟩, by decide⟩⟩
    · exact absurd hinput (by decide)
  obtain ⟨cases, hcases⟩ := paired.succeeds.mpr hpairs
  cases hread.symm.trans hcases

end Pals.Judge
