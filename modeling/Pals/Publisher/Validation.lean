import Pals.Publisher.Exercises

/-! The checks that a content repository has to pass before it is published. -/
namespace Pals.Publisher
open Pals.Library Pals.Contracts Std

def report : Name := utf8 "import-report.md"

/-- Anything under the name is a report, a broken link too. -/
def noImportReport (fs : FileSystem) (exercise : Path) : IoResult Unit :=
  let path := exercise.join report
  match fs.lstat path with
  | .ok _ =>
      .error (.atPath .invalidData path "resolve the import losses, then delete this report")
  | .error errno => if errno.kind = .notFound then .ok () else .error (.ofErrno errno)

def files : List String := ["statement.md", "statement.typ", "statement.tex"]

def look (fs : FileSystem) (exercise : Path) (found : List Path) (name : String) :
    IoResult (List Path) :=
  let path := exercise.join (utf8 name)
  match fs.lstat path with
  | .ok metadata =>
      if metadata.isFile then .ok (found ++ [path])
      else .error (.atPath .invalidData path "expected a regular file")
  | .error errno => if errno.kind = .notFound then .ok found else .error (.ofErrno errno)

def statement (fs : FileSystem) (exercise : Path) : IoResult Path := do
  let found ← files.foldlM (look fs exercise) []
  match found with
  | [statement] => return statement
  | _ => .error (.atPath .invalidData exercise
      s!"expected one of {files.map String.quote}, found {found.length}")

def check (fs : FileSystem) (exercise : Path) : IoResult Unit := do
  noImportReport fs exercise
  let _ ← statement fs exercise

/-- The exercises are checked in the order of their identifiers. -/
def validate (fs : FileSystem) (content : Path) : IoResult Unit := do
  (← exercises fs content).toList.forM fun (_, exercise) => check fs exercise

/-- The entry of this name is a regular file, no link to one, and no other name of a
statement has an entry. -/
def IsStatement (inner : List (Name × Node)) (name : String) : Prop :=
  name ∈ files ∧ (∃ node, inner.lookup (utf8 name) = some node ∧ node.isFile = true) ∧
    ∀ other ∈ files, other ≠ name → inner.lookup (utf8 other) = none

def Publishable : Node → Prop
  | .directory _ searchable inner =>
      searchable = true ∧ inner.lookup report = none ∧ ∃ name, IsStatement inner name
  | _ => False

theorem join_report (exercise : Path) : exercise.join report = exercise.entry report :=
  Path.join_name exercise (by decide) (by decide)

theorem join_file {name : String} (h : name ∈ files) (exercise : Path) :
    exercise.join (utf8 name) = exercise.entry (utf8 name) := by
  have hplain : ∀ name ∈ files, slash ∉ utf8 name ∧ Component.ofBytes (utf8 name) = .name (utf8 name) := by
    decide
  exact Path.join_name exercise (hplain name h).1 (hplain name h).2

theorem look_eq_ok {fs : FileSystem} {exercise : Path} {found result : List Path} {name : String} :
    look fs exercise found name = .ok result ↔
      (∃ node, fs.lstat (exercise.join (utf8 name)) = .ok node ∧ node.isFile = true ∧
        found ++ [exercise.join (utf8 name)] = result) ∨
      fs.lstat (exercise.join (utf8 name)) = .error .ENOENT ∧ found = result := by
  simp only [look]
  cases fs.lstat (exercise.join (utf8 name)) with
  | ok node => cases hfile : node.isFile <;> simp [hfile]
  | error errno => cases errno <;> simp [Errno.kind]

section Directory
variable {fs : FileSystem} {path : Path} {listable : Bool} {inner : List (Name × Node)}

theorem noImportReport_eq_ok (h : fs.stat path = .ok (.directory listable true inner)) :
    noImportReport fs path = .ok () ↔ inner.lookup report = none := by
  simp only [noImportReport, join_report, FileSystem.lstat_entry h, if_true]
  cases inner.lookup report <;> simp [Errno.kind]

theorem look_entry (h : fs.stat path = .ok (.directory listable true inner)) {name : String}
    (hname : name ∈ files) {found result : List Path} :
    look fs path found name = .ok result ↔
      (∃ node, inner.lookup (utf8 name) = some node ∧ node.isFile = true ∧
        found ++ [path.entry (utf8 name)] = result) ∨
      inner.lookup (utf8 name) = none ∧ found = result := by
  rw [look_eq_ok, join_file hname, FileSystem.lstat_entry h]
  cases inner.lookup (utf8 name) <;> simp

theorem foldlM_look (h : fs.stat path = .ok (.directory listable true inner)) {names : List String}
    (hnames : ∀ name ∈ names, name ∈ files) {found result : List Path} :
    names.foldlM (look fs path) found = .ok result ↔
      (∀ name ∈ names, ∀ node, inner.lookup (utf8 name) = some node → node.isFile = true) ∧
      found ++ (names.filter fun name => (inner.lookup (utf8 name)).isSome).map
        (fun name => path.entry (utf8 name)) = result := by
  induction names generalizing found with
  | nil => simp [pure, Except.pure]
  | cons name names ih =>
    obtain ⟨hname, hnames⟩ := List.forall_mem_cons.mp hnames
    simp only [List.foldlM_cons, bind_eq_ok, look_entry h hname, ih hnames, List.forall_mem_cons]
    cases hentry : inner.lookup (utf8 name) with
    | none => simp [hentry]
    | some node => simp [hentry, and_assoc]

theorem filter_eq_singleton {α : Type} {p : α → Bool} {as : List α} {a : α} (distinct : as.Nodup) :
    as.filter p = [a] ↔ ∀ b, (b ∈ as ∧ p b = true) ↔ b = a := by
  rw [← List.perm_singleton,
    List.perm_ext_iff_of_nodup (distinct.filter p) (List.nodup_singleton a)]
  simp only [List.mem_filter, List.mem_singleton]

theorem isStatement_iff {name : String} : IsStatement inner name ↔
    (∀ name ∈ files, ∀ node, inner.lookup (utf8 name) = some node → node.isFile = true) ∧
    files.filter (fun name => (inner.lookup (utf8 name)).isSome) = [name] := by
  rw [filter_eq_singleton (by decide)]
  constructor
  · rintro ⟨hname, ⟨node, hentry, hfile⟩, hothers⟩
    have honly {other : String} (hother : other ∈ files) {found : Node}
        (hfound : inner.lookup (utf8 other) = some found) : other = name := by
      by_contra hne
      rw [hothers other hother hne] at hfound
      cases hfound
    refine ⟨fun other hother found hfound => ?_, fun other => ⟨?_, ?_⟩⟩
    · obtain rfl := honly hother hfound
      cases hentry.symm.trans hfound
      exact hfile
    · rintro ⟨hother, hsome⟩
      obtain ⟨found, hfound⟩ := Option.isSome_iff_exists.mp hsome
      exact honly hother hfound
    · rintro rfl
      exact ⟨hname, by rw [hentry]; rfl⟩
  · rintro ⟨hfiles, honly⟩
    obtain ⟨hname, hsome⟩ := (honly name).mpr rfl
    obtain ⟨node, hentry⟩ := Option.isSome_iff_exists.mp hsome
    refine ⟨hname, ⟨node, hentry, hfiles name hname node hentry⟩, fun other hother hne => ?_⟩
    rw [← Option.not_isSome_iff_eq_none]
    exact fun hsome => hne ((honly other).mp ⟨hother, hsome⟩)

theorem statement_eq_ok (h : fs.stat path = .ok (.directory listable true inner)) {file : Path} :
    statement fs path = .ok file ↔
      ∃ name, IsStatement inner name ∧ path.entry (utf8 name) = file := by
  simp only [statement, bind_eq_ok, foldlM_look h fun _ hname => hname, List.nil_append]
  constructor
  · rintro ⟨_, ⟨hfiles, rfl⟩, hmatch⟩
    split at hmatch
    · rename_i found hfound
      cases hmatch
      obtain ⟨name, hname, rfl⟩ := List.map_eq_singleton_iff.mp hfound
      exact ⟨name, isStatement_iff.mpr ⟨hfiles, hname⟩, rfl⟩
    · cases hmatch
  · rintro ⟨name, hname, rfl⟩
    obtain ⟨hfiles, honly⟩ := isStatement_iff.mp hname
    exact ⟨_, ⟨hfiles, rfl⟩, by rw [honly]; rfl⟩

end Directory

theorem check_unreachable {fs : FileSystem} {path : Path} {errno : Errno}
    (h : ∀ name, fs.lstat (path.entry name) = .error errno) : check fs path ≠ .ok () := by
  intro hcheck
  obtain ⟨_, hreport, hcheck⟩ := bind_eq_ok.mp hcheck
  obtain ⟨_, hstatement, _⟩ := bind_eq_ok.mp hcheck
  have herrno : errno = .ENOENT := by
    simp only [noImportReport, join_report, h] at hreport
    cases errno <;> simp [Errno.kind] at hreport ⊢
  subst herrno
  have hnone (name : String) (hname : name ∈ files) : look fs path [] name = .ok [] :=
    look_eq_ok.mpr (.inr ⟨by rw [join_file hname, h], rfl⟩)
  have hfold : files.foldlM (look fs path) [] = .ok [] := by
    rw [files]
    simp only [List.foldlM_cons, List.foldlM_nil, bind_eq_ok, pure, Except.pure]
    exact ⟨_, hnone _ (by decide), _, hnone _ (by decide), _, hnone _ (by decide), rfl⟩
  rw [statement, hfold] at hstatement
  cases hstatement

theorem check_eq_ok {fs : FileSystem} {path : Path} :
    check fs path = .ok () ↔ ∃ node, fs.stat path = .ok node ∧ Publishable node := by
  cases hstat : fs.stat path with
  | error errno =>
    have h (name : Name) : fs.lstat (path.entry name) = .error errno := by
      rw [FileSystem.lstat_entry_eq, hstat]
      rfl
    simp [check_unreachable h]
  | ok node =>
    simp only [Except.ok.injEq, exists_eq_left']
    cases node with
    | directory listable searchable inner =>
      cases searchable with
      | false =>
        have h (name : Name) : fs.lstat (path.entry name) = .error .EACCES :=
          FileSystem.lstat_entry hstat name
        simp [check_unreachable h, Publishable]
      | true =>
        simp only [check, bind_eq_ok, statement_eq_ok hstat, Publishable, true_and]
        constructor
        · rintro ⟨_, hreport, _, ⟨name, hname, _⟩, _⟩
          exact ⟨(noImportReport_eq_ok hstat).mp hreport, name, hname⟩
        · rintro ⟨hreport, name, hname⟩
          exact ⟨(), (noImportReport_eq_ok hstat).mpr hreport, _, ⟨name, hname, rfl⟩, rfl⟩
    | _ =>
      have h (name : Name) : fs.lstat (path.entry name) = .error .ENOTDIR := by
        rw [FileSystem.lstat_entry_eq, hstat]
        rfl
      simp [check_unreachable h, Publishable]

theorem check_congr {fs fs' : FileSystem} {path : Path} (h : fs'.stat path = fs.stat path) :
    check fs' path = check fs path := by
  have hlstat (name : Name) : fs'.lstat (path.entry name) = fs.lstat (path.entry name) := by
    rw [FileSystem.lstat_entry_eq, FileSystem.lstat_entry_eq, h]
  have hlook (found : List Path) (name : String) (hname : name ∈ files) :
      look fs' path found name = look fs path found name := by
    simp only [look, join_file hname, hlstat]
  have hstatement : statement fs' path = statement fs path := by
    rw [statement, statement, foldlM_congr hlook]
  simp only [check, noImportReport, join_report, hlstat, hstatement]

section Tree
variable {tree : Tree} {content : Path} {searchable : Bool} {entries : List (Name × Node)}

theorem stat_exercise {listable : Bool}
    (hstat : tree.stat (exercisesDir content) = .ok (.directory listable searchable entries))
    {entry : Name × Node} (hentry : entry ∈ entries) (hdir : entry.2.isDir = true) :
    tree.stat ((exercisesDir content).entry entry.1) =
      if searchable then .ok entry.2 else .error .EACCES := by
  have hlookup := (lookup_eq_some_iff_mem (tree.nodup_of_stat hstat)).mpr hentry
  refine FileSystem.stat_entry hstat hlookup ?_
  cases hnode : entry.2 <;> simp [hnode, Node.isDir, Node.isLink] at hdir ⊢

theorem validate_eq_ok : validate tree.toFileSystem content = .ok () ↔ ∃ searchable entries,
    tree.stat (exercisesDir content) = .ok (.directory true searchable entries) ∧
    ∀ entry ∈ entries, searchable = true ∧ ValidName entry.1 ∧ Publishable entry.2 := by
  simp only [validate, bind_eq_ok, forM_eq_ok]
  constructor
  · rintro ⟨map, hmap, hchecks⟩
    obtain ⟨searchable, entries, hstat, hentries⟩ := exercises_succeeds.mp ⟨map, hmap⟩
    refine ⟨searchable, entries, hstat, fun entry hentry => ?_⟩
    obtain ⟨hname, hdir⟩ := hentries entry hentry
    obtain ⟨id, hget⟩ := get_of_entry hstat hmap hentry
    have hcheck := hchecks _ (ExtTreeMap.mem_toList_iff_getElem?_eq_some.mpr hget)
    obtain ⟨node, hnode, hpublishable⟩ := check_eq_ok.mp hcheck
    rw [stat_exercise hstat hentry hdir] at hnode
    cases searchable with
    | false => cases hnode
    | true =>
      cases hnode
      exact ⟨rfl, hname, hpublishable⟩
  · rintro ⟨searchable, entries, hstat, hentries⟩
    have hdir {entry : Name × Node} (hentry : entry ∈ entries) : entry.2.isDir = true := by
      obtain ⟨_, _, hpublishable⟩ := hentries entry hentry
      cases hnode : entry.2 <;> simp [hnode, Publishable, Node.isDir] at hpublishable ⊢
    obtain ⟨map, hmap⟩ := exercises_succeeds.mpr
      ⟨searchable, entries, hstat, fun entry hentry => ⟨(hentries entry hentry).2.1, hdir hentry⟩⟩
    refine ⟨map, hmap, fun pair hpair => ?_⟩
    have hget := ExtTreeMap.mem_toList_iff_getElem?_eq_some.mp hpair
    obtain ⟨entry, hentry, _, hpath, hdir⟩ := entry_of_get hstat hmap hget
    obtain ⟨hsearch, _, hpublishable⟩ := hentries entry hentry
    refine check_eq_ok.mpr ⟨entry.2, ?_, hpublishable⟩
    rw [hpath, stat_exercise hstat hentry hdir, if_pos hsearch]

theorem exercises_error_kind {fs : FileSystem} {listable : Bool} {error : IoError}
    (hstat : fs.stat (exercisesDir content) = .ok (.directory listable searchable entries))
    (h : exercises fs content = .error error) :
    error.kind = if listable then .invalidData else .permissionDenied := by
  have hentries : fs.readEntries (exercisesDir content) =
      if listable then .ok entries else .error .EACCES := by
    rw [FileSystem.readEntries, hstat]
    rfl
  rw [exercises, join_exercises, hentries] at h
  cases listable with
  | false =>
    cases h
    rfl
  | true =>
    cases hpairs : entries.mapM (exercise (exercisesDir content)) with
    | ok pairs =>
      simp [Except.mapError, bind, Except.bind, hpairs, pure, Except.pure] at h
    | error found =>
      simp only [if_true, Except.mapError, bind, Except.bind, hpairs, Except.error.injEq] at h
      subst h
      obtain ⟨entry, _, herror⟩ := mapM_eq_error hpairs
      simp only [exercise] at herror
      split at herror <;> cases herror
      rfl

section Order
variable {other : Tree} {listable : Bool} {others : List (Name × Node)}
  (hstat : tree.stat (exercisesDir content) = .ok (.directory listable searchable entries))
  (hother : other.stat (exercisesDir content) = .ok (.directory listable searchable others))
  (perm : others.Perm entries)
include hstat hother perm

theorem exercises_perm {map : ExtTreeMap Id Path compare}
    (h : exercises tree.toFileSystem content = .ok map) :
    exercises other.toFileSystem content = .ok map := by
  obtain ⟨rfl, hentries⟩ := entries_of_exercises hstat h
  obtain ⟨map', h'⟩ := exercises_succeeds.mpr
    ⟨searchable, others, hother, fun entry hentry => hentries entry (perm.mem_iff.mp hentry)⟩
  have hmap : map' = map := by
    apply ExtTreeMap.ext_getElem?
    intro id
    apply Option.ext
    intro path
    rw [exercises_get hother h', exercises_get hstat h, (perm.map Prod.fst).mem_iff]
  rw [h', hmap]

theorem exercises_order : (exercises other.toFileSystem content).mapError IoError.kind =
    (exercises tree.toFileSystem content).mapError IoError.kind := by
  cases h : exercises tree.toFileSystem content with
  | ok map => rw [exercises_perm hstat hother perm h]
  | error error =>
    cases h' : exercises other.toFileSystem content with
    | ok map =>
      have := exercises_perm hother hstat perm.symm h'
      cases h.symm.trans this
    | error error' =>
      rw [Except.mapError, Except.mapError, exercises_error_kind hstat h,
        exercises_error_kind hother h']

theorem validate_order : (validate other.toFileSystem content).mapError IoError.kind =
    (validate tree.toFileSystem content).mapError IoError.kind := by
  have horder := exercises_order hstat hother perm
  simp only [validate]
  cases h : exercises tree.toFileSystem content with
  | ok map =>
    rw [exercises_perm hstat hother perm h]
    have hchecks : ∀ pair ∈ map.toList,
        check other.toFileSystem pair.2 = check tree.toFileSystem pair.2 := by
      intro pair hpair
      have hget := ExtTreeMap.mem_toList_iff_getElem?_eq_some.mp hpair
      obtain ⟨rfl, _⟩ := entries_of_exercises hstat h
      obtain ⟨entry, hentry, _, hpath, hdir⟩ := entry_of_get hstat h hget
      apply check_congr
      rw [hpath, stat_exercise hstat hentry hdir,
        stat_exercise hother (perm.mem_iff.mpr hentry) hdir]
    simp only [bind, Except.bind, forM_congr hchecks]
  | error error =>
    cases h' : exercises other.toFileSystem content with
    | ok map => simp [h, h', Except.mapError] at horder
    | error error' =>
      simpa [h, h', Except.mapError, bind, Except.bind] using horder

end Order

end Tree

/-- A content repository passes when every entry of its exercises, which it must be
possible to list and to search, is a directory with the name of an identifier that can be
published. The entries are the exercises one for one, in whatever order they are listed. -/
theorem validation_is_exact (tree : Tree) (content : Path) :
    (validate tree.toFileSystem content = .ok () ↔ ∃ searchable entries,
      tree.stat (exercisesDir content) = .ok (.directory true searchable entries) ∧
      ∀ entry ∈ entries, searchable = true ∧ ValidName entry.1 ∧ Publishable entry.2) ∧
    (∀ map, exercises tree.toFileSystem content = .ok map → ∃ searchable entries,
      tree.stat (exercisesDir content) = .ok (.directory true searchable entries) ∧
      map.size = entries.length ∧ ∀ (id : Id) (path : Path), map[id]? = some path ↔
        utf8 id.value ∈ entries.map Prod.fst ∧
          path = (exercisesDir content).entry (utf8 id.value)) ∧
    ∀ (other : Tree) (listable searchable : Bool) (entries others : List (Name × Node)),
      tree.stat (exercisesDir content) = .ok (.directory listable searchable entries) →
      other.stat (exercisesDir content) = .ok (.directory listable searchable others) →
      others.Perm entries →
        (exercises other.toFileSystem content).mapError IoError.kind =
          (exercises tree.toFileSystem content).mapError IoError.kind ∧
        (validate other.toFileSystem content).mapError IoError.kind =
          (validate tree.toFileSystem content).mapError IoError.kind := by
  refine ⟨validate_eq_ok, fun map h => ?_,
    fun other listable searchable entries others hstat hother perm => ?_⟩
  · obtain ⟨searchable, entries, hstat, _⟩ := exercises_succeeds.mp ⟨map, h⟩
    exact ⟨searchable, entries, hstat, exercises_size hstat h, exercises_get hstat h⟩
  · exact ⟨exercises_order hstat hother perm, validate_order hstat hother perm⟩

end Pals.Publisher
