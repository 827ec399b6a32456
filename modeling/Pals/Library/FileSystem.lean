import Pals.Library.Fallible
import Pals.Library.Io

/-! A POSIX file system as a tree with symbolic links, and the calls that read it.
A location is the sequence of names that leads to a node from the root without
following any link; a path is what a program asks for, links and all. -/
namespace Pals.Library

/-- Permissions are those of the calling process. -/
inductive Node where
  | file (readable : Bool) (content : Bytes)
  | directory (listable searchable : Bool) (entries : List (Name × Node))
  | link (target : Bytes)
  | special

abbrev Location := List Name

namespace Node

def isDir : Node → Bool
  | directory .. => true
  | _ => false

def isFile : Node → Bool
  | file .. => true
  | _ => false

def isLink : Node → Bool
  | link _ => true
  | _ => false

/-- Metadata gives the size of regular files only. -/
def len : Node → Nat
  | file _ content => content.length
  | _ => 0

def child : Node → Name → Option Node
  | directory _ _ entries, name => entries.lookup name
  | _, _ => none

def get : Node → Location → Option Node
  | node, [] => some node
  | node, name :: location => (node.child name).bind fun next => next.get location

/-- One pass over the components of a path. A link is handed to `follow` with what
is left of the path. -/
def walkWith (root : Node) (follow : Location → List Component → Except Errno Location) :
    Location → List Component → Except Errno Location
  | location, [] => .ok location
  | location, component :: rest =>
      match root.get location with
      | some (directory _ searchable entries) =>
          if searchable then
            match component with
            | .current => walkWith root follow location rest
            | .parent => walkWith root follow location.dropLast rest
            | .name name =>
                match entries.lookup name with
                | none => .error .ENOENT
                | some (link target) =>
                    let path := Path.parse target
                    follow (if path.absolute then [] else location) (path.components ++ rest)
                | some _ => walkWith root follow (location ++ [name]) rest
          else .error .EACCES
      | some _ => .error .ENOTDIR
      | none => .error .ENOENT

def walk (root : Node) : (links : Nat) → Location → List Component → Except Errno Location
  | 0 => root.walkWith fun _ _ => .error .ELOOP
  | links + 1 => root.walkWith (root.walk links)

theorem isFile_and_len_iff {node : Node} {limit : Nat} :
    (node.isFile && decide (node.len ≤ limit)) = true ↔
      ∃ readable content, node = file readable content ∧ content.length ≤ limit := by
  rw [Bool.and_eq_true, decide_eq_true_eq]
  cases node <;> simp [isFile, len]

theorem get_append (node : Node) (first second : Location) :
    node.get (first ++ second) = (node.get first).bind fun next => next.get second := by
  induction first generalizing node with
  | nil => rfl
  | cons name first ih =>
    simp only [List.cons_append, get]
    cases node.child name with
    | none => rfl
    | some next => exact ih next

theorem get_append_of {node next : Node} {location : Location} (h : node.get location = some next)
    (rest : Location) : node.get (location ++ rest) = next.get rest := by
  simp [get_append, h]

theorem get_dropLast {root node : Node} {location : Location} (h : root.get location = some node) :
    ∃ parent, root.get location.dropLast = some parent ∧
      (node.isDir = true → parent.isDir = true) := by
  obtain rfl | ⟨front, name, rfl⟩ := location.eq_nil_or_concat
  · exact ⟨node, h, id⟩
  · rw [List.concat_eq_append, get_append] at h
    obtain ⟨parent, hparent, hchild⟩ := Option.bind_eq_some_iff.mp h
    refine ⟨parent, by simpa using hparent, fun _ => ?_⟩
    cases parent with
    | directory => rfl
    | _ => cases hchild

theorem get_past_link {node : Node} {first rest : Location} {target : Bytes}
    (h : node.get first = some (link target)) (hrest : rest ≠ []) :
    node.get (first ++ rest) = none := by
  rw [get_append_of h]
  cases rest with
  | nil => exact absurd rfl hrest
  | cons name rest => rfl

/-- A resolution that fails on a path fails on every longer one, and one that
succeeds goes on from the place it reached with the links it has left. -/
def Continues (root : Node) (links : Nat)
    (resolve : Location → List Component → Except Errno Location) : Prop :=
  ∀ location path,
    (∀ errno, resolve location path = .error errno →
      ∀ rest, resolve location (path ++ rest) = .error errno) ∧
    (∀ reached, resolve location path = .ok reached →
      ∃ left ≤ links, ∀ rest, resolve location (path ++ rest) = root.walk left reached rest)

theorem walkWith_continues {root : Node} {links : Nat}
    {follow : Location → List Component → Except Errno Location}
    (self : root.walkWith follow = root.walk links) (hfollow : Continues root links follow) :
    Continues root links (root.walkWith follow) := by
  intro location path
  induction path generalizing location with
  | nil =>
    refine ⟨fun errno h => ?_, fun reached h => ?_⟩
    · cases h
    · cases h
      exact ⟨links, Nat.le_refl _, fun rest => by rw [self, List.nil_append]⟩
  | cons component path ih =>
    simp only [List.cons_append, walkWith]
    split
    · split
      · split
        · exact ih location
        · exact ih location.dropLast
        · split
          · exact ⟨fun errno h rest => h, fun reached h => by cases h⟩
          · simp only [← List.append_assoc]
            exact hfollow _ _
          · exact ih _
      · exact ⟨fun errno h rest => h, fun reached h => by cases h⟩
    · exact ⟨fun errno h rest => h, fun reached h => by cases h⟩
    · exact ⟨fun errno h rest => h, fun reached h => by cases h⟩

theorem walk_continues (root : Node) (links : Nat) : Continues root links (root.walk links) := by
  induction links with
  | zero =>
    refine walkWith_continues rfl fun location path => ⟨fun errno h rest => h, fun reached h => ?_⟩
    cases h
  | succ links ih =>
    refine walkWith_continues rfl fun location path => ⟨(ih location path).1, fun reached h => ?_⟩
    obtain ⟨left, hleft, hrest⟩ := (ih location path).2 reached h
    exact ⟨left, Nat.le_succ_of_le hleft, hrest⟩

theorem walk_entry {root : Node} {links : Nat} {location : Location} {listable searchable : Bool}
    {entries : List (Name × Node)}
    (hdir : root.get location = some (directory listable searchable entries)) (name : Name)
    (hlink : ∀ node, entries.lookup name = some node → node.isLink = false)
    (rest : List Component) :
    root.walk links location (.name name :: rest) =
      if searchable then
        match entries.lookup name with
        | none => .error .ENOENT
        | some _ => root.walk links (location ++ [name]) rest
      else .error .EACCES := by
  cases links <;>
  · simp only [walk, walkWith, hdir]
    cases hsearch : searchable with
    | false => rfl
    | true =>
      cases hentry : entries.lookup name with
      | none => rfl
      | some node =>
        have := hlink node hentry
        cases node with
        | link target => cases this
        | _ => rfl

theorem walk_name_eq_ok {root : Node} {links : Nat} {location reached : Location} {name : Name}
    {rest : List Component} (h : root.walk links location (.name name :: rest) = .ok reached) :
    ∃ listable entries node, root.get location = some (directory listable true entries) ∧
      entries.lookup name = some node := by
  cases hget : root.get location with
  | none => cases links <;> simp [walk, walkWith, hget] at h
  | some node =>
    cases node with
    | directory listable searchable entries =>
      cases searchable with
      | false => cases links <;> simp [walk, walkWith, hget] at h
      | true =>
        cases hentry : entries.lookup name with
        | none => cases links <;> simp [walk, walkWith, hget, hentry] at h
        | some next => exact ⟨listable, entries, next, rfl, hentry⟩
    | _ => cases links <;> simp [walk, walkWith, hget] at h

/-- Names followed from a place where none of them is a link lead where they say. -/
theorem walk_names {root : Node} {links : Nat} {location reached : Location} {names : List Name}
    (hlink : ∀ front, front <+: names → front ≠ [] →
      ∀ node, root.get (location ++ front) = some node → node.isLink = false)
    (h : root.walk links location (names.map .name) = .ok reached) :
    reached = location ++ names := by
  induction names generalizing location with
  | nil =>
    cases links <;>
    · cases h
      exact (List.append_nil _).symm
  | cons name names ih =>
    rw [List.map_cons] at h
    obtain ⟨listable, entries, node, hdir, hentry⟩ := walk_name_eq_ok h
    have hnode : ∀ next, entries.lookup name = some next → next.isLink = false := by
      intro next hnext
      apply hlink [name] (by simp) (by simp) next
      rw [get_append_of hdir]
      simp [get, child, hnext]
    rw [walk_entry hdir name hnode] at h
    simp only [hentry, if_true] at h
    rw [ih _ h, List.append_assoc, List.singleton_append]
    intro front hfront _ next hnext
    rw [List.append_assoc] at hnext
    exact hlink (name :: front) (by simpa using hfront) (by simp) next hnext

end Node

structure FileSystem where
  root : Node
  workingDir : Location

namespace FileSystem

def maxLinks : Nat := 40

def resolve (fs : FileSystem) (path : Path) : Except Errno Location :=
  fs.root.walk maxLinks (if path.absolute then [] else fs.workingDir) path.components

def stat (fs : FileSystem) (path : Path) : Except Errno Node := do
  match fs.root.get (← fs.resolve path) with
  | some node => pure node
  | none => .error .ENOENT

def lstat (fs : FileSystem) (path : Path) : Except Errno Node :=
  match path.components.getLast? with
  | some (.name name) => do
      match ← fs.stat ⟨path.absolute, path.components.dropLast⟩ with
      | .directory _ searchable entries =>
          if searchable then
            match entries.lookup name with
            | some node => pure node
            | none => .error .ENOENT
          else .error .EACCES
      | _ => .error .ENOTDIR
  | _ => fs.stat path

def readEntries (fs : FileSystem) (path : Path) : Except Errno (List (Name × Node)) := do
  match ← fs.stat path with
  | .directory listable _ entries => if listable then pure entries else .error .EACCES
  | _ => .error .ENOTDIR

def readDir (fs : FileSystem) (path : Path) : Except Errno (List Name) :=
  (fs.readEntries path).map (List.map Prod.fst)

/-- Reading a device or a pipe is not modelled any further than as an error. -/
def read (fs : FileSystem) (path : Path) : Except Errno Bytes := do
  match ← fs.stat path with
  | .file readable content => if readable then pure content else .error .EACCES
  | .directory .. => .error .EISDIR
  | _ => .error Errno.EIO

theorem stat_eq_ok {fs : FileSystem} {path : Path} {node : Node} :
    fs.stat path = .ok node ↔
      ∃ location, fs.resolve path = .ok location ∧ fs.root.get location = some node := by
  unfold stat
  rw [bind_eq_ok]
  constructor
  · rintro ⟨location, hresolve, h⟩
    cases hget : fs.root.get location with
    | none => simp [hget] at h
    | some found =>
      simp only [hget] at h
      cases h
      exact ⟨location, hresolve, hget⟩
  · rintro ⟨location, hresolve, hget⟩
    exact ⟨location, hresolve, by simp only [hget]; rfl⟩

theorem readEntries_eq_ok {fs : FileSystem} {path : Path} {entries : List (Name × Node)} :
    fs.readEntries path = .ok entries ↔
      ∃ searchable, fs.stat path = .ok (.directory true searchable entries) := by
  unfold readEntries
  rw [bind_eq_ok]
  constructor
  · rintro ⟨node, hstat, h⟩
    cases node with
    | directory listable searchable found =>
      cases listable with
      | false => cases h
      | true =>
        cases h
        exact ⟨searchable, hstat⟩
    | _ => cases h
  · rintro ⟨searchable, hstat⟩
    exact ⟨_, hstat, rfl⟩

theorem readDir_eq_ok {fs : FileSystem} {path : Path} {names : List Name} :
    fs.readDir path = .ok names ↔ ∃ searchable entries,
      fs.stat path = .ok (.directory true searchable entries) ∧ entries.map Prod.fst = names := by
  rw [readDir]
  constructor
  · intro h
    obtain ⟨entries, hentries, hnames⟩ := map_eq_ok.mp h
    obtain ⟨searchable, hstat⟩ := readEntries_eq_ok.mp hentries
    exact ⟨searchable, entries, hstat, hnames⟩
  · rintro ⟨searchable, entries, hstat, rfl⟩
    rw [readEntries_eq_ok.mpr ⟨searchable, hstat⟩]
    rfl

theorem stat_up {fs : FileSystem} {path : Path} {listable : Bool} {entries : List (Name × Node)}
    (h : fs.stat path = .ok (.directory listable true entries)) :
    ∃ node, fs.stat path.up = .ok node ∧ node.isDir = true := by
  obtain ⟨location, hresolve, hdir⟩ := stat_eq_ok.mp h
  obtain ⟨left, _, hrest⟩ := (Node.walk_continues fs.root maxLinks _ _).2 location hresolve
  have hup : fs.resolve path.up = .ok location.dropLast := by
    refine (hrest [.parent]).trans ?_
    cases left <;> simp [Node.walk, Node.walkWith, hdir]
  obtain ⟨node, hnode, hholds⟩ := Node.get_dropLast hdir
  exact ⟨node, stat_eq_ok.mpr ⟨_, hup, hnode⟩, hholds rfl⟩

theorem lstat_up (fs : FileSystem) (path : Path) : fs.lstat path.up = fs.stat path.up := by
  simp [lstat, Path.up]

theorem resolve_entry {fs : FileSystem} {path : Path} {location : Location} (name : Name)
    (h : fs.resolve path = .ok location) : ∃ left ≤ maxLinks,
    fs.resolve (path.entry name) = fs.root.walk left location [.name name] := by
  obtain ⟨left, hleft, hrest⟩ := (Node.walk_continues fs.root maxLinks _ _).2 location h
  exact ⟨left, hleft, hrest [.name name]⟩

theorem lstat_entry_eq (fs : FileSystem) (path : Path) (name : Name) :
    fs.lstat (path.entry name) = (do
      match ← fs.stat path with
      | .directory _ searchable entries =>
          if searchable then
            match entries.lookup name with
            | some node => pure node
            | none => .error .ENOENT
          else .error .EACCES
      | _ => .error .ENOTDIR) := by
  have hlast : (path.entry name).components.getLast? = some (.name name) := by simp [Path.entry]
  have hinit : (⟨(path.entry name).absolute, (path.entry name).components.dropLast⟩ : Path) =
      path := by simp [Path.entry]
  simp only [lstat, hlast, hinit]

theorem lstat_entry {fs : FileSystem} {path : Path} {listable searchable : Bool}
    {entries : List (Name × Node)}
    (h : fs.stat path = .ok (.directory listable searchable entries)) (name : Name) :
    fs.lstat (path.entry name) =
      if searchable then
        match entries.lookup name with
        | some node => .ok node
        | none => .error .ENOENT
      else .error .EACCES := by
  rw [lstat_entry_eq, h]
  rfl

/-- What a directory holds under a name is what its path leads to, unless it is a link. -/
theorem stat_entry {fs : FileSystem} {path : Path} {listable searchable : Bool}
    {entries : List (Name × Node)} {name : Name} {node : Node}
    (h : fs.stat path = .ok (.directory listable searchable entries))
    (hentry : entries.lookup name = some node) (hlink : node.isLink = false) :
    fs.stat (path.entry name) = if searchable then .ok node else .error .EACCES := by
  obtain ⟨location, hresolve, hdir⟩ := stat_eq_ok.mp h
  obtain ⟨left, _, hwalk⟩ := resolve_entry name hresolve
  rw [Node.walk_entry hdir name (by rintro found hfound; cases hentry.symm.trans hfound; exact hlink),
    hentry] at hwalk
  cases searchable with
  | false =>
    rw [stat, hwalk]
    rfl
  | true =>
    have hreached : fs.resolve (path.entry name) = .ok (location ++ [name]) := by
      rw [hwalk]
      cases left <;> rfl
    refine stat_eq_ok.mpr ⟨_, hreached, ?_⟩
    rw [Node.get_append_of hdir]
    simp [Node.get, Node.child, hentry]

theorem read_entry {fs : FileSystem} {path : Path} {listable readable : Bool}
    {entries : List (Name × Node)} {name : Name} {content : Bytes}
    (h : fs.stat path = .ok (.directory listable true entries))
    (hfile : entries.lookup name = some (.file readable content)) :
    fs.read (path.entry name) = if readable then .ok content else .error .EACCES := by
  rw [read, stat_entry h hfile rfl]
  rfl

section Congr
variable {fs other : FileSystem} {path : Path} (h : fs.stat path = other.stat path) (name : Name)
include h

theorem lstat_entry_congr : fs.lstat (path.entry name) = other.lstat (path.entry name) := by
  rw [lstat_entry_eq, lstat_entry_eq, h]

theorem read_entry_congr {readable : Bool} {content : Bytes}
    (hfile : fs.lstat (path.entry name) = .ok (.file readable content)) :
    fs.read (path.entry name) = other.read (path.entry name) := by
  rw [lstat_entry_eq] at hfile
  obtain ⟨node, hstat, hfile⟩ := bind_eq_ok.mp hfile
  cases node with
  | directory listable searchable entries =>
    cases searchable with
    | false => cases hfile
    | true =>
      cases hentry : entries.lookup name with
      | none => simp [hentry] at hfile
      | some node =>
        simp only [hentry, if_true] at hfile
        cases hfile
        rw [read_entry hstat hentry, read_entry (h.symm.trans hstat) hentry]
  | _ => cases hfile

end Congr

end FileSystem
end Pals.Library
