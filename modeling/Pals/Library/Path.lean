import Mathlib.Data.List.Basic

/-! Paths of a POSIX file system, as sequences of components over byte names. -/
namespace Pals.Library

abbrev Bytes := List UInt8

def utf8 (text : String) : Bytes := text.toList.flatMap String.utf8EncodeChar

abbrev Name := Bytes

inductive Component where
  | current
  | parent
  | name (name : Name)
deriving DecidableEq, Repr

def slash : UInt8 := 47
def dot : UInt8 := 46

/-- Two separators in a row, or one at the end, stand for the directory itself. -/
def Component.ofBytes (bytes : Bytes) : Component :=
  if bytes = [] ∨ bytes = [dot] then .current
  else if bytes = [dot, dot] then .parent
  else .name bytes

/-- Dots come first, and names are compared byte by byte. -/
def Component.before : Component → Component → Bool
  | .name left, .name right => left < right
  | .current, right => right ≠ .current
  | .parent, .name _ => true
  | _, _ => false

structure Path where
  absolute : Bool
  components : List Component
deriving DecidableEq, Repr

namespace Path

def parse (bytes : Bytes) : Path where
  absolute := bytes.head? == some slash
  components := (bytes.splitOn slash).map Component.ofBytes

/-- An absolute path replaces the one it is joined to. -/
def join (path : Path) (bytes : Bytes) : Path :=
  let joined := parse bytes
  let kept := joined.components.filter (· ≠ .current)
  if joined.absolute then ⟨true, kept⟩ else ⟨path.absolute, path.components ++ kept⟩

def entry (path : Path) (name : Name) : Path :=
  ⟨path.absolute, path.components ++ [.name name]⟩

def Within (path dir : Path) : Prop :=
  path.absolute = dir.absolute ∧ dir.components <+: path.components

theorem join_name (path : Path) {bytes : Bytes} (hslash : slash ∉ bytes)
    (hname : Component.ofBytes bytes = .name bytes) : path.join bytes = path.entry bytes := by
  have hhead : (bytes.head? == some slash) = false := by
    rw [beq_eq_false_iff_ne]
    intro h
    exact hslash (List.mem_of_mem_head? h)
  simp [join, parse, entry, List.splitOn_eq_singleton hslash, hname, hhead]

end Path

/-- A file name at its last dot: the stem, and the extension if there is one. A
name whose only dot is its first byte has none. -/
def splitExtension (name : Name) : Name × Option Name :=
  let after := name.reverse.takeWhile (· ≠ dot)
  match name.reverse.dropWhile (· ≠ dot) with
  | [] => (name, none)
  | _ :: before => if before = [] then (name, none) else (before.reverse, some after.reverse)

def componentsLe : List Component → List Component → Bool
  | [], _ => true
  | _ :: _, [] => false
  | left :: lefts, right :: rights =>
      if left = right then componentsLe lefts rights else left.before right

namespace Path

def le (left right : Path) : Bool := componentsLe left.components right.components

def extension (path : Path) : Option Name :=
  match path.components.getLast? with
  | some (.name name) => (splitExtension name).2
  | _ => none

/-- A path that does not end in a name is left as it is. -/
def setExtension (path : Path) (ext : Name) : Path :=
  match path.components.getLast? with
  | some (.name name) =>
      ⟨path.absolute, path.components.dropLast ++ [.name ((splitExtension name).1 ++ dot :: ext)]⟩
  | _ => path

/-- The old extension is cut off behind its dot before the new one is set. What this
leaves of `..in` is the parent directory, which takes no extension. -/
def withExtension (path : Path) (ext : Name) : Path :=
  match path.components.getLast? with
  | some (.name name) =>
      match splitExtension name with
      | (stem, some _) =>
          setExtension ⟨path.absolute, path.components.dropLast ++ [.ofBytes (stem ++ [dot])]⟩ ext
      | (_, none) => setExtension path ext
  | _ => path

def up (path : Path) : Path := ⟨path.absolute, path.components ++ [.parent]⟩

@[simp] theorem extension_entry (path : Path) (name : Name) :
    (path.entry name).extension = (splitExtension name).2 := by
  simp [extension, entry]

theorem setExtension_entry (path : Path) (name ext : Name) :
    (path.entry name).setExtension ext = path.entry ((splitExtension name).1 ++ dot :: ext) := by
  simp [setExtension, entry]

end Path

theorem splitExtension_concat_dot {stem : Name} (h : stem ≠ []) :
    splitExtension (stem ++ [dot]) = (stem, some []) := by
  simp [splitExtension, h]

theorem stem_ne_nil {name stem ext : Name} (h : splitExtension name = (stem, some ext)) :
    stem ≠ [] := by
  unfold splitExtension at h
  split at h
  · cases h
  · split at h <;> cases h
    simpa using ‹_›

theorem eq_of_splitExtension {name stem ext : Name} (h : splitExtension name = (stem, some ext)) :
    name = stem ++ dot :: ext := by
  unfold splitExtension at h
  have hsplit := List.takeWhile_append_dropWhile (p := (· ≠ dot)) (l := name.reverse)
  split at h
  · cases h
  · rename_i found before hdrop
    split at h
    · cases h
    · cases h
      have hdot : found = dot := by
        have hhead := List.head?_dropWhile_not (· ≠ dot) name.reverse
        rw [hdrop] at hhead
        simpa using hhead
      rw [hdrop, hdot] at hsplit
      have hname := congrArg List.reverse hsplit
      simpa using hname.symm

namespace Path

theorem withExtension_entry_of_name {name stem old : Name} (path : Path) (ext : Name)
    (h : splitExtension name = (stem, some old)) (hstem : stem ≠ [dot]) :
    (path.entry name).withExtension ext = path.entry (stem ++ dot :: ext) := by
  have hbytes : Component.ofBytes (stem ++ [dot]) = .name (stem ++ [dot]) := by
    simp [Component.ofBytes, stem_ne_nil h, List.append_eq_cons_iff, hstem]
  have hcut := setExtension_entry path (stem ++ [dot]) ext
  rw [splitExtension_concat_dot (stem_ne_nil h)] at hcut
  rw [← hcut]
  simp [withExtension, entry, h, hbytes]

theorem withExtension_entry_of_dot {name old : Name} (path : Path) (ext : Name)
    (h : splitExtension name = ([dot], some old)) :
    (path.entry name).withExtension ext = path.up := by
  simp [withExtension, setExtension, entry, up, h, Component.ofBytes]

end Path

example : splitExtension (utf8 "a.b.in") = (utf8 "a.b", some (utf8 "in")) := by decide
example : splitExtension (utf8 ".in") = (utf8 ".in", none) := by decide
example : (Path.entry ⟨true, []⟩ (utf8 "a..in")).withExtension (utf8 "out") =
    Path.entry ⟨true, []⟩ (utf8 "a..out") := by decide

end Pals.Library
