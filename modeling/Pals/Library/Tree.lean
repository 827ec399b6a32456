import Pals.Library.FileSystem

/-! File systems in which a directory holds one entry a name. What a program asks of a
directory by name is then what its listing says, in whichever order. -/
namespace Pals.Library

theorem lookup_eq_some_iff_mem {α β : Type} [BEq α] [LawfulBEq α] {entries : List (α × β)}
    (distinct : (entries.map Prod.fst).Nodup) {key : α} {value : β} :
    entries.lookup key = some value ↔ (key, value) ∈ entries := by
  induction entries with
  | nil => simp
  | cons entry entries ih =>
    obtain ⟨hnew, hrest⟩ := List.nodup_cons.mp distinct
    rw [List.lookup_cons, List.mem_cons]
    by_cases hkey : key = entry.1
    · subst hkey
      have hmem : (entry.1, value) ∉ entries := fun h => hnew (List.mem_map.mpr ⟨_, h, rfl⟩)
      simp [hmem, Prod.ext_iff, eq_comm]
    · simp [beq_eq_false_iff_ne.mpr hkey, hkey, ih hrest, Prod.ext_iff]

theorem lookup_eq_none_iff_notMem {α β : Type} [BEq α] [LawfulBEq α] {entries : List (α × β)} {key : α} :
    entries.lookup key = none ↔ key ∉ entries.map Prod.fst := by
  rw [List.lookup_eq_none_iff]
  constructor
  · intro h hmem
    obtain ⟨entry, hentry, rfl⟩ := List.mem_map.mp hmem
    simpa using h entry hentry
  · intro h entry hentry
    rw [bne_iff_ne]
    rintro rfl
    exact h (List.mem_map.mpr ⟨entry, hentry, rfl⟩)

theorem lookup_perm {α β : Type} [BEq α] [LawfulBEq α] {entries others : List (α × β)}
    (distinct : (entries.map Prod.fst).Nodup) (perm : entries.Perm others) (key : α) :
    entries.lookup key = others.lookup key := by
  apply Option.ext
  intro value
  rw [lookup_eq_some_iff_mem distinct,
    lookup_eq_some_iff_mem ((perm.map Prod.fst).nodup_iff.mp distinct), perm.mem_iff]

mutual
def Node.distinct : Node → Bool
  | .directory _ _ entries => (entries.map Prod.fst).Nodup && allDistinct entries
  | _ => true

def allDistinct : List (Name × Node) → Bool
  | [] => true
  | (_, node) :: entries => node.distinct && allDistinct entries
end

theorem Node.distinct_of_lookup {entries : List (Name × Node)} {name : Name} {node : Node}
    (h : allDistinct entries = true) (hentry : entries.lookup name = some node) :
    node.distinct = true := by
  induction entries with
  | nil => cases hentry
  | cons entry entries ih =>
    rw [allDistinct, Bool.and_eq_true] at h
    rw [List.lookup_cons] at hentry
    split at hentry
    · cases hentry
      exact h.1
    · exact ih h.2 hentry

theorem Node.distinct_get {root node : Node} {location : Location} (h : root.distinct = true)
    (hget : root.get location = some node) : node.distinct = true := by
  induction location generalizing root with
  | nil =>
    cases hget
    exact h
  | cons name location ih =>
    obtain ⟨next, hnext, hrest⟩ := Option.bind_eq_some_iff.mp hget
    cases root with
    | directory listable searchable entries =>
      rw [distinct, Bool.and_eq_true] at h
      exact ih (distinct_of_lookup h.2 hnext) hrest
    | _ => cases hnext

structure Tree extends FileSystem where
  distinct : root.distinct = true

theorem Tree.nodup_of_stat {tree : Tree} {path : Path} {listable searchable : Bool}
    {entries : List (Name × Node)}
    (h : tree.stat path = .ok (.directory listable searchable entries)) :
    (entries.map Prod.fst).Nodup := by
  obtain ⟨location, _, hget⟩ := FileSystem.stat_eq_ok.mp h
  have hdir := Node.distinct_get tree.distinct hget
  rw [Node.distinct, Bool.and_eq_true] at hdir
  exact of_decide_eq_true hdir.1

end Pals.Library
