import Pals.Library.Io

/-! A pipe of a bounded capacity, with a writing and a reading end that may be closed.
How much an end moves at once is the choice of a scheduler; `none` says that it has to
wait. -/
namespace Pals.Library

structure Pipe (α : Type) (capacity : Nat) where
  held : List α
  bounded : held.length ≤ capacity
  readable : Bool
  writable : Bool

namespace Pipe
variable {α : Type} {capacity : Nat}

def empty : Pipe α capacity := ⟨[], Nat.zero_le _, true, true⟩

def closeReader (pipe : Pipe α capacity) : Pipe α capacity := { pipe with readable := false }
def closeWriter (pipe : Pipe α capacity) : Pipe α capacity := { pipe with writable := false }

/-- The end of the stream is a read of nothing. -/
def read (pipe : Pipe α capacity) (n : Nat) : Option (List α × Pipe α capacity) :=
  if pipe.held = [] then
    if pipe.writable then none else some ([], pipe)
  else if 0 < n ∧ n ≤ pipe.held.length then
    some (pipe.held.take n, { pipe with
      held := pipe.held.drop n
      bounded := Nat.le_trans (List.drop_sublist n pipe.held).length_le pipe.bounded })
  else none

/-- What is left to write, and the pipe. A pipe that nobody can read is broken. -/
def write (pipe : Pipe α capacity) (data : List α) (n : Nat) :
    Option (Except Errno (List α × Pipe α capacity)) :=
  if pipe.readable then
    if h : 0 < n ∧ n ≤ data.length ∧ pipe.held.length + n ≤ capacity then
      some (.ok (data.drop n, { pipe with
        held := pipe.held ++ data.take n
        bounded := by simpa [Nat.min_eq_left h.2.1] using h.2.2 }))
    else none
  else some (.error .EPIPE)

@[simp] theorem closeReader_held (pipe : Pipe α capacity) : pipe.closeReader.held = pipe.held := rfl
@[simp] theorem closeReader_readable (pipe : Pipe α capacity) : pipe.closeReader.readable = false := rfl
@[simp] theorem closeReader_writable (pipe : Pipe α capacity) :
    pipe.closeReader.writable = pipe.writable := rfl
@[simp] theorem closeWriter_held (pipe : Pipe α capacity) : pipe.closeWriter.held = pipe.held := rfl
@[simp] theorem closeWriter_readable (pipe : Pipe α capacity) :
    pipe.closeWriter.readable = pipe.readable := rfl
@[simp] theorem closeWriter_writable (pipe : Pipe α capacity) : pipe.closeWriter.writable = false := rfl

theorem read_spec {pipe next : Pipe α capacity} {n : Nat} {taken : List α}
    (h : pipe.read n = some (taken, next)) :
    taken ++ next.held = pipe.held ∧ next.readable = pipe.readable ∧
      next.writable = pipe.writable ∧ taken.length ≤ n ∧
      (taken = [] → next = pipe ∧ pipe.held = [] ∧ pipe.writable = false) := by
  unfold read at h
  split at h
  · rename_i hempty
    split at h <;> cases h
    rename_i hclosed
    exact ⟨by simp, rfl, rfl, Nat.zero_le _, fun _ => ⟨rfl, hempty, by simpa using hclosed⟩⟩
  · rename_i hheld
    split at h <;> cases h
    rename_i hn
    refine ⟨List.take_append_drop _ _, rfl, rfl, List.length_take_le _ _, fun hnone => ?_⟩
    rcases List.take_eq_nil_iff.mp hnone with hzero | hempty
    · omega
    · exact absurd hempty hheld

theorem write_spec {pipe next : Pipe α capacity} {data rest : List α} {n : Nat}
    (h : pipe.write data n = some (.ok (rest, next))) :
    rest = data.drop n ∧ rest.length < data.length ∧ next.held = pipe.held ++ data.take n ∧
      pipe.readable = true ∧ next.readable = true ∧ next.writable = pipe.writable := by
  unfold write at h
  split at h
  · rename_i hreadable
    split at h <;> cases h
    rename_i hn
    refine ⟨rfl, ?_, rfl, hreadable, hreadable, rfl⟩
    rw [List.length_drop]
    omega
  · cases h

theorem write_error {pipe : Pipe α capacity} {data : List α} {n : Nat} {errno : Errno}
    (h : pipe.write data n = some (.error errno)) : errno = .EPIPE ∧ pipe.readable = false := by
  unfold write at h
  split at h
  · split at h <;> cases h
  · rename_i hbroken
    cases h
    exact ⟨rfl, by simpa using hbroken⟩

theorem read_waits_iff {pipe : Pipe α capacity} :
    (∀ n, pipe.read n = none) ↔ pipe.held = [] ∧ pipe.writable = true := by
  unfold read
  by_cases hempty : pipe.held = []
  · simp [hempty]
  · simp only [hempty, if_false, false_and, iff_false, not_forall]
    exact ⟨1, by simp [hempty]⟩

theorem write_waits_iff {pipe : Pipe α capacity} {data : List α} (hdata : data ≠ []) :
    (∀ n, pipe.write data n = none) ↔ pipe.held.length = capacity ∧ pipe.readable = true := by
  have hpos := List.length_pos_iff.mpr hdata
  have hbounded := pipe.bounded
  unfold write
  cases pipe.readable with
  | false => simp
  | true =>
    simp only [if_true, dite_eq_right_iff, reduceCtorEq, imp_false, and_true]
    constructor
    · intro h
      have := h 1
      omega
    · intro h n
      omega

theorem read_one {pipe : Pipe α capacity} (h : pipe.held ≠ [] ∨ pipe.writable = false) :
    (pipe.read 1).isSome = true := by
  unfold read
  by_cases hempty : pipe.held = []
  · simp [hempty, h.resolve_left (by simpa using hempty)]
  · have hpos := List.length_pos_iff.mpr hempty
    simp [hempty, Nat.succ_le_of_lt hpos]

theorem write_one {pipe : Pipe α capacity} {data : List α} (hdata : data ≠ [])
    (h : pipe.held.length < capacity ∨ pipe.readable = false) :
    (pipe.write data 1).isSome = true := by
  have hpos := List.length_pos_iff.mpr hdata
  unfold write
  cases hreadable : pipe.readable with
  | false => rfl
  | true =>
    have hroom : pipe.held.length < capacity := h.resolve_right (by simp [hreadable])
    have hone : 0 < 1 ∧ 1 ≤ data.length ∧ pipe.held.length + 1 ≤ capacity := by omega
    simp [hone]

end Pipe
end Pals.Library
