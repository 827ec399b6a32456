import Mathlib.Order.Basic
import Mathlib.Order.Lattice
import Mathlib.Tactic.Ring

/-! Spans and instants of time as nanosecond counts within a fixed range. The
range is part of the type, and an operation whose exact result lies outside it
answers `overflow` instead of a wrapped value. -/
namespace Pals.Library.Time

inductive Overflow where
  | overflow
deriving DecidableEq, Repr

abbrev Checked := Except Overflow

theorem checked_eq_ok {α : Type} {p : Prop} [Decidable p] {value : p → α} {a : α} :
    (if h : p then Except.ok (value h) else Except.error Overflow.overflow) = .ok a ↔
      ∃ h, value h = a := by
  by_cases h : p <;> simp [h]

def nanosPerSec : Nat := 10 ^ 9

def durationLimit : Nat := 2 ^ 64 * nanosPerSec

def instantLimit : Int := 2 ^ 63 * nanosPerSec

structure Duration where
  nanos : Nat
  bounded : nanos < durationLimit
deriving DecidableEq

structure SystemTime where
  nanos : Int
  lower : -instantLimit ≤ nanos
  upper : nanos < instantLimit
deriving DecidableEq

theorem SystemTime.nanos_injective : Function.Injective SystemTime.nanos := by
  intro s t h
  cases s
  cases t
  congr

instance : LinearOrder SystemTime := LinearOrder.lift' SystemTime.nanos SystemTime.nanos_injective

theorem SystemTime.le_def (s t : SystemTime) : s ≤ t ↔ s.nanos ≤ t.nanos := Iff.rfl
theorem SystemTime.lt_def (s t : SystemTime) : s < t ↔ s.nanos < t.nanos := Iff.rfl

namespace Duration

def zero : Duration := ⟨0, by decide⟩

def isZero (d : Duration) : Bool := d.nanos == 0

def ofNanos (n : Nat) : Checked Duration :=
  if h : n < durationLimit then .ok ⟨n, h⟩ else .error .overflow

def mul (d : Duration) (factor : Nat) : Checked Duration := ofNanos (d.nanos * factor)

/-- Division by a constant rounds down to the nanosecond. -/
def div (d : Duration) (divisor : Nat) : Duration :=
  ⟨d.nanos / divisor, (Nat.div_le_self _ _).trans_lt d.bounded⟩

theorem ofNanos_eq_ok {n : Nat} {d : Duration} : ofNanos n = .ok d ↔ d.nanos = n := by
  rw [ofNanos, checked_eq_ok]
  constructor
  · rintro ⟨_, rfl⟩
    rfl
  · rintro rfl
    exact ⟨d.bounded, rfl⟩

theorem ofNanos_succeeds {n : Nat} : (∃ d, ofNanos n = .ok d) ↔ n < durationLimit := by
  constructor
  · rintro ⟨d, h⟩
    rw [← ofNanos_eq_ok.mp h]
    exact d.bounded
  · exact fun h => ⟨⟨n, h⟩, ofNanos_eq_ok.mpr rfl⟩

@[simp] theorem mul_eq_ok {d e : Duration} {factor : Nat} :
    d.mul factor = .ok e ↔ e.nanos = d.nanos * factor := ofNanos_eq_ok

theorem mul_succeeds {d : Duration} {factor : Nat} :
    (∃ e, d.mul factor = .ok e) ↔ d.nanos * factor < durationLimit := ofNanos_succeeds

@[simp] theorem div_nanos (d : Duration) (divisor : Nat) :
    (d.div divisor).nanos = d.nanos / divisor := rfl

@[simp] theorem isZero_iff (d : Duration) : d.isZero = true ↔ d.nanos = 0 := by
  simp [isZero]

end Duration

namespace SystemTime

def ofNanos (n : Int) : Checked SystemTime :=
  if h : -instantLimit ≤ n ∧ n < instantLimit then .ok ⟨n, h.1, h.2⟩ else .error .overflow

def second (seconds : UInt32) : SystemTime :=
  ⟨seconds.toNat * nanosPerSec, by
    simp only [instantLimit, nanosPerSec]
    omega, by
    have := seconds.toNat_lt
    simp only [instantLimit, nanosPerSec]
    omega⟩

def add (t : SystemTime) (d : Duration) : Checked SystemTime := ofNanos (t.nanos + d.nanos)

/-- The span from `earlier` to `later`, or nothing when they are reversed. Any
two instants are less than a full range of spans apart. -/
def durationSince (later earlier : SystemTime) : Option Duration :=
  if earlier ≤ later then
    some ⟨(later.nanos - earlier.nanos).toNat, by
      have hl := later.upper
      have he := earlier.lower
      simp only [instantLimit, durationLimit, nanosPerSec] at *
      omega⟩
  else none

theorem ofNanos_eq_ok {n : Int} {t : SystemTime} : ofNanos n = .ok t ↔ t.nanos = n := by
  rw [ofNanos, checked_eq_ok]
  constructor
  · rintro ⟨_, rfl⟩
    rfl
  · rintro rfl
    exact ⟨⟨t.lower, t.upper⟩, rfl⟩

@[simp] theorem add_eq_ok {t u : SystemTime} {d : Duration} :
    t.add d = .ok u ↔ u.nanos = t.nanos + d.nanos := ofNanos_eq_ok

theorem add_succeeds {t : SystemTime} {d : Duration} :
    (∃ u, t.add d = .ok u) ↔ t.nanos + d.nanos < instantLimit := by
  constructor
  · rintro ⟨u, h⟩
    rw [← add_eq_ok.mp h]
    exact u.upper
  · intro h
    have hlower := t.lower
    exact ⟨⟨t.nanos + d.nanos, by omega, h⟩, add_eq_ok.mpr rfl⟩

theorem durationSince_nanos (later earlier : SystemTime) :
    ((later.durationSince earlier).getD .zero).nanos = (later.nanos - earlier.nanos).toNat := by
  unfold durationSince
  split
  · rfl
  · rename_i h
    rw [le_def] at h
    simp only [Option.getD_none, Duration.zero]
    omega

end SystemTime
end Pals.Library.Time
