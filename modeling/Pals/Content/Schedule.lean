import Mathlib.Data.List.Basic
import Pals.Library.Time

/-! The single opening rule, as `packages/content` computes it. A panic of the
standard library's time arithmetic is an `Overflow`. -/
namespace Pals.Content
open Pals.Library.Time

structure Window where
  opensAt : SystemTime
  closesAt : SystemTime
deriving DecidableEq

def Window.contains (window : Window) (now : SystemTime) : Bool :=
  window.opensAt ≤ now && now < window.closesAt

def Window.length (window : Window) : Duration :=
  (window.closesAt.durationSince window.opensAt).getD .zero

inductive ExtraTime where
  | percent (percent : UInt32)
  | fixed (extra : Duration)
deriving DecidableEq

structure Accommodation where
  extraTime : ExtraTime
  startShift : Duration
deriving DecidableEq

def Accommodation.extra (accommodation : Accommodation) (window : Window) : Checked Duration :=
  match accommodation.extraTime with
  | .percent percent => do return (← window.length.mul percent.toNat).div 100
  | .fixed extra => pure extra

def Accommodation.apply (accommodation : Accommodation) (window : Window) : Checked Window :=
  if window.length.isZero then pure window
  else do
    let extra ← accommodation.extra window
    let opensAt ← window.opensAt.add accommodation.startShift
    let shifted ← window.closesAt.add accommodation.startShift
    let closesAt ← shifted.add extra
    pure { opensAt, closesAt }

structure Schedule where
  extension : Option Window
  group : Option Window
  offering : Option Window
  accommodation : Option Accommodation
  modeAppliesAccommodation : Bool
deriving DecidableEq

def between (opens closes : UInt32) : Window := ⟨.second opens, .second closes⟩

/-- `Schedule::default()`. -/
def Schedule.closed : Schedule := ⟨none, none, none, none, false⟩

def Schedule.window (schedule : Schedule) : Checked (Option Window) :=
  match (schedule.extension.or schedule.group).or schedule.offering with
  | none => pure none
  | some window => some <$>
      match schedule.accommodation with
      | some accommodation =>
          if schedule.modeAppliesAccommodation then accommodation.apply window else pure window
      | none => pure window

def Schedule.isOpen (schedule : Schedule) (now : SystemTime) : Checked Bool := do
  return (← schedule.window).any (·.contains now)

def sessionClosesAt (students : List Schedule) : Checked (Option SystemTime) := do
  let windows ← students.mapM Schedule.window
  return (windows.filterMap fun window => window.map Window.closesAt).max?

theorem Window.contains_iff (window : Window) (now : SystemTime) :
    window.contains now = true ↔
      window.opensAt.nanos ≤ now.nanos ∧ now.nanos < window.closesAt.nanos := by
  simp [contains, SystemTime.le_def, SystemTime.lt_def]

theorem Window.length_nanos (window : Window) :
    window.length.nanos = (window.closesAt.nanos - window.opensAt.nanos).toNat :=
  SystemTime.durationSince_nanos _ _

theorem Window.length_isZero (window : Window) :
    window.length.isZero = true ↔ window.closesAt.nanos ≤ window.opensAt.nanos := by
  rw [Duration.isZero_iff, length_nanos]
  omega

end Pals.Content
