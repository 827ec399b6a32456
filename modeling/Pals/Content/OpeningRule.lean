import Mathlib.Data.Int.ConditionallyCompleteOrder
import Mathlib.Order.ConditionallyCompleteLattice.Basic
import Mathlib.Order.Interval.Set.Basic
import Pals.Content.Schedule
import Pals.Library.Fallible

/-! What the opening rule is for: the set of instants at which one student can
work on one activity. The arithmetic of `Schedule::window` decides membership in
it, whenever it does not leave the range of the time types. The instants that a
schedule holds are in range by construction, so only an accommodation can lead out
of it, and only on a window that opens at all. -/
namespace Pals.Content
open Pals.Library Pals.Library.Time

/-- A present window always stands in front of the windows of lower priority. -/
def Schedule.governing (schedule : Schedule) : Option Window :=
  match schedule.extension, schedule.group, schedule.offering with
  | some window, _, _ => some window
  | none, some window, _ => some window
  | none, none, window => window

def Schedule.applied (schedule : Schedule) : Option Accommodation :=
  if schedule.modeAppliesAccommodation then schedule.accommodation else none

/-- Extra time is measured on the window before any shift. -/
def Accommodation.extraNanos (accommodation : Accommodation) (window : Window) : Nat :=
  match accommodation.extraTime with
  | .percent percent =>
      (window.closesAt.nanos - window.opensAt.nanos).toNat * percent.toNat / 100
  | .fixed extra => extra.nanos

def Window.nonempty (window : Window) : Prop := window.opensAt.nanos < window.closesAt.nanos

instance (window : Window) : Decidable window.nonempty := inferInstanceAs (Decidable (_ < _))

def Window.instants (window : Window) : Set Int :=
  Set.Ico window.opensAt.nanos window.closesAt.nanos

def Accommodation.instants (accommodation : Accommodation) (window : Window) : Set Int :=
  Set.Ico (window.opensAt.nanos + accommodation.startShift.nanos)
    (window.closesAt.nanos + accommodation.startShift.nanos + accommodation.extraNanos window)

def Schedule.workingTime (schedule : Schedule) : Set Int :=
  match schedule.governing with
  | none => ∅
  | some window =>
      if window.nonempty then
        match schedule.applied with
        | none => window.instants
        | some accommodation => accommodation.instants window
      else ∅

/-- The product is taken before it is divided by 100, and both ends of the window
move before the extra time is added. -/
structure Accommodation.InRange (accommodation : Accommodation) (window : Window) : Prop where
  product : ∀ percent, accommodation.extraTime = .percent percent →
    (window.closesAt.nanos - window.opensAt.nanos).toNat * percent.toNat < durationLimit
  closing : window.closesAt.nanos + accommodation.startShift.nanos +
    accommodation.extraNanos window < instantLimit

def Schedule.InRange (schedule : Schedule) : Prop :=
  ∀ window ∈ schedule.governing, window.nonempty →
    ∀ accommodation ∈ schedule.applied, accommodation.InRange window

theorem Window.mem_instants (window : Window) (now : SystemTime) :
    now.nanos ∈ window.instants ↔ window.contains now = true := by
  rw [contains_iff, instants, Set.mem_Ico]

theorem Window.instants_eq_empty {window : Window} (h : ¬ window.nonempty) :
    window.instants = ∅ := Set.Ico_eq_empty h

theorem Accommodation.extra_eq_ok {accommodation : Accommodation} {window : Window}
    {extra : Duration} (h : accommodation.extra window = .ok extra) :
    extra.nanos = accommodation.extraNanos window := by
  unfold Accommodation.extra at h
  unfold Accommodation.extraNanos
  cases htime : accommodation.extraTime with
  | percent percent =>
    rw [htime] at h
    obtain ⟨product, hproduct, hextra⟩ := bind_eq_ok.mp h
    cases hextra
    rw [Duration.div_nanos, Duration.mul_eq_ok.mp hproduct, Window.length_nanos]
  | fixed fixed =>
    rw [htime] at h
    cases h
    rfl

theorem Accommodation.apply_eq_ok {accommodation : Accommodation} {window result : Window}
    (h : accommodation.apply window = .ok result) :
    (¬ window.nonempty ∧ result = window) ∨
    (window.nonempty ∧
      result.opensAt.nanos = window.opensAt.nanos + accommodation.startShift.nanos ∧
      result.closesAt.nanos = window.closesAt.nanos + accommodation.startShift.nanos +
        accommodation.extraNanos window) := by
  unfold Accommodation.apply at h
  split at h
  · rename_i hzero
    cases h
    exact .inl ⟨not_lt.mpr ((window.length_isZero).mp hzero), rfl⟩
  · rename_i hlength
    rw [Window.length_isZero, not_le] at hlength
    obtain ⟨extra, hextra, h⟩ := bind_eq_ok.mp h
    obtain ⟨opens, hopens, h⟩ := bind_eq_ok.mp h
    obtain ⟨shifted, hshifted, h⟩ := bind_eq_ok.mp h
    obtain ⟨closes, hcloses, h⟩ := bind_eq_ok.mp h
    cases h
    rw [SystemTime.add_eq_ok] at hopens hshifted hcloses
    rw [← extra_eq_ok hextra, ← hshifted]
    exact .inr ⟨hlength, hopens, hcloses⟩

theorem Accommodation.extra_succeeds {accommodation : Accommodation} {window : Window} :
    (∃ extra, accommodation.extra window = .ok extra) ↔
      ∀ percent, accommodation.extraTime = .percent percent →
        (window.closesAt.nanos - window.opensAt.nanos).toNat * percent.toNat < durationLimit := by
  unfold extra
  cases accommodation.extraTime with
  | percent percent =>
    simp only [ExtraTime.percent.injEq, forall_eq', bind_eq_ok, ← window.length_nanos,
      ← Duration.mul_succeeds]
    exact ⟨fun ⟨_, product, h, _⟩ => ⟨product, h⟩, fun ⟨product, h⟩ => ⟨_, product, h, rfl⟩⟩
  | fixed extra => simp [pure, Except.pure]

theorem Accommodation.apply_succeeds {accommodation : Accommodation} {window : Window} :
    (∃ result, accommodation.apply window = .ok result) ↔
      (window.nonempty → accommodation.InRange window) := by
  unfold apply
  by_cases hempty : window.closesAt.nanos ≤ window.opensAt.nanos
  · rw [if_pos (window.length_isZero.mpr hempty)]
    exact iff_of_true ⟨window, rfl⟩ fun h => absurd h (not_lt.mpr hempty)
  · have hnonempty : window.nonempty := not_le.mp hempty
    rw [if_neg (mt window.length_isZero.mp hempty), imp_iff_right hnonempty]
    constructor
    · rintro ⟨result, h⟩
      obtain ⟨extra, hextra, h⟩ := bind_eq_ok.mp h
      obtain ⟨opens, _, h⟩ := bind_eq_ok.mp h
      obtain ⟨shifted, hshifted, h⟩ := bind_eq_ok.mp h
      obtain ⟨closes, hcloses, _⟩ := bind_eq_ok.mp h
      refine ⟨extra_succeeds.mp ⟨extra, hextra⟩, ?_⟩
      rw [SystemTime.add_eq_ok] at hshifted hcloses
      rw [← hshifted, ← extra_eq_ok hextra, ← hcloses]
      exact closes.upper
    · rintro ⟨hproduct, hclosing⟩
      obtain ⟨extra, hextra⟩ := extra_succeeds.mpr hproduct
      rw [← extra_eq_ok hextra] at hclosing
      -- The window opens before it closes, so its opening stays in range as well.
      obtain ⟨opens, hopens⟩ := (SystemTime.add_succeeds (t := window.opensAt)
        (d := accommodation.startShift)).mpr (by unfold Window.nonempty at hnonempty; omega)
      obtain ⟨shifted, hshifted⟩ := (SystemTime.add_succeeds (t := window.closesAt)
        (d := accommodation.startShift)).mpr (by omega)
      obtain ⟨closes, hcloses⟩ := (SystemTime.add_succeeds (t := shifted) (d := extra)).mpr
        (by rw [SystemTime.add_eq_ok.mp hshifted]; exact hclosing)
      exact ⟨⟨opens, closes⟩, bind_eq_ok.mpr ⟨extra, hextra, bind_eq_ok.mpr ⟨opens, hopens,
        bind_eq_ok.mpr ⟨shifted, hshifted, bind_eq_ok.mpr ⟨closes, hcloses, rfl⟩⟩⟩⟩⟩

theorem Schedule.window_eq (schedule : Schedule) :
    schedule.window = match schedule.governing with
      | none => pure none
      | some window => some <$>
          match schedule.applied with
          | some accommodation => accommodation.apply window
          | none => pure window := by
  rcases schedule with ⟨extension, group, offering, accommodation, mode⟩
  cases extension <;> cases group <;> cases offering <;> cases accommodation <;> cases mode <;> rfl

theorem Schedule.window_succeeds {schedule : Schedule} :
    (∃ window, schedule.window = .ok window) ↔ schedule.InRange := by
  rw [window_eq]
  unfold InRange
  cases schedule.governing with
  | none => simp [pure, Except.pure]
  | some window =>
    cases schedule.applied with
    | none => simp [pure, Except.pure, Functor.map, Except.map]
    | some accommodation =>
      simp only [map_eq_ok, Option.mem_some_iff, forall_eq', ← Accommodation.apply_succeeds]
      exact ⟨fun ⟨_, result, h, _⟩ => ⟨result, h⟩, fun ⟨result, h⟩ => ⟨_, result, h, rfl⟩⟩

/-- The window that `Schedule::window` resolves spans the working time, and is
never shorter than the one it started from. -/
theorem Schedule.window_eq_ok {schedule : Schedule} {result : Option Window}
    (h : schedule.window = .ok result) :
    (schedule.governing = none ∧ result = none) ∨
    ∃ window resolved, schedule.governing = some window ∧ result = some resolved ∧
      resolved.instants = schedule.workingTime ∧
      window.length.nanos ≤ resolved.length.nanos := by
  rw [window_eq] at h
  unfold workingTime
  cases hgov : schedule.governing with
  | none =>
    rw [hgov] at h
    cases h
    exact .inl ⟨rfl, rfl⟩
  | some window =>
    rw [hgov] at h
    obtain ⟨resolved, hresolved, rfl⟩ := map_eq_ok.mp h
    refine .inr ⟨window, resolved, rfl, rfl, ?_⟩
    cases happ : schedule.applied with
    | none =>
      rw [happ] at hresolved
      cases hresolved
      refine ⟨?_, le_rfl⟩
      by_cases hempty : window.nonempty
      · simp [hempty]
      · simp [hempty, Window.instants_eq_empty hempty]
    | some accommodation =>
      rw [happ] at hresolved
      obtain ⟨hempty, rfl⟩ | ⟨hnonempty, hopens, hcloses⟩ := Accommodation.apply_eq_ok hresolved
      · exact ⟨by simp [hempty, Window.instants_eq_empty hempty], le_rfl⟩
      · refine ⟨?_, ?_⟩
        · simp [hnonempty, Window.instants, Accommodation.instants, hopens, hcloses]
        · simp only [Window.length_nanos, hopens, hcloses]
          omega

theorem Schedule.isOpen_eq_ok {schedule : Schedule} {now : SystemTime} {answer : Bool} :
    schedule.isOpen now = .ok answer ↔
      ∃ window, schedule.window = .ok window ∧ window.any (·.contains now) = answer := by
  unfold isOpen
  rw [bind_eq_ok]
  simp [pure, Except.pure]

theorem Schedule.isOpen_succeeds {schedule : Schedule} {now : SystemTime} :
    (∃ answer, schedule.isOpen now = .ok answer) ↔ schedule.InRange := by
  rw [← window_succeeds]
  simp only [isOpen_eq_ok]
  exact ⟨fun ⟨_, window, h, _⟩ => ⟨window, h⟩, fun ⟨window, h⟩ => ⟨_, window, h, rfl⟩⟩

theorem Schedule.isOpen_spec {schedule : Schedule} {now : SystemTime} {answer : Bool}
    (h : schedule.isOpen now = .ok answer) :
    answer = true ↔ now.nanos ∈ schedule.workingTime := by
  obtain ⟨result, hwindow, rfl⟩ := isOpen_eq_ok.mp h
  obtain ⟨hgov, rfl⟩ | ⟨window, resolved, _, rfl, hinstants, _⟩ := window_eq_ok hwindow
  · simp [workingTime, hgov]
  · rw [← hinstants, Window.mem_instants]
    rfl

theorem Schedule.isOpen_iff {schedule : Schedule} {now : SystemTime} {answer : Bool} :
    schedule.isOpen now = .ok answer ↔
      schedule.InRange ∧ (answer = true ↔ now.nanos ∈ schedule.workingTime) := by
  constructor
  · exact fun h => ⟨isOpen_succeeds.mp ⟨answer, h⟩, isOpen_spec h⟩
  · rintro ⟨inRange, hanswer⟩
    obtain ⟨found, h⟩ := isOpen_succeeds.mpr inRange
    rw [h, Except.ok.injEq, Bool.eq_iff_iff, isOpen_spec h, hanswer]

theorem Schedule.isOpen_congr {left right : Schedule} (now : SystemTime)
    (governing : left.governing = right.governing) (applied : left.applied = right.applied) :
    left.isOpen now = right.isOpen now := by
  simp only [isOpen, window_eq, governing, applied]

/-- An empty or reversed window resolves to itself, so no overflow can happen. -/
theorem Schedule.window_of_empty {schedule : Schedule} {window : Window}
    (hgov : schedule.governing = some window) (hempty : ¬window.nonempty) :
    schedule.window = .ok (some window) := by
  rw [window_eq, hgov]
  cases schedule.applied with
  | none => rfl
  | some accommodation =>
    have hzero := window.length_isZero.mpr (not_lt.mp hempty)
    simp [Accommodation.apply, hzero, pure, Except.pure, Functor.map, Except.map]

theorem Schedule.isOpen_of_empty {schedule : Schedule} (now : SystemTime)
    (h : ∀ window ∈ schedule.governing, ¬ window.nonempty) :
    schedule.isOpen now = .ok false := by
  rw [isOpen_eq_ok]
  cases hgov : schedule.governing with
  | none => exact ⟨none, by rw [window_eq, hgov]; rfl, rfl⟩
  | some window =>
    have hempty : ¬ window.nonempty := h window hgov
    refine ⟨some window, window_of_empty hgov hempty, ?_⟩
    rw [Option.any_some, Bool.eq_false_iff, Ne, ← Window.mem_instants,
      Window.instants_eq_empty hempty]
    exact Set.notMem_empty _

@[simp] theorem Schedule.governing_accommodation (schedule : Schedule)
    (accommodation : Option Accommodation) :
    governing { schedule with accommodation := accommodation } = schedule.governing := rfl

theorem Accommodation.instants_mono {first second : Accommodation} (window : Window)
    (shift : first.startShift = second.startShift)
    (extra : first.extraNanos window ≤ second.extraNanos window) :
    first.instants window ⊆ second.instants window := by
  unfold Accommodation.instants
  rw [shift]
  apply Set.Ico_subset_Ico_right
  omega

theorem Schedule.workingTime_mono {schedule : Schedule} {first second : Accommodation}
    (shift : first.startShift = second.startShift)
    (extra : ∀ window ∈ schedule.governing,
      first.extraNanos window ≤ second.extraNanos window) :
    workingTime { schedule with accommodation := some first } ⊆
      workingTime { schedule with accommodation := some second } := by
  simp only [workingTime, governing_accommodation]
  cases hgov : schedule.governing with
  | none => exact subset_rfl
  | some window =>
    by_cases hempty : window.nonempty
    · cases hmode : schedule.modeAppliesAccommodation with
      | false => simp [applied]
      | true =>
        simpa [applied, hempty, hmode] using
          Accommodation.instants_mono window shift (extra window hgov)
    · simp [hempty]

/-- The opening rule: exact, blind to windows of lower priority, and never worse
for a student who is given more. It has an answer when the arithmetic is in range. -/
theorem opening_rule (schedule : Schedule) (now : SystemTime) :
    (∀ answer, schedule.isOpen now = .ok answer ↔
      schedule.InRange ∧ (answer = true ↔ now.nanos ∈ schedule.workingTime)) ∧
    ((∀ window ∈ schedule.governing, ¬ window.nonempty) → ∀ accommodation mode,
      Schedule.isOpen { schedule with
        accommodation := accommodation, modeAppliesAccommodation := mode } now = .ok false) ∧
    (∀ window group offering,
      Schedule.isOpen { schedule with
        extension := some window, group := group, offering := offering } now =
      Schedule.isOpen { schedule with extension := some window } now) ∧
    (∀ window offering,
      Schedule.isOpen { schedule with
        extension := none, group := some window, offering := offering } now =
      Schedule.isOpen { schedule with extension := none, group := some window } now) ∧
    (∀ window resolved, schedule.governing = some window →
      schedule.window = .ok (some resolved) → window.length.nanos ≤ resolved.length.nanos) ∧
    (∀ first second : Accommodation, first.startShift = second.startShift →
      (∀ window ∈ schedule.governing,
        first.extraNanos window ≤ second.extraNanos window) →
      Schedule.isOpen { schedule with accommodation := some first } now = .ok true →
      Schedule.InRange { schedule with accommodation := some second } →
        Schedule.isOpen { schedule with accommodation := some second } now = .ok true) := by
  refine ⟨fun _ => Schedule.isOpen_iff, ?_, ?_, ?_, ?_, ?_⟩
  · intro hempty accommodation mode
    exact Schedule.isOpen_of_empty now hempty
  · intro window group offering
    exact Schedule.isOpen_congr now rfl rfl
  · intro window offering
    exact Schedule.isOpen_congr now rfl rfl
  · intro window resolved hgov h
    obtain ⟨hnone, _⟩ | ⟨w, r, hw, hr, _, hlength⟩ := Schedule.window_eq_ok h
    · exact absurd (hnone.symm.trans hgov) (by simp)
    · cases hr
      cases hgov.symm.trans hw
      exact hlength
  · intro first second shift extra hfirst inRange
    rw [Schedule.isOpen_iff] at hfirst ⊢
    exact ⟨inRange, iff_of_true rfl
      (Schedule.workingTime_mono shift extra (hfirst.2.mp rfl))⟩

example : (Schedule.mk none (some (between 100 200)) none
    (some ⟨.percent 50, .zero⟩) true).isOpen (.second 249) = .ok true := by decide

end Pals.Content
