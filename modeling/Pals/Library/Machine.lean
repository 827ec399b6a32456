import Mathlib.Logic.Basic
import Mathlib.Data.List.Basic

/-! Machines whose every move is named by an action. A run is the list of its
actions, so that what a schedule did can be spoken of as data. -/
namespace Pals.Library

structure Machine (σ α : Type) where
  step : σ → α → Option σ

namespace Machine
variable {σ α : Type} (m : Machine σ α)

def run : σ → List α → Option σ
  | s, [] => some s
  | s, a :: as => (m.step s a).bind fun t => run t as

/-- `P` holds in every state a run visits, the first and the last included. -/
def Always (P : σ → Prop) : σ → List α → Prop
  | s, [] => P s
  | s, a :: as => P s ∧ ∀ t, m.step s a = some t → Always P t as

/-- Every step that a run takes is one that `C` allows. -/
def Meets (C : σ → α → Prop) : σ → List α → Prop
  | _, [] => True
  | s, a :: as => ∀ t, m.step s a = some t → C s a ∧ Meets C t as

def Reaches (s t : σ) : Prop := ∃ as, m.run s as = some t

theorem run_cons_eq_some {s t : σ} {a : α} {as : List α} :
    m.run s (a :: as) = some t ↔ ∃ u, m.step s a = some u ∧ m.run u as = some t := by
  simp [run, Option.bind_eq_some_iff]

theorem run_append (s : σ) (as bs : List α) :
    m.run s (as ++ bs) = (m.run s as).bind fun t => m.run t bs := by
  induction as generalizing s with
  | nil => rfl
  | cons a as ih =>
    simp only [List.cons_append, run, Option.bind_assoc]
    congr 1
    funext t
    exact ih t

theorem run_concat_eq_some {s t : σ} {as : List α} {a : α} :
    m.run s (as ++ [a]) = some t ↔ ∃ u, m.run s as = some u ∧ m.step u a = some t := by
  simp [run_append, run, Option.bind_eq_some_iff]

theorem Reaches.refl (s : σ) : m.Reaches s s := ⟨[], rfl⟩

variable {m} in
theorem Reaches.trans {s t u : σ} (first : m.Reaches s t) (second : m.Reaches t u) :
    m.Reaches s u := by
  obtain ⟨as, ha⟩ := first
  obtain ⟨bs, hb⟩ := second
  exact ⟨as ++ bs, by simp [run_append, ha, hb]⟩

variable {m} in
theorem Reaches.step {s t u : σ} {a : α} (first : m.step s a = some t)
    (rest : m.Reaches t u) : m.Reaches s u := by
  obtain ⟨as, h⟩ := rest
  exact ⟨a :: as, m.run_cons_eq_some.mpr ⟨t, first, h⟩⟩

section Rules
variable {m} {I P : σ → Prop} {C : σ → α → Prop}

theorem run_invariant (keep : ∀ s a t, I s → m.step s a = some t → I t)
    {s t : σ} {as : List α} (start : I s) (h : m.run s as = some t) : I t := by
  induction as generalizing s with
  | nil => cases h; exact start
  | cons a as ih =>
    obtain ⟨u, hu, ht⟩ := m.run_cons_eq_some.mp h
    exact ih (keep s a u start hu) ht

theorem Reaches.related {R : σ → σ → Prop} (refl : ∀ s, R s s)
    (trans : ∀ s t u, R s t → R t u → R s u)
    (keep : ∀ s a t, I s → m.step s a = some t → I t)
    (related : ∀ s a t, I s → m.step s a = some t → R s t)
    {s t : σ} (h : m.Reaches s t) (start : I s) : R s t := by
  obtain ⟨as, run⟩ := h
  induction as generalizing s with
  | nil => cases run; exact refl _
  | cons a as ih =>
    obtain ⟨u, hu, ht⟩ := m.run_cons_eq_some.mp run
    exact trans s u t (related s a u start hu) (ih (keep s a u start hu) ht)

theorem always (keep : ∀ s a t, I s → m.step s a = some t → I t) (enough : ∀ s, I s → P s)
    {s : σ} (start : I s) (as : List α) : m.Always P s as := by
  induction as generalizing s with
  | nil => exact enough s start
  | cons a as ih => exact ⟨enough s start, fun t ht => ih (keep s a t start ht)⟩

/-- Forward simulation: a machine whose every step is matched by a run of another
is matched by it along its own runs. -/
theorem run_simulated {σ' α' : Type} {n : Machine σ' α'} {R : σ → σ' → Prop}
    (simulated : ∀ s a t s', R s s' → m.step s a = some t → ∃ t', R t t' ∧ n.Reaches s' t')
    {s t : σ} {s' : σ'} {as : List α} (start : R s s') (h : m.run s as = some t) :
    ∃ t', R t t' ∧ n.Reaches s' t' := by
  induction as generalizing s s' with
  | nil =>
    cases h
    exact ⟨s', start, .refl n s'⟩
  | cons a as ih =>
    obtain ⟨u, hu, hrun⟩ := m.run_cons_eq_some.mp h
    obtain ⟨u', hR, hreach⟩ := simulated s a u s' start hu
    obtain ⟨t', hR', hreach'⟩ := ih hR hrun
    exact ⟨t', hR', hreach.trans hreach'⟩

/-- An invariant that only the allowed steps keep holds along every run whose
steps are all allowed. -/
theorem Meets.always (keep : ∀ s a t, I s → C s a → m.step s a = some t → I t)
    (enough : ∀ s, I s → P s) {s : σ} {as : List α} (start : I s)
    (h : m.Meets C s as) : m.Always P s as := by
  induction as generalizing s with
  | nil => exact enough s start
  | cons a as ih =>
    exact ⟨enough s start, fun t ht => ih (keep s a t start (h t ht).1 ht) (h t ht).2⟩

theorem Always.first {s : σ} {as : List α} (h : m.Always P s as) : P s := by
  cases as with
  | nil => exact h
  | cons _ _ => exact h.1

/-- Conversely, `P` along a run shows that its steps were allowed, when a step
that `C` forbids ends outside `P`. -/
theorem Always.meets (keep : ∀ s a t, I s → m.step s a = some t → I t)
    (needed : ∀ s a t, I s → m.step s a = some t → P t → C s a)
    {s : σ} {as : List α} (start : I s) (h : m.Always P s as) : m.Meets C s as := by
  induction as generalizing s with
  | nil => trivial
  | cons a as ih =>
    intro t ht
    exact ⟨needed s a t start ht (h.2 t ht).first, ih (keep s a t start ht) (h.2 t ht)⟩

/-- A measure that the counted steps lower, and no step raises, bounds how many of
them a run has. -/
theorem run_measure (measure : σ → Nat) (counted : α → Bool) {D : α → Prop}
    (keep : ∀ s a t, I s → D a → m.step s a = some t → I t)
    (lowers : ∀ s a t, I s → D a → m.step s a = some t →
      (if counted a then measure t + 1 else measure t) ≤ measure s)
    {s t : σ} {as : List α} (start : I s) (h : m.run s as = some t) (allowed : ∀ a ∈ as, D a) :
    as.countP counted + measure t ≤ measure s := by
  induction as generalizing s with
  | nil =>
    cases h
    simp
  | cons a as ih =>
    obtain ⟨u, hu, ht⟩ := m.run_cons_eq_some.mp h
    obtain ⟨ha, allowed⟩ := List.forall_mem_cons.mp allowed
    have hrest := ih (keep s a u start ha hu) ht allowed
    have hfirst := lowers s a u start ha hu
    rw [List.countP_cons]
    split at hfirst <;> rename_i hcounted <;> simp only [hcounted] <;> simp <;> omega

/-- What holds at the end of a run held at its start, or a step of it brought it. -/
theorem run_brought {Q : α → Prop} (brought : ∀ s a t, m.step s a = some t → P t → P s ∨ Q a)
    {s t : σ} {as : List α} (h : m.run s as = some t) (now : P t) : P s ∨ ∃ a ∈ as, Q a := by
  induction as generalizing s with
  | nil =>
    cases h
    exact .inl now
  | cons a as ih =>
    obtain ⟨u, hu, ht⟩ := m.run_cons_eq_some.mp h
    obtain before | ⟨b, hb, hQ⟩ := ih ht
    · exact (brought s a u hu before).imp_right fun hQ => ⟨a, List.mem_cons_self, hQ⟩
    · exact .inr ⟨b, List.mem_cons_of_mem _ hb, hQ⟩

theorem run_ends (measure : σ → Nat) {D : α → Prop}
    (keep : ∀ s a t, I s → D a → m.step s a = some t → I t)
    (goes : ∀ s, I s → P s → ∃ a t, D a ∧ m.step s a = some t ∧ measure t < measure s)
    {s : σ} (start : I s) :
    ∃ as t, (∀ a ∈ as, D a) ∧ m.run s as = some t ∧ I t ∧ ¬P t := by
  induction hn : measure s using Nat.strongRecOn generalizing s with
  | ind n ih =>
    by_cases hP : P s
    · obtain ⟨a, u, ha, hu, hlower⟩ := goes s start hP
      obtain ⟨as, t, allowed, hrun, hI, hnot⟩ := ih _ (hn ▸ hlower) (keep s a u start ha hu) rfl
      exact ⟨a :: as, t, List.forall_mem_cons.mpr ⟨ha, allowed⟩,
        m.run_cons_eq_some.mpr ⟨u, hu, hrun⟩, hI, hnot⟩
    · exact ⟨[], s, List.forall_mem_nil _, rfl, start, hP⟩

theorem Always.last {s t : σ} {as : List α} (h : m.Always P s as)
    (run : m.run s as = some t) : P t := by
  induction as generalizing s with
  | nil => cases run; exact h
  | cons a as ih =>
    obtain ⟨u, hu, ht⟩ := m.run_cons_eq_some.mp run
    exact ih (h.2 u hu) ht

end Rules
end Machine
end Pals.Library
