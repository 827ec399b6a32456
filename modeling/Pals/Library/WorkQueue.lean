import Mathlib.Data.List.Induction
import Pals.Library.Machine

/-! A queue of work as its users see it. An item is submitted, taken by one worker,
and settled by that worker with an answer; what locks and transactions it takes to
have it so is no concern here. -/
namespace Pals.Library.WorkQueue
variable {κ ω ι α : Type}

inductive Entry (ω ι α : Type) where
  | waiting (item : ι)
  | taken (worker : ω) (item : ι)
  | settled (worker : ω) (item : ι) (answer : α)

def rank : Option (Entry ω ι α) → Nat
  | none => 0
  | some (.waiting _) => 1
  | some (.taken _ _) => 2
  | some (.settled _ _ _) => 3

inductive Act (κ ω ι α : Type) where
  | submit (k : κ) (item : ι)
  | take (worker : ω) (k : κ)
  | settle (worker : ω) (k : κ) (answer : α)

def Act.takes : Act κ ω ι α → Option κ
  | take _ k => some k
  | _ => none

def Act.settles : Act κ ω ι α → Option κ
  | settle _ k _ => some k
  | _ => none

def Act.key : Act κ ω ι α → κ
  | submit k _ | take _ k | settle _ k _ => k

abbrev Ledger (κ ω ι α : Type) := κ → Option (Entry ω ι α)

section Step
variable [DecidableEq κ] [DecidableEq ω]

def step (ledger : Ledger κ ω ι α) : Act κ ω ι α → Option (Ledger κ ω ι α)
  | .submit k item =>
      match ledger k with
      | none => some (Function.update ledger k (some (.waiting item)))
      | some _ => none
  | .take worker k =>
      match ledger k with
      | some (.waiting item) => some (Function.update ledger k (some (.taken worker item)))
      | _ => none
  | .settle worker k answer =>
      match ledger k with
      | some (.taken worker' item) =>
          if worker' = worker then
            some (Function.update ledger k (some (.settled worker item answer)))
          else none
      | _ => none

def machine : Machine (Ledger κ ω ι α) (Act κ ω ι α) := ⟨step⟩

inductive Later : Entry ω ι α → Entry ω ι α → Prop where
  | refl (entry : Entry ω ι α) : Later entry entry
  | taken (worker : ω) (item : ι) : Later (.waiting item) (.taken worker item)
  | settled (worker : ω) (item : ι) (answer : α) :
      Later (.waiting item) (.settled worker item answer)
  | answered (worker : ω) (item : ι) (answer : α) :
      Later (.taken worker item) (.settled worker item answer)

omit [DecidableEq κ] [DecidableEq ω] in
theorem Later.trans {first second third : Entry ω ι α} (h : Later first second)
    (h' : Later second third) : Later first third := by
  cases h <;> cases h' <;> constructor

theorem step_eq_some {s t : Ledger κ ω ι α} {a : Act κ ω ι α} (h : machine.step s a = some t) :
    ∃ k entry, t = Function.update s k (some entry) ∧ rank (some entry) = rank (s k) + 1 ∧
      (∀ old, s k = some old → Later old entry) ∧
      a.takes = (if rank (s k) = 1 then some k else none) ∧
      a.settles = (if rank (s k) = 2 then some k else none) := by
  cases a with
  | submit k item =>
    simp only [machine, step] at h
    split at h <;> cases h
    rename_i hnone
    exact ⟨k, _, rfl, by simp [hnone, rank], by simp [hnone], by simp [Act.takes, hnone, rank],
      by simp [Act.settles, hnone, rank]⟩
  | take worker k =>
    simp only [machine, step] at h
    split at h <;> cases h
    rename_i item hwaiting
    refine ⟨k, _, rfl, by simp [hwaiting, rank], ?_, by simp [Act.takes, hwaiting, rank],
      by simp [Act.settles, hwaiting, rank]⟩
    intro old hold
    cases hwaiting.symm.trans hold
    exact .taken worker item
  | settle worker k answer =>
    simp only [machine, step] at h
    split at h
    · split at h <;> cases h
      rename_i item htaken heq
      subst heq
      refine ⟨k, _, rfl, by simp [htaken, rank], ?_, by simp [Act.takes, htaken, rank],
        by simp [Act.settles, htaken, rank]⟩
      intro old hold
      cases htaken.symm.trans hold
      exact .answered _ item answer
    · cases h

theorem rank_mono {s t : Ledger κ ω ι α} {a : Act κ ω ι α} (h : machine.step s a = some t) (k : κ) :
    rank (s k) ≤ rank (t k) := by
  obtain ⟨k', entry, rfl, hrank, _⟩ := step_eq_some h
  by_cases hk : k = k'
  · subst hk
    rw [Function.update_self, hrank]
    exact Nat.le_succ _
  · exact Nat.le_of_eq (by rw [Function.update_of_ne hk])

/-- Acts that take their key across one rank do so once for each key. -/
theorem crossings_nodup (bound : Nat) {crosses : Act κ ω ι α → Option κ}
    (cross : ∀ s a t k, machine.step s a = some t → crosses a = some k →
      rank (s k) < bound ∧ bound ≤ rank (t k))
    {s t : Ledger κ ω ι α} {as : List (Act κ ω ι α)} (h : machine.run s as = some t) :
    (as.filterMap crosses).Nodup ∧ ∀ k ∈ as.filterMap crosses, rank (s k) < bound := by
  induction as generalizing s with
  | nil => simp
  | cons a as ih =>
    obtain ⟨u, hu, hrun⟩ := machine.run_cons_eq_some.mp h
    obtain ⟨hnodup, hbelow⟩ := ih hrun
    have hrest : ∀ k ∈ as.filterMap crosses, rank (s k) < bound :=
      fun k hk => Nat.lt_of_le_of_lt (rank_mono hu k) (hbelow k hk)
    cases hcross : crosses a with
    | none =>
      rw [List.filterMap_cons_none hcross]
      exact ⟨hnodup, hrest⟩
    | some k =>
      obtain ⟨hlow, hhigh⟩ := cross s a u k hu hcross
      rw [List.filterMap_cons_some hcross]
      refine ⟨List.nodup_cons.mpr ⟨fun hmem => ?_, hnodup⟩, ?_⟩
      · exact absurd (hbelow k hmem) (Nat.not_lt.mpr hhigh)
      · exact List.forall_mem_cons.mpr ⟨hlow, hrest⟩

theorem takes_nodup {s t : Ledger κ ω ι α} {as : List (Act κ ω ι α)}
    (h : machine.run s as = some t) : (as.filterMap Act.takes).Nodup := by
  refine (crossings_nodup 2 (fun s a t k hstep hk => ?_) h).1
  obtain ⟨k', entry, rfl, hrank, _, htakes, _⟩ := step_eq_some hstep
  rw [hk] at htakes
  split at htakes <;> cases htakes
  rw [Function.update_self]
  omega

theorem settles_nodup {s t : Ledger κ ω ι α} {as : List (Act κ ω ι α)}
    (h : machine.run s as = some t) : (as.filterMap Act.settles).Nodup := by
  refine (crossings_nodup 3 (fun s a t k hstep hk => ?_) h).1
  obtain ⟨k', entry, rfl, hrank, _, _, hsettles⟩ := step_eq_some hstep
  rw [hk] at hsettles
  split at hsettles <;> cases hsettles
  rw [Function.update_self]
  omega

theorem run_later {s t : Ledger κ ω ι α} {as : List (Act κ ω ι α)} (h : machine.run s as = some t)
    {k : κ} {entry : Entry ω ι α} (hk : s k = some entry) :
    ∃ entry', t k = some entry' ∧ Later entry entry' := by
  induction as generalizing s entry with
  | nil =>
    cases h
    exact ⟨entry, hk, .refl entry⟩
  | cons a as ih =>
    obtain ⟨u, hu, hrun⟩ := machine.run_cons_eq_some.mp h
    obtain ⟨k', new, rfl, _, hlater, _⟩ := step_eq_some hu
    by_cases hkk : k = k'
    · subst hkk
      obtain ⟨entry', hentry', later⟩ := ih hrun (Function.update_self ..)
      exact ⟨entry', hentry', (hlater entry hk).trans later⟩
    · exact ih hrun ((Function.update_of_ne hkk ..).trans hk)

theorem run_taken {s t : Ledger κ ω ι α} {as : List (Act κ ω ι α)} {worker : ω} {k : κ}
    (h : machine.run s as = some t) (hmem : Act.take worker k ∈ as) :
    ∃ item, t k = some (.taken worker item) ∨ ∃ answer, t k = some (.settled worker item answer) := by
  induction as generalizing s with
  | nil => cases hmem
  | cons a as ih =>
    obtain ⟨u, hu, hrun⟩ := machine.run_cons_eq_some.mp h
    obtain rfl | hmem := List.mem_cons.mp hmem
    · simp only [machine, step] at hu
      split at hu <;> cases hu
      rename_i item _
      obtain ⟨entry, hentry, later⟩ := run_later hrun (Function.update_self ..)
      refine ⟨item, ?_⟩
      cases later with
      | refl => exact .inl hentry
      | answered worker item answer => exact .inr ⟨answer, hentry⟩
    · exact ih hrun hmem

theorem run_settled {s t : Ledger κ ω ι α} {as : List (Act κ ω ι α)} {worker : ω} {k : κ} {answer : α}
    (h : machine.run s as = some t) (hmem : Act.settle worker k answer ∈ as) :
    ∃ item, t k = some (.settled worker item answer) := by
  induction as generalizing s with
  | nil => cases hmem
  | cons a as ih =>
    obtain ⟨u, hu, hrun⟩ := machine.run_cons_eq_some.mp h
    obtain rfl | hmem := List.mem_cons.mp hmem
    · simp only [machine, step] at hu
      split at hu
      · rename_i worker' item _
        split at hu <;> cases hu
        rename_i heq
        subst heq
        obtain ⟨entry, hentry, later⟩ := run_later hrun (Function.update_self ..)
        cases later
        exact ⟨item, hentry⟩
      · cases hu
    · exact ih hrun hmem

/-- What the acts of a run tell of the entry that they have led to. -/
def Accounts (as : List (Act κ ω ι α)) (k : κ) : Option (Entry ω ι α) → Prop
  | none => ∀ a ∈ as, a.key ≠ k
  | some (.waiting item) => .submit k item ∈ as ∧ k ∉ as.filterMap Act.takes
  | some (.taken worker item) =>
      .submit k item ∈ as ∧ .take worker k ∈ as ∧ k ∉ as.filterMap Act.settles
  | some (.settled worker item answer) =>
      .submit k item ∈ as ∧ .take worker k ∈ as ∧ .settle worker k answer ∈ as

omit [DecidableEq κ] [DecidableEq ω] in
theorem Act.key_of_takes {a : Act κ ω ι α} {k : κ} (h : a.takes = some k) : a.key = k := by
  cases a <;> cases h
  rfl

omit [DecidableEq κ] [DecidableEq ω] in
theorem Act.key_of_settles {a : Act κ ω ι α} {k : κ} (h : a.settles = some k) : a.key = k := by
  cases a <;> cases h
  rfl

omit [DecidableEq κ] [DecidableEq ω] in
theorem notMem_of_key {as : List (Act κ ω ι α)} {k : κ} {chooses : Act κ ω ι α → Option κ}
    (keys : ∀ a k, chooses a = some k → a.key = k) (h : ∀ a ∈ as, a.key ≠ k) :
    k ∉ as.filterMap chooses := by
  intro hmem
  obtain ⟨a, ha, hk⟩ := List.mem_filterMap.mp hmem
  exact h a ha (keys a k hk)

omit [DecidableEq κ] [DecidableEq ω] in
theorem Accounts.concat {as : List (Act κ ω ι α)} {k : κ} {entry : Option (Entry ω ι α)}
    (h : Accounts as k entry) {a : Act κ ω ι α} (hne : a.key ≠ k) :
    Accounts (as ++ [a]) k entry := by
  have old {b : Act κ ω ι α} (hb : b ∈ as) : b ∈ as ++ [a] := List.mem_append_left _ hb
  have unchosen {chooses : Act κ ω ι α → Option κ} (keys : ∀ a k, chooses a = some k → a.key = k)
      (hk : k ∉ as.filterMap chooses) : k ∉ (as ++ [a]).filterMap chooses := by
    rw [List.filterMap_append, List.mem_append, not_or]
    exact ⟨hk, notMem_of_key keys (List.forall_mem_singleton.mpr hne)⟩
  match entry with
  | none =>
    exact List.forall_mem_append.mpr ⟨h, List.forall_mem_singleton.mpr hne⟩
  | some (.waiting item) => exact ⟨old h.1, unchosen (fun _ _ => Act.key_of_takes) h.2⟩
  | some (.taken worker item) =>
    exact ⟨old h.1, old h.2.1, unchosen (fun _ _ => Act.key_of_settles) h.2.2⟩
  | some (.settled worker item answer) => exact ⟨old h.1, old h.2.1, old h.2.2⟩

theorem step_of_key_ne {s t : Ledger κ ω ι α} {a : Act κ ω ι α} (h : machine.step s a = some t)
    {k : κ} (hne : a.key ≠ k) : t k = s k := by
  cases a with
  | submit k' item | take worker k' =>
    simp only [machine, step] at h
    split at h <;> cases h
    exact Function.update_of_ne (Ne.symm hne) ..
  | settle worker k' answer =>
    simp only [machine, step] at h
    split at h
    · split at h <;> cases h
      exact Function.update_of_ne (Ne.symm hne) ..
    · cases h

theorem Accounts.step {s t : Ledger κ ω ι α} {as : List (Act κ ω ι α)} {a : Act κ ω ι α}
    (old : Accounts as a.key (s a.key))
    (unsettled : ∀ item, s a.key = some (.waiting item) → a.key ∉ as.filterMap Act.settles)
    (h : machine.step s a = some t) : Accounts (as ++ [a]) a.key (t a.key) := by
  have unchosen {chooses : Act κ ω ι α → Option κ} (hk : a.key ∉ as.filterMap chooses)
      (ha : chooses a = none) : a.key ∉ (as ++ [a]).filterMap chooses := by
    rw [List.filterMap_append, List.filterMap_cons_none ha, List.filterMap_nil, List.append_nil]
    exact hk
  cases a with
  | submit k item =>
    simp only [machine, WorkQueue.step] at h
    split at h <;> cases h
    rename_i hnone
    rw [Act.key, hnone] at old
    rw [Act.key, Function.update_self]
    exact ⟨by simp, unchosen (notMem_of_key (fun _ _ => Act.key_of_takes) old) rfl⟩
  | take worker k =>
    simp only [machine, WorkQueue.step] at h
    split at h <;> cases h
    rename_i item hwaiting
    rw [Act.key, hwaiting] at old
    rw [Act.key, Function.update_self]
    exact ⟨by simp [old.1], by simp, unchosen (unsettled item hwaiting) rfl⟩
  | settle worker k answer =>
    simp only [machine, WorkQueue.step] at h
    split at h
    · rename_i worker' item htaken
      split at h <;> cases h
      rename_i heq
      subst heq
      rw [Act.key, htaken] at old
      rw [Act.key, Function.update_self]
      exact ⟨by simp [old.1], by simp [old.2.1], by simp⟩
    · cases h

/-- From the empty queue, an entry is what the acts of the run have made of it. -/
theorem run_accounts {t : Ledger κ ω ι α} {as : List (Act κ ω ι α)}
    (h : machine.run (fun _ => none) as = some t) (k : κ) : Accounts as k (t k) := by
  induction as using List.reverseRecOn generalizing t with
  | nil =>
    cases h
    exact List.forall_mem_nil _
  | append_singleton as a ih =>
    obtain ⟨u, hrun, hstep⟩ := machine.run_concat_eq_some.mp h
    by_cases hk : a.key = k
    · subst hk
      refine (ih hrun).step (fun item hwaiting hmem => ?_) hstep
      -- A settled item does not wait.
      obtain ⟨b, hb, hsettles⟩ := List.mem_filterMap.mp hmem
      cases b with
      | settle worker _ answer =>
        cases hsettles
        obtain ⟨item', hsettled⟩ := run_settled hrun hb
        cases hwaiting.symm.trans hsettled
      | _ => cases hsettles
    · rw [step_of_key_ne hstep hk]
      exact (ih hrun).concat hk

end Step
end Pals.Library.WorkQueue
