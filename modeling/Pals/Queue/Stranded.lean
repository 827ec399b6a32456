import Pals.Queue.EndStates

/-! The rows that are running: a judge has each of them in its hands, or nobody will ever
finish it. -/
namespace Pals.Queue
open Pals.Library Pals.Contracts Pals.Judge

def Dropped (s : State) (j : Nat) (job : Job) : Prop :=
  ∃ host error, .judged j host job ∈ s.log ∧ judge host job = .error error

def Fate (s : State) (j : Nat) (job : Job) : Prop :=
  (∃ verdicts, .finished j job.id verdicts true ∈ s.log) ∨ (s.judges j).job = some job ∨
    Dropped s j job ∨ s.judges j = .stopped

/-- A running row is in the hands of the judge that has claimed it, or its judge has
failed on it or stopped; in the latter case it stays running whatever is done. -/
structure Accounted (s : State) : Prop where
  running : ∀ id row, s.db.committed.lookup id = some row → row.state = .running →
    ∃ j, .claimed j (jobOf id row.toJobRow) ∈ s.log ∧
      ((s.judges j).job = some (jobOf id row.toJobRow) ∨ Dropped s j (jobOf id row.toJobRow) ∨
        s.judges j = .stopped)
  inHand : ∀ j job, (s.judges j).job = some job → ∃ row,
    s.db.committed.lookup job.id = some row ∧ row.state = .running ∧ job = jobOf job.id row.toJobRow
  stranded : ∀ id row j, s.db.committed.lookup id = some row → row.state = .running →
    .claimed j (jobOf id row.toJobRow) ∈ s.log →
    (s.judges j).job ≠ some (jobOf id row.toJobRow) → ∀ schedule t,
      machine.run s schedule = some t → ∃ row', t.db.committed.lookup id = some row' ∧
        row'.state = .running

section Steps
variable {s t : State} {j : Nat} {ledger : Ledger} {a : Action} {place before : JudgeState}
variable {db : Db Session Uuid Row} {events : List Event} {job : Job}

/-- What the log tells of a job it tells for good; the rest is told by the place of the
judge. -/
theorem Fate.later (fate : Fate s j job) (log : s.log ⊆ t.log) :
    Fate t j job ∨ (s.judges j).job = some job ∨ s.judges j = .stopped := by
  obtain ⟨verdicts, hmem⟩ | hjob | ⟨host, error, hmem, hjudge⟩ | hstopped := fate
  · exact .inl (.inl ⟨verdicts, log hmem⟩)
  · exact .inr (.inl hjob)
  · exact .inl (.inr (.inr (.inl ⟨host, error, log hmem, hjudge⟩)))
  · exact .inr (.inr hstopped)

theorem Fate.mono (fate : Fate s j job) (judges : t.judges j = s.judges j) (log : s.log ⊆ t.log) :
    Fate t j job := by
  obtain hfate | hjob | hstopped := fate.later log
  · exact hfate
  · exact .inr (.inl (by rw [judges, hjob]))
  · exact .inr (.inr (.inr (judges.trans hstopped)))

theorem JudgeStep.drops (move : JudgeStep s j a before place db events) {host : Host}
    (action : a = .judge j host) (was : before = .judging job) :
    events = [.judged j host job] := by
  cases move <;> simp_all

theorem Handover.fate (handover : Handover s j a place events)
    (move : JudgeStep s j a (s.judges j) place db events)
    (fate : .claimed j job ∈ s.log → Fate s j job)
    (claimed : .claimed j job ∈ s.log ++ events) :
    Fate (s.after (Function.update s.judges j place) db events) j job := by
  have hplace : (s.after (Function.update s.judges j place) db events).judges j = place :=
    Function.update_self ..
  have log : s.log ⊆ (s.after (Function.update s.judges j place) db events).log :=
    List.subset_append_left _ _
  cases handover with
  | stop stopped quiet => exact .inr (.inr (.inr (hplace.trans stopped)))
  | same hjob running quiet =>
    obtain hfate | hhas | hstopped :=
      (fate ((List.mem_append.mp claimed).resolve_right (quiet j job))).later log
    · exact hfate
    · exact .inr (.inl (by rw [hplace, hjob, hhas]))
    · exact absurd hstopped running
  | take job' free running now hevents =>
    subst hevents
    obtain claimed | claimed := List.mem_append.mp claimed
    · obtain hfate | hhas | hstopped := (fate claimed).later log
      · exact hfate
      · cases free.symm.trans hhas
      · exact absurd hstopped running
    · cases List.mem_singleton.mp claimed
      exact .inr (.inl (by rw [hplace, now]))
  | settle job' verdicts was hevents =>
    subst hevents
    obtain hfate | hhas | hstopped := (fate (by simpa using claimed)).later log
    · exact hfate
    · cases was.symm.trans hhas
      exact .inl ⟨verdicts, List.mem_append_right _ List.mem_cons_self⟩
    · rw [hstopped] at was
      cases was
  | drop host job' error action was failed =>
    cases move.drops action was
    obtain hfate | hhas | hstopped := (fate (by simpa using claimed)).later log
    · exact hfate
    · rw [was] at hhas
      cases hhas
      exact .inr (.inr (.inl ⟨host, error, List.mem_append_right _ List.mem_cons_self, failed⟩))
    · cases was.symm.trans hstopped

theorem fate_step (inv : Inv s ledger) (fates : ∀ j job, .claimed j job ∈ s.log → Fate s j job)
    (h : machine.step s a = some t) (i : Nat) (job : Job) (claimed : .claimed i job ∈ t.log) :
    Fate t i job := by
  cases step_cases h with
  | tick elapsed => exact (fates i job claimed).mono rfl (List.Subset.refl _)
  | api n db events move =>
    obtain claimed | claimed := List.mem_append.mp claimed
    · exact (fates i job claimed).mono rfl (List.subset_append_left _ _)
    · obtain ⟨id, job', he⟩ := move.inserted claimed
      cases he
  | judge j place db events move =>
    by_cases hi : i = j
    · subst hi
      exact (move.handover inv).fate move (fates i job) claimed
    · obtain claimed | claimed := List.mem_append.mp claimed
      · exact (fates i job claimed).mono (Function.update_of_ne hi _ _)
          (List.subset_append_left _ _)
      · exact absurd (move.claimed_own claimed) hi

theorem Inv.taken_of_job (inv : Inv s ledger) (hjob : (s.judges j).job = some job) :
    ledger job.id = some (.taken j job) := by
  have situation := inv.judges j
  generalize s.judges j = place at hjob situation
  cases place with
  | judging job' =>
    cases hjob
    exact situation.2
  | judged job' verdicts | finishBegun job' verdicts | finishVisiting job' verdicts =>
    cases hjob
    exact situation.2.1
  | finished job' verdicts answer =>
    cases hjob
    exact situation.2.2.1
  | _ => cases hjob

theorem JudgeStep.hands (move : JudgeStep s j a before place db events) :
    place.job = before.job ∨ place.job = none ∨
      ∃ job, before = .claimed (some job) ∧ place.job = some job := by
  cases move <;> simp [JudgeState.job]

theorem JudgeStep.finishes_own (move : JudgeStep s j a before place db events) {i : Nat} {id : Uuid}
    {verdicts : List Verdict} (finished : .finished i id verdicts true ∈ events) :
    i = j ∧ ∃ job, before.job = some job ∧ job.id = id := by
  cases move <;> simp_all [JudgeState.job]

def Abandoned (j : Nat) (job : Job) (s : State) : Prop :=
  ∃ ledger, Inv s ledger ∧ ledger job.id = some (.taken j job) ∧ (s.judges j).job ≠ some job

/-- Nobody finishes a taken job but the judge that has it, and that judge has it from its
claim on. -/
theorem abandoned_still (inv : Inv s ledger) (taken : ledger job.id = some (.taken j job))
    (hands : (s.judges j).job ≠ some job) (h : machine.step s a = some t) :
    (t.judges j).job ≠ some job ∧ ∀ verdicts, .finished j job.id verdicts true ∉ t.log := by
  have unfinished (verdicts : List Verdict) : .finished j job.id verdicts true ∉ s.log := by
    intro hmem
    obtain ⟨_, hsettled⟩ := inv.settled_iff.mpr hmem
    cases taken.symm.trans hsettled
  cases step_cases h with
  | tick elapsed => exact ⟨hands, unfinished⟩
  | api n db events move =>
    refine ⟨hands, fun verdicts hmem => ?_⟩
    obtain hmem | hmem := List.mem_append.mp hmem
    · exact unfinished verdicts hmem
    · obtain ⟨_, _, he⟩ := move.inserted hmem
      cases he
  | judge i place db events move =>
    refine ⟨?_, fun verdicts hmem => ?_⟩
    · change (Function.update s.judges i place j).job ≠ some job
      by_cases hi : j = i
      · subst hi
        rw [Function.update_self]
        obtain hsame | hnone | ⟨job', hbefore, hnow⟩ := move.hands
        · rwa [hsame]
        · simp [hnone]
        · rw [hnow]
          rintro ⟨⟩
          -- A job that is being claimed waits.
          obtain ⟨_, row, _, _, hrow, ⟨hwaiting, _⟩, _⟩ := inv.situation hbefore
          cases taken.symm.trans (inv.entry_of_waiting hrow hwaiting)
      · rwa [Function.update_of_ne hi]
    · obtain hmem | hmem := List.mem_append.mp hmem
      · exact unfinished verdicts hmem
      · obtain ⟨rfl, job', hbefore, hid⟩ := move.finishes_own hmem
        have htaken := inv.taken_of_job hbefore
        rw [hid] at htaken
        cases taken.symm.trans htaken
        exact hands hbefore

theorem abandoned_step (abandoned : Abandoned j job s) (h : machine.step s a = some t) :
    Abandoned j job t := by
  obtain ⟨ledger, inv, htaken, hjob⟩ := abandoned
  obtain ⟨ledger', inv', acts, hacts⟩ := step_simulated s a t ledger inv h
  obtain ⟨hands, unfinished⟩ := abandoned_still inv htaken hjob h
  obtain ⟨entry, hentry, later⟩ := WorkQueue.run_later hacts htaken
  refine ⟨ledger', inv', ?_, hands⟩
  cases later with
  | refl => exact hentry
  | answered worker item verdicts =>
    exact absurd (inv'.settled_iff.mp ⟨_, hentry⟩) (unfinished verdicts)

theorem Inv.accounted (inv : Inv s ledger)
    (fates : ∀ j job, .claimed j job ∈ s.log → Fate s j job) : Accounted s where
  running id row hrow hrunning := by
    obtain ⟨j, hentry⟩ := inv.entry_of_running hrow hrunning
    have hclaimed := inv.taken id j _ hentry
    refine ⟨j, hclaimed, ?_⟩
    obtain ⟨verdicts, hmem⟩ | hfate := fates j _ hclaimed
    · obtain ⟨_, hsettled⟩ := inv.settled_iff.mpr hmem
      cases hentry.symm.trans hsettled
    · exact hfate
  inHand j job hjob := inv.row_of_taken (inv.taken_of_job hjob)
  stranded id row j hrow hrunning hclaimed hjob schedule t hrun := by
    obtain ⟨i, hentry⟩ := inv.entry_of_running hrow hrunning
    have hi : i = j := by
      obtain ⟨item, htaken | ⟨verdicts, hsettled⟩⟩ :=
        WorkQueue.run_taken inv.trace (List.mem_filterMap.mpr ⟨_, hclaimed, rfl⟩)
      · cases hentry.symm.trans htaken
        rfl
      · cases hentry.symm.trans hsettled
    subst hi
    obtain ⟨ledger', inv', htaken, _⟩ := Machine.run_invariant
      (I := Abandoned i (jobOf id row.toJobRow)) (fun _ _ _ => abandoned_step)
      ⟨ledger, inv, hentry, hjob⟩ hrun
    obtain ⟨row', hrow', hrunning', _⟩ := inv'.row_of_taken htaken
    exact ⟨row', hrow', hrunning'⟩

end Steps

/-- No row is running but in a judge's hands or left behind by one. -/
theorem running_rows_are_accounted (schedule : List Action) :
    machine.Always Accounted .init schedule := by
  refine Machine.always
    (I := fun s => ∃ ledger, Inv s ledger ∧ ∀ j job, .claimed j job ∈ s.log → Fate s j job)
    ?_ ?_ ⟨_, init_inv, fun _ _ h => (nomatch h)⟩ schedule
  · rintro s a t ⟨ledger, inv, fates⟩ h
    obtain ⟨ledger', inv'⟩ := step_inv s a t ⟨ledger, inv⟩ h
    exact ⟨ledger', inv', fate_step inv fates h⟩
  · rintro s ⟨_, inv, fates⟩
    exact inv.accounted fates

end Pals.Queue
