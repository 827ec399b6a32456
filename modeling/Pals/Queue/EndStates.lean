import Pals.Queue.Preservation

/-! What has become of the jobs of a judge when it comes back for another one. -/
namespace Pals.Queue
open Pals.Library Pals.Contracts Pals.Judge

def JudgeState.job : JudgeState → Option Job
  | judging job | judged job _ | finishBegun job _ | finishVisiting job _ | finished job _ _ => some job
  | _ => none

def Over (s : State) (id : Uuid) : Prop :=
  ∃ row, s.db.committed.lookup id = some row ∧ (row.state = .done ∨ row.state = .failed) ∧
    row.finishedAt.isSome = true

/-- A judge at `claim` has concluded every job that it has claimed. -/
def Concluded (s : State) : Prop :=
  ∀ j, s.judges j = .idle → ∀ job, .claimed j job ∈ s.log → Over s job.id

def OnlyJudgeable (s : State) : Action → Prop
  | .judge j host => ∀ job, s.judges j = .judging job → Judgeable host job
  | _ => True

def Pending (s : State) (j : Nat) (job : Job) : Prop :=
  (∃ verdicts, .finished j job.id verdicts true ∈ s.log) ∨ (s.judges j).job = some job ∨
    s.judges j = .stopped

def Tracked (s : State) : Prop := ∀ j job, .claimed j job ∈ s.log → Pending s j job

section Steps
variable {s t : State} {j : Nat} {ledger : Ledger}

theorem Pending.mono {job : Job} (pending : Pending s j job) (judges : t.judges j = s.judges j)
    (log : s.log ⊆ t.log) : Pending t j job := by
  unfold Pending
  rw [judges]
  exact pending.imp_left fun ⟨verdicts, hmem⟩ => ⟨verdicts, log hmem⟩

/-- A step leaves a judge with the same job, takes a new one, finishes the one there
was, drops it, or stops the judge. -/
inductive Handover (s : State) (j : Nat) (a : Action) (place : JudgeState) (events : List Event) :
    Prop where
  | same (job : place.job = (s.judges j).job) (running : s.judges j ≠ .stopped)
      (quiet : ∀ i job, .claimed i job ∉ events)
  | take (job : Job) (free : (s.judges j).job = none) (running : s.judges j ≠ .stopped)
      (now : place.job = some job) (events : events = [.claimed j job])
  | settle (job : Job) (verdicts : List Verdict) (was : (s.judges j).job = some job)
      (events : events = [.finished j job.id verdicts true])
  | drop (host : Host) (job : Job) (error : IoError) (action : a = .judge j host)
      (was : s.judges j = .judging job) (failed : judge host job = .error error)
  | stop (stopped : place = .stopped) (quiet : ∀ i job, .claimed i job ∉ events)

variable {a : Action} {place : JudgeState} {db : Db Session Uuid Row} {events : List Event}

theorem JudgeStep.handover (move : JudgeStep s j a (s.judges j) place db events)
    (inv : Inv s ledger) : Handover s j a place events := by
  have situation := inv.judges j
  generalize hj : s.judges j = before at move situation
  cases move with
  | take job => exact .take job (by simp [hj, JudgeState.job]) (by simp [hj]) rfl rfl
  | settle job verdicts answer =>
    cases situation.1
    exact .settle job verdicts (by simp [hj, JudgeState.job]) rfl
  | drop host job error failed => exact .drop host job error rfl hj failed
  | stop | rejectClaim | rejectFinish => exact .stop rfl (by simp)
  | _ => exact .same (by simp [hj, JudgeState.job]) (by simp [hj]) (by simp)

theorem Handover.pending (handover : Handover s j a place events) (judgeable : OnlyJudgeable s a)
    (judges : t.judges j = place) (log : t.log = s.log ++ events) {job : Job}
    (pending : .claimed j job ∈ s.log → Pending s j job) (claimed : .claimed j job ∈ t.log) :
    Pending t j job := by
  rw [log, List.mem_append] at claimed
  unfold Pending at pending ⊢
  rw [judges, log]
  cases handover with
  | same hjob running quiet =>
    rw [hjob]
    obtain ⟨verdicts, hmem⟩ | hjob | hstopped := pending (claimed.resolve_right (quiet j job))
    · exact .inl ⟨verdicts, List.mem_append_left _ hmem⟩
    · exact .inr (.inl hjob)
    · exact absurd hstopped running
  | take job' free running now hevents =>
    subst hevents
    obtain claimed | claimed := claimed
    · obtain ⟨verdicts, hmem⟩ | hjob | hstopped := pending claimed
      · exact .inl ⟨verdicts, List.mem_append_left _ hmem⟩
      · cases free.symm.trans hjob
      · exact absurd hstopped running
    · cases List.mem_singleton.mp claimed
      exact .inr (.inl now)
  | settle job' verdicts was hevents =>
    subst hevents
    obtain ⟨verdicts, hmem⟩ | hjob | hstopped := pending (by simpa using claimed)
    · exact .inl ⟨verdicts, List.mem_append_left _ hmem⟩
    · cases was.symm.trans hjob
      exact .inl ⟨verdicts, List.mem_append_right _ List.mem_cons_self⟩
    · rw [hstopped] at was
      cases was
  | drop host job' error action was failed =>
    subst action
    obtain ⟨verdicts, hverdicts⟩ := judge_succeeds.mpr (judgeable job' was)
    cases failed.symm.trans hverdicts
  | stop stopped quiet => exact .inr (.inr stopped)

theorem JudgeStep.claimed_own {before : JudgeState} (move : JudgeStep s j a before place db events)
    {i : Nat} {job : Job} (claimed : .claimed i job ∈ events) : i = j := by
  cases move with
  | take job =>
    cases List.mem_singleton.mp claimed
    rfl
  | _ => simp at claimed

theorem tracked_step (inv : Inv s ledger) (tracked : Tracked s) (judgeable : OnlyJudgeable s a)
    (h : machine.step s a = some t) : Tracked t := by
  intro i job claimed
  cases step_cases h with
  | tick elapsed => exact (tracked i job claimed).mono rfl (List.Subset.refl _)
  | api n db events move =>
    obtain claimed | claimed := List.mem_append.mp claimed
    · exact (tracked i job claimed).mono rfl (List.subset_append_left _ _)
    · obtain ⟨id, job', he⟩ := move.inserted claimed
      cases he
  | judge j place db events move =>
    by_cases hi : i = j
    · subst hi
      exact (move.handover inv).pending judgeable (Function.update_self ..) rfl (tracked i job)
        claimed
    · obtain claimed | claimed := List.mem_append.mp claimed
      · exact (tracked i job claimed).mono (Function.update_of_ne hi _ _)
          (List.subset_append_left _ _)
      · exact absurd (move.claimed_own claimed) hi

theorem Inv.over_of_finished (inv : Inv s ledger) {id : Uuid} {verdicts : List Verdict}
    (finished : .finished j id verdicts true ∈ s.log) : Over s id := by
  have hact : WorkQueue.Act.settle j id verdicts ∈ s.acts :=
    List.mem_filterMap.mpr ⟨_, finished, rfl⟩
  obtain ⟨job, hentry⟩ := WorkQueue.run_settled inv.trace hact
  obtain ⟨row, hrow, _, hdone, _⟩ := inv.row_of_entry hentry
  exact ⟨row, hrow, .inl hdone, row.finished_iff.mpr (.inl hdone)⟩

theorem concluded_of_tracked (inv : Inv s ledger) (tracked : Tracked s) : Concluded s := by
  intro j idle job claimed
  obtain ⟨verdicts, finished⟩ | hjob | stopped := tracked j job claimed
  · exact inv.over_of_finished finished
  · rw [idle] at hjob
    cases hjob
  · cases idle.symm.trans stopped

theorem onlyJudgeable_of_concluded (inv : Inv s ledger)
    (h : machine.step s a = some t) (concluded : Concluded t) : OnlyJudgeable s a := by
  cases a with
  | judge j host =>
    intro job hj
    rw [← judge_succeeds]
    cases hjudge : judge host job with
    | ok verdicts => exact ⟨verdicts, rfl⟩
    | error error =>
      simp only [machine, step, hj, hjudge] at h
      cases h
      obtain ⟨_, htaken⟩ := inv.situation hj
      obtain ⟨row, hrow, hrunning, _⟩ := inv.row_of_taken htaken
      obtain ⟨row', hrow', hover, _⟩ := concluded j (Function.update_self ..) job
        (List.mem_append_left _ (inv.taken _ _ _ htaken))
      cases hrow.symm.trans hrow'
      simp [hrunning] at hover
  | _ => trivial

end Steps

/-- In a run, every judge that is back at `claim` has concluded its jobs exactly when
all the jobs that were judged in it could be judged. -/
theorem concluded_iff_onlyJudgeable (schedule : List Action) :
    machine.Always Concluded .init schedule ↔ machine.Meets OnlyJudgeable .init schedule := by
  constructor
  · exact Machine.Always.meets step_inv
      (fun s a t ⟨_, inv⟩ h concluded => onlyJudgeable_of_concluded inv h concluded) ⟨_, init_inv⟩
  · refine Machine.Meets.always (I := fun s => (∃ ledger, Inv s ledger) ∧ Tracked s)
      (fun s a t ⟨inv, tracked⟩ judgeable h => ⟨step_inv s a t inv h, ?_⟩)
      (fun s ⟨⟨_, inv⟩, tracked⟩ => concluded_of_tracked inv tracked)
      ⟨⟨_, init_inv⟩, fun _ _ h => nomatch h⟩
    obtain ⟨ledger, inv⟩ := inv
    exact tracked_step inv tracked judgeable h

def helloJava : Submission where
  course := log200
  exercise := sum
  languagePack := ⟨"java", by decide⟩
  source := "class Main {}"
  plain := by decide

def silentHost : Host where
  files := ⟨.directory true true [], []⟩
  docker := fun _ _ _ => .ok (.exited (.code 0) [])
  content := ⟨true, []⟩

def unknownLanguage : List Action :=
  [.apiBegin 0, .apiInsert 0 firstId helloJava, .apiCommit 0, .claimBegin 0, .claimSnapshot 0,
    .claimVisit 0, .claimUpdate 0, .claimCommit 0, .judge 0 silentHost]

theorem unknownLanguage_left_running : ¬machine.Always Concluded .init unknownLanguage := by
  intro h
  have hend : (machine.run .init unknownLanguage).map (fun t => (t.log[1]?, t.judges 0,
      (t.db.committed.lookup firstId).map (·.state))) =
        some (some (.claimed 0 (jobOf firstId (helloJava.row 0))), .idle, some .running) := by rfl
  obtain ⟨t, hrun, ht⟩ := Option.map_eq_some_iff.mp hend
  simp only [Prod.mk.injEq] at ht
  obtain ⟨hclaimed, hidle, hrunning⟩ := ht
  obtain ⟨row, hrow, hover, _⟩ := h.last hrun 0 hidle _ (List.mem_of_getElem? hclaimed)
  have hid : (jobOf firstId (helloJava.row 0)).id = firstId := rfl
  rw [hid] at hrow
  simp only [hrow, Option.map_some, Option.some.injEq] at hrunning
  simp [hrunning] at hover

end Pals.Queue
