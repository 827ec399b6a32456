import Pals.Library.Machine
import Pals.Queue.Jobs

/-! The statements that the roles may run on the table of jobs, one at a time: the
two functions of the judge, and what is granted to the API. -/
namespace Pals.Queue
open Pals.Library Pals.Contracts Pals.Judge

/-- The table after the statement and its answer, or the constraint that it breaks. -/
def claimJob (now : Timestamp) (jobs : Jobs) : Except Check (Jobs × Option Job) :=
  match (waitingIds jobs).head?.bind fun id => (jobs.lookup id).map fun row => (id, row) with
  | none => .ok (jobs, none)
  | some (id, row) => do
      let claimed ← accept (row.claim now)
      return (jobs.insert id claimed, some (jobOf id claimed.toJobRow))

def finishJob (now : Timestamp) (id : Uuid) (verdicts : List Verdict) (jobs : Jobs) :
    Except Check (Jobs × Bool) :=
  match jobs.lookup id with
  | none => .ok (jobs, false)
  | some row =>
      if row.state = .running ∧ verdicts ≠ [] then do
        let finished ← accept (row.finish now verdicts)
        return (jobs.insert id finished, true)
      else .ok (jobs, false)

def insertJob (id : Uuid) (row : Row) (jobs : Jobs) : Option Jobs :=
  if id ∈ jobs then none else some (jobs.insert id row)

/-- The new values of the columns `state` and `finished_at`, for the rows that an
update selects. -/
abbrev Assignment := Uuid → Row → Option (JobState × Option Timestamp)

def updateRow (assign : Assignment) (jobs : Jobs) (entry : Σ _ : Uuid, Row) : Except Check Jobs :=
  match assign entry.1 entry.2 with
  | none => .ok jobs
  | some (state, finishedAt) => do
      let updated ← accept { entry.2.toJobRow with state, finishedAt }
      return jobs.insert entry.1 updated

/-- An update with any condition and any values of the columns that the role may
write. One row that breaks a constraint is enough to reject it. -/
def updateJobs (assign : Assignment) (jobs : Jobs) : Except Check Jobs :=
  jobs.entries.foldlM (updateRow assign) jobs

inductive SqlAction where
  | claim (now : Timestamp)
  | finish (now : Timestamp) (id : Uuid) (verdicts : List Verdict)
  | insert (id : Uuid) (row : Row)
  | update (assign : Assignment)

def SqlAction.apply (jobs : Jobs) : SqlAction → Jobs
  | claim now => ((claimJob now jobs).map Prod.fst).toOption.getD jobs
  | finish now id verdicts => ((finishJob now id verdicts jobs).map Prod.fst).toOption.getD jobs
  | insert id row => (insertJob id row jobs).getD jobs
  | update assign => (updateJobs assign jobs).toOption.getD jobs

def statements : Machine Jobs SqlAction := ⟨fun jobs action => some (action.apply jobs)⟩

/-- What no statement takes from a row: the instant of its claim, and its result. -/
structure Keeps (before after : Row) : Prop where
  claimedAt : ∀ claimedAt, before.claimedAt = some claimedAt → after.claimedAt = some claimedAt
  result : ∀ result, before.result = some result → after.result = some result

def KeepsAll (before after : Jobs) : Prop :=
  ∀ id row, before.lookup id = some row → ∃ row', after.lookup id = some row' ∧ Keeps row row'

theorem Keeps.refl (row : Row) : Keeps row row := ⟨fun _ => id, fun _ => id⟩

theorem Keeps.trans {first second third : Row} (h : Keeps first second) (h' : Keeps second third) :
    Keeps first third :=
  ⟨fun _ hc => h'.claimedAt _ (h.claimedAt _ hc), fun _ hr => h'.result _ (h.result _ hr)⟩

theorem KeepsAll.refl (jobs : Jobs) : KeepsAll jobs jobs := fun _ row h => ⟨row, h, .refl row⟩

theorem KeepsAll.trans {first second third : Jobs} (h : KeepsAll first second)
    (h' : KeepsAll second third) : KeepsAll first third := by
  intro id row hrow
  obtain ⟨row', hrow', keeps⟩ := h id row hrow
  obtain ⟨row'', hrow'', keeps'⟩ := h' id row' hrow'
  exact ⟨row'', hrow'', keeps.trans keeps'⟩

theorem KeepsAll.insert {jobs : Jobs} {id : Uuid} {row : Row}
    (keeps : ∀ old, jobs.lookup id = some old → Keeps old row) : KeepsAll jobs (jobs.insert id row) := by
  intro id' old hold
  by_cases h : id' = id
  · subst h
    exact ⟨row, AList.lookup_insert jobs, keeps old hold⟩
  · exact ⟨old, by rw [AList.lookup_insert_ne h, hold], .refl old⟩

theorem claimJob_eq_ok {now : Timestamp} {jobs after : Jobs} {job : Option Job}
    (h : claimJob now jobs = .ok (after, job)) :
    (job = none ∧ after = jobs) ∨ ∃ id row claimed,
      jobs.lookup id = some row ∧ row.state = .waiting ∧ claimed.toJobRow = row.claim now ∧
      after = jobs.insert id claimed ∧ job = some (jobOf id claimed.toJobRow) := by
  unfold claimJob at h
  split at h
  · cases h
    exact .inl ⟨rfl, rfl⟩
  · rename_i id row hfirst
    obtain ⟨claimed, hclaimed, hrest⟩ := bind_eq_ok.mp h
    cases hrest
    obtain ⟨id', hid, hrow⟩ := Option.bind_eq_some_iff.mp hfirst
    obtain ⟨row', hrow, hpair⟩ := Option.map_eq_some_iff.mp hrow
    cases hpair
    obtain ⟨waiting, hwaiting, hstate⟩ := mem_waitingIds.mp (List.mem_of_mem_head? hid)
    cases hrow.symm.trans hwaiting
    exact .inr ⟨id, row, claimed, hrow, hstate, accept_eq_ok.mp hclaimed, rfl, rfl⟩

theorem finishJob_eq_ok {now : Timestamp} {id : Uuid} {verdicts : List Verdict}
    {jobs after : Jobs} {answer : Bool} (h : finishJob now id verdicts jobs = .ok (after, answer)) :
    (answer = false ∧ after = jobs) ∨ ∃ row finished,
      jobs.lookup id = some row ∧ row.state = .running ∧
      finished.toJobRow = row.finish now verdicts ∧ after = jobs.insert id finished ∧
      answer = true := by
  unfold finishJob at h
  split at h
  · cases h
    exact .inl ⟨rfl, rfl⟩
  · rename_i row hrow
    split at h
    · rename_i hrunning
      obtain ⟨finished, hfinished, hrest⟩ := bind_eq_ok.mp h
      cases hrest
      exact .inr ⟨row, finished, hrow, hrunning.1, accept_eq_ok.mp hfinished, rfl, rfl⟩
    · cases h
      exact .inl ⟨rfl, rfl⟩

theorem updateRow_keepsAll {assign : Assignment} {jobs current after : Jobs}
    {entry : Σ _ : Uuid, Row} (hentry : jobs.lookup entry.1 = some entry.2)
    (keeps : KeepsAll jobs current) (h : updateRow assign current entry = .ok after) :
    KeepsAll jobs after := by
  unfold updateRow at h
  split at h
  · cases h
    exact keeps
  · obtain ⟨updated, hupdated, hrest⟩ := bind_eq_ok.mp h
    cases hrest
    have hrow := accept_eq_ok.mp hupdated
    intro id row hlookup
    by_cases hid : id = entry.1
    · subst hid
      cases hentry.symm.trans hlookup
      refine ⟨updated, AList.lookup_insert current, ?_, ?_⟩ <;> simp [hrow]
    · obtain ⟨row', hrow', hkeeps⟩ := keeps id row hlookup
      exact ⟨row', by rw [AList.lookup_insert_ne hid, hrow'], hkeeps⟩

theorem updateJobs_keepsAll {assign : Assignment} {jobs after : Jobs}
    (h : updateJobs assign jobs = .ok after) : KeepsAll jobs after := by
  suffices hfold : ∀ (entries : List (Σ _ : Uuid, Row)) (current : Jobs),
      (∀ entry ∈ entries, jobs.lookup entry.1 = some entry.2) → KeepsAll jobs current →
      entries.foldlM (updateRow assign) current = .ok after → KeepsAll jobs after by
    exact hfold jobs.entries jobs (fun entry hentry => AList.mem_lookup_iff.mpr hentry) (.refl jobs) h
  intro entries
  induction entries with
  | nil =>
    intro current _ keeps h
    cases h
    exact keeps
  | cons entry entries ih =>
    intro current hentries keeps h
    obtain ⟨next, hnext, hrest⟩ := bind_eq_ok.mp h
    exact ih next (fun e he => hentries e (List.mem_cons_of_mem _ he))
      (updateRow_keepsAll (hentries entry List.mem_cons_self) keeps hnext) hrest

theorem claimJob_keepsAll {now : Timestamp} {jobs after : Jobs} {job : Option Job}
    (h : claimJob now jobs = .ok (after, job)) : KeepsAll jobs after := by
  obtain ⟨_, rfl⟩ | ⟨id, row, claimed, hrow, hwaiting, hclaimed, rfl, _⟩ := claimJob_eq_ok h
  · exact .refl after
  · refine .insert fun old hold => ?_
    cases hrow.symm.trans hold
    have hnone := row.claimedAt_of_waiting hwaiting
    constructor <;> simp [hclaimed, JobRow.claim, hnone]

theorem finishJob_keepsAll {now : Timestamp} {id : Uuid} {verdicts : List Verdict}
    {jobs after : Jobs} {answer : Bool} (h : finishJob now id verdicts jobs = .ok (after, answer)) :
    KeepsAll jobs after := by
  obtain ⟨_, rfl⟩ | ⟨row, finished, hrow, hrunning, hfinished, rfl, _⟩ := finishJob_eq_ok h
  · exact .refl after
  · refine .insert fun old hold => ?_
    cases hrow.symm.trans hold
    have hnone := row.result_of_not_done (by simp [hrunning])
    constructor <;> simp [hfinished, JobRow.finish, hnone]

theorem insertJob_keepsAll {id : Uuid} {row : Row} {jobs after : Jobs}
    (h : insertJob id row jobs = some after) : KeepsAll jobs after := by
  unfold insertJob at h
  split at h <;> cases h
  rename_i hnew
  exact .insert fun old hold => absurd (AList.lookup_isSome.mp (by simp [hold])) hnew

theorem apply_keepsAll (jobs : Jobs) (action : SqlAction) : KeepsAll jobs (action.apply jobs) := by
  cases action with
  | claim now =>
    simp only [SqlAction.apply]
    cases h : claimJob now jobs with
    | error check => exact .refl jobs
    | ok answer => exact claimJob_keepsAll h
  | finish now id verdicts =>
    simp only [SqlAction.apply]
    cases h : finishJob now id verdicts jobs with
    | error check => exact .refl jobs
    | ok answer => exact finishJob_keepsAll h
  | insert id row =>
    simp only [SqlAction.apply]
    cases h : insertJob id row jobs with
    | none => exact .refl jobs
    | some after => exact insertJob_keepsAll h
  | update assign =>
    simp only [SqlAction.apply]
    cases h : updateJobs assign jobs with
    | error check => exact .refl jobs
    | ok after => exact updateJobs_keepsAll h

theorem Keeps.claimed {before after : Row} (keeps : Keeps before after) {claimedAt : Timestamp}
    (claimed : before.claimedAt = some claimedAt) :
    after.state ≠ .waiting ∧ after.state ≠ .replaced := by
  have h := after.claimed_iff.mp (by simp [keeps.claimedAt _ claimed])
  rcases h with h | h | h <;> simp [h]

theorem Keeps.done {before after : Row} (keeps : Keeps before after) (done : before.state = .done) :
    after.state = .done ∧ after.claimedAt = before.claimedAt ∧ after.result = before.result := by
  obtain ⟨result, hresult⟩ := Option.isSome_iff_exists.mp (before.result_iff.mpr done)
  obtain ⟨claimedAt, hclaimed⟩ := Option.isSome_iff_exists.mp (before.claimed_iff.mpr (by simp [done]))
  rw [hresult, hclaimed]
  exact ⟨after.result_iff.mp (by simp [keeps.result _ hresult]), keeps.claimedAt _ hclaimed,
    keeps.result _ hresult⟩

theorem reaches_keepsAll {jobs later : Jobs} (h : statements.Reaches jobs later) :
    KeepsAll jobs later := by
  refine h.related (I := fun _ => True) KeepsAll.refl (fun _ _ _ => KeepsAll.trans)
    (fun _ _ _ _ _ => trivial) (fun before action after _ hstep => ?_) trivial
  cases hstep
  exact apply_keepsAll before action

/-- Whatever the roles may run afterwards, a row that was claimed is not claimed
again and neither waits nor is replaced again, and one that was finished stays done
with its result. -/
theorem recorded_work_is_kept (jobs : Jobs) :
    (∀ now claimed job, claimJob now jobs = .ok (claimed, some job) →
      ∀ later, statements.Reaches claimed later →
        (∃ row, later.lookup job.id = some row ∧ row.state ≠ .waiting ∧ row.state ≠ .replaced) ∧
        ∀ now' after job', claimJob now' later = .ok (after, some job') → job'.id ≠ job.id) ∧
    (∀ now id verdicts finished, finishJob now id verdicts jobs = .ok (finished, true) →
      ∃ row, finished.lookup id = some row ∧ row.state = .done ∧
        ∀ later, statements.Reaches finished later →
          ∃ row', later.lookup id = some row' ∧ row'.state = .done ∧
            row'.claimedAt = row.claimedAt ∧ row'.result = row.result) := by
  constructor
  · intro now claimed job h later hlater
    obtain ⟨hnone, _⟩ | ⟨id, row, row', _, _, hclaimed, rfl, hjob⟩ := claimJob_eq_ok h
    · cases hnone
    · cases hjob
      obtain ⟨last, hlast, keeps⟩ := reaches_keepsAll hlater id row' (AList.lookup_insert jobs)
      have hstate := keeps.claimed (show row'.claimedAt = some now by rw [hclaimed]; rfl)
      refine ⟨⟨last, hlast, hstate⟩, ?_⟩
      rintro now' after job' h' hid
      obtain ⟨hnone, _⟩ | ⟨id', other, _, hother, hwaiting, _, _, hjob'⟩ := claimJob_eq_ok h'
      · cases hnone
      · cases hjob'
        change id' = id at hid
        subst hid
        cases hlast.symm.trans hother
        exact hstate.1 hwaiting
  · intro now id verdicts finished h
    obtain ⟨hfalse, _⟩ | ⟨row, row', _, _, hfinished, rfl, _⟩ := finishJob_eq_ok h
    · cases hfalse
    · have hdone : row'.state = .done := by rw [hfinished]; rfl
      refine ⟨row', AList.lookup_insert jobs, hdone, fun later hlater => ?_⟩
      obtain ⟨last, hlast, keeps⟩ := reaches_keepsAll hlater id row' (AList.lookup_insert jobs)
      exact ⟨last, hlast, keeps.done hdone⟩

def enqueued : JobRow where
  contract := 1
  course := log200
  exercise := sum
  languagePack := python
  source := "print(0)"
  state := .waiting
  enqueuedAt := 0
  claimedAt := none
  finishedAt := none
  result := none

def oneWaiting : Jobs := AList.singleton firstId ⟨enqueued, by decide⟩
def oneRunning : Jobs := AList.singleton firstId ⟨enqueued.claim 5, by decide⟩
def oneDone : Jobs := AList.singleton firstId ⟨(enqueued.claim 5).finish 6 [.passed], by decide⟩

def requeueAll : Assignment := fun _ _ => some (.waiting, none)

theorem recorded_work_is_kept_oneWaiting :
    (∃ row, oneRunning.lookup firstId = some row ∧ row.state ≠ .waiting ∧ row.state ≠ .replaced) ∧
      ∃ row, oneDone.lookup firstId = some row ∧ row.state = .done := by
  constructor
  · exact ((recorded_work_is_kept oneWaiting).1 5 oneRunning (jobOf firstId enqueued) (by rfl) oneRunning
      ⟨[.update requeueAll], by rfl⟩).1
  · obtain ⟨_, _, _, kept⟩ := (recorded_work_is_kept oneRunning).2 6 firstId [.passed] oneDone (by rfl)
    obtain ⟨row, hrow, hdone, _⟩ := kept oneDone ⟨[.update requeueAll], by rfl⟩
    exact ⟨row, hrow, hdone⟩

end Pals.Queue
