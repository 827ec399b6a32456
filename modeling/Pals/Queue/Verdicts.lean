import Pals.Queue.Exclusive
import Pals.Queue.Statements

/-! All the verdicts of a job or none: what `judge` answers has one verdict a case, and
nothing else ever reaches `finish_job`. -/
namespace Pals.Queue
open Pals.Library Pals.Contracts Pals.Judge

section Judge
variable (host : Host) (job : Job)

def casesOfJob : IoResult (List Case) :=
  readCases host.files (assessmentOf host.content job.exercise)

def runOfCase (index : Nat) (case : Case) : IoResult Outcome :=
  runInSandbox host.docker (containerName job.id index) image ["python3", "-c", job.source]
    case.input timeout

/-- One verdict a case of the exercise, in order, each on the case's own run. -/
def Complete (verdicts : List Verdict) : Prop :=
  ∃ cases, casesOfJob host job = .ok cases ∧ verdicts.length = cases.length ∧
    ∀ (i : Nat) (case : Case), cases[i]? = some case → ∃ outcome,
      runOfCase host job i case = .ok outcome ∧
        verdicts[i]? = some (caseVerdict outcome case.expected)

def ReadingFails : Prop :=
  ∃ names, host.files.readDir (assessmentOf host.content job.exercise) = .ok names ∧
    ∃ input ∈ inputPaths (assessmentOf host.content job.exercise) names, ∃ error,
      readCaseFile host.files input = .error error ∨
        readCaseFile host.files (input.withExtension (utf8 "out")) = .error error

def RunningFails : Prop :=
  ∃ cases, casesOfJob host job = .ok cases ∧ ∃ (i : Nat) (case : Case) (error : IoError),
    cases[i]? = some case ∧ runOfCase host job i case = .error error

end Judge

section Judge
variable {host : Host} {job : Job}

theorem judge_complete {verdicts : List Verdict} (h : judge host job = .ok verdicts) :
    verdicts ≠ [] ∧ Complete host job verdicts := by
  refine ⟨fun hnil => judge_ne_nil (hnil ▸ h), ?_⟩
  obtain ⟨_, cases, hcases, hverdicts⟩ := judge_eq_ok.mp h
  rw [judgeCases_eq, mapM_eq_ok] at hverdicts
  have hlength : verdicts.length = cases.length := by
    rw [← hverdicts.length_eq, List.length_zipIdx]
  refine ⟨cases, hcases, hlength, fun i case hcase => ?_⟩
  obtain ⟨hi, rfl⟩ := List.getElem?_eq_some_iff.mp hcase
  have hverdict := hverdicts.get (i := i) (by simpa using hi) (hlength ▸ hi)
  simp only [List.get_eq_getElem, List.getElem_zipIdx, Nat.zero_add] at hverdict
  obtain ⟨outcome, hrun, hverdict⟩ := map_eq_ok.mp hverdict
  exact ⟨outcome, hrun, List.getElem?_eq_some_iff.mpr ⟨hlength ▸ hi, hverdict.symm⟩⟩

theorem judge_fails_of_reading (h : ReadingFails host job) : ∃ error, judge host job = .error error := by
  obtain ⟨names, hnames, input, hinput, error, hfile⟩ := h
  rw [exists_error_iff]
  rintro ⟨verdicts, hjudge⟩
  obtain ⟨_, cases, hcases, _⟩ := judge_eq_ok.mp hjudge
  obtain ⟨searchable, entries, hstat, _, hread⟩ := readCases_eq_ok.mp hcases
  cases hnames.symm.trans (FileSystem.readDir_eq_ok.mpr ⟨_, _, hstat, rfl⟩)
  obtain ⟨case, hcase⟩ := mapM_succeeds.mp ⟨_, hread⟩ input hinput
  obtain ⟨bytes, hbytes, hrest⟩ := bind_eq_ok.mp hcase
  obtain ⟨expected, hexpected, _⟩ := bind_eq_ok.mp hrest
  rcases hfile with hfile | hfile
  · cases hfile.symm.trans hbytes
  · cases hfile.symm.trans hexpected

theorem judge_fails_of_running (h : RunningFails host job) : ∃ error, judge host job = .error error := by
  obtain ⟨cases, hcases, i, case, error, hcase, hrun⟩ := h
  rw [exists_error_iff]
  rintro ⟨verdicts, hjudge⟩
  obtain ⟨cases', hcases', _, hruns⟩ := (judge_complete hjudge).2
  cases hcases.symm.trans hcases'
  obtain ⟨outcome, hok, _⟩ := hruns i case hcase
  cases hrun.symm.trans hok

end Judge

/-- What the committed calls of `finish_job` were given, and what the table holds, are
complete verdict lists that `judge` answered. -/
structure AllComplete (s : State) : Prop where
  given : ∀ j id verdicts answer, .finished j id verdicts answer ∈ s.log → ∃ host job,
    job.id = id ∧ .judged j host job ∈ s.log ∧ judge host job = .ok verdicts ∧
      verdicts ≠ [] ∧ Complete host job verdicts
  stored : ∀ id row result, s.db.committed.lookup id = some row → row.result = some result →
    ∃ j host verdicts, .judged j host (jobOf id row.toJobRow) ∈ s.log ∧
      result = resultOf verdicts ∧ verdicts ≠ [] ∧ Complete host (jobOf id row.toJobRow) verdicts

def AllObtained (s : State) : Prop :=
  ∀ j id verdicts answer, .finished j id verdicts answer ∈ s.log →
    ∃ job, job.id = id ∧ Obtained s j job verdicts

section Steps
variable {s t : State} {j : Nat} {a : Action} {ledger : Ledger} {db : Db Session Uuid Row}
  {events : List Event}

theorem JudgeStep.given {place : JudgeState} (move : JudgeStep s j a (s.judges j) place db events)
    (inv : Inv s ledger) {i : Nat} {id : Uuid} {verdicts : List Verdict} {answer : Bool}
    (given : .finished i id verdicts answer ∈ events) :
    ∃ job, job.id = id ∧ Obtained s i job verdicts := by
  have situation := inv.judges j
  generalize s.judges j = before at move situation
  cases move with
  | settle job verdicts answer =>
    cases List.mem_singleton.mp given
    exact ⟨job, rfl, situation.2.2.2⟩
  | _ => simp at given

theorem allObtained_step (inv : Inv s ledger) (obtained : AllObtained s)
    (h : machine.step s a = some t) : AllObtained t := by
  intro i id verdicts answer given
  have old (log : s.log ⊆ t.log) (given : .finished i id verdicts answer ∈ s.log) :
      ∃ job, job.id = id ∧ Obtained t i job verdicts := by
    obtain ⟨job, hid, hobtained⟩ := obtained i id verdicts answer given
    exact ⟨job, hid, hobtained.mono log⟩
  cases step_cases h with
  | tick elapsed => exact old (List.Subset.refl _) given
  | api n db events move =>
    rcases List.mem_append.mp given with given | given
    · exact old (List.subset_append_left _ _) given
    · obtain ⟨id, job, he⟩ := move.inserted given
      cases he
  | judge j place db events move =>
    rcases List.mem_append.mp given with given | given
    · exact old (List.subset_append_left _ _) given
    · obtain ⟨job, hid, hobtained⟩ := move.given inv given
      exact ⟨job, hid, hobtained.mono (List.subset_append_left _ _)⟩

theorem allComplete_of_obtained (inv : Inv s ledger) (obtained : AllObtained s) : AllComplete s where
  given j id verdicts answer given := by
    obtain ⟨job, hid, host, hjudged, hjudge⟩ := obtained j id verdicts answer given
    exact ⟨host, job, hid, hjudged, hjudge, judge_complete hjudge⟩
  stored id row result hrow hresult := by
    have hdone := row.result_iff.mp (by simp [hresult])
    obtain ⟨j, host, verdicts, _, hjudged, hjudge, hown⟩ := inv.exclusive.ownVerdicts id row hrow hdone
    cases hresult.symm.trans hown
    exact ⟨j, host, verdicts, hjudged, rfl, judge_complete hjudge⟩

theorem step_of_judge_error {host : Host} {job : Job} {error : IoError}
    (hj : s.judges j = .judging job) (failed : judge host job = .error error)
    (h : machine.step s (.judge j host) = some t) :
    t.judges j = .idle ∧ t.db = s.db ∧ machine.step t (.finishBegin j) = none := by
  simp only [machine, step, hj, failed] at h
  cases h
  have hidle : ((s.setJudge j .idle).record [.judged j host job]).judges j = .idle :=
    Function.update_self ..
  exact ⟨hidle, rfl, by simp only [machine, step, finishStep, hidle]⟩

theorem JudgeStep.refused {before : JudgeState} {job : Job} {verdicts : List Verdict}
    (move : JudgeStep s j a before (.finished job verdicts false) db events)
    (nonempty : verdicts ≠ []) {row : Row} (newest : db.newest (.judge j) job.id = some row) :
    row.state ≠ .running := by
  cases move with
  | finishMisses _ _ missing => exact missing nonempty row newest
  | finishPasses _ _ _ _ lock newest' changed =>
    cases newest.symm.trans newest'
    exact changed

theorem step_refused {job : Job} {verdicts : List Verdict} (h : machine.step s a = some t)
    (before : s.judges j ≠ .finished job verdicts false)
    (after : t.judges j = .finished job verdicts false) (nonempty : verdicts ≠ []) (row : Row)
    (newest : t.db.newest (.judge j) job.id = some row) : row.state ≠ .running := by
  cases step_cases h with
  | tick elapsed => exact absurd after before
  | api n db events move => exact absurd after before
  | judge i place db events move =>
    by_cases hi : j = i
    · subst hi
      have hplace : place = .finished job verdicts false := (Function.update_self ..).symm.trans after
      subst hplace
      exact move.refused nonempty newest
    · exact absurd ((Function.update_of_ne hi ..).symm.trans after) before

end Steps

theorem finishJob_refuses_iff {now : Timestamp} {id : Uuid} {verdicts : List Verdict}
    {jobs : Jobs} (nonempty : verdicts ≠ []) :
    (∃ after, finishJob now id verdicts jobs = .ok (after, false)) ↔
      ∀ row, jobs.lookup id = some row → row.state ≠ .running := by
  constructor
  · rintro ⟨after, h⟩ row hrow hrunning
    simp only [finishJob, hrow, hrunning, nonempty, ne_eq, not_false_eq_true, and_self, if_true] at h
    obtain ⟨finished, _, h⟩ := bind_eq_ok.mp h
    cases h
  · intro h
    refine ⟨jobs, ?_⟩
    cases hrow : jobs.lookup id with
    | none => simp only [finishJob, hrow]
    | some row => simp only [finishJob, hrow, h row hrow, false_and, if_false]

/-- `judge` answers a verdict for every case or fails; when it fails nothing is
finished, so what is ever given to `finish_job` or stored is complete; and given that,
`finish_job` refuses it only for a row that is not running, as the loop reports. -/
theorem verdicts_are_complete :
    (∀ host job verdicts, judge host job = .ok verdicts →
      verdicts ≠ [] ∧ Complete host job verdicts ∧ ∀ now jobs,
        (∃ after, finishJob now job.id verdicts jobs = .ok (after, false)) ↔
          ∀ row, jobs.lookup job.id = some row → row.state ≠ .running) ∧
    (∀ host job, ReadingFails host job ∨ RunningFails host job →
      ∃ error, judge host job = .error error) ∧
    (∀ s t j host job error, s.judges j = .judging job → judge host job = .error error →
      machine.step s (.judge j host) = some t →
        t.judges j = .idle ∧ t.db = s.db ∧ machine.step t (.finishBegin j) = none) ∧
    (∀ s a t j host job verdicts, judge host job = .ok verdicts → machine.step s a = some t →
      s.judges j ≠ .finished job verdicts false → t.judges j = .finished job verdicts false →
        ∀ row, t.db.newest (.judge j) job.id = some row → row.state ≠ .running) ∧
    ∀ schedule, machine.Always AllComplete .init schedule := by
  refine ⟨fun host job verdicts h => ?_, fun host job h => ?_, ?_, ?_, fun schedule => ?_⟩
  · have hcomplete := judge_complete h
    exact ⟨hcomplete.1, hcomplete.2, fun now jobs => finishJob_refuses_iff hcomplete.1⟩
  · exact h.elim judge_fails_of_reading judge_fails_of_running
  · exact fun s t j host job error hj failed h => step_of_judge_error hj failed h
  · exact fun s a t j host job verdicts hjudge h before after =>
      step_refused h before after (judge_complete hjudge).1
  · refine Machine.always (I := fun s => (∃ ledger, Inv s ledger) ∧ AllObtained s)
      (fun s a t ⟨inv, obtained⟩ h => ⟨step_inv s a t inv h, ?_⟩)
      (fun s ⟨⟨_, inv⟩, obtained⟩ => allComplete_of_obtained inv obtained)
      ⟨⟨_, init_inv⟩, fun _ _ _ _ h => nomatch h⟩ schedule
    obtain ⟨ledger, inv⟩ := inv
    exact allObtained_step inv obtained h

end Pals.Queue
