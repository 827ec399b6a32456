import Pals.Contracts.Identifier
import Pals.Judge.Cases
import Pals.Judge.Stdio

/-! A job judged: its cases one after the other, each in a container of its own. -/
namespace Pals.Judge
open Pals.Library Pals.Library.Time Pals.Contracts

structure Job where
  id : Uuid
  contract : Int32
  course : String
  exercise : String
  languagePack : String
  source : String
deriving DecidableEq

/-- The name that `judge` and `judge_cases` make for the container of a case. -/
def containerName (id : Uuid) (index : Nat) : String := s!"judge-{Uuid.text id}-{index}"

def image : String := "python:3.14-alpine"
def timeout : Duration := ⟨10 * nanosPerSec, by decide⟩

section Cases
variable (docker : Docker) (name image : String) (command : List String) (timeout : Duration)

/-- The loop of `judge_cases`, from the case at `index` on. -/
def judgeFrom : (index : Nat) → List Verdict → List Case → IoResult (List Verdict)
  | _, verdicts, [] => .ok verdicts
  | index, verdicts, case :: cases => do
      let outcome ← runInSandbox docker s!"{name}-{index}" image command case.input timeout
      judgeFrom (index + 1) (verdicts ++ [caseVerdict outcome case.expected]) cases

def judgeCases (cases : List Case) (timeout : Duration) : IoResult (List Verdict) :=
  judgeFrom docker name image command timeout 0 [] cases

def judgeCase (case : Case × Nat) : IoResult Verdict :=
  (caseVerdict · case.1.expected) <$>
    runInSandbox docker s!"{name}-{case.2}" image command case.1.input timeout

theorem judgeFrom_eq (index : Nat) (verdicts : List Verdict) (cases : List Case) :
    judgeFrom docker name image command timeout index verdicts cases =
      (verdicts ++ ·) <$> (cases.zipIdx index).mapM (judgeCase docker name image command timeout) := by
  induction cases generalizing index verdicts with
  | nil => simp [judgeFrom, pure, Except.pure, Functor.map, Except.map]
  | cons case cases ih =>
    simp only [judgeFrom, ih, List.zipIdx_cons, List.mapM_cons, judgeCase]
    cases runInSandbox docker s!"{name}-{index}" image command case.input timeout with
    | error e => rfl
    | ok outcome =>
      cases (cases.zipIdx (index + 1)).mapM (judgeCase docker name image command timeout) <;>
        simp [bind, Except.bind, Functor.map, Except.map, pure, Except.pure]

theorem judgeCases_eq (cases : List Case) :
    judgeCases docker name image command cases timeout =
      cases.zipIdx.mapM (judgeCase docker name image command timeout) := by
  rw [judgeCases, judgeFrom_eq]
  cases cases.zipIdx.mapM (judgeCase docker name image command timeout) <;> rfl

theorem judgeCases_succeeds {cases : List Case} :
    (∃ verdicts, judgeCases docker name image command cases timeout = .ok verdicts) ↔
      ∀ case ∈ cases.zipIdx, ∃ outcome,
        runInSandbox docker s!"{name}-{case.2}" image command case.1.input timeout = .ok outcome := by
  rw [judgeCases_eq, mapM_succeeds]
  simp only [judgeCase, map_eq_ok]
  constructor
  · intro h case hcase
    obtain ⟨_, outcome, hrun, _⟩ := h case hcase
    exact ⟨outcome, hrun⟩
  · intro h case hcase
    obtain ⟨outcome, hrun⟩ := h case hcase
    exact ⟨_, outcome, hrun, rfl⟩

theorem judgeCases_get {cases : List Case} {verdicts : List Verdict}
    (h : judgeCases docker name image command cases timeout = .ok verdicts) :
    verdicts.length = cases.length ∧ ∀ (i : Nat) (case : Case) (verdict : Verdict),
      cases[i]? = some case → verdicts[i]? = some verdict → ∃ outcome,
        runInSandbox docker s!"{name}-{i}" image command case.input timeout = .ok outcome ∧
          caseVerdict outcome case.expected = verdict := by
  rw [judgeCases_eq, mapM_eq_ok] at h
  refine ⟨by rw [← h.length_eq, List.length_zipIdx], fun i case verdict hcase hverdict => ?_⟩
  obtain ⟨hi, rfl⟩ := List.getElem?_eq_some_iff.mp hcase
  obtain ⟨hi', rfl⟩ := List.getElem?_eq_some_iff.mp hverdict
  have hround := h.get (i := i) (by simpa using hi) hi'
  simp only [List.get_eq_getElem, List.getElem_zipIdx, Nat.zero_add] at hround
  exact map_eq_ok.mp hround

end Cases

structure Host where
  files : FileSystem
  docker : Docker
  content : Path

def assessmentOf (content : Path) (exercise : String) : Path :=
  ((content.join (utf8 "exercises")).join (utf8 exercise)).join (utf8 "assessment")

def judge (host : Host) (job : Job) : IoResult (List Verdict) := do
  if job.languagePack ≠ "python" then
    .error (.new .unsupported s!"language pack {job.languagePack}")
  else
    let cases ← readCases host.files (assessmentOf host.content job.exercise)
    judgeCases host.docker s!"judge-{Uuid.text job.id}" image ["python3", "-c", job.source] cases timeout

theorem judge_eq_ok {host : Host} {job : Job} {verdicts : List Verdict} :
    judge host job = .ok verdicts ↔ job.languagePack = "python" ∧ ∃ cases,
      readCases host.files (assessmentOf host.content job.exercise) = .ok cases ∧
      judgeCases host.docker s!"judge-{Uuid.text job.id}" image ["python3", "-c", job.source] cases
        timeout = .ok verdicts := by
  unfold judge
  by_cases hpack : job.languagePack = "python" <;> simp [hpack, bind_eq_ok]

theorem judge_congr {host other : Host} {job : Job} (hdocker : host.docker = other.docker)
    (hcontent : host.content = other.content)
    (hfiles : host.files.stat (assessmentOf host.content job.exercise) =
      other.files.stat (assessmentOf host.content job.exercise)) :
    judge host job = judge other job := by
  unfold judge
  rw [← hcontent, ← hdocker, readCases_of_stat hfiles]

/-- A job that a host can judge: its language pack is known, its assessment holds
cases, and no docker command fails on them. -/
def Judgeable (host : Host) (job : Job) : Prop :=
  job.languagePack = "python" ∧ ∃ entries,
    host.files.stat (assessmentOf host.content job.exercise) = .ok (.directory true true entries) ∧
    HoldsCases (.directory true true entries) ∧ ∀ case ∈ (casesOf entries).zipIdx, ∃ outcome,
      runInSandbox host.docker (containerName job.id case.2) image
        ["python3", "-c", job.source] case.1.input timeout = .ok outcome

theorem judge_succeeds {host : Host} {job : Job} :
    (∃ verdicts, judge host job = .ok verdicts) ↔ Judgeable host job := by
  simp only [judge_eq_ok]
  constructor
  · rintro ⟨verdicts, hpack, cases, hcases, hverdicts⟩
    obtain ⟨node, hstat, hholds⟩ := readCases_succeeds.mp ⟨cases, hcases⟩
    match node, hholds with
    | .directory true true entries, hholds =>
      cases hcases.symm.trans (readCases_eq_casesOf hstat hholds)
      exact ⟨hpack, entries, hstat, hholds,
        (judgeCases_succeeds _ _ _ _ _).mp ⟨verdicts, hverdicts⟩⟩
  · rintro ⟨hpack, entries, hstat, hholds, hruns⟩
    obtain ⟨verdicts, hverdicts⟩ := (judgeCases_succeeds _ _ _ _ _).mpr hruns
    exact ⟨verdicts, hpack, _, readCases_eq_casesOf hstat hholds, hverdicts⟩

/-- An assessment with no case to run never gives a verdict list. -/
theorem judge_ne_nil {host : Host} {job : Job} : judge host job ≠ .ok [] := by
  intro h
  obtain ⟨_, cases, hcases, hverdicts⟩ := judge_eq_ok.mp h
  obtain ⟨_, _, hne, _⟩ := readCases_source hcases
  rw [judgeCases_eq, mapM_eq_ok] at hverdicts
  have hlength := hverdicts.length_eq
  simp only [List.length_zipIdx, List.length_nil, List.length_eq_zero_iff] at hlength
  exact hne hlength

end Pals.Judge
