import Pals.Api.Submit

/-! `GET /submissions/{id}`: the state of a job and whether it passed, read from its row
by containment of one JSON value in another. -/
namespace Pals.Api
open Pals.Library Pals.Contracts Pals.Judge Pals.Queue

def JobState.text : JobState → String
  | .waiting => "waiting"
  | .running => "running"
  | .done => "done"
  | .replaced => "replaced"
  | .failed => "failed"

section Json

/-- Numbers are compared by value. -/
def sameScalar : Json → Json → Bool
  | .null, .null => true
  | .bool left, .bool right => left = right
  | .number digits exponent, .number digits' exponent' =>
      let least := min exponent exponent'
      digits * 10 ^ (exponent - least).toNat = digits' * 10 ^ (exponent' - least).toNat
  | .string left, .string right => left = right
  | _, _ => false

mutual
/-- Every part of the second value is found in the first, in any order and however
many times. -/
def contains : Json → Json → Bool
  | outer, .object members =>
      match outer with
      | .object within => containsMembers within members
      | _ => false
  | outer, .array values =>
      match outer with
      | .array within => containsValues within values
      | _ => false
  | outer, scalar => sameScalar outer scalar

def containsMembers (within : List (String × Json)) : List (String × Json) → Bool
  | [] => true
  | (key, value) :: members =>
      (match within.lookup key with
        | some outer => contains outer value
        | none => false) && containsMembers within members

def containsValues (within : List Json) : List Json → Bool
  | [] => true
  | value :: values => within.any (contains · value) && containsValues within values
end

/-- `inner <@ outer`. At the top an array contains its scalars, too. -/
def containedIn (inner outer : Json) : Bool :=
  match outer, inner with
  | .array _, .array _ | .array _, .object _ => contains outer inner
  | .array values, scalar => values.any (sameScalar · scalar)
  | _, _ => contains outer inner

/-- `value -> key` -/
def member (value : Json) (key : String) : Option Json :=
  match value with
  | .object members => members.lookup key
  | _ => none

end Json

structure Progress where
  state : String
  passed : Option Bool
deriving DecidableEq, Repr

/-- `SELECT state::text, (result -> 'cases') <@ '["passed"]' AS passed` -/
def progressOf (row : JobRow) : Progress where
  state := JobState.text row.state
  passed := (row.result.bind (member · "cases")).map (containedIn · (.array [.string "passed"]))

def progress (jobs : Jobs) (id : Uuid) : Except StatusCode Progress :=
  match jobs.lookup id with
  | some row => .ok (progressOf row.toJobRow)
  | none => .error .notFound

def Progress.json (progress : Progress) : Json :=
  .object [("state", .string progress.state),
    ("passed", match progress.passed with
      | some passed => .bool passed
      | none => .null)]

def response (jobs : Jobs) (id : Uuid) : StatusCode × Option Json :=
  match progress jobs id with
  | .ok progress => (.ok, some progress.json)
  | .error status => (status, none)

/-- Submissions are made and judged, one statement at a time. `written` is what the
calls of `finish_job` that answered true have written. -/
structure State where
  jobs : Jobs
  written : List (Uuid × List Verdict)

def State.init : State := ⟨∅, []⟩

inductive Request where
  | submit (now : Timestamp) (id : Uuid) (body : Body)
  | claim (now : Timestamp)
  | finish (now : Timestamp) (id : Uuid) (verdicts : List Verdict)

/-- A statement that fails changes nothing. -/
def step (s : State) : Request → State
  | .submit now id body =>
      match submit now id body s.jobs with
      | .ok (jobs, _) => { s with jobs }
      | .error _ => s
  | .claim now =>
      match claimJob now s.jobs with
      | .ok (jobs, _) => { s with jobs }
      | .error _ => s
  | .finish now id verdicts =>
      match finishJob now id verdicts s.jobs with
      | .ok (jobs, true) => ⟨jobs, s.written ++ [(id, verdicts)]⟩
      | .ok (jobs, false) => { s with jobs }
      | .error _ => s

def machine : Machine State Request := ⟨fun s request => some (step s request)⟩

/-- The array of labels of some verdicts is contained in `["passed"]` when they all
passed, and so when there are none. -/
theorem containedIn_passed_iff (verdicts : List Verdict) :
    containedIn (.array (verdicts.map fun verdict => .string (Verdict.text verdict)))
      (.array [.string "passed"]) = verdicts.all (· = .passed) := by
  induction verdicts with
  | nil => rfl
  | cons verdict verdicts ih =>
    simp only [containedIn, contains, List.map_cons, containsValues, List.all_cons] at ih ⊢
    rw [ih]
    congr 1
    cases verdict <;> decide

example : containedIn (.array []) (.array [.string "passed"]) = true := by decide
example : containedIn (.array [.array [.string "passed"]]) (.array [.string "passed"]) = false := by
  decide

inductive Move (s : State) : State → Prop where
  | none : Move s s
  | insert (id : Uuid) (row : Row) (new : s.jobs.lookup id = none) (waiting : row.state = .waiting) :
      Move s { s with jobs := s.jobs.insert id row }
  | claim (id : Uuid) (row claimed : Row) (found : s.jobs.lookup id = some row)
      (waiting : row.state = .waiting) (running : claimed.state = .running) :
      Move s { s with jobs := s.jobs.insert id claimed }
  | finish (id : Uuid) (row finished : Row) (verdicts : List Verdict)
      (found : s.jobs.lookup id = some row) (running : row.state = .running)
      (result : finished.result = some (resultOf verdicts)) :
      Move s ⟨s.jobs.insert id finished, s.written ++ [(id, verdicts)]⟩

theorem step_move (s : State) (request : Request) : Move s (step s request) := by
  cases request with
  | submit now id body =>
    simp only [step]
    split
    · rename_i jobs answer h
      obtain ⟨submission, _, h⟩ := bind_eq_ok.mp h
      obtain ⟨jobs', hjobs, h⟩ := bind_eq_ok.mp h
      cases h
      obtain ⟨row, new, waiting, rfl⟩ := enqueue_eq_ok (mapError_eq_ok.mp hjobs)
      exact .insert id row new waiting
    · exact .none
  | claim now =>
    simp only [step]
    split
    · rename_i jobs answer h
      obtain ⟨_, rfl⟩ | ⟨id, row, claimed, found, waiting, hclaimed, rfl, _⟩ := claimJob_eq_ok h
      · exact .none
      · exact .claim id row claimed found waiting (by rw [hclaimed]; rfl)
    · exact .none
  | finish now id verdicts =>
    simp only [step]
    split
    · rename_i jobs h
      obtain ⟨hfalse, _⟩ | ⟨row, finished, found, running, hfinished, rfl, _⟩ := finishJob_eq_ok h
      · cases hfalse
      · exact .finish id row finished verdicts found running (by rw [hfinished]; rfl)
    · rename_i jobs h
      obtain ⟨_, rfl⟩ | ⟨_, _, _, _, _, _, htrue⟩ := finishJob_eq_ok h
      · exact .none
      · cases htrue
    · exact .none

structure Recorded (s : State) : Prop where
  stored : ∀ id row result, s.jobs.lookup id = some row → row.result = some result →
    ∃ verdicts, (id, verdicts) ∈ s.written ∧ result = resultOf verdicts
  written : ∀ id verdicts, (id, verdicts) ∈ s.written →
    ∃ row, s.jobs.lookup id = some row ∧ row.result = some (resultOf verdicts)

theorem Recorded.insert {s : State} (recorded : Recorded s) {id : Uuid} {row : Row}
    (old : ∀ before, s.jobs.lookup id = some before → before.state ≠ .done)
    (unfinished : row.state ≠ .done) : Recorded { s with jobs := s.jobs.insert id row } where
  stored id' row' result hrow hresult := by
    obtain ⟨_, rfl⟩ | ⟨_, hrow⟩ := Jobs.lookup_insert hrow
    · rw [row'.result_of_not_done unfinished] at hresult
      cases hresult
    · exact recorded.stored id' row' result hrow hresult
  written id' verdicts hmem := by
    obtain ⟨row', hrow, hresult⟩ := recorded.written id' verdicts hmem
    have hid : id' ≠ id := by
      rintro rfl
      exact old row' hrow (row'.result_iff.mp (by simp [hresult]))
    exact ⟨row', (AList.lookup_insert_ne hid).trans hrow, hresult⟩

theorem Recorded.finish {s : State} (recorded : Recorded s) {id : Uuid} {row finished : Row}
    {verdicts : List Verdict} (found : s.jobs.lookup id = some row) (running : row.state = .running)
    (result : finished.result = some (resultOf verdicts)) :
    Recorded ⟨s.jobs.insert id finished, s.written ++ [(id, verdicts)]⟩ where
  stored id' row' result' hrow hresult := by
    obtain ⟨rfl, rfl⟩ | ⟨_, hrow⟩ := Jobs.lookup_insert hrow
    · cases result.symm.trans hresult
      exact ⟨verdicts, by simp, rfl⟩
    · obtain ⟨verdicts', hmem, h⟩ := recorded.stored id' row' result' hrow hresult
      exact ⟨verdicts', List.mem_append_left _ hmem, h⟩
  written id' verdicts' hmem := by
    rcases List.mem_append.mp hmem with hmem | hmem
    · obtain ⟨row', hrow, hresult⟩ := recorded.written id' verdicts' hmem
      have hid : id' ≠ id := by
        rintro rfl
        cases found.symm.trans hrow
        have hdone := row.result_iff.mp (by simp [hresult])
        rw [running] at hdone
        cases hdone
      exact ⟨row', (AList.lookup_insert_ne hid).trans hrow, hresult⟩
    · cases List.mem_singleton.mp hmem
      exact ⟨finished, AList.lookup_insert s.jobs, result⟩

theorem recorded_step (s : State) (request : Request) (t : State) (recorded : Recorded s)
    (h : machine.step s request = some t) : Recorded t := by
  cases h
  have move := step_move s request
  generalize step s request = t at move
  cases move with
  | none => exact recorded
  | insert id row new waiting =>
    exact recorded.insert (by simp [new]) (by simp [waiting])
  | claim id row claimed found waiting running =>
    exact recorded.insert (by simp [found, waiting]) (by simp [running])
  | finish id row finished verdicts found running result =>
    exact recorded.finish found running result

theorem init_recorded : Recorded .init where
  stored _ _ _ hrow := nomatch hrow
  written _ _ hmem := nomatch hmem

theorem response_of_lookup {jobs : Jobs} {id : Uuid} {row : Row} (hrow : jobs.lookup id = some row) :
    response jobs id = (.ok, some (progressOf row.toJobRow).json) := by
  simp only [response, progress, hrow]

/-- What a client is answered about a job: its state and, when it is done, whether all the
verdicts written passed. Nothing else is known. -/
structure Reported (s : State) : Prop where
  known : ∀ id row, s.jobs.lookup id = some row → ∃ passed,
    response s.jobs id = (.ok, some (Progress.json ⟨JobState.text row.state, passed⟩)) ∧
    (row.state ≠ .done → passed = none) ∧
    (row.state = .done → ∃ verdicts, (∀ other, (id, other) ∈ s.written ↔ other = verdicts) ∧
      passed = some (verdicts.all (· = .passed)))
  unknown : ∀ id, s.jobs.lookup id = none → response s.jobs id = (.notFound, none)

theorem Recorded.reported {s : State} (recorded : Recorded s) : Reported s where
  known id row hrow := by
    refine ⟨(progressOf row.toJobRow).passed, response_of_lookup hrow, fun unfinished => ?_,
      fun hdone => ?_⟩
    · simp [progressOf, row.result_of_not_done unfinished]
    · obtain ⟨result, hresult⟩ := Option.isSome_iff_exists.mp (row.result_iff.mpr hdone)
      obtain ⟨verdicts, hmem, rfl⟩ := recorded.stored id row result hrow hresult
      refine ⟨verdicts, fun other => ⟨fun hother => ?_, fun hother => hother ▸ hmem⟩, ?_⟩
      · obtain ⟨row', hrow', hresult'⟩ := recorded.written id other hother
        cases hrow.symm.trans hrow'
        exact (resultOf_injective (Option.some.inj (hresult.symm.trans hresult'))).symm
      · rw [← containedIn_passed_iff]
        simp [progressOf, hresult, resultOf, member]
  unknown id hrow := by simp only [response, progress, hrow]

/-- A response tells the state of a job, and of its verdicts no more than whether all
of them passed, whatever their number, order and kinds. -/
theorem progress_tells_only_passed :
    (∀ requests, machine.Always Reported .init requests) ∧
    ∀ s s', machine.Reaches .init s → machine.Reaches .init s' → ∀ id id' row row',
      s.jobs.lookup id = some row → s'.jobs.lookup id' = some row' → row.state = row'.state →
      (∀ verdicts verdicts', (id, verdicts) ∈ s.written → (id', verdicts') ∈ s'.written →
        ((∀ verdict ∈ verdicts, verdict = .passed) ↔ ∀ verdict ∈ verdicts', verdict = .passed)) →
      response s.jobs id = response s'.jobs id' := by
  refine ⟨Machine.always recorded_step (fun _ => Recorded.reported) init_recorded, ?_⟩
  rintro s s' ⟨as, hs⟩ ⟨as', hs'⟩ id id' row row' hrow hrow' hstate same
  have reported := (Machine.run_invariant recorded_step init_recorded hs).reported
  have reported' := (Machine.run_invariant recorded_step init_recorded hs').reported
  obtain ⟨passed, hresponse, hnone, hsome⟩ := reported.known id row hrow
  obtain ⟨passed', hresponse', hnone', hsome'⟩ := reported'.known id' row' hrow'
  have hpassed : passed = passed' := by
    by_cases hdone : row.state = .done
    · obtain ⟨verdicts, hwritten, rfl⟩ := hsome hdone
      obtain ⟨verdicts', hwritten', rfl⟩ := hsome' (hstate ▸ hdone)
      have h := same verdicts verdicts' ((hwritten _).mpr rfl) ((hwritten' _).mpr rfl)
      rw [Option.some.injEq, Bool.eq_iff_iff]
      simpa [List.all_eq_true] using h
    · rw [hnone hdone, hnone' (hstate ▸ hdone)]
  rw [hresponse, hresponse', hpassed, hstate]

def secondId : Uuid := ⟨8, by decide⟩
def helloPython : Body := ⟨"log200", "sum", "python", "print(0)"⟩

def twoFailures : List Request :=
  [.submit 0 firstId helloPython, .submit 1 secondId helloPython, .claim 2, .claim 3,
    .finish 4 firstId [.passed, .wrongAnswer], .finish 5 secondId [.timedOut]]

theorem progress_tells_only_passed_twoFailures : ∃ s, machine.run .init twoFailures = some s ∧
    response s.jobs secondId = (.ok, some (Progress.json ⟨"done", some false⟩)) ∧
    response s.jobs firstId = response s.jobs secondId := by
  have hend : (machine.run .init twoFailures).map (fun s => (s.written,
      (s.jobs.lookup firstId).map (·.state),
      (s.jobs.lookup secondId).map fun row => (row.state, progressOf row.toJobRow))) =
        some ([(firstId, [.passed, .wrongAnswer]), (secondId, [.timedOut])], some .done,
          some (.done, ⟨"done", some false⟩)) := by
    decide +kernel
  obtain ⟨s, hrun, hs⟩ := Option.map_eq_some_iff.mp hend
  simp only [Prod.mk.injEq, Option.map_eq_some_iff] at hs
  obtain ⟨hwritten, ⟨row, hrow, hdone⟩, row', hrow', hdone', hprogress⟩ := hs
  refine ⟨s, hrun, by rw [response_of_lookup hrow', hprogress], progress_tells_only_passed.2 s s
    ⟨_, hrun⟩ ⟨_, hrun⟩ _ _ row row' hrow hrow' (hdone.trans hdone'.symm) ?_⟩
  intro verdicts verdicts' h h'
  rw [hwritten] at h h'
  have hfirst : verdicts = [.passed, .wrongAnswer] := by simpa [firstId, secondId] using h
  have hsecond : verdicts' = [.timedOut] := by simpa [firstId, secondId] using h'
  simp [hfirst, hsecond]

end Pals.Api
