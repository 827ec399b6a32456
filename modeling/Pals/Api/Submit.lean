import Pals.Queue.MainLoop
import Pals.Queue.Statements

/-! `POST /submissions`: what the API checks of a body before it is inserted, and what
the table checks of the insertion. -/
namespace Pals.Api
open Pals.Library Pals.Contracts Pals.Queue

def maxSource : Nat := 1024 * 1024

structure Body where
  course : String
  exercise : String
  languagePack : String
  source : String

structure Submission where
  course : Id
  exercise : Id
  languagePack : Id
  source : String

inductive StatusCode where
  | ok
  | accepted
  | notFound
  | unprocessableEntity
  | internalServerError
deriving DecidableEq, Repr

def Body.parse (body : Body) : Except InvalidId Submission := do
  let course ← Id.fromStr body.course
  let exercise ← Id.fromStr body.exercise
  let languagePack ← Id.fromStr body.languagePack
  return { course, exercise, languagePack, source := body.source }

/-- The checks that come before the query. A body whose identifiers do not parse is
refused by the extractor. -/
def checkedBody (body : Body) : Except StatusCode Submission := do
  let submission ← body.parse.mapError fun _ => .unprocessableEntity
  if submission.source.isEmpty || maxSource < submission.source.utf8ByteSize then
    .error .unprocessableEntity
  else return submission

inductive Refusal where
  | text (value : String)
  | identifier (value : String)
  | check (check : Check)
  | key (id : Uuid)
deriving DecidableEq

/-- A value of type `text`, which cannot contain the character U+0000. -/
def text (value : String) : Except Refusal { value : String // '\x00' ∉ value.toList } :=
  if h : '\x00' ∈ value.toList then .error (.text value) else .ok ⟨value, h⟩

def identifier (value : String) : Except Refusal Identifier := do
  let ⟨value, _⟩ ← text value
  if h : matchesIdentifier value = true then .ok ⟨value, h⟩ else .error (.identifier value)

def enqueuedRow (now : Timestamp) (body : Body) : Except Refusal Row := do
  let course ← identifier body.course
  let exercise ← identifier body.exercise
  let languagePack ← identifier body.languagePack
  let ⟨source, plain⟩ ← text body.source
  (accept (Queue.Submission.row { course, exercise, languagePack, source, plain } now)).mapError .check

def enqueue (now : Timestamp) (id : Uuid) (body : Body) (jobs : Jobs) : Except Refusal Jobs := do
  let row ← enqueuedRow now body
  match insertJob id row jobs with
  | some jobs => return jobs
  | none => .error (.key id)

def Submission.body (submission : Submission) : Body :=
  ⟨submission.course.value, submission.exercise.value, submission.languagePack.value,
    submission.source⟩

/-- `id` is the default of the column, which is new to the table. -/
def submit (now : Timestamp) (id : Uuid) (body : Body) (jobs : Jobs) :
    Except StatusCode (Jobs × StatusCode × Uuid) := do
  let submission ← checkedBody body
  let jobs ← (enqueue now id submission.body jobs).mapError fun _ => .internalServerError
  return (jobs, .accepted, id)

def Agrees (now : Timestamp) (body : Body) : Prop :=
  (∃ submission, checkedBody body = .ok submission) ↔ ∃ row, enqueuedRow now body = .ok row

def WellFormed (body : Body) : Prop :=
  matchesIdentifier body.course = true ∧ matchesIdentifier body.exercise = true ∧
    matchesIdentifier body.languagePack = true ∧
    1 ≤ body.source.utf8ByteSize ∧ body.source.utf8ByteSize ≤ maxSource

section Admit
variable {body : Body}

theorem parse_eq_ok {submission : Submission} :
    body.parse = .ok submission ↔ submission.body = body := by
  simp only [Body.parse, bind_eq_ok, Id.fromStr_eq_ok]
  constructor
  · rintro ⟨course, hcourse, exercise, hexercise, languagePack, hpack, h⟩
    cases h
    simp only [Submission.body, hcourse, hexercise, hpack]
  · rintro rfl
    exact ⟨_, rfl, _, rfl, _, rfl, rfl⟩

theorem parse_succeeds : (∃ submission, body.parse = .ok submission) ↔
    matchesIdentifier body.course = true ∧ matchesIdentifier body.exercise = true ∧
      matchesIdentifier body.languagePack = true := by
  simp only [← Id.fromStr_succeeds, Id.fromStr_eq_ok, parse_eq_ok]
  constructor
  · rintro ⟨submission, rfl⟩
    exact ⟨⟨_, rfl⟩, ⟨_, rfl⟩, ⟨_, rfl⟩⟩
  · rintro ⟨⟨course, hcourse⟩, ⟨exercise, hexercise⟩, ⟨languagePack, hpack⟩⟩
    exact ⟨⟨course, exercise, languagePack, body.source⟩, by simp [Submission.body, *]⟩

theorem checkedBody_eq_ok {submission : Submission} : checkedBody body = .ok submission ↔
    submission.body = body ∧ 1 ≤ body.source.utf8ByteSize ∧
      body.source.utf8ByteSize ≤ maxSource := by
  rw [checkedBody, bind_eq_ok]
  simp only [mapError_eq_ok, parse_eq_ok]
  have hsource (source : String) : (source.isEmpty || decide (maxSource < source.utf8ByteSize)) = true ↔
      ¬(1 ≤ source.utf8ByteSize ∧ source.utf8ByteSize ≤ maxSource) := by
    rw [Bool.or_eq_true, String.isEmpty_iff, decide_eq_true_eq, ← String.utf8ByteSize_eq_zero_iff]
    omega
  constructor
  · rintro ⟨parsed, rfl, h⟩
    split at h <;> cases h
    rename_i hlength
    exact ⟨rfl, of_not_not ((hsource _).not.mp hlength)⟩
  · rintro ⟨rfl, hlength⟩
    refine ⟨submission, rfl, ?_⟩
    exact if_neg ((hsource _).not.mpr (not_not.mpr hlength))

theorem checkedBody_succeeds : (∃ submission, checkedBody body = .ok submission) ↔ WellFormed body := by
  simp only [checkedBody_eq_ok, exists_and_right, WellFormed, ← and_assoc, and_congr_left_iff]
  intro _ _
  simp only [and_assoc, ← parse_succeeds, parse_eq_ok]

theorem checkedBody_eq_error {status : StatusCode} (h : checkedBody body = .error status) :
    status = .unprocessableEntity := by
  unfold checkedBody at h
  cases hparse : body.parse with
  | error error =>
    rw [hparse] at h
    cases h
    rfl
  | ok submission =>
    rw [hparse] at h
    simp only [Except.mapError, bind, Except.bind] at h
    split at h <;> cases h
    rfl

end Admit

section Enqueue
variable {body : Body} {now : Timestamp}

theorem text_eq_ok {value : String} {stored : { value : String // '\x00' ∉ value.toList }} :
    text value = .ok stored ↔ stored.val = value := by
  unfold text
  split
  · rename_i hnul
    exact iff_of_false nofun fun h => stored.property (h ▸ hnul)
  · rw [Except.ok.injEq, Subtype.ext_iff, eq_comm]

theorem nul_notMem_of_matchesIdentifier {value : String} (h : matchesIdentifier value = true) :
    '\x00' ∉ value.toList := by
  rw [matchesIdentifier, Bool.and_eq_true, List.all_eq_true] at h
  exact fun hmem => absurd (h.2 _ hmem) (by decide)

theorem identifier_eq_ok {value : String} {stored : Identifier} :
    identifier value = .ok stored ↔ stored.value = value := by
  simp only [identifier, bind_eq_ok, text_eq_ok]
  constructor
  · rintro ⟨_, rfl, h⟩
    split at h <;> cases h
    rfl
  · rintro rfl
    refine ⟨⟨_, nul_notMem_of_matchesIdentifier stored.valid⟩, rfl, ?_⟩
    rw [dif_pos stored.valid]

theorem identifier_succeeds {value : String} :
    (∃ stored, identifier value = .ok stored) ↔ matchesIdentifier value = true := by
  simp only [identifier_eq_ok]
  constructor
  · rintro ⟨stored, rfl⟩
    exact stored.valid
  · exact fun h => ⟨⟨value, h⟩, rfl⟩

theorem enqueuedRow_succeeds : (∃ row, enqueuedRow now body = .ok row) ↔
    WellFormed body ∧ '\x00' ∉ body.source.toList := by
  simp only [enqueuedRow, bind_eq_ok, mapError_eq_ok, text_eq_ok]
  constructor
  · rintro ⟨row, course, hcourse, exercise, hexercise, languagePack, hpack, source, hsource, h⟩
    have hlength := (accept_succeeds_iff _ _).mp ⟨row, h⟩
    exact ⟨⟨identifier_succeeds.mp ⟨_, hcourse⟩, identifier_succeeds.mp ⟨_, hexercise⟩,
      identifier_succeeds.mp ⟨_, hpack⟩, hsource ▸ hlength⟩, hsource ▸ source.property⟩
  · rintro ⟨⟨hcourse, hexercise, hpack, hlength⟩, hnul⟩
    obtain ⟨course, hcourse⟩ := identifier_succeeds.mpr hcourse
    obtain ⟨exercise, hexercise⟩ := identifier_succeeds.mpr hexercise
    obtain ⟨languagePack, hpack⟩ := identifier_succeeds.mpr hpack
    obtain ⟨row, h⟩ :=
      (accept_succeeds_iff now ⟨course, exercise, languagePack, body.source, hnul⟩).mpr hlength
    exact ⟨row, course, hcourse, exercise, hexercise, languagePack, hpack, ⟨_, hnul⟩, rfl, h⟩

theorem enqueue_succeeds {id : Uuid} {jobs : Jobs} (new : id ∉ jobs) :
    (∃ after, enqueue now id body jobs = .ok after) ↔
      WellFormed body ∧ '\x00' ∉ body.source.toList := by
  have hrow : (∃ row, enqueuedRow now body = .ok row) ↔ _ := enqueuedRow_succeeds
  rw [← hrow]
  simp only [enqueue, bind_eq_ok, insertJob, new, if_false]
  constructor
  · rintro ⟨after, row, hrow, _⟩
    exact ⟨row, hrow⟩
  · rintro ⟨row, hrow⟩
    exact ⟨_, row, hrow, rfl⟩

theorem enqueue_eq_ok {id : Uuid} {jobs after : Jobs} (h : enqueue now id body jobs = .ok after) :
    ∃ row, jobs.lookup id = none ∧ row.state = .waiting ∧ after = jobs.insert id row := by
  obtain ⟨row, hrow, h⟩ := bind_eq_ok.mp h
  have hwaiting : row.state = .waiting := by
    simp only [enqueuedRow, bind_eq_ok, mapError_eq_ok, accept_eq_ok] at hrow
    obtain ⟨_, _, _, _, _, _, _, _, hrow⟩ := hrow
    rw [hrow]
    rfl
  unfold insertJob at h
  split at h
  · rename_i inserted hinsert
    split at hinsert <;> cases hinsert
    cases h
    exact ⟨row, AList.lookup_eq_none.mpr ‹_›, hwaiting, rfl⟩
  · cases h

theorem agrees_iff : Agrees now body ↔ (WellFormed body → '\x00' ∉ body.source.toList) := by
  rw [Agrees, checkedBody_succeeds, enqueuedRow_succeeds]
  exact ⟨fun h formed => (h.mp formed).2, fun h => ⟨fun formed => ⟨formed, h formed⟩, And.left⟩⟩

section Submit
variable {id : Uuid} {jobs : Jobs}

theorem submit_of_refused (h : ¬WellFormed body) :
    submit now id body jobs = .error .unprocessableEntity := by
  rw [← checkedBody_succeeds, ← exists_error_iff] at h
  obtain ⟨status, h⟩ := h
  rw [submit, h, checkedBody_eq_error h]
  rfl

theorem submit_of_checked (h : WellFormed body) : submit now id body jobs =
    ((enqueue now id body jobs).map fun jobs => (jobs, .accepted, id)).mapError
      fun _ => .internalServerError := by
  obtain ⟨submission, h⟩ := checkedBody_succeeds.mpr h
  rw [submit, h]
  simp only [bind, Except.bind, (checkedBody_eq_ok.mp h).1]
  cases enqueue now id body jobs <;> rfl

theorem submit_unprocessable_iff :
    submit now id body jobs = .error .unprocessableEntity ↔ ¬WellFormed body := by
  refine ⟨fun h formed => ?_, submit_of_refused⟩
  rw [submit_of_checked formed] at h
  cases henqueue : enqueue now id body jobs <;> rw [henqueue] at h <;> cases h

theorem submit_internal_iff (new : id ∉ jobs) :
    submit now id body jobs = .error .internalServerError ↔
      WellFormed body ∧ '\x00' ∈ body.source.toList := by
  by_cases formed : WellFormed body
  · rw [submit_of_checked formed]
    have hstored : (∃ after, enqueue now id body jobs = .ok after) ↔ _ := enqueue_succeeds new
    cases henqueue : enqueue now id body jobs <;>
      simpa [henqueue, formed, Except.map, Except.mapError] using hstored
  · simp [submit_of_refused formed, formed]

end Submit
end Enqueue

/-- Where the two differ: in a source with a U+0000, which the API counts as any other
byte. It answers such a body with an internal error, and what it refuses could not
have been stored. -/
theorem api_agrees_with_table (now : Timestamp) (body : Body) :
    (Agrees now body ↔ (WellFormed body → '\x00' ∉ body.source.toList)) ∧
    ∀ id jobs,
      (id ∉ jobs → (submit now id body jobs = .error .internalServerError ↔
        WellFormed body ∧ '\x00' ∈ body.source.toList)) ∧
      (submit now id body jobs = .error .unprocessableEntity →
        ¬∃ row, enqueuedRow now body = .ok row) := by
  refine ⟨agrees_iff, fun id jobs => ⟨submit_internal_iff, fun h => ?_⟩⟩
  rw [enqueuedRow_succeeds]
  exact fun stored => submit_unprocessable_iff.mp h stored.1

def nulBody : Body := ⟨"log200", "sum", "python", "a\x00"⟩

theorem nulBody_disagrees : ¬Agrees 0 nulBody := by
  rw [agrees_iff]
  intro h
  exact h ⟨by decide, by decide, by decide, by decide, by decide⟩ (by decide)

end Pals.Api
