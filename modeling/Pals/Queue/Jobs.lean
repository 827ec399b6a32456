import Mathlib.Data.List.AList
import Mathlib.Data.List.Sort
import Mathlib.Data.Prod.Lex
import Pals.Judge.Judging

/-! The table of jobs: its rows, the constraints that every row meets, and what the
statements of the queue write to a row. -/
namespace Pals.Queue
open Pals.Library Pals.Contracts Pals.Judge

inductive JobState where
  | waiting
  | running
  | done
  | replaced
  | failed
deriving DecidableEq, Repr

/-- A value of type `jsonb`. A number is its digits and a power of ten. -/
inductive Json where
  | null
  | bool (value : Bool)
  | number (digits exponent : Int)
  | string (value : String)
  | array (values : List Json)
  | object (members : List (String × Json))

abbrev Timestamp := Int

structure JobRow where
  contract : Int32
  course : Identifier
  exercise : Identifier
  languagePack : Identifier
  source : String
  state : JobState
  enqueuedAt : Timestamp
  claimedAt : Option Timestamp
  finishedAt : Option Timestamp
  result : Option Json

inductive Check where
  | claimedAfterEnqueued
  | claimedWhenRun
  | contractCheck
  | finishedAfterStart
  | finishedWhenOver
  | resultWhenDone
  | sourceCheck
deriving DecidableEq, Repr

def Check.all : List Check :=
  [claimedAfterEnqueued, claimedWhenRun, contractCheck, finishedAfterStart, finishedWhenOver,
    resultWhenDone, sourceCheck]

/-- A comparison with a null is null. -/
def Check.value (row : JobRow) : Check → Option Bool
  | claimedAfterEnqueued => row.claimedAt.map (row.enqueuedAt ≤ ·)
  | claimedWhenRun =>
      some (row.claimedAt.isSome ↔ row.state ∈ [JobState.running, .done, .failed])
  | contractCheck => some (0 < row.contract)
  | finishedAfterStart => row.finishedAt.map (row.claimedAt.getD row.enqueuedAt ≤ ·)
  | finishedWhenOver =>
      some (row.finishedAt.isSome ↔ row.state ∈ [JobState.done, .replaced, .failed])
  | resultWhenDone => some (row.result.isSome ↔ row.state = .done)
  | sourceCheck => some (1 ≤ row.source.utf8ByteSize ∧ row.source.utf8ByteSize ≤ 1024 * 1024)

/-- A row passes a constraint that is true of it, or null. -/
def Check.passes (check : Check) (row : JobRow) : Bool := (check.value row).getD true

structure Row extends JobRow where
  valid : ∀ check : Check, check.passes toJobRow = true

theorem Check.mem_all (check : Check) : check ∈ all := by
  cases check <;> decide

instance (p : Check → Prop) [DecidablePred p] : Decidable (∀ check, p check) :=
  decidable_of_iff (∀ check ∈ Check.all, p check)
    ⟨fun h check => h check check.mem_all, fun h check _ => h check⟩

def accept (row : JobRow) : Except Check Row :=
  match h : Check.all.find? fun check => !check.passes row with
  | some check => .error check
  | none => .ok ⟨row, fun check => by simpa using List.find?_eq_none.mp h check check.mem_all⟩

theorem accept_of_passes {row : JobRow} (valid : ∀ check : Check, check.passes row = true) :
    accept row = .ok ⟨row, valid⟩ := by
  unfold accept
  split
  · rename_i check h
    have := List.find?_some h
    simp [valid check] at this
  · rfl

theorem accept_eq_ok {row : JobRow} {accepted : Row} :
    accept row = .ok accepted ↔ accepted.toJobRow = row := by
  constructor
  · intro h
    unfold accept at h
    split at h <;> cases h
    rfl
  · rintro rfl
    exact accept_of_passes accepted.valid

theorem accept_succeeds {row : JobRow} :
    (∃ accepted, accept row = .ok accepted) ↔ ∀ check : Check, check.passes row = true := by
  constructor
  · rintro ⟨accepted, h⟩
    rw [← accept_eq_ok.mp h]
    exact accepted.valid
  · exact fun valid => ⟨_, accept_of_passes valid⟩

namespace Row
variable (row : Row)

theorem claimed_iff : row.claimedAt.isSome = true ↔
    row.state = .running ∨ row.state = .done ∨ row.state = .failed := by
  have h := of_decide_eq_true (row.valid .claimedWhenRun)
  simpa using h

theorem result_iff : row.result.isSome = true ↔ row.state = .done := by
  have h := of_decide_eq_true (row.valid .resultWhenDone)
  simpa using h

theorem finished_iff : row.finishedAt.isSome = true ↔
    row.state = .done ∨ row.state = .replaced ∨ row.state = .failed := by
  have h := of_decide_eq_true (row.valid .finishedWhenOver)
  simpa using h

theorem claimedAt_of_waiting (waiting : row.state = .waiting) : row.claimedAt = none := by
  have h := row.claimed_iff.not.mpr (by simp [waiting])
  simpa using h

theorem finishedAt_of_waiting_or_running (active : row.state = .waiting ∨ row.state = .running) :
    row.finishedAt = none := by
  have h := row.finished_iff.not.mpr (by rcases active with h | h <;> simp [h])
  simpa using h

theorem result_of_not_done (unfinished : row.state ≠ .done) : row.result = none := by
  have h := row.result_iff.not.mpr unfinished
  simpa using h

end Row

/-- What `claim_job` writes to the row it has selected. -/
def JobRow.claim (row : JobRow) (now : Timestamp) : JobRow :=
  { row with state := .running, claimedAt := some now }

def Verdict.text : Verdict → String
  | .passed => "passed"
  | .wrongAnswer => "wrong-answer"
  | .crashed => "crashed"
  | .timedOut => "timed-out"

/-- `jsonb_build_object('cases', to_jsonb(verdicts))` -/
def resultOf (verdicts : List Verdict) : Json :=
  .object [("cases", .array (verdicts.map fun verdict => .string (Verdict.text verdict)))]

/-- What `finish_job` writes to the row of its job. -/
def JobRow.finish (row : JobRow) (now : Timestamp) (verdicts : List Verdict) : JobRow :=
  { row with state := .done, finishedAt := some now, result := some (resultOf verdicts) }

theorem Verdict.text_injective : Function.Injective Verdict.text := by
  intro left right h
  cases left <;> cases right <;> first | rfl | (revert h; decide)

theorem resultOf_injective : Function.Injective resultOf := by
  intro left right h
  simp only [resultOf, Json.object.injEq, List.cons.injEq, Prod.mk.injEq, Json.array.injEq,
    true_and, and_true] at h
  refine List.map_injective_iff.mpr ?_ h
  intro first second h
  exact Verdict.text_injective (Json.string.inj h)

theorem claim_accepted_iff (row : Row) (waiting : row.state = .waiting) (now : Timestamp) :
    (∃ claimed, accept (row.claim now) = .ok claimed) ↔ row.enqueuedAt ≤ now := by
  have hfinished := row.finishedAt_of_waiting_or_running (.inl waiting)
  have hresult := row.result_of_not_done (by simp [waiting])
  rw [accept_succeeds]
  constructor
  · intro h
    exact of_decide_eq_true (h .claimedAfterEnqueued)
  · intro h check
    cases check with
    | contractCheck => exact row.valid .contractCheck
    | sourceCheck => exact row.valid .sourceCheck
    | _ => simp [Check.passes, Check.value, JobRow.claim, hfinished, hresult, h]

theorem finish_accepted_iff (row : Row) {claimedAt : Timestamp}
    (claimed : row.claimedAt = some claimedAt) (now : Timestamp) (verdicts : List Verdict) :
    (∃ finished, accept (row.finish now verdicts) = .ok finished) ↔ claimedAt ≤ now := by
  rw [accept_succeeds]
  constructor
  · intro h
    simpa [Check.passes, Check.value, JobRow.finish, claimed] using h .finishedAfterStart
  · intro h check
    cases check with
    | contractCheck => exact row.valid .contractCheck
    | sourceCheck => exact row.valid .sourceCheck
    | claimedAfterEnqueued => exact row.valid .claimedAfterEnqueued
    | _ => simp [Check.passes, Check.value, JobRow.finish, claimed, h]

abbrev Jobs := AList fun _ : Uuid => Row

theorem Jobs.lookup_insert {jobs : Jobs} {id other : Uuid} {row found : Row}
    (h : (jobs.insert id row).lookup other = some found) :
    (other = id ∧ found = row) ∨ (other ≠ id ∧ jobs.lookup other = some found) := by
  by_cases hid : other = id
  · subst hid
    rw [AList.lookup_insert] at h
    exact .inl ⟨rfl, (Option.some.inj h).symm⟩
  · exact .inr ⟨hid, (AList.lookup_insert_ne hid).symm.trans h⟩

/-- `ORDER BY enqueued_at, id` -/
def Earlier (first second : Σ _ : Uuid, Row) : Prop :=
  first.2.enqueuedAt < second.2.enqueuedAt ∨
    first.2.enqueuedAt = second.2.enqueuedAt ∧ first.1 ≤ second.1

instance : DecidableRel Earlier := fun first second =>
  inferInstanceAs (Decidable (first.2.enqueuedAt < second.2.enqueuedAt ∨ _))

/-- The waiting rows, in the order in which `claim_job` takes them. -/
def waitingIds (jobs : Jobs) : List Uuid :=
  ((jobs.entries.filter (·.2.state = .waiting)).insertionSort Earlier).map Sigma.fst

theorem mem_waitingIds {jobs : Jobs} {id : Uuid} :
    id ∈ waitingIds jobs ↔ ∃ row, jobs.lookup id = some row ∧ row.state = .waiting := by
  simp only [waitingIds, List.mem_map, List.mem_insertionSort, List.mem_filter, decide_eq_true_eq]
  constructor
  · rintro ⟨⟨id, row⟩, ⟨hentry, hwaiting⟩, rfl⟩
    exact ⟨row, AList.mem_lookup_iff.mpr hentry, hwaiting⟩
  · rintro ⟨row, hrow, hwaiting⟩
    exact ⟨⟨id, row⟩, ⟨AList.mem_lookup_iff.mp hrow, hwaiting⟩, rfl⟩

theorem notMem_waitingIds {jobs : Jobs} {id : Uuid} {row : Row} (hrow : jobs.lookup id = some row)
    (h : row.state ≠ .waiting) : id ∉ waitingIds jobs := by
  intro hid
  obtain ⟨row', hrow', hwaiting⟩ := mem_waitingIds.mp hid
  cases hrow.symm.trans hrow'
  exact h hwaiting

def Before (jobs : Jobs) (first second : Uuid) : Prop :=
  ∃ row row', jobs.lookup first = some row ∧ jobs.lookup second = some row' ∧
    (row.enqueuedAt < row'.enqueuedAt ∨ row.enqueuedAt = row'.enqueuedAt ∧ first < second)

def orderKey (id : Uuid) (row : Row) : Timestamp ×ₗ Uuid := toLex (row.enqueuedAt, id)

theorem earlier_iff {first second : Σ _ : Uuid, Row} :
    Earlier first second ↔ orderKey first.1 first.2 ≤ orderKey second.1 second.2 := by
  rw [Prod.Lex.le_iff]
  rfl

theorem before_iff {jobs : Jobs} {first second : Uuid} {row row' : Row}
    (hfirst : jobs.lookup first = some row) (hsecond : jobs.lookup second = some row') :
    Before jobs first second ↔ orderKey first row < orderKey second row' := by
  rw [Prod.Lex.lt_iff]
  constructor
  · rintro ⟨_, _, hfirst', hsecond', hlt⟩
    cases hfirst.symm.trans hfirst'
    cases hsecond.symm.trans hsecond'
    exact hlt
  · exact fun hlt => ⟨row, row', hfirst, hsecond, hlt⟩

theorem Before.asymm {jobs : Jobs} {first second : Uuid} (h : Before jobs first second) :
    ¬Before jobs second first := by
  obtain ⟨row, row', hfirst, hsecond, _⟩ := id h
  rw [before_iff hfirst hsecond] at h
  rw [before_iff hsecond hfirst]
  exact h.asymm

instance (jobs : Jobs) : Std.Irrefl (Before jobs) := ⟨fun _ h => h.asymm h⟩

instance (jobs : Jobs) : Std.Antisymm (Before jobs) := ⟨fun _ _ h h' => absurd h' h.asymm⟩

instance : Std.Total Earlier := ⟨fun first second => by
  simp only [earlier_iff]
  exact le_total _ _⟩

instance : IsTrans _ Earlier := ⟨fun first second third h h' => by
  rw [earlier_iff] at *
  exact h.trans h'⟩

theorem waitingIds_pairwise (jobs : Jobs) : (waitingIds jobs).Pairwise (Before jobs) := by
  have hsorted : ((jobs.entries.filter (·.2.state = .waiting)).insertionSort Earlier).Pairwise
      Earlier := List.pairwise_insertionSort _ _
  have hkeys : ((jobs.entries.filter (·.2.state = .waiting)).insertionSort Earlier).Pairwise
      fun first second => first.1 ≠ second.1 := by
    rw [List.Perm.pairwise_iff (fun h => h.symm) (List.perm_insertionSort _ _)]
    exact (List.pairwise_map.mp jobs.nodupKeys).filter _
  rw [waitingIds, List.pairwise_map]
  refine (hsorted.and hkeys).imp_of_mem fun {first second} hfirst hsecond h => ?_
  rw [List.mem_insertionSort] at hfirst hsecond
  rw [before_iff (AList.mem_lookup_iff.mpr (List.mem_of_mem_filter hfirst))
    (AList.mem_lookup_iff.mpr (List.mem_of_mem_filter hsecond))]
  refine lt_of_le_of_ne (earlier_iff.mp h.1) fun hsame => h.2 ?_
  exact congrArg (fun key => (ofLex key).2) hsame

theorem waitingIds_insert (jobs : Jobs) {id : Uuid} {row : Row} (h : row.state ≠ .waiting) :
    waitingIds (jobs.insert id row) = (waitingIds jobs).filter (· ≠ id) := by
  have hne : ∀ other ∈ waitingIds (jobs.insert id row), other ≠ id := by
    rintro other hother rfl
    exact notMem_waitingIds (AList.lookup_insert jobs) h hother
  have hpairwise : (waitingIds (jobs.insert id row)).Pairwise (Before jobs) := by
    refine (waitingIds_pairwise _).imp_of_mem fun {first second} hfirst hsecond hbefore => ?_
    obtain ⟨row, row', hrow, hrow', hlt⟩ := hbefore
    rw [AList.lookup_insert_ne (hne _ hfirst)] at hrow
    rw [AList.lookup_insert_ne (hne _ hsecond)] at hrow'
    exact ⟨row, row', hrow, hrow', hlt⟩
  refine hpairwise.eq_of_mem_iff ((waitingIds_pairwise jobs).filter _) fun other => ?_
  rw [List.mem_filter, decide_eq_true_eq]
  constructor
  · intro hother
    obtain ⟨row', hrow, hwaiting⟩ := mem_waitingIds.mp hother
    rw [AList.lookup_insert_ne (hne _ hother)] at hrow
    exact ⟨mem_waitingIds.mpr ⟨row', hrow, hwaiting⟩, hne _ hother⟩
  · rintro ⟨hother, hne'⟩
    obtain ⟨row', hrow, hwaiting⟩ := mem_waitingIds.mp hother
    exact mem_waitingIds.mpr ⟨row', (AList.lookup_insert_ne hne').trans hrow, hwaiting⟩

theorem waitingIds_insert_head {jobs : Jobs} {id : Uuid} {rest : List Uuid} {row : Row}
    (hids : waitingIds jobs = id :: rest) (h : row.state ≠ .waiting) :
    waitingIds (jobs.insert id row) = rest := by
  have hbefore := List.pairwise_cons.mp (hids ▸ waitingIds_pairwise jobs)
  rw [waitingIds_insert jobs h, hids, List.filter_cons_of_neg (by simp), List.filter_eq_self]
  intro other hother
  rw [decide_eq_true_eq]
  rintro rfl
  exact absurd (hbefore.1 other hother) (hbefore.1 other hother).asymm

theorem waitingIds_insert_of_notMem {jobs : Jobs} {id : Uuid} {row : Row}
    (hid : id ∉ waitingIds jobs) (h : row.state ≠ .waiting) :
    waitingIds (jobs.insert id row) = waitingIds jobs := by
  rw [waitingIds_insert jobs h, List.filter_eq_self]
  intro other hother
  rw [decide_eq_true_eq]
  rintro rfl
  exact hid hother

/-- The columns that `claim_job` returns of a row. -/
def jobOf (id : Uuid) (row : JobRow) : Job :=
  ⟨id, row.contract, row.course.value, row.exercise.value, row.languagePack.value, row.source⟩

def firstId : Uuid := 7
def log200 : Identifier := ⟨"log200", by decide⟩
def sum : Identifier := ⟨"sum", by decide⟩
def python : Identifier := ⟨"python", by decide⟩

end Pals.Queue
