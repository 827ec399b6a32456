import Pals.Queue.Statements

/-! What a row can become under the statements that the roles may run: exactly what
its columns leave open. -/
namespace Pals.Queue
open Pals.Library Pals.Contracts Pals.Judge

/-- How far a job is. Within a rank, the API may move it either way. -/
def JobState.rank : JobState → Nat
  | waiting | replaced => 0
  | running | failed => 1
  | done => 2

def JobRow.asEnqueued (row : JobRow) : JobRow :=
  { row with state := .waiting, claimedAt := none, finishedAt := none, result := none }

/-- What `before` leaves open of a later row: a claim once, verdicts once, and the
columns that the API may write. -/
structure Follows (before after : Row) : Prop where
  submission : after.asEnqueued = before.asEnqueued
  keeps : Keeps before after
  result : after.result = before.result ∨
    ∃ verdicts, verdicts ≠ [] ∧ after.result = some (resultOf verdicts)

theorem Row.ext {row row' : Row} (h : row.toJobRow = row'.toJobRow) : row = row' := by
  cases row
  cases row'
  cases h
  rfl

theorem JobRow.eq_of_columns {row row' : JobRow} (submission : row.asEnqueued = row'.asEnqueued)
    (state : row.state = row'.state) (claimedAt : row.claimedAt = row'.claimedAt)
    (finishedAt : row.finishedAt = row'.finishedAt) (result : row.result = row'.result) :
    row = row' := by
  cases row
  cases row'
  simp_all [asEnqueued]

theorem Follows.refl (row : Row) : Follows row row := ⟨rfl, .refl row, .inl rfl⟩

theorem Follows.trans {first second third : Row} (h : Follows first second)
    (h' : Follows second third) : Follows first third where
  submission := h'.submission.trans h.submission
  keeps := h.keeps.trans h'.keeps
  result := by
    obtain hsame | hnew := h'.result
    · rw [hsame]
      exact h.result
    · exact .inr hnew

theorem Row.rank_eq_zero (row : Row) : row.state.rank = 0 ↔ row.claimedAt = none := by
  have h := row.claimed_iff
  rw [← Option.not_isSome_iff_eq_none, h]
  cases row.state <;> simp [JobState.rank]

theorem Row.rank_eq_two (row : Row) : row.state.rank = 2 ↔ row.result.isSome = true := by
  rw [row.result_iff]
  cases row.state <;> simp [JobState.rank]

theorem JobState.rank_le_two (state : JobState) : state.rank ≤ 2 := by
  cases state <;> decide

theorem Keeps.rank_le {before after : Row} (keeps : Keeps before after) :
    before.state.rank ≤ after.state.rank := by
  have hclaimed : before.state.rank ≠ 0 → after.state.rank ≠ 0 := by
    simp only [ne_eq, Row.rank_eq_zero]
    intro h
    obtain ⟨claimedAt, hclaimedAt⟩ := Option.ne_none_iff_exists'.mp h
    simp [keeps.claimedAt _ hclaimedAt]
  have hresult : before.state.rank = 2 → after.state.rank = 2 := by
    simp only [Row.rank_eq_two, Option.isSome_iff_exists]
    exact fun ⟨result, h⟩ => ⟨result, keeps.result _ h⟩
  have := before.state.rank_le_two
  omega

section Updates
variable {assign : Assignment} {jobs current after : Jobs} {id : Uuid} {row : Row}

def assigned (assign : Assignment) (id : Uuid) (row : Row) : JobRow :=
  match assign id row with
  | none => row.toJobRow
  | some (state, finishedAt) => { row.toJobRow with state, finishedAt }

theorem updateRow_eq_ok {entry : Σ _ : Uuid, Row} (hentry : current.lookup entry.1 = some entry.2)
    (h : updateRow assign current entry = .ok after) :
    (∃ row, after.lookup entry.1 = some row ∧ row.toJobRow = assigned assign entry.1 entry.2) ∧
      ∀ other, other ≠ entry.1 → after.lookup other = current.lookup other := by
  unfold updateRow at h
  unfold assigned
  cases hassign : assign entry.1 entry.2 with
  | none =>
    rw [hassign] at h
    cases h
    exact ⟨⟨entry.2, hentry, rfl⟩, fun _ _ => rfl⟩
  | some value =>
    rw [hassign] at h
    obtain ⟨updated, hupdated, hrest⟩ := bind_eq_ok.mp h
    cases hrest
    exact ⟨⟨updated, AList.lookup_insert current, accept_eq_ok.mp hupdated⟩,
      fun other hne => AList.lookup_insert_ne hne⟩

theorem updateRow_succeeds (current : Jobs) {entry : Σ _ : Uuid, Row} :
    (∃ after, updateRow assign current entry = .ok after) ↔
      ∃ row : Row, row.toJobRow = assigned assign entry.1 entry.2 := by
  unfold updateRow assigned
  cases hassign : assign entry.1 entry.2 with
  | none => exact iff_of_true ⟨current, rfl⟩ ⟨entry.2, rfl⟩
  | some value =>
    constructor
    · rintro ⟨after, h⟩
      obtain ⟨updated, hupdated, _⟩ := bind_eq_ok.mp h
      exact ⟨updated, accept_eq_ok.mp hupdated⟩
    · rintro ⟨row, hrow⟩
      exact ⟨_, bind_eq_ok.mpr ⟨row, accept_eq_ok.mpr hrow, rfl⟩⟩

theorem foldlM_updateRow {entries : List (Σ _ : Uuid, Row)} (nodup : entries.NodupKeys)
    (hentries : ∀ entry ∈ entries, current.lookup entry.1 = some entry.2)
    (h : entries.foldlM (updateRow assign) current = .ok after) (id : Uuid) :
    (∀ entry ∈ entries, entry.1 = id → ∃ row, after.lookup id = some row ∧
      row.toJobRow = assigned assign id entry.2) ∧
    (id ∉ entries.keys → after.lookup id = current.lookup id) := by
  induction entries generalizing current with
  | nil =>
    cases h
    exact ⟨List.forall_mem_nil _, fun _ => rfl⟩
  | cons entry entries ih =>
    obtain ⟨next, hnext, hrest⟩ := bind_eq_ok.mp h
    obtain ⟨hfirst, hnodup⟩ := List.nodupKeys_cons.mp nodup
    obtain ⟨⟨row, hrow, hassigned⟩, hothers⟩ :=
      updateRow_eq_ok (hentries entry List.mem_cons_self) hnext
    have hkeys (entry') (hmem : entry' ∈ entries) : entry'.1 ≠ entry.1 := by
      intro he
      exact hfirst (he ▸ List.mem_keys_of_mem hmem)
    obtain ⟨hin, hout⟩ := ih hnodup (fun entry' hmem => by
      rw [hothers _ (hkeys entry' hmem)]
      exact hentries entry' (List.mem_cons_of_mem _ hmem)) hrest
    refine ⟨List.forall_mem_cons.mpr ⟨?_, hin⟩, fun hid => ?_⟩
    · rintro rfl
      exact ⟨row, (hout hfirst).trans hrow, hassigned⟩
    · rw [List.keys_cons, List.mem_cons, not_or] at hid
      rw [hout hid.2, hothers id hid.1]

theorem updateJobs_eq_ok (h : updateJobs assign jobs = .ok after) (id : Uuid) :
    (∀ row, jobs.lookup id = some row →
      ∃ row', after.lookup id = some row' ∧ row'.toJobRow = assigned assign id row) ∧
    (jobs.lookup id = none → after.lookup id = none) := by
  obtain ⟨hin, hout⟩ := foldlM_updateRow jobs.nodupKeys
    (fun entry hentry => AList.mem_lookup_iff.mpr hentry) h id
  refine ⟨fun row hrow => hin ⟨id, row⟩ (AList.mem_lookup_iff.mp hrow) rfl, fun hnone => ?_⟩
  rw [hout (AList.lookup_eq_none.mp hnone), hnone]

theorem updateJobs_succeeds : (∃ after, updateJobs assign jobs = .ok after) ↔
    ∀ id row, jobs.lookup id = some row →
      ∃ row' : Row, row'.toJobRow = assigned assign id row := by
  suffices hfold : ∀ (entries : List (Σ _ : Uuid, Row)) (current : Jobs),
      (∃ after, entries.foldlM (updateRow assign) current = .ok after) ↔
        ∀ entry ∈ entries, ∃ row' : Row, row'.toJobRow = assigned assign entry.1 entry.2 by
    refine (hfold jobs.entries jobs).trans ⟨fun h id row hrow => ?_, fun h entry hentry => ?_⟩
    · exact h ⟨id, row⟩ (AList.mem_lookup_iff.mp hrow)
    · exact h entry.1 entry.2 (AList.mem_lookup_iff.mpr hentry)
  intro entries
  induction entries with
  | nil => exact fun current => iff_of_true ⟨current, rfl⟩ (List.forall_mem_nil _)
  | cons entry entries ih =>
    intro current
    rw [List.forall_mem_cons]
    constructor
    · rintro ⟨after, h⟩
      obtain ⟨next, hnext, hrest⟩ := bind_eq_ok.mp h
      exact ⟨(updateRow_succeeds current).mp ⟨next, hnext⟩, (ih next).mp ⟨after, hrest⟩⟩
    · rintro ⟨hfirst, hrest⟩
      obtain ⟨next, hnext⟩ := (updateRow_succeeds current).mpr hfirst
      obtain ⟨after, h⟩ := (ih next).mpr hrest
      exact ⟨after, bind_eq_ok.mpr ⟨next, hnext, h⟩⟩

end Updates

section Rows
variable {jobs after later : Jobs} {id : Uuid} {row row' : Row} {now : Timestamp}

def FollowsAll (before after : Jobs) : Prop :=
  ∀ id row, before.lookup id = some row → ∃ row', after.lookup id = some row' ∧ Follows row row'

theorem FollowsAll.refl (jobs : Jobs) : FollowsAll jobs jobs := fun _ row h => ⟨row, h, .refl row⟩

theorem FollowsAll.trans {first second third : Jobs} (h : FollowsAll first second)
    (h' : FollowsAll second third) : FollowsAll first third := by
  intro id row hrow
  obtain ⟨row', hrow', follows⟩ := h id row hrow
  obtain ⟨row'', hrow'', follows'⟩ := h' id row' hrow'
  exact ⟨row'', hrow'', follows.trans follows'⟩

theorem FollowsAll.insert (hrow : jobs.lookup id = some row) (follows : Follows row row') :
    FollowsAll jobs (jobs.insert id row') := by
  intro id' old hold
  by_cases h : id' = id
  · subst h
    cases hrow.symm.trans hold
    exact ⟨row', AList.lookup_insert jobs, follows⟩
  · exact ⟨old, by rw [AList.lookup_insert_ne h, hold], .refl old⟩

theorem Follows.of_claim (waiting : row.state = .waiting) (h : row'.toJobRow = row.claim now) :
    Follows row row' := by
  have hnone := row.claimedAt_of_waiting waiting
  refine ⟨by rw [h]; rfl, ⟨?_, ?_⟩, .inl (by rw [h]; rfl)⟩ <;> simp [h, JobRow.claim, hnone]

theorem Follows.of_finish {verdicts : List Verdict} (running : row.state = .running)
    (hverdicts : verdicts ≠ []) (h : row'.toJobRow = row.finish now verdicts) : Follows row row' := by
  have hnone := row.result_of_not_done (by simp [running])
  refine ⟨by rw [h]; rfl, ⟨?_, ?_⟩, .inr ⟨verdicts, hverdicts, by rw [h]; rfl⟩⟩ <;>
    simp [h, JobRow.finish, hnone]

theorem Follows.of_assigned {assign : Assignment} (h : row'.toJobRow = assigned assign id row) :
    Follows row row' := by
  unfold assigned at h
  split at h
  · cases Row.ext h
    exact .refl row
  · refine ⟨by rw [h]; rfl, ⟨?_, ?_⟩, .inl (by rw [h])⟩ <;> simp [h]

theorem finishJob_ne_nil {verdicts : List Verdict}
    (h : finishJob now id verdicts jobs = .ok (after, true)) : verdicts ≠ [] := by
  rintro rfl
  unfold finishJob at h
  split at h
  · cases h
  · simp at h

theorem apply_followsAll (jobs : Jobs) (action : SqlAction) :
    FollowsAll jobs (action.apply jobs) := by
  cases action with
  | claim now =>
    simp only [SqlAction.apply]
    cases h : claimJob now jobs with
    | error check => exact .refl jobs
    | ok answer =>
      obtain ⟨after, job⟩ := answer
      obtain ⟨_, rfl⟩ | ⟨id, row, claimed, hrow, hwaiting, hclaimed, rfl, _⟩ := claimJob_eq_ok h
      · exact .refl after
      · exact .insert hrow (.of_claim hwaiting hclaimed)
  | finish now id verdicts =>
    simp only [SqlAction.apply]
    cases h : finishJob now id verdicts jobs with
    | error check => exact .refl jobs
    | ok answer =>
      obtain ⟨after, answer⟩ := answer
      obtain ⟨_, rfl⟩ | ⟨row, finished, hrow, hrunning, hfinished, rfl, rfl⟩ := finishJob_eq_ok h
      · exact .refl after
      · exact .insert hrow (.of_finish hrunning (finishJob_ne_nil h) hfinished)
  | insert id row =>
    simp only [SqlAction.apply, insertJob]
    split
    · exact .refl jobs
    · rename_i hnew
      intro id' old hold
      refine ⟨old, ?_, .refl old⟩
      rw [Option.getD_some, AList.lookup_insert_ne ?_, hold]
      rintro rfl
      exact hnew (AList.lookup_isSome.mp (by simp [hold]))
  | update assign =>
    simp only [SqlAction.apply]
    cases h : updateJobs assign jobs with
    | error check => exact .refl jobs
    | ok after =>
      intro id row hrow
      obtain ⟨row', hrow', hassigned⟩ := (updateJobs_eq_ok h id).1 row hrow
      exact ⟨row', hrow', .of_assigned hassigned⟩

theorem reaches_followsAll (h : statements.Reaches jobs later) : FollowsAll jobs later := by
  refine h.related (I := fun _ => True) FollowsAll.refl (fun _ _ _ => FollowsAll.trans)
    (fun _ _ _ _ _ => trivial) (fun before action after _ hstep => ?_) trivial
  cases hstep
  exact apply_followsAll before action

/-- What the API may write to the columns `state` and `finished_at` of a row. -/
theorem update_accepted_iff (row : Row) (state : JobState) (finishedAt : Option Timestamp) :
    (∃ updated : Row, updated.toJobRow = { row.toJobRow with state, finishedAt }) ↔
      (state.rank = 0 ↔ row.claimedAt = none) ∧ (state.rank = 2 ↔ row.result.isSome = true) ∧
      (finishedAt.isSome = true ↔ state ∈ [JobState.done, .replaced, .failed]) ∧
      ∀ instant, finishedAt = some instant → row.claimedAt.getD row.enqueuedAt ≤ instant := by
  constructor
  · rintro ⟨updated, h⟩
    have hzero := updated.rank_eq_zero
    have htwo := updated.rank_eq_two
    have hover := of_decide_eq_true (updated.valid .finishedWhenOver)
    have hafter := updated.valid .finishedAfterStart
    simp only [h, Check.passes, Check.value] at hzero htwo hover hafter
    refine ⟨hzero, htwo, hover, ?_⟩
    rintro instant rfl
    exact of_decide_eq_true hafter
  · rintro ⟨hzero, htwo, hover, hafter⟩
    have hclaimed : row.claimedAt.isSome = true ↔ state ∈ [JobState.running, .done, .failed] := by
      rw [← Option.ne_none_iff_isSome, ne_eq, ← hzero]
      cases state <;> simp [JobState.rank]
    have hresult : row.result.isSome = true ↔ state = .done := by
      rw [← htwo]
      cases state <;> simp [JobState.rank]
    refine ⟨⟨_, fun check => ?_⟩, rfl⟩
    cases check with
    | contractCheck => exact row.valid .contractCheck
    | sourceCheck => exact row.valid .sourceCheck
    | claimedAfterEnqueued => exact row.valid .claimedAfterEnqueued
    | claimedWhenRun => exact decide_eq_true hclaimed
    | finishedWhenOver => exact decide_eq_true hover
    | resultWhenDone => exact decide_eq_true hresult
    | finishedAfterStart =>
      cases finishedAt with
      | none => rfl
      | some instant => exact decide_eq_true (hafter instant rfl)

theorem reaches_apply (jobs : Jobs) (action : SqlAction) :
    statements.Reaches jobs (action.apply jobs) := ⟨[action], rfl⟩

/-- Writes to one row, and takes every other that waits out of the queue. -/
def writeAlone (id : Uuid) (state : JobState) (finishedAt : Option Timestamp) : Assignment :=
  fun other row =>
    if other = id then some (state, finishedAt)
    else if row.state = .waiting then some (.replaced, some row.enqueuedAt)
    else none

theorem reaches_write (row' : Row) (hrow : jobs.lookup id = some row)
    (h : row'.toJobRow = { row.toJobRow with state := row'.state, finishedAt := row'.finishedAt }) :
    ∃ later, statements.Reaches jobs later ∧ later.lookup id = some row' ∧
      ∀ other ∈ waitingIds later, other = id := by
  have hid : assigned (writeAlone id row'.state row'.finishedAt) id row = row'.toJobRow := by
    simp [assigned, writeAlone, ← h]
  obtain ⟨later, hlater⟩ : ∃ later,
      updateJobs (writeAlone id row'.state row'.finishedAt) jobs = .ok later := by
    refine updateJobs_succeeds.mpr fun other old hold => ?_
    by_cases hother : other = id
    · subst hother
      cases hrow.symm.trans hold
      exact ⟨row', hid.symm⟩
    · by_cases hwaiting : old.state = .waiting
      · simp only [assigned, writeAlone, hother, hwaiting, ↓reduceIte]
        rw [update_accepted_iff]
        have hnone := old.claimedAt_of_waiting hwaiting
        simp [JobState.rank, hnone, old.result_of_not_done (by simp [hwaiting])]
      · exact ⟨old, by simp [assigned, writeAlone, hother, hwaiting]⟩
  refine ⟨later, ?_, ?_, fun other hother => ?_⟩
  · have hreach := reaches_apply jobs (.update (writeAlone id row'.state row'.finishedAt))
    rwa [SqlAction.apply, hlater] at hreach
  · obtain ⟨written, hwritten, hassigned⟩ := (updateJobs_eq_ok hlater id).1 row hrow
    rw [hwritten, Row.ext (hassigned.trans hid)]
  · obtain ⟨row'', hrow'', hwaiting⟩ := mem_waitingIds.mp hother
    by_contra hne
    cases hold : jobs.lookup other with
    | none => cases hrow''.symm.trans ((updateJobs_eq_ok hlater other).2 hold)
    | some old =>
      obtain ⟨written, hwritten, hassigned⟩ := (updateJobs_eq_ok hlater other).1 old hold
      cases hrow''.symm.trans hwritten
      by_cases hwas : old.state = .waiting
      · simp [hassigned, assigned, writeAlone, hne, hwas] at hwaiting
      · simp [hassigned, assigned, writeAlone, hne, hwas] at hwaiting

theorem reaches_claim (hrow : jobs.lookup id = some row) (waiting : row.state = .waiting)
    (alone : ∀ other ∈ waitingIds jobs, other = id) (after : row.enqueuedAt ≤ now) :
    ∃ later claimed, statements.Reaches jobs later ∧ later.lookup id = some claimed ∧
      claimed.toJobRow = row.claim now := by
  obtain ⟨claimed, hclaimed⟩ := (claim_accepted_iff row waiting now).mpr after
  have hfirst : (waitingIds jobs).head? = some id := by
    have hmem := mem_waitingIds.mpr ⟨row, hrow, waiting⟩
    cases hids : waitingIds jobs with
    | nil => simp [hids] at hmem
    | cons other rest => rw [List.head?_cons, alone other (by simp [hids])]
  have hclaim : claimJob now jobs =
      .ok (jobs.insert id claimed, some (jobOf id claimed.toJobRow)) := by
    simp [claimJob, hfirst, hrow, hclaimed, bind, Except.bind, pure, Except.pure]
  refine ⟨jobs.insert id claimed, claimed, ?_, AList.lookup_insert jobs, accept_eq_ok.mp hclaimed⟩
  have hreach := reaches_apply jobs (.claim now)
  rwa [SqlAction.apply, hclaim] at hreach

theorem reaches_finish {verdicts : List Verdict} {claimedAt : Timestamp}
    (hrow : jobs.lookup id = some row) (running : row.state = .running)
    (claimed : row.claimedAt = some claimedAt) (hverdicts : verdicts ≠ [])
    (after : claimedAt ≤ now) :
    ∃ later finished, statements.Reaches jobs later ∧ later.lookup id = some finished ∧
      finished.toJobRow = row.finish now verdicts := by
  obtain ⟨finished, hfinished⟩ := (finish_accepted_iff row claimed now verdicts).mpr after
  have hfinish : finishJob now id verdicts jobs = .ok (jobs.insert id finished, true) := by
    simp [finishJob, hrow, running, hverdicts, hfinished, bind, Except.bind, pure, Except.pure]
  refine ⟨jobs.insert id finished, finished, ?_, AList.lookup_insert jobs, accept_eq_ok.mp hfinished⟩
  have hreach := reaches_apply jobs (.finish now id verdicts)
  rwa [SqlAction.apply, hfinish] at hreach

theorem Follows.reaches_claimed (hrow : jobs.lookup id = some row) (follows : Follows row row') :
    ∃ later claimed, statements.Reaches jobs later ∧ later.lookup id = some claimed ∧
      claimed.asEnqueued = row.asEnqueued ∧ claimed.claimedAt = row'.claimedAt ∧
      claimed.result = row.result := by
  by_cases hsame : row.claimedAt = row'.claimedAt
  · exact ⟨jobs, row, .refl _ jobs, hrow, rfl, hsame, rfl⟩
  · have hnone : row.claimedAt = none := by
      by_contra hsome
      obtain ⟨claimedAt, hclaimedAt⟩ := Option.ne_none_iff_exists'.mp hsome
      exact hsame (hclaimedAt.trans (follows.keeps.claimedAt _ hclaimedAt).symm)
    obtain ⟨claimedAt, hclaimedAt⟩ := Option.ne_none_iff_exists'.mp (hnone ▸ Ne.symm hsame)
    have hresult : ¬row.result.isSome = true := by
      rw [← row.rank_eq_two, row.rank_eq_zero.mpr hnone]
      decide
    obtain ⟨waiting, hwaiting⟩ := (update_accepted_iff row .waiting none).mpr
      ⟨iff_of_true rfl hnone, iff_of_false (by decide) hresult, by decide, nofun⟩
    obtain ⟨first, hfirst, hlookup, alone⟩ :=
      reaches_write waiting hrow (by rw [hwaiting])
    have hafter : waiting.enqueuedAt ≤ claimedAt := by
      have hsubmission : row'.enqueuedAt = row.enqueuedAt := by
        have := congrArg JobRow.enqueuedAt follows.submission
        exact this
      have hvalid := row'.valid .claimedAfterEnqueued
      simp only [Check.passes, Check.value, hclaimedAt] at hvalid
      rw [hwaiting, ← hsubmission]
      exact of_decide_eq_true hvalid
    obtain ⟨later, claimed, hlater, hclaimed, hcolumns⟩ :=
      reaches_claim hlookup (by rw [hwaiting]) alone hafter
    refine ⟨later, claimed, hfirst.trans hlater, hclaimed, ?_, ?_, ?_⟩
    · rw [hcolumns, hwaiting]
      rfl
    · rw [hcolumns, hclaimedAt]
      rfl
    · rw [hcolumns, hwaiting]
      rfl

theorem Follows.reaches_finished (hrow : jobs.lookup id = some row) (follows : Follows row row')
    (claimed : row.claimedAt = row'.claimedAt) :
    ∃ later finished, statements.Reaches jobs later ∧ later.lookup id = some finished ∧
      finished.asEnqueued = row.asEnqueued ∧ finished.claimedAt = row'.claimedAt ∧
      finished.result = row'.result := by
  obtain hsame | ⟨verdicts, hverdicts, hresult⟩ := follows.result
  · exact ⟨jobs, row, .refl _ jobs, hrow, rfl, claimed, hsame.symm⟩
  · cases hold : row.result with
    | some result =>
      refine ⟨jobs, row, .refl _ jobs, hrow, rfl, claimed, ?_⟩
      rw [hold, follows.keeps.result _ hold]
    | none =>
      have hdone : row'.state = .done := row'.result_iff.mp (by simp [hresult])
      obtain ⟨claimedAt, hclaimedAt⟩ :=
        Option.isSome_iff_exists.mp (row'.claimed_iff.mpr (.inr (.inl hdone)))
      obtain ⟨running, hrunning⟩ := (update_accepted_iff row .running none).mpr
        ⟨iff_of_false (by decide) (by simp [claimed, hclaimedAt]),
          iff_of_false (by decide) (by simp [hold]), by decide, nofun⟩
      obtain ⟨first, hfirst, hlookup, _⟩ :=
        reaches_write running hrow (by rw [hrunning])
      obtain ⟨later, finished, hlater, hfinished, hcolumns⟩ :=
        reaches_finish hlookup (by rw [hrunning]) (by rw [hrunning, claimed, hclaimedAt])
          hverdicts (Int.le_refl claimedAt)
      refine ⟨later, finished, hfirst.trans hlater, hfinished, ?_, ?_, ?_⟩
      · rw [hcolumns, hrunning]
        rfl
      · rw [hcolumns, hrunning]
        exact claimed
      · rw [hcolumns, hresult]
        rfl

theorem Follows.reaches (hrow : jobs.lookup id = some row) (follows : Follows row row') :
    ∃ later, statements.Reaches jobs later ∧ later.lookup id = some row' := by
  obtain ⟨first, claimed, hfirst, hclaimed, hsubmission, hclaimedAt, hresult⟩ :=
    follows.reaches_claimed hrow
  have followed : Follows claimed row' := by
    refine ⟨follows.submission.trans hsubmission.symm, ⟨?_, ?_⟩, ?_⟩
    · exact fun _ h => hclaimedAt ▸ h
    · exact fun _ h => follows.keeps.result _ (hresult ▸ h)
    · exact hresult ▸ follows.result
  obtain ⟨second, finished, hsecond, hfinished, hsubmission', hclaimedAt', hresult'⟩ :=
    followed.reaches_finished hclaimed hclaimedAt
  obtain ⟨later, hlater, hrow', _⟩ := reaches_write row' hfinished
    (JobRow.eq_of_columns (followed.submission.trans hsubmission'.symm) rfl hclaimedAt'.symm rfl
      hresult'.symm)
  exact ⟨later, (hfirst.trans hsecond).trans hlater, hrow'⟩

def Row.moved (row : Row) (state : JobState) : JobRow :=
  { row.toJobRow with
    state
    claimedAt := if state.rank = 0 then none else some (row.claimedAt.getD row.enqueuedAt)
    finishedAt :=
      if state = .waiting ∨ state = .running then none
      else some (row.claimedAt.getD row.enqueuedAt)
    result := if state = .done then some (row.result.getD (resultOf [.passed])) else none }

theorem Row.moved_passes (row : Row) (state : JobState) (check : Check) :
    check.passes (row.moved state) = true := by
  have hclaimed : row.enqueuedAt ≤ row.claimedAt.getD row.enqueuedAt := by
    have hvalid := row.valid .claimedAfterEnqueued
    cases h : row.claimedAt with
    | none => exact Int.le_refl _
    | some claimedAt =>
      simp only [Check.passes, Check.value, h] at hvalid
      exact of_decide_eq_true hvalid
  cases check with
  | contractCheck => exact row.valid .contractCheck
  | sourceCheck => exact row.valid .sourceCheck
  | _ => cases state <;> simp [Check.passes, Check.value, moved, JobState.rank, hclaimed]

theorem Row.follows_moved (row row' : Row) {state : JobState} (h : row.state.rank ≤ state.rank)
    (moved : row'.toJobRow = row.moved state) : Follows row row' := by
  have hdone : row.result.isSome = true → state = .done := by
    rw [← row.rank_eq_two]
    intro htwo
    cases state <;> simp_all [JobState.rank]
  refine ⟨by rw [moved]; rfl, ⟨fun claimedAt hclaimed => ?_, fun result hresult => ?_⟩, ?_⟩
  · have hrank : state.rank ≠ 0 := by
      have := row.rank_eq_zero.not.mpr (by simp [hclaimed])
      omega
    simp [moved, Row.moved, hrank, hclaimed]
  · simp [moved, Row.moved, hdone (by simp [hresult]), hresult]
  · cases hresult : row.result with
    | some result => exact .inl (by simp [moved, Row.moved, hdone (by simp [hresult]), hresult])
    | none =>
      by_cases hstate : state = .done
      · exact .inr ⟨[.passed], by simp, by simp [moved, Row.moved, hstate, hresult]⟩
      · exact .inl (by simp [moved, Row.moved, hstate])

/-- What a row can become under the statements that the roles may run is what follows
it, and a job reaches the states of its own rank and of those after it. -/
theorem rows_become_what_follows (jobs : Jobs) (id : Uuid) (row : Row)
    (hrow : jobs.lookup id = some row) :
    (∀ row', (∃ later, statements.Reaches jobs later ∧ later.lookup id = some row') ↔
      Follows row row') ∧
    ∀ state, (∃ later row', statements.Reaches jobs later ∧ later.lookup id = some row' ∧
      row'.state = state) ↔ row.state.rank ≤ state.rank := by
  have follows {row' : Row} {later : Jobs} (hreach : statements.Reaches jobs later)
      (hlater : later.lookup id = some row') : Follows row row' := by
    obtain ⟨last, hlast, follows⟩ := reaches_followsAll hreach id row hrow
    cases hlast.symm.trans hlater
    exact follows
  refine ⟨fun row' => ⟨?_, fun h => h.reaches hrow⟩, fun state => ⟨?_, fun h => ?_⟩⟩
  · rintro ⟨later, hreach, hlater⟩
    exact follows hreach hlater
  · rintro ⟨later, row', hreach, hlater, rfl⟩
    exact (follows hreach hlater).keeps.rank_le
  · obtain ⟨later, hreach, hlater⟩ :=
      (row.follows_moved ⟨_, row.moved_passes state⟩ h rfl).reaches hrow
    exact ⟨later, _, hreach, hlater, rfl⟩

theorem rows_become_what_follows_oneWaiting :
    (∃ later row', statements.Reaches oneWaiting later ∧ later.lookup firstId = some row' ∧
      row'.state = .done) ∧
    ¬∃ later row', statements.Reaches oneDone later ∧ later.lookup firstId = some row' ∧
      row'.state = .running :=
  ⟨((rows_become_what_follows oneWaiting firstId _ (by rfl)).2 .done).mpr (by decide),
    ((rows_become_what_follows oneDone firstId _ (by rfl)).2 .running).not.mpr (by decide)⟩

end Rows

end Pals.Queue
