import Pals.Api.Polling
import Pals.Queue.Locks

/-! From a submission to the answer about it: what it takes for a client to be told that
its job has passed. -/
namespace Pals.Api
open Pals.Library Pals.Contracts Pals.Judge Pals.Queue

def Passes (host : Host) (job : Job) (index : Nat) (case : Case) : Prop :=
  ∃ stdout, runOfCase host job index case = .ok (.exited (.code 0) stdout) ∧
    sameOutput case.expected stdout = true

def jobOfSubmission (id : Uuid) (submission : Queue.Submission) : Job := jobOf id (submission.row 0)

/-- What was inserted and what was judged is what the steps of the run say. -/
structure Traced (schedule : List Queue.Action) (s : Queue.State) : Prop where
  pending : ∀ n tx id row, s.db.txs (.api n) = some tx → tx.writes.lookup id = some row →
    ∃ m submission, .apiInsert m id submission ∈ schedule ∧
      jobOf id row.toJobRow = jobOfSubmission id submission
  inserted : ∀ id job, .inserted id job ∈ s.log → ∃ n submission,
    .apiInsert n id submission ∈ schedule ∧ job = jobOfSubmission id submission
  judged : ∀ j host job, .judged j host job ∈ s.log → .judge j host ∈ schedule

section Steps
variable {s t : Queue.State} {schedule : List Queue.Action} {a : Queue.Action} {j n : Nat}
variable {db : Db Session Uuid Row} {events : List Event} {place before : JudgeState}

theorem Traced.mono (traced : Traced schedule s) {longer : List Queue.Action}
    (h : schedule ⊆ longer) : Traced longer s where
  pending n tx id row htx hrow := by
    obtain ⟨m, submission, hmem, hjob⟩ := traced.pending n tx id row htx hrow
    exact ⟨m, submission, h hmem, hjob⟩
  inserted id job hlog := by
    obtain ⟨m, submission, hmem, hjob⟩ := traced.inserted id job hlog
    exact ⟨m, submission, h hmem, hjob⟩
  judged j host job hlog := h (traced.judged j host job hlog)

theorem mem_insertions {id : Uuid} {job : Job} (h : .inserted id job ∈ insertions s (.api n)) :
    ∃ tx row, s.db.txs (.api n) = some tx ∧ tx.writes.lookup id = some row ∧
      job = jobOf id row.toJobRow := by
  unfold insertions at h
  split at h
  · rename_i tx htx
    obtain ⟨entry, hentry, he⟩ := List.mem_map.mp h
    cases he
    exact ⟨tx, entry.2, htx, AList.mem_lookup_iff.mpr hentry, rfl⟩
  · cases h

theorem ApiStep.writes (move : ApiStep s n a db events) {tx : Tx Uuid Row} {id : Uuid} {row : Row}
    (htx : db.txs (.api n) = some tx) (hrow : tx.writes.lookup id = some row) :
    (∃ old, s.db.txs (.api n) = some old ∧ old.writes.lookup id = some row) ∨
      ∃ submission now, a = .apiInsert n id submission ∧ row.toJobRow = submission.row now := by
  cases move with
  | begin db started =>
    obtain ⟨_, htx', _⟩ := Db.start_eq_some started
    cases htx'.symm.trans htx
    cases hrow
  | insert id' submission new locked db accepted _ lock written =>
    obtain ⟨_, htxs, _⟩ := Db.lock_eq_some lock
    obtain ⟨old, hold, _, htx', _⟩ := Db.write_eq_some written
    cases htx'.symm.trans htx
    obtain ⟨rfl, rfl⟩ | ⟨_, hrow⟩ := Jobs.lookup_insert hrow
    · exact .inr ⟨submission, _, rfl, accept_eq_ok.mp accepted⟩
    · exact .inl ⟨old, htxs ▸ hold, hrow⟩
  | commit db committed =>
    obtain ⟨_, _, hended, _⟩ := Db.commit_eq_some committed
    cases hended.symm.trans htx
  | rollback => cases (Db.release_txs _).symm.trans htx

theorem JudgeStep.judged_by (move : JudgeStep s j a before place db events) {i : Nat} {host : Host}
    {job : Job} (h : .judged i host job ∈ events) : a = .judge i host := by
  cases move <;> simp_all

theorem JudgeStep.inserted_notMem (move : JudgeStep s j a before place db events) {id : Uuid}
    {job : Job} : .inserted id job ∉ events := by
  cases move <;> simp

theorem traced_step (sound : Sound s) (traced : Traced schedule s)
    (h : Queue.machine.step s a = some t) : Traced (schedule ++ [a]) t := by
  obtain ⟨⟨ledger, inv⟩, tidy⟩ := sound
  have old := traced.mono (List.subset_append_left schedule [a])
  have last : a ∈ schedule ++ [a] := List.mem_append_right _ List.mem_cons_self
  cases step_cases h with
  | tick elapsed => exact ⟨old.pending, old.inserted, old.judged⟩
  | api n db events move =>
    have ops := move.ops inv
    refine ⟨fun m tx id row htx hrow => ?_, fun id job hlog => ?_, fun j host job hlog => ?_⟩
    · by_cases hm : m = n
      · subst hm
        obtain ⟨tx', htx', hrow'⟩ | ⟨submission, now, rfl, hrow'⟩ := ApiStep.writes move htx hrow
        · exact old.pending m tx' id row htx' hrow'
        · exact ⟨m, submission, last, by rw [hrow']; rfl⟩
      · have hne : Session.api m ≠ .api n := fun he => hm (Session.api.inj he)
        exact old.pending m tx id row ((Db.ops_undisturbed ops hne).tx.symm.trans htx) hrow
    · obtain hold | hnew := List.mem_append.mp hlog
      · exact old.inserted id job hold
      · cases move with
        | commit db committed =>
          obtain ⟨tx, row, htx, hrow, rfl⟩ := mem_insertions hnew
          exact old.pending n tx id row htx hrow
        | _ => cases hnew
    · obtain hlog | hlog := List.mem_append.mp hlog
      · exact old.judged j host job hlog
      · obtain ⟨_, _, he⟩ := move.inserted hlog
        cases he
  | judge i place db events move =>
    have ops := move.ops inv tidy.enqueued
    refine ⟨fun m tx id row htx hrow => ?_, fun id job hlog => ?_, fun j host job hlog => ?_⟩
    · have hne : Session.api m ≠ .judge i := nofun
      exact old.pending m tx id row ((Db.ops_undisturbed ops hne).tx.symm.trans htx) hrow
    · obtain hlog | hlog := List.mem_append.mp hlog
      · exact old.inserted id job hlog
      · exact absurd hlog (JudgeStep.inserted_notMem move)
    · obtain hlog | hlog := List.mem_append.mp hlog
      · exact old.judged j host job hlog
      · exact JudgeStep.judged_by move hlog ▸ last

theorem traced_run (h : Queue.machine.run .init schedule = some s) : Traced schedule s := by
  induction schedule using List.reverseRecOn generalizing s with
  | nil =>
    cases h
    exact ⟨fun _ _ _ _ h => (nomatch h), fun _ _ h => (nomatch h), fun _ _ _ h => nomatch h⟩
  | append_singleton schedule a ih =>
    obtain ⟨u, hrun, hstep⟩ := Queue.machine.run_concat_eq_some.mp h
    exact traced_step (sound_of_run init_sound hrun) (ih hrun) hstep

end Steps

theorem all_passed_iff {host : Host} {job : Job} {cases : List Case} {verdicts : List Verdict}
    (hlength : verdicts.length = cases.length)
    (runs : ∀ (i : Nat) (case : Case), cases[i]? = some case → ∃ outcome,
      runOfCase host job i case = .ok outcome ∧
        verdicts[i]? = some (caseVerdict outcome case.expected)) :
    verdicts.all (· = .passed) = true ↔
      ∀ (i : Nat) (case : Case), cases[i]? = some case → Passes host job i case := by
  simp only [List.all_eq_true, decide_eq_true_eq]
  constructor
  · intro h i case hcase
    obtain ⟨outcome, hrun, hverdict⟩ := runs i case hcase
    obtain ⟨status, stdout, rfl, hsuccess, hsame⟩ :=
      (caseVerdict_passed_iff _ _).mp (h _ (List.mem_of_getElem? hverdict))
    exact ⟨stdout, by rw [hrun, of_decide_eq_true hsuccess], hsame⟩
  · intro h verdict hverdict
    obtain ⟨i, hi, rfl⟩ := List.getElem_of_mem hverdict
    have hcase : cases[i]? = some (cases.get ⟨i, hlength ▸ hi⟩) := List.getElem?_eq_getElem _
    obtain ⟨outcome, hrun, hverdict⟩ := runs i _ hcase
    obtain ⟨stdout, hpasses, hsame⟩ := h i _ hcase
    cases hrun.symm.trans hpasses
    rw [List.getElem?_eq_getElem hi, Option.some.injEq] at hverdict
    rw [hverdict]
    exact (caseVerdict_passed_iff _ _).mpr ⟨_, stdout, rfl, rfl, hsame⟩

/-- Who is told that a job is done is told of the very program that was submitted: a judge
has run it on every case of the exercise, and it has passed when it exits with 0 and
writes what is expected on each of them. -/
theorem passed_is_earned (schedule : List Queue.Action) (s : Queue.State)
    (reached : Queue.machine.run .init schedule = some s) (id : Uuid) (passed : Bool)
    (answer : progress s.db.committed id = .ok ⟨"done", some passed⟩) :
    ∃ n submission j host cases,
      .apiInsert n id submission ∈ schedule ∧ .judge j host ∈ schedule ∧
      .judged j host (jobOfSubmission id submission) ∈ s.log ∧
      casesOfJob host (jobOfSubmission id submission) = .ok cases ∧ cases ≠ [] ∧
      (∀ (i : Nat) (case : Case), cases[i]? = some case → ∃ outcome,
        runOfCase host (jobOfSubmission id submission) i case = .ok outcome) ∧
      (passed = true ↔ ∀ (i : Nat) (case : Case), cases[i]? = some case →
        Passes host (jobOfSubmission id submission) i case) := by
  obtain ⟨⟨ledger, inv⟩, _⟩ := sound_of_run init_sound reached
  have traced := traced_run reached
  have accounts := WorkQueue.run_accounts inv.trace id
  rw [progress_of_inv inv] at answer
  match hentry : ledger id with
  | none | some (.waiting _) | some (.taken _ _) => simp [hentry, answerOf] at answer
  | some (.settled j job verdicts) =>
    rw [hentry] at answer accounts
    obtain ⟨_, host, hjudged, hjudge⟩ := inv.settled id j job verdicts hentry
    obtain ⟨hnonempty, cases, hcases, hlength, runs⟩ := judge_complete hjudge
    obtain ⟨n, submission, hinsert, hjob⟩ := traced.inserted id job (submit_mem accounts.1)
    subst hjob
    refine ⟨n, submission, j, host, cases, hinsert, traced.judged j host _ hjudged, hjudged, hcases,
      ?_, fun i case hcase => (runs i case hcase).imp fun _ => And.left, ?_⟩
    · rintro rfl
      exact hnonempty (List.eq_nil_of_length_eq_zero hlength)
    · obtain rfl : passed = verdicts.all (· = .passed) := by simpa [answerOf, eq_comm] using answer
      exact all_passed_iff hlength runs

/-- A host with one case for the exercise `sum`, where every program writes `3`. -/
def sumHost : Host where
  files := ⟨.directory true true [
    (utf8 "exercises", .directory true true [
      (utf8 "sum", .directory true true [
        (utf8 "assessment", .directory true true [
          (utf8 "1.in", .file true (utf8 "1 2\n")),
          (utf8 "1.out", .file true (utf8 "3\n"))])])])], []⟩
  docker := fun _ _ _ => .ok (.exited (.code 0) (utf8 "3"))
  content := ⟨true, []⟩

def printThree : Queue.Submission where
  course := log200
  exercise := sum
  languagePack := python
  source := "print(3)"
  plain := by decide

def oneJob : List Queue.Action :=
  [.apiBegin 0, .apiInsert 0 firstId printThree, .apiCommit 0, .claimBegin 0, .claimSnapshot 0,
    .claimVisit 0, .claimUpdate 0, .claimCommit 0, .judge 0 sumHost, .finishBegin 0,
    .finishSnapshot 0, .finishUpdate 0, .finishCommit 0]

theorem passed_is_earned_oneJob : ∃ s n submission j host cases,
    Queue.machine.run .init oneJob = some s ∧
    .apiInsert n firstId submission ∈ oneJob ∧ .judge j host ∈ oneJob ∧
    .judged j host (jobOfSubmission firstId submission) ∈ s.log ∧
    casesOfJob host (jobOfSubmission firstId submission) = .ok cases ∧ cases ≠ [] ∧
    (∀ (i : Nat) (case : Case), cases[i]? = some case → ∃ outcome,
      runOfCase host (jobOfSubmission firstId submission) i case = .ok outcome) ∧
    (true = true ↔ ∀ (i : Nat) (case : Case), cases[i]? = some case →
      Passes host (jobOfSubmission firstId submission) i case) := by
  have h : (Queue.machine.run .init oneJob).map (fun s =>
      (progress s.db.committed firstId).toOption) = some (some ⟨"done", some true⟩) := by
    decide +kernel
  obtain ⟨s, hrun, hs⟩ := Option.map_eq_some_iff.mp h
  obtain ⟨n, submission, j, host, cases, earned⟩ :=
    passed_is_earned oneJob s hrun firstId true (toOption_eq_some.mp hs)
  exact ⟨s, n, submission, j, host, cases, hrun, earned⟩

theorem done_by_host {schedule : List Queue.Action} {s : Queue.State}
    (reached : Queue.machine.run .init schedule = some s) {id : Uuid} {row : Row}
    (hrow : s.db.committed.lookup id = some row) (done : row.state = .done) :
    ∃ j host verdicts, .judge j host ∈ schedule ∧
      judge host (jobOf id row.toJobRow) = .ok verdicts ∧ row.result = some (resultOf verdicts) := by
  obtain ⟨⟨ledger, inv⟩, _⟩ := sound_of_run init_sound reached
  obtain ⟨j, host, verdicts, _, hjudged, hjudge, hresult⟩ := inv.exclusive.ownVerdicts id row hrow done
  exact ⟨j, host, verdicts, (traced_run reached).judged j host _ hjudged, hjudge, hresult⟩

/-- What a job comes to is decided by the job and by the hosts: in two runs whose hosts
judge it alike, it is done with one result, however many judges and sessions there were
and in whatever order they went. -/
theorem results_are_of_job_and_host (schedule schedule' : List Queue.Action) (s s' : Queue.State)
    (reached : Queue.machine.run .init schedule = some s)
    (reached' : Queue.machine.run .init schedule' = some s') (id : Uuid) (row row' : Row)
    (hrow : s.db.committed.lookup id = some row) (hrow' : s'.db.committed.lookup id = some row')
    (done : row.state = .done) (done' : row'.state = .done)
    (same : jobOf id row.toJobRow = jobOf id row'.toJobRow)
    (alike : ∀ j host j' host', .judge j host ∈ schedule → .judge j' host' ∈ schedule' →
      judge host (jobOf id row.toJobRow) = judge host' (jobOf id row.toJobRow)) :
    row.result = row'.result ∧ progress s.db.committed id = progress s'.db.committed id := by
  obtain ⟨j, host, verdicts, hmem, hjudge, hresult⟩ := done_by_host reached hrow done
  obtain ⟨j', host', verdicts', hmem', hjudge', hresult'⟩ := done_by_host reached' hrow' done'
  have hverdicts : verdicts = verdicts' := by
    rw [← same, ← alike j host j' host' hmem hmem', hjudge] at hjudge'
    exact Except.ok.inj hjudge'
  subst hverdicts
  refine ⟨hresult.trans hresult'.symm, ?_⟩
  rw [progress, progress, hrow, hrow']
  exact congrArg Except.ok ((progressOf_done done hresult).trans (progressOf_done done' hresult').symm)

/-- The same job, inserted by another session and judged later by another judge. -/
def sameJob : List Queue.Action :=
  [.apiBegin 3, .apiInsert 3 firstId printThree, .apiCommit 3, .tick 60, .claimBegin 1,
    .claimSnapshot 1, .claimVisit 1, .claimUpdate 1, .claimCommit 1, .judge 1 sumHost,
    .finishBegin 1, .finishSnapshot 1, .finishUpdate 1, .finishCommit 1]

theorem results_are_of_job_and_host_oneJob : ∃ s s' row row',
    Queue.machine.run .init oneJob = some s ∧ Queue.machine.run .init sameJob = some s' ∧
    s.db.committed.lookup firstId = some row ∧ s'.db.committed.lookup firstId = some row' ∧
    row.result = row'.result := by
  have ended (schedule : List Queue.Action) (h : (Queue.machine.run .init schedule).map (fun s =>
      (s.db.committed.lookup firstId).map fun row => (row.state, jobOf firstId row.toJobRow)) =
        some (some (.done, jobOfSubmission firstId printThree))) :
      ∃ s row, Queue.machine.run .init schedule = some s ∧
        s.db.committed.lookup firstId = some row ∧ row.state = .done ∧
        jobOf firstId row.toJobRow = jobOfSubmission firstId printThree := by
    obtain ⟨s, hrun, hs⟩ := Option.map_eq_some_iff.mp h
    obtain ⟨row, hrow, hdone⟩ := Option.map_eq_some_iff.mp hs
    exact ⟨s, row, hrun, hrow, (Prod.mk.inj hdone).1, (Prod.mk.inj hdone).2⟩
  obtain ⟨s, row, hrun, hrow, hdone, hjob⟩ := ended oneJob (by decide +kernel)
  obtain ⟨s', row', hrun', hrow', hdone', hjob'⟩ := ended sameJob (by decide +kernel)
  refine ⟨s, s', row, row', hrun, hrun', hrow, hrow', (results_are_of_job_and_host oneJob sameJob
    s s' hrun hrun' firstId row row' hrow hrow' hdone hdone' (hjob.trans hjob'.symm) ?_).1⟩
  intro j host j' host' hmem hmem'
  obtain ⟨_, rfl⟩ : j = 0 ∧ host = sumHost := by simpa [oneJob] using hmem
  obtain ⟨_, rfl⟩ : j' = 1 ∧ host' = sumHost := by simpa [sameJob] using hmem'
  rfl

end Pals.Api
