import Pals.Queue.MainLoop

/-! What a step of the system does, said once: the place of the loop it starts from,
the place it leads to, and what becomes of the database and of the log. -/
namespace Pals.Queue
open Pals.Library Pals.Contracts Pals.Judge

inductive JudgeStep (s : State) (j : Nat) :
    Action → JudgeState → JudgeState → Db Session Uuid Row → List Event → Prop where
  | claimBegin (db) (started : s.db.start (.judge j) s.clock = some db) :
      JudgeStep s j (.claimBegin j) .idle .claimBegun db []
  | claimSnapshot : JudgeStep s j (.claimSnapshot j) .claimBegun
      (.claimVisiting (waitingIds (s.db.snapshot (.judge j)))) s.db []
  | nothing : JudgeStep s j (.claimVisit j) (.claimVisiting []) (.claimed none) s.db []
  | skip (id rest) (held : s.db.lock (.judge j) id = none) :
      JudgeStep s j (.claimVisit j) (.claimVisiting (id :: rest)) (.claimVisiting rest) s.db []
  | pass (id rest db) (locked : s.db.lock (.judge j) id = some db)
      (stale : ∀ row, db.newest (.judge j) id = some row → row.state ≠ .waiting) :
      JudgeStep s j (.claimVisit j) (.claimVisiting (id :: rest)) (.claimVisiting rest) db []
  | select (id rest db row) (locked : s.db.lock (.judge j) id = some db)
      (newest : db.newest (.judge j) id = some row) (waiting : row.state = .waiting) :
      JudgeStep s j (.claimVisit j) (.claimVisiting (id :: rest)) (.claimSelected id) db []
  | claim (id row claimed db) (newest : s.db.newest (.judge j) id = some row)
      (accepted : accept (row.claim (s.now (.judge j))) = .ok claimed)
      (written : s.db.write (.judge j) id claimed = some db) :
      JudgeStep s j (.claimUpdate j) (.claimSelected id)
        (.claimed (some (jobOf id claimed.toJobRow))) db []
  | rejectClaim (id row check) (newest : s.db.newest (.judge j) id = some row)
      (rejected : accept (row.claim (s.now (.judge j))) = .error check) :
      JudgeStep s j (.claimUpdate j) (.claimSelected id) .stopped (s.db.rollback (.judge j))
        [.rejected j check]
  | leave (db) (committed : s.db.commit (.judge j) = some db) :
      JudgeStep s j (.claimCommit j) (.claimed none) .idle db []
  | take (job db) (committed : s.db.commit (.judge j) = some db) :
      JudgeStep s j (.claimCommit j) (.claimed (some job)) (.judging job) db [.claimed j job]
  | judge (host job verdicts) (ok : judge host job = .ok verdicts) :
      JudgeStep s j (.judge j host) (.judging job) (.judged job verdicts) s.db
        [.judged j host job]
  | drop (host job error) (failed : judge host job = .error error) :
      JudgeStep s j (.judge j host) (.judging job) .idle s.db [.judged j host job]
  | finishBegin (job verdicts db) (started : s.db.start (.judge j) s.clock = some db) :
      JudgeStep s j (.finishBegin j) (.judged job verdicts) (.finishBegun job verdicts) db []
  | finishSnapshot (job verdicts row) (found : s.db.newest (.judge j) job.id = some row)
      (running : row.state = .running) (nonempty : verdicts ≠ []) :
      JudgeStep s j (.finishSnapshot j) (.finishBegun job verdicts)
        (.finishVisiting job verdicts) s.db []
  | finishMisses (job verdicts) (missing : verdicts ≠ [] → ∀ row,
      s.db.newest (.judge j) job.id = some row → row.state ≠ .running) :
      JudgeStep s j (.finishSnapshot j) (.finishBegun job verdicts)
        (.finished job verdicts false) s.db []
  | finish (job verdicts row finished locked db)
      (lock : s.db.lock (.judge j) job.id = some locked)
      (newest : locked.newest (.judge j) job.id = some row) (running : row.state = .running)
      (accepted : accept (row.finish (s.now (.judge j)) verdicts) = .ok finished)
      (written : locked.write (.judge j) job.id finished = some db) :
      JudgeStep s j (.finishUpdate j) (.finishVisiting job verdicts) (.finished job verdicts true)
        db []
  | rejectFinish (job verdicts row check locked)
      (lock : s.db.lock (.judge j) job.id = some locked)
      (newest : locked.newest (.judge j) job.id = some row)
      (rejected : accept (row.finish (s.now (.judge j)) verdicts) = .error check) :
      JudgeStep s j (.finishUpdate j) (.finishVisiting job verdicts) .stopped
        (s.db.rollback (.judge j)) [.rejected j check]
  | finishPasses (job verdicts row locked) (lock : s.db.lock (.judge j) job.id = some locked)
      (newest : locked.newest (.judge j) job.id = some row) (changed : row.state ≠ .running) :
      JudgeStep s j (.finishUpdate j) (.finishVisiting job verdicts) (.finished job verdicts false)
        locked []
  | settle (job verdicts answer db) (committed : s.db.commit (.judge j) = some db) :
      JudgeStep s j (.finishCommit j) (.finished job verdicts answer) .idle db
        [.finished j job.id verdicts answer]
  | stop (place) : JudgeStep s j (.fail j) place .stopped (s.db.rollback (.judge j)) []

inductive ApiStep (s : State) (n : Nat) :
    Action → Db Session Uuid Row → List Event → Prop where
  | begin (db) (started : s.db.start (.api n) s.clock = some db) : ApiStep s n (.apiBegin n) db []
  | insert (id submission row locked db)
      (accepted : accept (Submission.row submission (s.now (.api n))) = .ok row)
      (new : s.db.committed.lookup id = none) (lock : s.db.lock (.api n) id = some locked)
      (written : locked.write (.api n) id row = some db) :
      ApiStep s n (.apiInsert n id submission) db []
  | commit (db) (committed : s.db.commit (.api n) = some db) :
      ApiStep s n (.apiCommit n) db (insertions s (.api n))
  | rollback : ApiStep s n (.apiRollback n) (s.db.rollback (.api n)) []

def State.after (s : State) (judges : Nat → JudgeState) (db : Db Session Uuid Row)
    (events : List Event) : State :=
  ⟨s.clock, db, judges, s.log ++ events⟩

inductive Step (s : State) (a : Action) : State → Prop where
  | tick (elapsed : Nat) (time : a = .tick elapsed) :
      Step s a { s with clock := s.clock + elapsed }
  | api (n db events) (move : ApiStep s n a db events) : Step s a (s.after s.judges db events)
  | judge (j place db events) (move : JudgeStep s j a (s.judges j) place db events) :
      Step s a (s.after (Function.update s.judges j place) db events)

section Cases
variable {s t : State} {j : Nat} {n : Nat}

theorem Step.silent {a : Action} {place : JudgeState} {db : Db Session Uuid Row}
    (move : JudgeStep s j a (s.judges j) place db []) : Step s a { s.setJudge j place with db } := by
  have h := Step.judge j place db [] move
  rwa [State.after, List.append_nil] at h

theorem Step.apiSilent {a : Action} {db : Db Session Uuid Row} (move : ApiStep s n a db []) :
    Step s a { s with db } := by
  have h := Step.api n db [] move
  rwa [State.after, List.append_nil] at h

theorem claimVisit_cases (h : step s (.claimVisit j) = some t) : Step s (.claimVisit j) t := by
  simp only [step, claimStep] at h
  split at h
  · rename_i hj
    cases h
    exact .silent (hj ▸ .nothing)
  · rename_i id rest hj
    split at h
    · cases h
      exact .silent (hj ▸ .skip id rest ‹_›)
    · rename_i db locked
      cases h
      cases hwaits : (db.newest (.judge j) id).any (·.state = .waiting) with
      | false =>
        refine .silent (hj ▸ .pass id rest db locked fun row newest waiting => ?_)
        simp [newest, waiting] at hwaits
      | true =>
        obtain ⟨row, newest, waiting⟩ := (Option.any_eq_true _ _).mp hwaits
        exact .silent (hj ▸ .select id rest db row locked newest (of_decide_eq_true waiting))
  · cases h

theorem claimUpdate_cases (h : step s (.claimUpdate j) = some t) : Step s (.claimUpdate j) t := by
  simp only [step, claimStep] at h
  split at h
  · rename_i id hj
    obtain ⟨row, newest, h⟩ := Option.bind_eq_some_iff.mp h
    split at h
    · rename_i claimed accepted
      obtain ⟨db, written, h⟩ := Option.bind_eq_some_iff.mp h
      cases h
      exact .silent (hj ▸ .claim id row claimed db newest accepted written)
    · rename_i check rejected
      cases h
      exact .judge j _ _ _ (hj ▸ .rejectClaim id row check newest rejected)
  · cases h

theorem claimCommit_cases (h : step s (.claimCommit j) = some t) : Step s (.claimCommit j) t := by
  simp only [step, claimStep] at h
  split at h
  · rename_i hj
    obtain ⟨db, committed, h⟩ := Option.bind_eq_some_iff.mp h
    cases h
    exact .silent (hj ▸ .leave db committed)
  · rename_i job hj
    obtain ⟨db, committed, h⟩ := Option.bind_eq_some_iff.mp h
    cases h
    exact .judge j _ _ _ (hj ▸ .take job db committed)
  · cases h

theorem judge_cases {host : Host} (h : step s (.judge j host) = some t) :
    Step s (.judge j host) t := by
  simp only [step] at h
  split at h
  · rename_i job hj
    split at h
    · cases h
      exact .judge j _ _ _ (hj ▸ .judge host job _ ‹_›)
    · cases h
      exact .judge j _ _ _ (hj ▸ .drop host job _ ‹_›)
  · cases h

theorem finishSnapshot_cases (h : step s (.finishSnapshot j) = some t) :
    Step s (.finishSnapshot j) t := by
  simp only [step, finishStep] at h
  split at h
  · rename_i job verdicts hj
    cases h
    have hnewest : (s.db.snapshot (.judge j)).lookup job.id = s.db.newest (.judge j) job.id := rfl
    rw [hnewest]
    split
    · rename_i hfound
      simp only [Bool.and_eq_true, decide_eq_true_eq] at hfound
      obtain ⟨row, found, running⟩ := (Option.any_eq_true _ _).mp hfound.1
      exact .silent (hj ▸ .finishSnapshot job verdicts row found (of_decide_eq_true running) hfound.2)
    · rename_i hmissing
      refine .silent (hj ▸ .finishMisses job verdicts fun nonempty row newest running => ?_)
      simp [newest, running, nonempty] at hmissing
  · cases h

theorem finishUpdate_cases (h : step s (.finishUpdate j) = some t) : Step s (.finishUpdate j) t := by
  simp only [step, finishStep] at h
  split at h
  · rename_i job verdicts hj
    obtain ⟨locked, lock, h⟩ := Option.bind_eq_some_iff.mp h
    obtain ⟨row, newest, h⟩ := Option.bind_eq_some_iff.mp h
    split at h
    · rename_i running
      split at h
      · rename_i finished accepted
        obtain ⟨db, written, h⟩ := Option.bind_eq_some_iff.mp h
        cases h
        exact .silent (hj ▸ .finish job verdicts row finished locked db lock newest running accepted
          written)
      · rename_i check rejected
        cases h
        exact .judge j _ _ _ (hj ▸ .rejectFinish job verdicts row check locked lock newest rejected)
    · rename_i changed
      cases h
      exact .silent (hj ▸ .finishPasses job verdicts row locked lock newest changed)
  · cases h

theorem apiInsert_cases {id : Uuid} {submission : Submission}
    (h : step s (.apiInsert n id submission) = some t) : Step s (.apiInsert n id submission) t := by
  simp only [step, apiStep] at h
  obtain ⟨row, haccept, h⟩ := Option.bind_eq_some_iff.mp h
  split at h
  · cases h
  · rename_i hfree
    obtain ⟨locked, lock, h⟩ := Option.bind_eq_some_iff.mp h
    obtain ⟨db, written, h⟩ := Option.bind_eq_some_iff.mp h
    cases h
    have new : s.db.committed.lookup id = none :=
      AList.lookup_eq_none.mpr fun hmem => hfree (.inl hmem)
    exact .apiSilent (.insert id submission row locked db (toOption_eq_some.mp haccept) new lock
      written)

theorem step_cases {a : Action} (h : machine.step s a = some t) : Step s a t := by
  cases a with
  | tick elapsed =>
    cases h
    exact .tick elapsed rfl
  | apiBegin n =>
    obtain ⟨db, started, h⟩ := Option.bind_eq_some_iff.mp h
    cases h
    exact .apiSilent (.begin db started)
  | apiInsert n id submission => exact apiInsert_cases h
  | apiCommit n =>
    obtain ⟨db, committed, h⟩ := Option.bind_eq_some_iff.mp h
    cases h
    exact .api n _ _ (.commit db committed)
  | apiRollback n =>
    cases h
    exact .apiSilent .rollback
  | claimBegin j =>
    simp only [machine, step, claimStep] at h
    split at h
    · rename_i hj
      obtain ⟨db, started, h⟩ := Option.bind_eq_some_iff.mp h
      cases h
      exact .silent (hj ▸ .claimBegin db started)
    · cases h
  | claimSnapshot j =>
    simp only [machine, step, claimStep] at h
    split at h <;> cases h
    rename_i hj
    exact .silent (hj ▸ .claimSnapshot)
  | claimVisit j => exact claimVisit_cases h
  | claimUpdate j => exact claimUpdate_cases h
  | claimCommit j => exact claimCommit_cases h
  | judge j host => exact judge_cases h
  | finishBegin j =>
    simp only [machine, step, finishStep] at h
    split at h
    · rename_i job verdicts hj
      obtain ⟨db, started, h⟩ := Option.bind_eq_some_iff.mp h
      cases h
      exact .silent (hj ▸ .finishBegin job verdicts db started)
    · cases h
  | finishSnapshot j => exact finishSnapshot_cases h
  | finishUpdate j => exact finishUpdate_cases h
  | finishCommit j =>
    simp only [machine, step, finishStep] at h
    split at h
    · rename_i job verdicts answer hj
      obtain ⟨db, committed, h⟩ := Option.bind_eq_some_iff.mp h
      cases h
      exact .judge j _ _ _ (hj ▸ .settle job verdicts answer db committed)
    · cases h
  | fail j =>
    cases h
    exact .silent (.stop _)

theorem ApiStep.inserted {a : Action} {db : Db Session Uuid Row} {events : List Event}
    (move : ApiStep s n a db events) {event : Event} (h : event ∈ events) :
    ∃ id job, event = .inserted id job := by
  cases move with
  | commit db committed =>
    unfold insertions at h
    split at h
    · obtain ⟨entry, _, rfl⟩ := List.mem_map.mp h
      exact ⟨_, _, rfl⟩
    · cases h
  | _ => cases h

end Cases
end Pals.Queue
