import Pals.Api.Polling
import Pals.Api.Submit
import Pals.Queue.Serial

/-! A submission all the way: what the API accepts is inserted, judged and answered. -/
namespace Pals.Api
open Pals.Library Pals.Contracts Pals.Judge Pals.Queue

def jobOfBody (id : Uuid) (body : Body) : Job :=
  ⟨id, 1, body.course, body.exercise, body.languagePack, body.source⟩

/-- When nothing else goes on, a submission that the API accepts becomes a row of the
table, and one judge that can judge what waits makes the answer about it the verdict on
the very body that was sent. -/
def Answered (s : Queue.State) : Prop :=
  NoTransaction s → ∀ n id body jobs j host,
    submit s.clock id body s.db.committed = .ok (jobs, .accepted, id) → s.judges j = .idle →
    (∀ other row, jobs.lookup other = some row → row.state = .waiting →
      Judgeable host (jobOf other row.toJobRow)) →
    ∃ submission t u verdicts, Queue.machine.run s (insertCall n id submission) = some t ∧
      t.db.committed = jobs ∧ progress jobs id = .ok ⟨"waiting", none⟩ ∧
      Queue.machine.run t ((waitingIds jobs).flatMap fun _ => workCall j host) = some u ∧
      judge host (jobOfBody id body) = .ok verdicts ∧
      progress u.db.committed id = .ok ⟨"done", some (verdicts.all (· = .passed))⟩

theorem enqueuedRow_eq_ok {now : Timestamp} {body : Body} {row : Row} (id : Uuid)
    (h : enqueuedRow now body = .ok row) : ∃ submission : Queue.Submission,
      accept (submission.row now) = .ok row ∧ row.state = .waiting ∧
        jobOf id row.toJobRow = jobOfBody id body := by
  simp only [enqueuedRow, bind_eq_ok, mapError_eq_ok, identifier_eq_ok, text_eq_ok] at h
  obtain ⟨course, hcourse, exercise, hexercise, languagePack, hpack, source, hsource, haccept⟩ := h
  refine ⟨⟨course, exercise, languagePack, source.val, source.property⟩, haccept, ?_⟩
  rw [accept_eq_ok.mp haccept]
  simp [jobOf, jobOfBody, Queue.Submission.row, hcourse, hexercise, hpack, hsource]

theorem submit_eq_ok {now : Timestamp} {id : Uuid} {body : Body} {jobs after : Jobs}
    (h : submit now id body jobs = .ok (after, .accepted, id)) : ∃ row,
      enqueuedRow now body = .ok row ∧ id ∉ jobs ∧ after = jobs.insert id row := by
  obtain ⟨submission, hchecked, h⟩ := bind_eq_ok.mp h
  obtain ⟨stored, hstored, h⟩ := bind_eq_ok.mp h
  cases h
  obtain ⟨row, hrow, h⟩ := bind_eq_ok.mp (mapError_eq_ok.mp hstored)
  rw [(checkedBody_eq_ok.mp hchecked).1] at hrow
  unfold insertJob at h
  split at h <;> cases h
  rename_i hinsert
  split at hinsert <;> cases hinsert
  exact ⟨row, hrow, ‹_›, rfl⟩

theorem answered_of_sound {s : Queue.State} (sound : Sound s) : Answered s := by
  intro none n id body jobs j host hsubmit hj judgeable
  obtain ⟨row, hrow, hnew, rfl⟩ := submit_eq_ok hsubmit
  obtain ⟨submission, haccept, hwaiting, hjob⟩ := enqueuedRow_eq_ok id hrow
  obtain ⟨t, hinsert, hcommitted, hnone, hjudges⟩ := insertCall_runs sound.2 none (n := n) haccept hnew
  rw [← hcommitted] at judgeable
  have hidle : t.judges j = .idle := by rw [hjudges, hj]
  obtain ⟨u, _, hdrain, _, _, _, hworked⟩ :=
    drains_of_sound (sound_of_run sound hinsert) hnone j host hidle judgeable
  have hworked := hworked id
  rw [hcommitted, AList.lookup_insert] at hworked
  obtain ⟨done, hdone, worked⟩ := rel_some_left hworked
  rw [Worked, if_pos hwaiting, hjob] at worked
  obtain ⟨verdicts, hjudge, hfinished⟩ := worked
  refine ⟨submission, t, u, verdicts, hinsert, hcommitted, ?_, hcommitted ▸ hdrain, hjudge, ?_⟩
  · simp [progress, progressOf, AList.lookup_insert, hwaiting, row.result_of_not_done, JobState.text]
  · rw [progress, hdone]
    refine congrArg Except.ok (progressOf_done ?_ ?_)
    · rw [hfinished]
      rfl
    · rw [hfinished]
      rfl

/-- In every state that a run reaches. -/
theorem submissions_are_answered (schedule : List Queue.Action) :
    Queue.machine.Always Answered .init schedule :=
  Machine.always step_sound (fun _ => answered_of_sound) init_sound schedule

end Pals.Api
