import Pals.Queue.Verdicts

/-! The names of the containers. Whatever the judges do at the same time, each name is
given to one container, and to no other in the whole run. -/
namespace Pals.Queue
open Pals.Library Pals.Contracts Pals.Judge

section Text

theorem digits_injective : Function.Injective Uuid.digits := by
  intro left right h
  refine Fin.ext (eq_of_digits 16 32 left.isLt right.isLt ?_)
  intro place hplace
  have hdigit := congrArg (·[31 - place]?) h
  have hindex : 31 - (31 - place) = place := by omega
  simp only [Uuid.digits, List.getElem?_map, List.getElem?_range (show 31 - place < 32 by omega),
    Option.map_some, Option.some.injEq, hindex] at hdigit
  exact digitChar_injective (Nat.mod_lt _ (by decide)) (Nat.mod_lt _ (by decide)) hdigit

theorem text_toList (id : Uuid) : (Uuid.text id).toList =
    (id.digits.drop 0).take 8 ++ '-' :: ((id.digits.drop 8).take 4 ++
      '-' :: ((id.digits.drop 12).take 4 ++ '-' :: ((id.digits.drop 16).take 4 ++
        '-' :: (id.digits.drop 20).take 12))) := by
  simp [Uuid.text, Uuid.digits, String.intercalate_cons_cons]

theorem digits_take_length (id : Uuid) {first length : Nat} (h : first + length ≤ 32) :
    ((id.digits.drop first).take length).length = length := by
  simp only [Uuid.digits, List.length_take, List.length_drop, List.length_map, List.length_range]
  omega

theorem digits_take_inj {left right : Uuid} {first length : Nat} (h : first + length ≤ 32)
    {rest rest' : List Char} (same : (left.digits.drop first).take length ++ rest =
      (right.digits.drop first).take length ++ rest') :
    (left.digits.drop first).take length = (right.digits.drop first).take length ∧ rest = rest' :=
  List.append_inj same ((digits_take_length left h).trans (digits_take_length right h).symm)

theorem text_injective : Function.Injective Uuid.text := by
  intro left right h
  -- What follows a group is known, and so is the group.
  have group {first length : Nat}
      (rest : left.digits.drop (first + length) = right.digits.drop (first + length))
      (same : (left.digits.drop first).take length = (right.digits.drop first).take length) :
      left.digits.drop first = right.digits.drop first := by
    rw [← List.take_append_drop length (left.digits.drop first),
      ← List.take_append_drop length (right.digits.drop first), List.drop_drop, List.drop_drop,
      rest, same]
  have htext := congrArg String.toList h
  rw [text_toList, text_toList] at htext
  obtain ⟨h0, htext⟩ := digits_take_inj (by decide) htext
  obtain ⟨h8, htext⟩ := digits_take_inj (by decide) (List.cons.inj htext).2
  obtain ⟨h12, htext⟩ := digits_take_inj (by decide) (List.cons.inj htext).2
  obtain ⟨h16, htext⟩ := digits_take_inj (by decide) (List.cons.inj htext).2
  have hend : left.digits.drop (20 + 12) = right.digits.drop (20 + 12) := by
    rw [List.drop_eq_nil_of_le (by simp [Uuid.digits]), List.drop_eq_nil_of_le (by simp [Uuid.digits])]
  exact digits_injective
    (group (group (group (group (group hend (List.cons.inj htext).2) h16) h12) h8) h0)

theorem containerName_injective {left right : Uuid} {m n : Nat}
    (h : containerName left m = containerName right n) : left = right ∧ m = n := by
  have hname (id : Uuid) (index : Nat) : (containerName id index).toList =
      "judge-".toList ++ ((Uuid.text id).toList ++ ("-".toList ++ index.repr.toList)) := by
    change ("judge-" ++ Uuid.text id ++ "-" ++ index.repr).toList = _
    simp only [String.toList_append, List.append_assoc]
  have hlength (id : Uuid) : (Uuid.text id).toList.length = 36 := by
    simp [text_toList, Uuid.digits]
  have hindex (index : Nat) : Nat.ofDigitChars 10 index.repr.toList 0 = index := by
    rw [Nat.repr_eq_ofList_toDigits, String.toList_ofList, Nat.ofDigitChars_ten_toDigits]
  have hlists := congrArg String.toList h
  rw [hname, hname] at hlists
  obtain ⟨htext, hrest⟩ :=
    List.append_inj (List.append_cancel_left hlists) ((hlength left).trans (hlength right).symm)
  refine ⟨text_injective (String.toList_inj.mp htext), ?_⟩
  rw [← hindex m, List.append_cancel_left hrest, hindex n]

end Text
def containersOf (host : Host) (job : Job) : List String :=
  match casesOfJob host job with
  | .ok cases => (List.range cases.length).map (containerName job.id)
  | .error _ => []

def Event.containers : Event → List String
  | judged _ host job => containersOf host job
  | _ => []

/-- No two containers have had the same name, and none of a job that is about to be
judged has been given or is another judge's to give. A judge that stops in the middle of
`judge` leaves no trace but its claim, and no two claims of a run share a name. -/
structure NamesUnique (s : State) : Prop where
  once : (s.log.flatMap Event.containers).Nodup
  fresh : ∀ j job, s.judges j = .judging job → ∀ index,
    containerName job.id index ∉ s.log.flatMap Event.containers
  apart : ∀ i j job job', s.judges i = .judging job → s.judges j = .judging job' → i ≠ j →
    ∀ m n, containerName job.id m ≠ containerName job'.id n
  owned : ∀ j job, s.judges j = .judging job → .claimed j job ∈ s.log
  claims : (s.log.filterMap Event.claimedId).Pairwise fun id id' =>
    ∀ m n, containerName id m ≠ containerName id' n

section Judge

theorem mem_containersOf {host : Host} {job : Job} {name : String}
    (h : name ∈ containersOf host job) : ∃ index, name = containerName job.id index := by
  unfold containersOf at h
  split at h
  · obtain ⟨index, _, rfl⟩ := List.mem_map.mp h
    exact ⟨index, rfl⟩
  · cases h

theorem containersOf_nodup (host : Host) (job : Job) : (containersOf host job).Nodup := by
  unfold containersOf
  split
  · exact List.nodup_range.map fun _ _ h => (containerName_injective h).2
  · exact List.nodup_nil

theorem judge_of_containers {host : Host} {docker : Docker} {job : Job}
    (same : ∀ name ∈ containersOf host job, ∀ input,
      runInSandbox docker name image ["python3", "-c", job.source] input timeout =
        runInSandbox host.docker name image ["python3", "-c", job.source] input timeout) :
    judge { host with docker } job = judge host job := by
  unfold judge
  by_cases hpack : job.languagePack = "python"
  · simp only [hpack, ne_eq, not_true, if_false]
    cases hcases : readCases host.files (assessmentOf host.content job.exercise) with
    | error error => rfl
    | ok cases =>
      refine (judgeCases_eq ..).trans ((mapM_congr fun case hcase => ?_).trans (judgeCases_eq ..).symm)
      obtain ⟨_, hindex, _⟩ := List.mem_zipIdx hcase
      have hmem : containerName job.id case.2 ∈ containersOf host job := by
        have hcases' : casesOfJob host job = .ok cases := hcases
        rw [containersOf, hcases']
        exact List.mem_map_of_mem (List.mem_range.mpr (by simpa using hindex))
      exact congrArg _ (same _ hmem case.1.input)
  · simp [hpack]

end Judge
def Event.judgedId : Event → Option Uuid
  | judged _ _ job => some job.id
  | _ => none

structure JudgedOnce (s : State) : Prop where
  once : (s.log.filterMap Event.judgedId).Nodup
  known : ∀ id ∈ s.log.filterMap Event.judgedId,
    ∃ row, s.db.committed.lookup id = some row ∧ row.state ≠ .waiting
  fresh : ∀ j job, s.judges j = .judging job → job.id ∉ s.log.filterMap Event.judgedId

section Log
variable {log : List Event} {name : String}

theorem judged_of_mem_containers (h : name ∈ log.flatMap Event.containers) :
    ∃ id ∈ log.filterMap Event.judgedId, ∃ index, name = containerName id index := by
  obtain ⟨event, hevent, hname⟩ := List.mem_flatMap.mp h
  cases event with
  | judged j host job =>
    obtain ⟨index, hindex⟩ := mem_containersOf hname
    exact ⟨job.id, List.mem_filterMap.mpr ⟨_, hevent, rfl⟩, index, hindex⟩
  | _ => cases hname

theorem containerName_notMem {id : Uuid} (fresh : id ∉ log.filterMap Event.judgedId) (index : Nat) :
    containerName id index ∉ log.flatMap Event.containers := by
  intro hmem
  obtain ⟨other, hother, _, hname⟩ := judged_of_mem_containers hmem
  exact fresh ((containerName_injective hname).1 ▸ hother)

theorem containers_nodup (once : (log.filterMap Event.judgedId).Nodup) :
    (log.flatMap Event.containers).Nodup := by
  induction log with
  | nil => exact List.nodup_nil
  | cons event log ih =>
    rw [List.flatMap_cons]
    cases event with
    | judged j host job =>
      obtain ⟨fresh, once⟩ := List.nodup_cons.mp once
      refine (containersOf_nodup host job).append (ih once) fun name hname hrest => ?_
      obtain ⟨index, rfl⟩ := mem_containersOf hname
      exact containerName_notMem fresh index hrest
    | _ => exact ih once

end Log

section Steps
variable {s t : State} {j : Nat} {a : Action} {place before : JudgeState} {ledger : Ledger}
variable {db : Db Session Uuid Row} {events : List Event}

theorem JudgeStep.judged (move : JudgeStep s j a before place db events) :
    (events.filterMap Event.judgedId = [] ∧
      ∀ job, place = .judging job → before = .claimed (some job)) ∨
    ∃ job, before = .judging job ∧ events.filterMap Event.judgedId = [job.id] ∧
      ∀ job', place ≠ .judging job' := by
  cases move with
  | judge host job verdicts ok => exact .inr ⟨job, rfl, rfl, by simp⟩
  | drop host job error failed => exact .inr ⟨job, rfl, rfl, by simp⟩
  | take job db committed =>
    refine .inl ⟨rfl, ?_⟩
    rintro _ ⟨⟩
    rfl
  | _ => exact .inl ⟨rfl, by simp⟩

theorem ApiStep.judged {n : Nat} (move : ApiStep s n a db events) :
    events.filterMap Event.judgedId = [] := by
  rw [List.filterMap_eq_nil_iff]
  intro event hevent
  obtain ⟨id, job, rfl⟩ := move.inserted hevent
  rfl

theorem Inv.judging_apart (inv : Inv s ledger) {i : Nat} {job job' : Job}
    (hi : s.judges i = .judging job) (hj : s.judges j = .judging job') (hid : job.id = job'.id) :
    i = j := by
  obtain ⟨_, htaken⟩ := inv.situation hi
  obtain ⟨_, htaken'⟩ := inv.situation hj
  rw [hid] at htaken
  cases htaken.symm.trans htaken'
  rfl

theorem JudgedOnce.claimed (judged : JudgedOnce s) (inv : Inv s ledger) {job : Job}
    (hj : s.judges j = .claimed (some job)) : job.id ∉ s.log.filterMap Event.judgedId := by
  obtain ⟨_, row, _, _, hrow, ⟨hwaiting, _⟩, _⟩ := inv.situation hj
  intro hmem
  obtain ⟨row', hrow', hstate⟩ := judged.known job.id hmem
  cases hrow.symm.trans hrow'
  exact hstate hwaiting

theorem judgedOnce_step (inv : Inv s ledger) (judged : JudgedOnce s)
    (h : machine.step s a = some t) : JudgedOnce t := by
  have stays {id : Uuid} {row : Row} (hrow : s.db.committed.lookup id = some row)
      (hstate : row.state ≠ .waiting) :
      ∃ row, t.db.committed.lookup id = some row ∧ row.state ≠ .waiting := by
    obtain ⟨row', hrow', _, hstate'⟩ :=
      inv.exclusive.kept [a] t (machine.run_cons_eq_some.mpr ⟨t, h, rfl⟩) id row hrow
    exact ⟨row', hrow', hstate' hstate⟩
  have known (id : Uuid) (hid : id ∈ s.log.filterMap Event.judgedId) :
      ∃ row, t.db.committed.lookup id = some row ∧ row.state ≠ .waiting := by
    obtain ⟨row, hrow, hstate⟩ := judged.known id hid
    exact stays hrow hstate
  cases step_cases h with
  | tick elapsed => exact ⟨judged.once, judged.known, judged.fresh⟩
  | api n db events move =>
    have hlog : (s.log ++ events).filterMap Event.judgedId = s.log.filterMap Event.judgedId := by
      rw [List.filterMap_append, move.judged, List.append_nil]
    exact ⟨hlog ▸ judged.once, fun id hid => known id (hlog ▸ hid),
      fun j job hj => hlog ▸ judged.fresh j job hj⟩
  | judge j place db events move =>
    have hlog : (s.log ++ events).filterMap Event.judgedId =
        s.log.filterMap Event.judgedId ++ events.filterMap Event.judgedId := List.filterMap_append
    obtain ⟨hquiet, hplace⟩ | ⟨job, hj, hnew, hplace⟩ := move.judged
    · rw [hquiet, List.append_nil] at hlog
      refine ⟨hlog ▸ judged.once, fun id hid => known id (hlog ▸ hid), fun i job hi => ?_⟩
      refine hlog ▸ ?_
      by_cases hij : i = j
      · subst hij
        exact judged.claimed inv (hplace job ((Function.update_self ..).symm.trans hi))
      · exact judged.fresh i job ((Function.update_of_ne hij ..).symm.trans hi)
    · obtain ⟨_, htaken⟩ := inv.situation hj
      rw [hnew] at hlog
      refine ⟨?_, fun id hid => ?_, fun i job' hi => ?_⟩
      · refine hlog ▸ judged.once.append (List.nodup_singleton _) ?_
        exact List.disjoint_singleton.mpr (judged.fresh j job hj)
      · obtain hid | hid := List.mem_append.mp (hlog ▸ hid)
        · exact known id hid
        · cases List.mem_singleton.mp hid
          obtain ⟨row, hrow, hrunning, _⟩ := inv.row_of_taken htaken
          exact stays hrow (by simp [hrunning])
      · refine hlog ▸ fun hmem => ?_
        by_cases hij : i = j
        · subst hij
          exact hplace job' ((Function.update_self ..).symm.trans hi)
        · have hi' : s.judges i = .judging job' := (Function.update_of_ne hij ..).symm.trans hi
          obtain hmem | hmem := List.mem_append.mp hmem
          · exact judged.fresh i job' hi' hmem
          · exact hij (inv.judging_apart hi' hj (List.mem_singleton.mp hmem))

theorem Inv.namesUnique (inv : Inv s ledger) (judged : JudgedOnce s) : NamesUnique s where
  once := containers_nodup judged.once
  fresh j job hj := containerName_notMem (judged.fresh j job hj)
  apart i j job job' hi hj hne m n hname := by
    obtain ⟨hid, _⟩ := containerName_injective hname
    exact hne (inv.judging_apart hi hj hid)
  owned j job hj := inv.taken _ _ _ (inv.situation hj).2
  claims := inv.exclusive.claimedOnce.imp fun hne _ _ hname => hne (containerName_injective hname).1

end Steps

/-- A call of `judge` depends on docker by the containers of its own names only, and in
a run no two containers have the same name. -/
theorem container_names_are_unique :
    (∀ host docker job, (∀ name ∈ containersOf host job, ∀ input,
      runInSandbox docker name image ["python3", "-c", job.source] input timeout =
        runInSandbox host.docker name image ["python3", "-c", job.source] input timeout) →
      judge { host with docker } job = judge host job) ∧
    ∀ schedule, machine.Always NamesUnique .init schedule := by
  refine ⟨fun host docker job => judge_of_containers, fun schedule => ?_⟩
  refine Machine.always (I := fun s => (∃ ledger, Inv s ledger) ∧ JudgedOnce s)
    (fun s a t ⟨inv, judged⟩ h => ⟨step_inv s a t inv h, ?_⟩)
    (fun s ⟨⟨_, inv⟩, judged⟩ => inv.namesUnique judged)
    ⟨⟨_, init_inv⟩, List.nodup_nil, fun _ h => (nomatch h), fun _ _ h => nomatch h⟩ schedule
  obtain ⟨ledger, inv⟩ := inv
  exact judgedOnce_step inv judged h

end Pals.Queue
