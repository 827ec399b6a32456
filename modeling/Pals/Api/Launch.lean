import Pals.Api.Submit

/-! From a submission to a process: which of the sources that the API and the table
accept can be the argument of a command. -/
namespace Pals.Api
open Pals.Library Pals.Contracts Pals.Judge Pals.Queue

/-- `MAX_ARG_STRLEN`, without the byte that ends an argument. -/
def maxArgument : Nat := 131071

/-- What `execve` accepts as arguments. -/
def Launchable (args : List String) : Prop :=
  ∀ arg ∈ args, (utf8 arg).length ≤ maxArgument ∧ 0 ∉ utf8 arg

def commandOf (job : Job) (index : Nat) : List String :=
  container (containerName job.id index) image ["python3", "-c", job.source]

structure Plain (limit : Nat) (text : String) : Prop where
  length : text.toList.length ≤ limit
  nul : '\x00' ∉ text.toList

instance (limit : Nat) (text : String) : Decidable (Plain limit text) :=
  decidable_of_iff (text.toList.length ≤ limit ∧ '\x00' ∉ text.toList)
    ⟨fun h => ⟨h.1, h.2⟩, fun h => ⟨h.length, h.nul⟩⟩

theorem Plain.append {m n : Nat} {left right : String} (hl : Plain m left) (hr : Plain n right) :
    Plain (m + n) (left ++ right) where
  length := by
    rw [String.toList_append, List.length_append]
    exact Nat.add_le_add hl.length hr.length
  nul := by
    rw [String.toList_append, List.mem_append]
    exact not_or.mpr ⟨hl.nul, hr.nul⟩

theorem Plain.launchable {limit : Nat} {text : String} (h : Plain limit text)
    (short : 4 * limit ≤ maxArgument) : (utf8 text).length ≤ maxArgument ∧ 0 ∉ utf8 text := by
  have hlength := utf8_length_le text
  have hlimit := h.length
  rw [zero_mem_utf8_iff]
  exact ⟨by omega, h.nul⟩

theorem digitChar_ne_nul (digit : Nat) (h : digit < 16) : Nat.digitChar digit ≠ '\x00' := by
  decide +revert

theorem uuidText_plain (id : Uuid) : Plain 36 (Uuid.text id) := by
  have hgroup (first length : Nat) :
      Plain length (String.ofList ((id.digits.drop first).take length)) := by
    refine ⟨?_, fun hmem => ?_⟩
    · rw [String.toList_ofList]
      exact List.length_take_le ..
    · rw [String.toList_ofList] at hmem
      obtain ⟨place, _, hdigit⟩ := List.mem_map.mp (List.mem_of_mem_drop (List.mem_of_mem_take hmem))
      exact digitChar_ne_nul _ (Nat.mod_lt _ (by decide)) hdigit
  have hhyphen : Plain 1 "-" := by decide
  simp only [Uuid.text, String.intercalate_cons_cons, String.intercalate_singleton]
  exact ((hgroup 0 8).append hhyphen).append (((hgroup 8 4).append hhyphen).append
    (((hgroup 12 4).append hhyphen).append (((hgroup 16 4).append hhyphen).append (hgroup 20 12))))

theorem toString_plain {index : Nat} (h : index < 2 ^ 64) : Plain 20 (toString index) where
  length := by
    rw [Nat.toString_eq_ofList_toDigits, String.toList_ofList,
      Nat.length_toDigits_le_iff (by decide) (by decide)]
    omega
  nul := by
    rw [Nat.toString_eq_ofList_toDigits, String.toList_ofList]
    intro hmem
    exact absurd (Nat.isDigit_of_mem_toDigits (by decide) (by decide) hmem) (by decide)

theorem containerName_plain (id : Uuid) {index : Nat} (h : index < 2 ^ 64) :
    Plain 63 (containerName id index) :=
  ((((show Plain 6 "judge-" by decide).append (uuidText_plain id)).append
    (show Plain 1 "-" by decide)).append (toString_plain h))

theorem launchable_iff (job : Job) {index : Nat} (h : index < 2 ^ 64) :
    Launchable (commandOf job index) ↔
      (utf8 job.source).length ≤ maxArgument ∧ 0 ∉ utf8 job.source := by
  have hcommand : commandOf job index =
      ((container "" image []).take 5 ++ [containerName job.id index]) ++
        ((container "" image ["python3", "-c"]).drop 6 ++ [job.source]) := rfl
  have hfirst : ∀ arg ∈ (container "" image []).take 5, Plain 32 arg := by decide +kernel
  have hlast : ∀ arg ∈ (container "" image ["python3", "-c"]).drop 6, Plain 32 arg := by
    decide +kernel
  rw [hcommand, Launchable]
  simp only [List.forall_mem_append, List.forall_mem_singleton]
  constructor
  · exact fun h => h.2.2
  · intro hsource
    refine ⟨⟨fun arg harg => ?_, ?_⟩, fun arg harg => ?_, hsource⟩
    · exact (hfirst arg harg).launchable (by decide)
    · exact (containerName_plain job.id h).launchable (by decide)
    · exact (hlast arg harg).launchable (by decide)

theorem source_of_enqueuedRow {now : Timestamp} {body : Body} {row : Row}
    (h : enqueuedRow now body = .ok row) : row.source = body.source := by
  simp only [enqueuedRow, bind_eq_ok, mapError_eq_ok, accept_eq_ok, text_eq_ok] at h
  obtain ⟨_, _, _, _, _, _, source, hsource, hrow⟩ := h
  rw [hrow]
  exact hsource

/-- A docker that answers only commands which the operating system accepts. -/
def Spawned (docker : Docker) : Prop :=
  ∀ args input timeout outcome, docker args input timeout = .ok outcome → Launchable args

theorem judge_fails_of_long {host : Host} (spawned : Spawned host.docker) {job : Job}
    (long : maxArgument < (utf8 job.source).length) : ∃ error, judge host job = .error error := by
  rw [exists_error_iff]
  rintro ⟨verdicts, hjudge⟩
  obtain ⟨_, cases, hcases, hverdicts⟩ := judge_eq_ok.mp hjudge
  obtain ⟨_, _, hne, _⟩ := readCases_source hcases
  obtain ⟨case, rest, rfl⟩ := List.exists_cons_of_ne_nil hne
  obtain ⟨outcome, hrun⟩ := (judgeCases_succeeds _ _ _ _ _).mp ⟨_, hverdicts⟩ (case, 0) (by simp)
  have hlaunch := (launchable_iff job (by decide : 0 < 2 ^ 64)).mp (spawned _ _ _ _ hrun)
  omega

/-- A submission that the table stores, which the API has admitted, can be launched
when its source fits in one argument, and can never be judged when it does not. -/
theorem launchable_iff_short (now : Timestamp) (body : Body) (row : Row)
    (stored : enqueuedRow now body = .ok row) :
    ((∀ (id : Uuid) (index : UInt64), Launchable (commandOf (jobOf id row.toJobRow) index.toNat)) ↔
      body.source.utf8ByteSize ≤ maxArgument) ∧
    (maxArgument < body.source.utf8ByteSize → ∀ host, Spawned host.docker → ∀ id,
      ∃ error, judge host (jobOf id row.toJobRow) = .error error) := by
  have hsource (id : Uuid) : (jobOf id row.toJobRow).source = body.source := source_of_enqueuedRow stored
  have hnul := (enqueuedRow_succeeds.mp ⟨row, stored⟩).2
  rw [← zero_mem_utf8_iff] at hnul
  constructor
  · rw [← utf8_length]
    constructor
    · intro h
      have hfirst := (launchable_iff _ (0 : UInt64).toNat_lt).mp (h firstId 0)
      rw [hsource] at hfirst
      exact hfirst.1
    · intro h id index
      rw [launchable_iff _ index.toNat_lt, hsource]
      exact ⟨h, hnul⟩
  · intro long host spawned id
    apply judge_fails_of_long spawned
    rwa [hsource, utf8_length]

def shortBody : Body := ⟨"log200", "sum", "python", "print(0)"⟩

theorem launchable_iff_short_print : ∃ row, enqueuedRow 0 shortBody = .ok row ∧
    ∀ (id : Uuid) (index : UInt64), Launchable (commandOf (jobOf id row.toJobRow) index.toNat) := by
  have formed : WellFormed shortBody := ⟨by decide, by decide, by decide, by decide, by decide⟩
  obtain ⟨row, stored⟩ : ∃ row, enqueuedRow 0 shortBody = .ok row :=
    enqueuedRow_succeeds.mpr ⟨formed, by decide⟩
  exact ⟨row, stored, (launchable_iff_short 0 shortBody row stored).1.mpr (by decide)⟩

def longBody : Body := ⟨"log200", "sum", "python", String.ofList (List.replicate 131072 '#')⟩

theorem comment_size (length : Nat) :
    (String.ofList (List.replicate length '#')).utf8ByteSize = length := by
  rw [← utf8_length, utf8, String.toList_ofList]
  induction length with
  | zero => rfl
  | succ length ih =>
    rw [List.replicate_succ, List.flatMap_cons, List.length_append, ih, Nat.add_comm]
    rfl

theorem longBody_not_launchable : (∃ submission, checkedBody longBody = .ok submission) ∧
    ∃ row, enqueuedRow 0 longBody = .ok row ∧ ¬Launchable (commandOf (jobOf firstId row.toJobRow) 0) := by
  have formed : WellFormed longBody := by
    refine ⟨by decide, by decide, by decide, ?_, ?_⟩ <;> rw [longBody, comment_size] <;> decide
  have hnul : '\x00' ∉ longBody.source.toList := by
    rw [longBody, String.toList_ofList]
    exact fun hmem => absurd (List.eq_of_mem_replicate hmem) (by decide)
  obtain ⟨row, stored⟩ : ∃ row, enqueuedRow 0 longBody = .ok row :=
    enqueuedRow_succeeds.mpr ⟨formed, hnul⟩
  refine ⟨checkedBody_succeeds.mpr formed, row, stored, fun h => ?_⟩
  have hlaunch := ((launchable_iff _ (by decide)).mp h).1
  rw [show (jobOf firstId row.toJobRow).source = longBody.source from source_of_enqueuedRow stored,
    utf8_length, longBody, comment_size] at hlaunch
  exact absurd hlaunch (by decide)

end Pals.Api
