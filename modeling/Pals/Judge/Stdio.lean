import Pals.Judge.Sandbox
import Pals.Library.Lines

/-! The verdict of one case: the comparison of what a program wrote with what was
expected, blanks at the end of lines and of the output aside. -/
namespace Pals.Judge
open Pals.Library

inductive Verdict where
  | passed
  | wrongAnswer
  | crashed
  | timedOut
deriving DecidableEq, Repr

def newline : UInt8 := 10

/-- `u8::is_ascii_whitespace`: space, tab, newline, form feed, carriage return. -/
def isAsciiWhitespace (byte : UInt8) : Bool :=
  byte = 32 || byte = 9 || byte = 10 || byte = 12 || byte = 13

def trimAsciiEnd (bytes : Bytes) : Bytes := bytes.rdropWhile isAsciiWhitespace

def lines (output : Bytes) : List Bytes :=
  ((trimAsciiEnd output).splitOn newline).map trimAsciiEnd

def sameOutput (expected actual : Bytes) : Bool := lines expected == lines actual

def caseVerdict (outcome : Outcome) (expected : Bytes) : Verdict :=
  match outcome with
  | .timedOut => .timedOut
  | .exited status stdout =>
      if !status.success then .crashed
      else if sameOutput expected stdout then .passed
      else .wrongAnswer

theorem lines_eq_tidy (output : Bytes) :
    lines output = Lines.tidy isAsciiWhitespace newline output := rfl

theorem sameOutput_iff (expected actual : Bytes) :
    sameOutput expected actual = true ↔ lines expected = lines actual := by
  simp [sameOutput]

theorem caseVerdict_passed_iff (outcome : Outcome) (expected : Bytes) :
    caseVerdict outcome expected = .passed ↔ ∃ status stdout,
      outcome = .exited status stdout ∧ status.success = true ∧
        sameOutput expected stdout = true := by
  cases outcome with
  | timedOut => simp [caseVerdict]
  | exited status stdout =>
    cases hstatus : status.success <;> cases hsame : sameOutput expected stdout <;>
      simp [caseVerdict, hstatus, hsame]

/-- Bytes that follow an output change nothing exactly when they are all blank. -/
theorem lines_append_eq_iff (output tail : Bytes) :
    lines (output ++ tail) = lines output ↔ ∀ byte ∈ tail, isAsciiWhitespace byte = true := by
  rw [lines_eq_tidy, lines_eq_tidy]
  exact Lines.tidy_append_eq_iff isAsciiWhitespace newline rfl output tail

theorem sameOutput_kept_iff (expected written : Bytes)
    (dropped : ∀ byte ∈ written.drop maxOutput, isAsciiWhitespace byte = true) :
    sameOutput expected (kept written) = sameOutput expected written := by
  have h := (lines_append_eq_iff (kept written) (written.drop maxOutput)).mpr dropped
  rw [kept, List.take_append_drop] at h
  rw [sameOutput, sameOutput, h, kept]

/-- Keeping the first bytes of an output leaves every verdict as it would be on the
whole output exactly when all the bytes dropped are blank. -/
theorem verdict_on_kept_output (written : Bytes) :
    (∀ expected : Bytes, expected.length ≤ maxOutput → ∀ status : ExitStatus,
      status.success = true →
        (caseVerdict (.exited status (kept written)) expected = .passed ↔
          sameOutput expected written = true)) ↔
    ∀ byte ∈ written.drop maxOutput, isAsciiWhitespace byte = true := by
  constructor
  · intro h
    -- The kept bytes are an expected output that the program passes.
    have hpassed : caseVerdict (.exited (.code 0) (kept written)) (kept written) = .passed := by
      simp [caseVerdict_passed_iff, ExitStatus.success, sameOutput_iff]
    have hsame := (h (kept written) (List.length_take_le _ _) (.code 0) rfl).mp hpassed
    rw [sameOutput_iff] at hsame
    apply (lines_append_eq_iff (kept written) _).mp
    rw [kept, List.take_append_drop]
    exact hsame.symm
  · intro dropped expected _ status hstatus
    rw [← sameOutput_kept_iff expected written dropped]
    simp [caseVerdict_passed_iff, hstatus]

def answerThenMore (blanks : Nat) : Bytes := [49] ++ (List.replicate blanks newline ++ [50])

theorem sameOutput_answerThenMore (blanks : Nat) :
    sameOutput [49] (answerThenMore blanks) = false := by
  rw [Bool.eq_false_iff, Ne, sameOutput_iff]
  intro h
  have hblank := (lines_append_eq_iff [49] (List.replicate blanks newline ++ [50])).mp h.symm
  exact absurd (hblank 50 (by simp)) (by decide)

theorem sameOutput_take_answerThenMore (blanks : Nat) :
    sameOutput [49] ((answerThenMore blanks).take (blanks + 1)) = true := by
  have htake : (answerThenMore blanks).take (blanks + 1) = [49] ++ List.replicate blanks newline := by
    rw [answerThenMore, ← List.append_assoc]
    exact List.take_left' (by simp)
  rw [htake, sameOutput_iff, Eq.comm, lines_append_eq_iff]
  intro byte hbyte
  rw [List.eq_of_mem_replicate hbyte]
  rfl

theorem answerThenMore_passes :
    ([49] : Bytes).length ≤ maxOutput ∧
      caseVerdict (.exited (.code 0) (kept (answerThenMore (maxOutput - 1)))) [49] = .passed ∧
      sameOutput [49] (answerThenMore (maxOutput - 1)) = false := by
  have hkept : kept (answerThenMore (maxOutput - 1)) =
      (answerThenMore (maxOutput - 1)).take (maxOutput - 1 + 1) := rfl
  refine ⟨by decide, ?_, sameOutput_answerThenMore _⟩
  rw [caseVerdict_passed_iff, hkept]
  exact ⟨_, _, rfl, rfl, sameOutput_take_answerThenMore _⟩

example : sameOutput (utf8 "1\r\n2\r\n") (utf8 "1\n2 \n\n") = true := by decide
example : sameOutput (utf8 "1\n2\n") (utf8 "1\n\n2\n") = false := by decide

end Pals.Judge
