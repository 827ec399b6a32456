import Pals.Judge.Stdio

/-! What `same_output` forgives, and nothing more: blanks at the end of lines, and
blanks and newlines at the end of the output. -/
namespace Pals.Judge
open Pals.Library Pals.Library.Lines

def carriageReturn : UInt8 := 13

def crlf (text : Bytes) : Bytes :=
  text.flatMap fun byte => if byte = newline then [carriageReturn, newline] else [byte]

theorem sameOutput_iff_edits (expected actual : Bytes) :
    sameOutput expected actual = true ↔ Edits isAsciiWhitespace newline expected actual := by
  rw [sameOutput_iff, lines_eq_tidy, lines_eq_tidy, edits_iff_tidy_eq rfl]

theorem sameOutput_equivalence :
    Equivalence fun expected actual => sameOutput expected actual = true where
  refl output := (sameOutput_iff output output).mpr rfl
  symm h := (sameOutput_iff _ _).mpr ((sameOutput_iff _ _).mp h).symm
  trans h h' := (sameOutput_iff _ _).mpr (((sameOutput_iff _ _).mp h).trans ((sameOutput_iff _ _).mp h'))

theorem edits_crlf (text : Bytes) : Edits isAsciiWhitespace newline text (crlf text) := by
  induction text with
  | nil => exact .refl
  | cons byte text ih =>
    have hrest := ih.cons byte
    by_cases hbyte : byte = newline
    · subst hbyte
      exact .tail hrest (.inl (.blankBeforeSep carriageReturn (crlf text) rfl (by decide)))
    · simpa [crlf, hbyte] using hrest

/-- `same_output` accepts what finitely many insertions and deletions make of the
expected output: of a blank other than a newline just before a newline or at the end,
and of a newline at the end. So outputs that match show the same bytes on the same
lines, with the same bytes before each of them. -/
theorem sameOutput_is_exact :
    (∀ expected actual, sameOutput expected actual = true ↔
      Edits isAsciiWhitespace newline expected actual) ∧
    (Equivalence fun expected actual => sameOutput expected actual = true) ∧
    (∀ text, sameOutput text (crlf text) = true) ∧
    ∀ expected actual, sameOutput expected actual = true →
      ink isAsciiWhitespace expected = ink isAsciiWhitespace actual ∧
      marks isAsciiWhitespace newline expected = marks isAsciiWhitespace newline actual := by
  refine ⟨sameOutput_iff_edits, sameOutput_equivalence, fun text => ?_, fun expected actual h => ?_⟩
  · exact (sameOutput_iff_edits _ _).mpr (edits_crlf text)
  · have hedits := (sameOutput_iff_edits _ _).mp h
    rw [← flatMap_ink_tidy _ newline rfl, (edits_iff_tidy_eq rfl).mp hedits, flatMap_ink_tidy _ newline rfl]
    exact ⟨rfl, hedits.marks_eq⟩

end Pals.Judge
