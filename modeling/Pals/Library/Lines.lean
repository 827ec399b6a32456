import Mathlib.Data.List.DropRight
import Mathlib.Logic.Relation

/-! Text up to blanks at the end of its lines and at its own end. `blank` holds of
the symbols that may be dropped there, the line separator among them. -/
namespace Pals.Library.Lines
variable {α : Type} (blank : α → Bool)

def ink (text : List α) : List α := text.filter fun a => !blank a

theorem ink_append (left right : List α) :
    ink blank (left ++ right) = ink blank left ++ ink blank right := List.filter_append ..

theorem ink_eq_nil_iff {text : List α} : ink blank text = [] ↔ ∀ a ∈ text, blank a = true := by
  simp [ink]

theorem ink_rdropWhile (text : List α) : ink blank (text.rdropWhile blank) = ink blank text := by
  have hdropped : ink blank (text.rtakeWhile blank) = [] :=
    (ink_eq_nil_iff blank).mpr fun a ha => List.mem_rtakeWhile_imp ha
  conv_rhs => rw [← List.rdropWhile_append_rtakeWhile (p := blank) (l := text)]
  rw [ink_append, hdropped, List.append_nil]

theorem rdropWhile_append {tail : List α} (htail : ∀ a ∈ tail, blank a = true) (text : List α) :
    (text ++ tail).rdropWhile blank = text.rdropWhile blank := by
  induction tail using List.reverseRecOn with
  | nil => rw [List.append_nil]
  | append_singleton tail a ih =>
    rw [← List.append_assoc, List.rdropWhile_concat_pos _ _ _ (htail a (by simp))]
    exact ih fun b hb => htail b (List.mem_append_left _ hb)

theorem rdropWhile_cons (a : α) (text : List α) :
    (a :: text).rdropWhile blank =
      if blank a ∧ text.rdropWhile blank = [] then [] else a :: text.rdropWhile blank := by
  simp only [List.rdropWhile, List.reverse_cons, List.dropWhile_append, List.reverse_eq_nil_iff]
  split <;> rename_i h <;> rw [List.isEmpty_iff] at h
  · cases ha : blank a <;> simp [h, ha]
  · simp [h]

section Edits
variable (sep : α)

/-- One symbol more: a blank other than the separator, just before a separator or at
the end, or a separator at the end. -/
inductive Insertion : List α → List α → Prop where
  | blankBeforeSep (a : α) (text : List α) (ha : blank a = true) (hne : a ≠ sep) :
      Insertion (sep :: text) (a :: sep :: text)
  | blankAtEnd (a : α) (ha : blank a = true) (hne : a ≠ sep) : Insertion [] [a]
  | sepAtEnd : Insertion [] [sep]
  | after (a : α) {left right : List α} (rest : Insertion left right) :
      Insertion (a :: left) (a :: right)

def Edits : List α → List α → Prop := Relation.ReflTransGen (Relation.SymmGen (Insertion blank sep))

variable {blank sep} {left right : List α}

theorem Edits.cons (h : Edits blank sep left right) (a : α) :
    Edits blank sep (a :: left) (a :: right) :=
  Relation.ReflTransGen.lift (a :: ·) (fun _ _ => Or.imp (.after a) (.after a)) _ _ h

theorem Edits.symm (h : Edits blank sep left right) : Edits blank sep right left :=
  Std.Symm.symm (r := Relation.ReflTransGen (Relation.SymmGen (Insertion blank sep))) _ _ h

theorem Edits.eq_of {β : Type} {f : List α → β}
    (keep : ∀ left right, Insertion blank sep left right → f left = f right)
    (h : Edits blank sep left right) : f left = f right := by
  induction h with
  | refl => rfl
  | tail _ edit ih =>
    rcases edit with edit | edit
    · exact ih.trans (keep _ _ edit)
    · exact ih.trans (keep _ _ edit).symm

end Edits

variable [DecidableEq α] (sep : α)

def tidy (text : List α) : List (List α) :=
  ((text.rdropWhile blank).splitOn sep).map (List.rdropWhile blank)

theorem flatMap_ink_splitOn (hsep : blank sep = true) (text : List α) :
    (text.splitOn sep).flatMap (ink blank) = ink blank text := by
  induction text with
  | nil => rfl
  | cons a text ih =>
    rw [List.splitOn_cons_eq_if_modifyHead]
    split
    · rename_i ha
      rw [beq_iff_eq] at ha
      subst ha
      simpa [ink, hsep] using ih
    · obtain ⟨line, lines, hlines⟩ := List.exists_cons_of_ne_nil (List.splitOn_ne_nil sep text)
      rw [hlines] at ih ⊢
      rw [List.modifyHead_cons, List.flatMap_cons, ← List.singleton_append, ink_append,
        List.append_assoc, ← List.flatMap_cons, ih, ← ink_append, List.singleton_append]

theorem flatMap_ink_tidy (hsep : blank sep = true) (text : List α) :
    (tidy blank sep text).flatMap (ink blank) = ink blank text := by
  rw [tidy, List.flatMap_map]
  simp only [ink_rdropWhile]
  rw [flatMap_ink_splitOn blank sep hsep, ink_rdropWhile]

theorem tidy_append_eq_iff (hsep : blank sep = true) (text tail : List α) :
    tidy blank sep (text ++ tail) = tidy blank sep text ↔ ∀ a ∈ tail, blank a = true := by
  constructor
  · intro h
    have hink := congrArg (List.flatMap (ink blank)) h
    rw [flatMap_ink_tidy blank sep hsep, flatMap_ink_tidy blank sep hsep, ink_append,
      List.append_right_eq_self, ink_eq_nil_iff] at hink
    exact hink
  · intro htail
    rw [tidy, rdropWhile_append blank htail]
    rfl

/-- The least text that reads the same, made from the end on. -/
def clean : List α → List α
  | [] => []
  | a :: text =>
      if blank a ∧ (clean text = [] ∨ a ≠ sep ∧ (clean text).head? = some sep) then clean text
      else a :: clean text

/-- What is seen of each symbol that is not blank: the number of its line and what
stands before it there. -/
def marksFrom (line : Nat) (before : List α) : List α → List (Nat × List α × α)
  | [] => []
  | a :: text =>
      if a = sep then marksFrom (line + 1) [] text
      else if blank a then marksFrom line (before ++ [a]) text
      else (line, before, a) :: marksFrom line (before ++ [a]) text

def marks (text : List α) : List (Nat × List α × α) := marksFrom blank sep 0 [] text

theorem clean_eq_nil_iff (text : List α) :
    clean blank sep text = [] ↔ text.rdropWhile blank = [] := by
  induction text with
  | nil => simp [clean]
  | cons a text ih =>
    rw [clean, rdropWhile_cons]
    grind

theorem splitOn_head_eq_nil_iff {text line : List α} {lines : List (List α)}
    (h : text.splitOn sep = line :: lines) : line = [] ↔ text = [] ∨ text.head? = some sep := by
  cases text with
  | nil =>
    cases h
    simp
  | cons a text =>
    obtain ⟨next, rest, hnext⟩ := List.exists_cons_of_ne_nil (List.splitOn_ne_nil sep text)
    rw [List.splitOn_cons_eq_if_modifyHead, hnext] at h
    by_cases ha : a = sep
    · simp only [ha, beq_self_eq_true, if_true, List.cons.injEq] at h
      simp [h.1.symm, ha]
    · simp only [beq_eq_false_iff_ne.mpr ha, Bool.false_eq_true, if_false, List.modifyHead_cons,
        List.cons.injEq] at h
      simp [h.1.symm, ha]

/-- The lines that are compared are those of the least text. -/
theorem tidy_eq_splitOn_clean (hsep : blank sep = true) (text : List α) :
    tidy blank sep text = (clean blank sep text).splitOn sep := by
  induction text with
  | nil => rfl
  | cons a text ih =>
    rw [tidy, rdropWhile_cons, clean]
    by_cases hempty : text.rdropWhile blank = []
    · have hclean := (clean_eq_nil_iff blank sep text).mpr hempty
      by_cases ha : blank a
      · simp [hempty, hclean, ha]
      · have hne : a ≠ sep := by
          rintro rfl
          exact ha hsep
        simp [hempty, hclean, ha, hne, List.splitOn_cons_eq_if_modifyHead, List.rdropWhile_singleton]
    · have hclean := (clean_eq_nil_iff blank sep text).not.mpr hempty
      obtain ⟨line, lines, hlines⟩ :=
        List.exists_cons_of_ne_nil (List.splitOn_ne_nil sep (text.rdropWhile blank))
      rw [tidy, hlines, List.map_cons] at ih
      have hhead := splitOn_head_eq_nil_iff sep ih.symm
      simp only [hempty, hclean, false_or, and_false, if_false, List.splitOn_cons_eq_if_modifyHead,
        beq_iff_eq, hlines] at hhead ⊢
      by_cases ha : a = sep
      · simp [ha, List.splitOn_cons_eq_if_modifyHead, ← ih]
      · simp only [ha, if_false, ne_eq, not_false_eq_true, true_and, ← hhead, List.modifyHead_cons,
          List.map_cons, rdropWhile_cons]
        split
        · rename_i h
          rw [← ih, h.2]
        · rw [List.splitOn_cons_eq_if_modifyHead, ← ih]
          simp [ha]

theorem tidy_eq_iff_clean_eq (hsep : blank sep = true) (left right : List α) :
    tidy blank sep left = tidy blank sep right ↔ clean blank sep left = clean blank sep right := by
  rw [tidy_eq_splitOn_clean blank sep hsep, tidy_eq_splitOn_clean blank sep hsep]
  constructor
  · intro h
    have hjoin := congrArg (List.intercalate [sep]) h
    rwa [List.intercalate_splitOn, List.intercalate_splitOn] at hjoin
  · exact congrArg _

variable {blank sep} {left right : List α}

theorem Insertion.clean_eq (hsep : blank sep = true) (h : Insertion blank sep left right) :
    clean blank sep left = clean blank sep right := by
  induction h with
  | blankBeforeSep a text ha hne =>
    by_cases htext : clean blank sep text = [] <;> simp [clean, hsep, ha, hne, htext]
  | blankAtEnd a ha hne => simp [clean, ha]
  | sepAtEnd => simp [clean, hsep]
  | after a _ ih => rw [clean, clean, ih]

theorem Insertion.marksFrom_eq (h : Insertion blank sep left right) (line : Nat)
    (before : List α) : marksFrom blank sep line before left = marksFrom blank sep line before right := by
  induction h generalizing line before with
  | blankBeforeSep a text ha hne => simp [marksFrom, ha, hne]
  | blankAtEnd a ha hne => simp [marksFrom, ha, hne]
  | sepAtEnd => simp [marksFrom]
  | after a _ ih => simp only [marksFrom, ih]

theorem edits_clean (text : List α) :
    Edits blank sep text (clean blank sep text) := by
  induction text with
  | nil => exact .refl
  | cons a text ih =>
    rw [clean]
    split
    · rename_i h
      obtain ⟨ha, hdropped⟩ := h
      refine .tail (ih.cons a) (.inr ?_)
      by_cases hne : a = sep
      · have hempty : clean blank sep text = [] := by simpa [hne] using hdropped
        rw [hempty, hne]
        exact .sepAtEnd
      · rcases hdropped with hempty | ⟨_, hhead⟩
        · rw [hempty]
          exact .blankAtEnd a ha hne
        · obtain ⟨rest, hrest⟩ := List.head?_eq_some_iff.mp hhead
          rw [hrest]
          exact .blankBeforeSep a rest ha hne
    · exact ih.cons a

/-- Two texts have the same lines, up to blanks at their ends, exactly when one is
made of the other by edits. -/
theorem edits_iff_tidy_eq (hsep : blank sep = true) :
    Edits blank sep left right ↔ tidy blank sep left = tidy blank sep right := by
  rw [tidy_eq_iff_clean_eq blank sep hsep]
  constructor
  · exact Edits.eq_of fun _ _ insertion => insertion.clean_eq hsep
  · intro h
    have hright : Edits blank sep (clean blank sep right) right := (edits_clean right).symm
    rw [← h] at hright
    exact (edits_clean left).trans hright

theorem Edits.marks_eq (h : Edits blank sep left right) :
    marks blank sep left = marks blank sep right :=
  h.eq_of fun _ _ insertion => insertion.marksFrom_eq 0 []

end Pals.Library.Lines
