import Lazaret.Lib.Separated
import Mathlib.Data.List.Infix

/-!
# Names made of labels

A name is a list of letters in which one letter separates the labels, and what stands to the right
is what the name is under.  `Below sep c h` says that labels were put before `c` to make `h`, and
`Within sep c h` that `h` is `c` itself or lies below it.  A name made of one label and a base lies
within the subtrees of the base, and within the ones that begin at the name itself
(`within_label_iff`).
-/

namespace Lazaret.Domain

open List

variable {α : Type*} {sep : α}

/-- `h` is made of labels put before `c`. -/
def Below (sep : α) (c h : List α) : Prop := sep :: c <:+ h

def Within (sep : α) (c h : List α) : Prop := h = c ∨ Below sep c h

lemma suffix_append_iff_of_notMem {first rest c : List α} (hfirst : sep ∉ first) :
    sep :: c <:+ first ++ rest ↔ sep :: c <:+ rest := by
  refine ⟨fun h => ?_, fun h => h.trans (suffix_append _ _)⟩
  induction first with
  | nil => simpa using h
  | cons a first ih =>
    rw [mem_cons, not_or] at hfirst
    rw [cons_append, suffix_cons_iff] at h
    rcases h with h | h
    · exact absurd (cons.inj h).1 hfirst.1
    · exact ih hfirst.2 h

lemma below_label_iff {label base c : List α} (hlabel : sep ∉ label) :
    Below sep c (label ++ sep :: base) ↔ Within sep c base := by
  rw [Below, suffix_append_iff_of_notMem hlabel, suffix_cons_iff, cons.injEq]
  simp only [true_and, Within, Below, eq_comm]

lemma within_label_iff {label base c : List α} (hlabel : sep ∉ label) :
    Within sep c (label ++ sep :: base) ↔ label ++ sep :: base = c ∨ Within sep c base := by
  rw [Within, below_label_iff hlabel]

/-! ### As lists of labels -/

variable [BEq α] [LawfulBEq α] {c h q : List α}

lemma join_splitOn (sep : α) (c : List α) : [sep].intercalate (c.splitOn sep) = c :=
  intercalate_splitOn sep

lemma splitOn_inj : c.splitOn sep = h.splitOn sep ↔ c = h := by
  refine ⟨fun heq => ?_, congrArg _⟩
  rw [← join_splitOn sep c, heq, join_splitOn]

lemma exists_append_iff :
    (∃ q, q ≠ [] ∧ h = q ++ sep :: c) ↔
      ∃ pre, pre ≠ [] ∧ pre ≠ [[]] ∧ h.splitOn sep = pre ++ c.splitOn sep := by
  constructor
  · rintro ⟨q, hq, rfl⟩
    refine ⟨q.splitOn sep, splitOn_ne_nil _ _, fun hnil => hq ?_,
      splitOn_append_cons_self _ _⟩
    rw [← join_splitOn sep q, hnil]
    rfl
  · rintro ⟨pre, hne, hnil, heq⟩
    refine ⟨[sep].intercalate pre, fun hempty => ?_, ?_⟩
    · rcases Separated.intercalate_eq_nil.1 hempty with hpre | hpre
      · exact hne hpre
      · exact hnil hpre
    · rw [← join_splitOn sep h, heq,
        Separated.intercalate_append hne (splitOn_ne_nil _ _), join_splitOn]

lemma below_iff_splitOn :
    Below sep c h ↔ ∃ pre, pre ≠ [] ∧ h.splitOn sep = pre ++ c.splitOn sep := by
  constructor
  · rintro ⟨q, rfl⟩
    exact ⟨q.splitOn sep, splitOn_ne_nil _ _, splitOn_append_cons_self _ _⟩
  · rintro ⟨pre, hne, heq⟩
    refine ⟨[sep].intercalate pre, ?_⟩
    rw [← join_splitOn sep h, heq,
      Separated.intercalate_append hne (splitOn_ne_nil _ _), join_splitOn]

lemma within_iff_splitOn : Within sep c h ↔ c.splitOn sep <:+ h.splitOn sep := by
  rw [Within, below_iff_splitOn]
  constructor
  · rintro (rfl | ⟨pre, -, heq⟩)
    · exact suffix_refl _
    · exact ⟨pre, heq.symm⟩
  · rintro ⟨pre, heq⟩
    by_cases hne : pre = []
    · rw [hne, nil_append, splitOn_inj] at heq
      exact .inl heq.symm
    · exact .inr ⟨pre, hne, heq.symm⟩

end Lazaret.Domain
