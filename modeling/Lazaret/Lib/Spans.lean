import Lazaret.Lib.BTreeMap
import Mathlib.Order.Interval.Finset.Nat

/-!
# Ranges of numbers

A range is a pair of its start and its end, the end not in it.  The numbers in a list of ranges that
follow each other are as many as the lengths add up to (`card_inSpans`).  Ranges may also be kept in
an ordered map from starts to ends; `Spans` says that such a map holds ranges that are not empty and
do not touch.
-/

namespace Lazaret

open List BTreeMap

def InSpans (l : List (ℕ × ℕ)) (i : ℕ) : Prop := ∃ r ∈ l, r.1 ≤ i ∧ i < r.2

instance (l : List (ℕ × ℕ)) : DecidablePred (InSpans l) :=
  fun i => inferInstanceAs (Decidable (∃ r ∈ l, r.1 ≤ i ∧ i < r.2))

variable {l l' : List (ℕ × ℕ)} {r : ℕ × ℕ} {i n : ℕ}

@[simp] lemma not_inSpans_nil : ¬ InSpans [] i := by
  simp [InSpans]

lemma inSpans_cons : InSpans (r :: l) i ↔ (r.1 ≤ i ∧ i < r.2) ∨ InSpans l i := by
  simp only [InSpans, exists_mem_cons_iff]

lemma inSpans_append : InSpans (l ++ l') i ↔ InSpans l i ∨ InSpans l' i := by
  simp only [InSpans, mem_append, or_and_right, exists_or]

lemma InSpans.lt (h : InSpans l i) (hl : ∀ r ∈ l, r.2 ≤ n) : i < n := by
  obtain ⟨r, hr, -, hi⟩ := h
  exact hi.trans_le (hl r hr)

theorem card_inSpans (hl : l.Pairwise fun a b => a.2 ≤ b.1) (hn : ∀ r ∈ l, r.2 ≤ n) :
    ((Finset.range n).filter (InSpans l)).card = (l.map fun r => r.2 - r.1).sum := by
  induction l with
  | nil => simp
  | cons r l ih =>
    rw [pairwise_cons] at hl
    have hsplit : (Finset.range n).filter (InSpans (r :: l)) =
        Finset.Ico r.1 r.2 ∪ (Finset.range n).filter (InSpans l) := by
      ext i
      have hr := hn r (mem_cons_self ..)
      simp only [Finset.mem_filter, Finset.mem_range, inSpans_cons, Finset.mem_union,
        Finset.mem_Ico]
      constructor
      · rintro ⟨hi, h | h⟩
        · exact .inl h
        · exact .inr ⟨hi, h⟩
      · rintro (h | ⟨hi, h⟩)
        · exact ⟨by omega, .inl h⟩
        · exact ⟨hi, .inr h⟩
    have hdisj : Disjoint (Finset.Ico r.1 r.2) ((Finset.range n).filter (InSpans l)) := by
      refine Finset.disjoint_left.2 fun i hi hl' => ?_
      obtain ⟨q, hq, hlo, -⟩ := (Finset.mem_filter.1 hl').2
      have hle := hl.1 q hq
      rw [Finset.mem_Ico] at hi
      omega
    rw [hsplit, Finset.card_union_of_disjoint hdisj, Nat.card_Ico,
      ih hl.2 fun q hq => hn q (mem_cons_of_mem _ hq), map_cons, sum_cons]

/-! ### In a map -/

def InMap (m : BTreeMap ℕ ℕ) (i : ℕ) : Prop := InSpans m.entries i

instance (m : BTreeMap ℕ ℕ) : DecidablePred (InMap m) :=
  fun i => inferInstanceAs (Decidable (InSpans m.entries i))

variable {m : BTreeMap ℕ ℕ}

lemma inMap_def : InMap m i ↔ ∃ r ∈ m, r.1 ≤ i ∧ i < r.2 := Iff.rfl

@[simp] lemma not_inMap_empty : ¬ InMap BTreeMap.empty i := by
  simp [inMap_def]

/-- Ranges below `n` that are not empty and neither overlap nor touch. -/
structure Spans (n : ℕ) (m : BTreeMap ℕ ℕ) : Prop where
  nonempty : ∀ r ∈ m, r.1 < r.2
  apart : ∀ r ∈ m, ∀ r' ∈ m, r.1 < r'.1 → r.2 < r'.1
  le : ∀ r ∈ m, r.2 ≤ n

lemma Spans.empty (n : ℕ) : Spans n BTreeMap.empty where
  nonempty := fun _ hr => absurd hr not_mem_empty
  apart := fun _ hr => absurd hr not_mem_empty
  le := fun _ hr => absurd hr not_mem_empty

lemma Spans.lt (h : Spans n m) (hi : InMap m i) : i < n := InSpans.lt hi h.le

end Lazaret
