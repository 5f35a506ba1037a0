import Lazaret.Lib.Grouping
import Mathlib.Data.List.Dedup
import Mathlib.Data.List.Sort

/-!
# Elements by their places

A list indexed under keys: each element is found at its place (`pick`), and a lookup that has
gathered the places of some elements, in any order and however often, gives these elements in the
order of the list (`pick_eq_filter`).
-/

namespace Lazaret.Places

open List

variable {κ α : Type*}

/-- The elements at some places: each place once, in order. -/
def pick (xs : List α) (places : List ℕ) : List α :=
  (places.dedup.insertionSort (· ≤ ·)).filterMap fun i => xs[i]?

lemma filterMap_range (xs : List α) (p : α → Bool) :
    (range xs.length).filterMap (fun i => (xs[i]?).filter p) = xs.filter p := by
  induction xs using reverseRecOn with
  | nil => rfl
  | append_singleton xs x ih =>
    rw [length_append, length_singleton, range_succ, filterMap_append, filter_append, ← ih]
    congr 1
    · apply filterMap_congr
      intro i hi
      rw [getElem?_append_left (mem_range.1 hi)]
    · by_cases hx : p x <;> simp [hx, Option.filter]

theorem pick_eq_filter {xs : List α} {places : List ℕ} {p : α → Bool}
    (h : ∀ i, i ∈ places ↔ ∃ x, xs[i]? = some x ∧ p x) : pick xs places = xs.filter p := by
  have hsorted : places.dedup.insertionSort (· ≤ ·) =
      (range xs.length).filter fun i => (xs[i]?).any p := by
    apply Perm.eq_of_pairwise' (r := (· ≤ ·)) (pairwise_insertionSort _ _)
    · exact (pairwise_le_range).filter _
    · refine (perm_insertionSort _ _).trans ?_
      rw [perm_ext_iff_of_nodup (nodup_dedup _) (nodup_range.filter _)]
      intro i
      rw [mem_dedup, h, mem_filter, mem_range]
      constructor
      · rintro ⟨x, hx, hp⟩
        refine ⟨?_, by simp [hx, hp]⟩
        exact (List.getElem?_eq_some_iff.1 hx).1
      · rintro ⟨hi, hany⟩
        rw [getElem?_eq_getElem hi] at hany ⊢
        exact ⟨_, rfl, by simpa using hany⟩
  unfold pick
  rw [hsorted, filterMap_filter, ← filterMap_range]
  apply filterMap_congr
  intro i hi
  rw [getElem?_eq_getElem (mem_range.1 hi)]
  simp [Option.filter]

/-! ## An index -/

variable [DecidableEq κ]

def index (keys : α → List κ) (xs : List α) : List (κ × Unit × List ℕ) :=
  Grouping.gather (xs.zipIdx.flatMap fun p => (keys p.1).map fun k => (k, (), [p.2]))

def placesAt (d : List (κ × Unit × List ℕ)) (k : κ) : List ℕ :=
  ((d.find? fun e => e.1 = k).map fun e => e.2.2).getD []

theorem mem_placesAt_index {keys : α → List κ} {xs : List α} {k : κ} {i : ℕ} :
    i ∈ placesAt (index keys xs) k ↔ ∃ x, xs[i]? = some x ∧ k ∈ keys x := by
  have hseen : (∃ e ∈ xs.zipIdx.flatMap fun p => (keys p.1).map fun k => (k, (), [p.2]),
      e.1 = k ∧ i ∈ e.2.2) ↔ ∃ x, xs[i]? = some x ∧ k ∈ keys x := by
    constructor
    · rintro ⟨e, he, rfl, hi⟩
      obtain ⟨p, hp, he⟩ := mem_flatMap.1 he
      obtain ⟨k', hk', rfl⟩ := mem_map.1 he
      rw [mem_singleton] at hi
      subst hi
      exact ⟨p.1, mem_zipIdx_iff_getElem?.1 hp, hk'⟩
    · rintro ⟨x, hx, hk⟩
      refine ⟨(k, (), [i]), mem_flatMap.2 ⟨(x, i), ?_, mem_map.2 ⟨k, hk, rfl⟩⟩, rfl,
        mem_singleton_self _⟩
      exact mem_zipIdx_iff_getElem?.2 hx
  rw [← hseen, placesAt]
  cases hf : (index keys xs).find? fun e => e.1 = k with
  | none =>
    simp only [Option.map_none, Option.getD_none, not_mem_nil, false_iff]
    rintro ⟨e, he, hk, -⟩
    obtain ⟨e', he', hk'⟩ := (Grouping.exists_gather (k := k) _).2 ⟨e, he, hk⟩
    have hnot := List.find?_eq_none.1 hf e' he'
    rw [decide_eq_true_eq] at hnot
    exact hnot hk'
  | some e =>
    have hk := List.find?_some hf
    rw [decide_eq_true_eq] at hk
    subst hk
    exact Grouping.mem_gather (mem_of_find?_eq_some hf) i

end Lazaret.Places
