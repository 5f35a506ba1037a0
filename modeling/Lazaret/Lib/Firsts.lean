import Mathlib.Data.List.Induction
import Mathlib.Data.List.Nodup

/-!
# The first of each key

A list without the elements whose key one before them has (`firsts`): it keeps the order, has every
key of the list once (`nodup_map_firsts`, `mem_map_firsts`).
-/

namespace Lazaret

open List

variable {α κ : Type*} [DecidableEq κ] (f : α → κ)

def firsts (l : List α) : List α :=
  l.foldl (fun seen x => if f x ∈ seen.map f then seen else seen ++ [x]) []

variable {f} {l : List α} {x : α} {k : κ}

lemma mem_map_firsts : k ∈ (firsts f l).map f ↔ k ∈ l.map f := by
  induction l using reverseRecOn with
  | nil => exact Iff.rfl
  | append_singleton l x ih =>
    rw [firsts, foldl_append, map_append, mem_append, ← ih]
    show k ∈ map f (if f x ∈ (firsts f l).map f then _ else _) ↔ _
    split
    next hmem =>
      refine ⟨.inl, ?_⟩
      rintro (h | h)
      · exact h
      · rw [map_singleton, mem_singleton] at h
        exact h ▸ hmem
    next => rw [map_append, mem_append]; rfl

lemma firsts_append_singleton :
    firsts f (l ++ [x]) = if f x ∈ l.map f then firsts f l else firsts f l ++ [x] := by
  rw [firsts, foldl_append]
  exact if_congr mem_map_firsts rfl rfl

lemma mem_of_mem_firsts (h : x ∈ firsts f l) : x ∈ l := by
  induction l using reverseRecOn with
  | nil => exact h
  | append_singleton l y ih =>
    rw [firsts_append_singleton] at h
    rw [mem_append]
    split_ifs at h
    · exact .inl (ih h)
    · exact (mem_append.1 h).imp_left ih

lemma nodup_map_firsts : ((firsts f l).map f).Nodup := by
  induction l using reverseRecOn with
  | nil => exact nodup_nil
  | append_singleton l x ih =>
    rw [firsts_append_singleton]
    split
    · exact ih
    next hnew =>
      rw [map_append, map_singleton]
      refine Nodup.append ih (nodup_singleton _) ?_
      exact disjoint_singleton.2 fun h => hnew (mem_map_firsts.1 h)

end Lazaret
