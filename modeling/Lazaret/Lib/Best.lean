import Mathlib.Data.List.Induction
import Mathlib.Data.List.Sort

/-!
# The best under a key

A dictionary that keeps one value under each key, the first of the highest rank.  `mem_best`: what
is kept was offered; `exists_best`: whatever is offered, something under its key ranks as high.
-/

namespace Lazaret.Best

open List

variable {κ ρ : Type*} [DecidableEq κ] (rank : ρ → ℕ)

/-- The dictionary after a value is offered under a key: it takes the place of one that ranks lower,
and a new key goes last. -/
def keep (k : κ) (r : ρ) : List (κ × ρ) → List (κ × ρ)
  | [] => [(k, r)]
  | e :: rest =>
    if e.1 = k then (if rank e.2 < rank r then (k, r) :: rest else e :: rest)
    else e :: keep k r rest

def best (l : List (κ × ρ)) : List (κ × ρ) := l.foldl (fun d e => keep rank e.1 e.2 d) []

variable {rank} {k : κ} {r : ρ} {d l : List (κ × ρ)}

lemma mem_keep {e : κ × ρ} (h : e ∈ keep rank k r d) : e ∈ d ∨ e = (k, r) := by
  induction d with
  | nil =>
    rw [keep, mem_singleton] at h
    exact .inr h
  | cons f rest ih =>
    rw [keep] at h
    split_ifs at h
    · obtain rfl | h := mem_cons.1 h
      · exact .inr rfl
      · exact .inl (mem_cons_of_mem _ h)
    · exact .inl h
    · obtain rfl | h := mem_cons.1 h
      · exact .inl mem_cons_self
      · obtain h | h := ih h
        · exact .inl (mem_cons_of_mem _ h)
        · exact .inr h

lemma exists_keep_of_mem {e : κ × ρ} (h : e ∈ d) :
    ∃ r', (e.1, r') ∈ keep rank k r d ∧ rank e.2 ≤ rank r' := by
  induction d with
  | nil => cases h
  | cons f rest ih =>
    rw [keep]
    obtain rfl | h := mem_cons.1 h
    · split_ifs with hk hlt
      · exact ⟨r, by rw [hk]; exact mem_cons_self, hlt.le⟩
      · exact ⟨e.2, mem_cons_self, le_refl _⟩
      · exact ⟨e.2, mem_cons_self, le_refl _⟩
    · split_ifs
      · exact ⟨e.2, mem_cons_of_mem _ h, le_refl _⟩
      · exact ⟨e.2, mem_cons_of_mem _ h, le_refl _⟩
      · obtain ⟨r', hr', hle⟩ := ih h
        exact ⟨r', mem_cons_of_mem _ hr', hle⟩

lemma exists_keep : ∃ r', (k, r') ∈ keep rank k r d ∧ rank r ≤ rank r' := by
  induction d with
  | nil => exact ⟨r, mem_cons_self, le_refl _⟩
  | cons f rest ih =>
    rw [keep]
    split_ifs with hk hlt
    · exact ⟨r, mem_cons_self, le_refl _⟩
    · exact ⟨f.2, by rw [← hk]; exact mem_cons_self, not_lt.1 hlt⟩
    · obtain ⟨r', hr', hle⟩ := ih
      exact ⟨r', mem_cons_of_mem _ hr', hle⟩

lemma best_concat (e : κ × ρ) : best rank (l ++ [e]) = keep rank e.1 e.2 (best rank l) := by
  unfold best
  rw [foldl_concat]

theorem mem_best {e : κ × ρ} (h : e ∈ best rank l) : e ∈ l := by
  induction l using reverseRecOn with
  | nil => cases h
  | append_singleton l f ih =>
    rw [best_concat] at h
    obtain h | rfl := mem_keep h
    · exact mem_append_left _ (ih h)
    · simp

theorem exists_best {e : κ × ρ} (h : e ∈ l) :
    ∃ r', (e.1, r') ∈ best rank l ∧ rank e.2 ≤ rank r' := by
  induction l using reverseRecOn with
  | nil => cases h
  | append_singleton l f ih =>
    rw [best_concat]
    obtain h | h := mem_append.1 h
    · obtain ⟨r', hr', hle⟩ := ih h
      obtain ⟨r'', hr'', hle'⟩ := exists_keep_of_mem (k := f.1) (r := f.2) hr'
      exact ⟨r'', hr'', hle.trans hle'⟩
    · rw [mem_singleton] at h
      subst h
      exact exists_keep

end Lazaret.Best
