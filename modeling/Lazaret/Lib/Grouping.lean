import Mathlib.Data.List.Induction
import Mathlib.Data.List.Nodup

/-!
# Grouping by a key

A dictionary that gathers lists under keys: an entry is made when its key is first seen, with the
label it is seen with, and what comes later under the key is put at the end of its list.
`gather_eq` says what an entry has gathered, `exists_gather` which keys have one, and `nodup_gather`
that each has only one.
-/

namespace Lazaret.Grouping

open List

variable {κ ν α : Type*} [DecidableEq κ]

/-- `d.setdefault(k, (label, []))`, extended by the list. -/
def add (k : κ) (label : ν) (xs : List α) : List (κ × ν × List α) → List (κ × ν × List α)
  | [] => [(k, label, xs)]
  | e :: rest => if e.1 = k then (e.1, e.2.1, e.2.2 ++ xs) :: rest else e :: add k label xs rest

/-- The dictionary of some lists under keys, in the order the keys are first seen. -/
def gather (l : List (κ × ν × List α)) : List (κ × ν × List α) :=
  l.foldl (fun d e => add e.1 e.2.1 e.2.2 d) []

variable {k : κ} {label : ν} {xs : List α} {d : List (κ × ν × List α)}

lemma keys_add : (add k label xs d).map Prod.fst =
    if k ∈ d.map Prod.fst then d.map Prod.fst else d.map Prod.fst ++ [k] := by
  induction d with
  | nil => simp [add]
  | cons e rest ih =>
    rw [add]
    by_cases he : e.1 = k
    · simp [he]
    · rw [if_neg he, map_cons, ih]
      by_cases hk : k ∈ rest.map Prod.fst
      · simp [hk]
      · have hne : k ∉ (e :: rest).map Prod.fst := by
          rw [map_cons, mem_cons]
          rintro (rfl | h)
          · exact he rfl
          · exact hk h
        rw [if_neg hk, if_neg hne, map_cons, cons_append]

lemma mem_keys_add {j : κ} :
    j ∈ (add k label xs d).map Prod.fst ↔ j = k ∨ j ∈ d.map Prod.fst := by
  rw [keys_add]
  split
  · rename_i h
    constructor
    · exact .inr
    · rintro (rfl | hj)
      · exact h
      · exact hj
  · rw [mem_append, mem_singleton, or_comm]

lemma nodup_add (h : (d.map Prod.fst).Nodup) : ((add k label xs d).map Prod.fst).Nodup := by
  rw [keys_add]
  split
  · exact h
  · rename_i hk
    rw [nodup_append]
    refine ⟨h, nodup_singleton k, fun a ha b hb => ?_⟩
    rw [mem_singleton] at hb
    rintro rfl
    exact hk (hb ▸ ha)

variable {e : κ × ν × List α}

lemma filter_of_nodup (hd : (d.map Prod.fst).Nodup) (he : e ∈ d) :
    (d.filter fun f => f.1 = e.1) = [e] := by
  induction d with
  | nil => cases he
  | cons f rest ih =>
    rw [map_cons, nodup_cons] at hd
    rcases mem_cons.1 he with rfl | he
    · have hrest : (rest.filter fun f => f.1 = e.1) = [] :=
        filter_eq_nil_iff.2 fun f hf heq => hd.1 (mem_map.2 ⟨f, hf, of_decide_eq_true heq⟩)
      rw [filter_cons, if_pos (decide_eq_true rfl), hrest]
    · have hne : f.1 ≠ e.1 := fun heq => hd.1 (heq ▸ mem_map_of_mem he)
      rw [filter_cons, if_neg (by simpa using hne), ih hd.2 he]

lemma eq_of_mem_add (hd : (d.map Prod.fst).Nodup) (he : e ∈ add k label xs d) :
    e.2.2 = ((d.filter fun f => f.1 = e.1).flatMap fun f => f.2.2) ++
      if e.1 = k then xs else [] := by
  induction d with
  | nil =>
    rw [add, mem_singleton] at he
    subst he
    simp
  | cons f rest ih =>
    have hd' := hd
    rw [map_cons, nodup_cons] at hd
    rw [add] at he
    by_cases hk : f.1 = k
    · rw [if_pos hk, mem_cons] at he
      obtain rfl | he := he
      · dsimp only
        rw [filter_of_nodup (e := f) hd' mem_cons_self, flatMap_singleton, if_pos hk]
      · have hne : e.1 ≠ k := fun heq => hd.1 ((hk.trans heq.symm) ▸ mem_map_of_mem he)
        rw [filter_of_nodup hd' (mem_cons_of_mem _ he), flatMap_singleton, if_neg hne, append_nil]
    · rw [if_neg hk, mem_cons] at he
      obtain rfl | he := he
      · rw [filter_of_nodup hd' mem_cons_self, flatMap_singleton, if_neg hk, append_nil]
      · have hne : f.1 ≠ e.1 := by
          intro heq
          have hkeys : e.1 ∈ (add k label xs rest).map Prod.fst := mem_map_of_mem he
          rw [mem_keys_add] at hkeys
          obtain h | h := hkeys
          · exact hk (heq.trans h)
          · exact hd.1 (heq ▸ h)
        rw [filter_cons, if_neg (by simpa using hne)]
        exact ih hd.2 he

lemma label_of_mem_add (he : e ∈ add k label xs d) :
    (∃ e' ∈ d, e'.1 = e.1 ∧ e'.2.1 = e.2.1) ∨ e.1 = k ∧ e.2.1 = label := by
  induction d with
  | nil =>
    rw [add, mem_singleton] at he
    subst he
    exact .inr ⟨rfl, rfl⟩
  | cons e' rest ih =>
    rw [add] at he
    by_cases hk : e'.1 = k
    · rw [if_pos hk, mem_cons] at he
      obtain rfl | he := he
      · exact .inl ⟨e', mem_cons_self, rfl, rfl⟩
      · exact .inl ⟨e, mem_cons_of_mem _ he, rfl, rfl⟩
    · rw [if_neg hk, mem_cons] at he
      obtain rfl | he := he
      · exact .inl ⟨e, mem_cons_self, rfl, rfl⟩
      · obtain ⟨e'', hm, h⟩ | h := ih he
        · exact .inl ⟨e'', mem_cons_of_mem _ hm, h⟩
        · exact .inr h

/-! ## The whole dictionary -/

variable (l : List (κ × ν × List α))

lemma gather_concat (e : κ × ν × List α) :
    gather (l ++ [e]) = add e.1 e.2.1 e.2.2 (gather l) := by
  unfold gather
  rw [foldl_concat]

theorem nodup_gather : ((gather l).map Prod.fst).Nodup := by
  induction l using reverseRecOn with
  | nil => exact nodup_nil
  | append_singleton l e ih =>
    rw [gather_concat]
    exact nodup_add ih

theorem exists_gather : (∃ e ∈ gather l, e.1 = k) ↔ ∃ e ∈ l, e.1 = k := by
  have hkeys : k ∈ (gather l).map Prod.fst ↔ k ∈ l.map Prod.fst := by
    induction l using reverseRecOn with
    | nil => rfl
    | append_singleton l e ih =>
      rw [gather_concat, mem_keys_add, ih, map_append, mem_append, map_singleton,
        mem_singleton, or_comm]
  simpa [mem_map] using hkeys

variable {l}

theorem gather_eq (he : e ∈ gather l) :
    e.2.2 = (l.filter fun f => f.1 = e.1).flatMap fun f => f.2.2 := by
  induction l using reverseRecOn generalizing e with
  | nil => cases he
  | append_singleton l f ih =>
    rw [gather_concat] at he
    rw [eq_of_mem_add (nodup_gather l) he, filter_append, flatMap_append]
    congr 1
    · by_cases hseen : ∃ g ∈ gather l, g.1 = e.1
      · obtain ⟨g, hg, hgk⟩ := hseen
        rw [← hgk, filter_of_nodup (nodup_gather l) hg, flatMap_singleton, ih hg]
      · have hnot := hseen
        rw [exists_gather] at hnot
        push Not at hseen hnot
        rw [filter_eq_nil_iff.2 fun g hg => by simpa using hseen g hg,
          filter_eq_nil_iff.2 fun g hg => by simpa using hnot g hg]
    · by_cases hf : e.1 = f.1
      · simp [hf]
      · simp [hf, Ne.symm hf]

theorem mem_gather (he : e ∈ gather l) (x : α) : x ∈ e.2.2 ↔ ∃ e' ∈ l, e'.1 = e.1 ∧ x ∈ e'.2.2 := by
  rw [gather_eq he, mem_flatMap]
  simp only [mem_filter, decide_eq_true_eq, and_assoc]

theorem label_gather (he : e ∈ gather l) : ∃ e' ∈ l, e'.1 = e.1 ∧ e'.2.1 = e.2.1 := by
  induction l using reverseRecOn generalizing e with
  | nil => cases he
  | append_singleton l f ih =>
    rw [gather_concat] at he
    obtain ⟨e', hm, heq, h⟩ | ⟨heq, h⟩ := label_of_mem_add he
    · obtain ⟨e'', hm', heq', h'⟩ := ih hm
      exact ⟨e'', mem_append_left _ hm', heq'.trans heq, h'.trans h⟩
    · exact ⟨f, by simp, heq.symm, h.symm⟩

/-- What is gathered under a key; nothing if it has no entry. -/
def under (d : List (κ × ν × List α)) (k : κ) : List α :=
  ((d.find? fun e => e.1 = k).map fun e => e.2.2).getD []

theorem mem_under_gather (x : α) : x ∈ under (gather l) k ↔ ∃ e ∈ l, e.1 = k ∧ x ∈ e.2.2 := by
  rw [under]
  cases hf : (gather l).find? fun e => e.1 = k with
  | none =>
    simp only [Option.map_none, Option.getD_none, not_mem_nil, false_iff]
    rintro ⟨e, he, hk, -⟩
    obtain ⟨e', he', hk'⟩ := (exists_gather (k := k) l).2 ⟨e, he, hk⟩
    have hnot := List.find?_eq_none.1 hf e' he'
    rw [decide_eq_true_eq] at hnot
    exact hnot hk'
  | some e =>
    have hk := List.find?_some hf
    rw [decide_eq_true_eq] at hk
    subst hk
    exact mem_gather (mem_of_find?_eq_some hf) x

end Lazaret.Grouping
