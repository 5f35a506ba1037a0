import Mathlib.Data.List.Infix

/-!
# The last place of a pattern

Where a list has a pattern for the last time (`rfind`): it is found there, and nowhere after
(`rfind_eq_some`).
-/

namespace Lazaret

open List

variable {α : Type*} [DecidableEq α]

/-- Where the list has the pattern for the last time. -/
def rfind (pat s : List α) : Option ℕ :=
  (List.range (s.length + 1)).reverse.find? fun i => pat.isPrefixOf (s.drop i)

lemma find_reverse_range {p : ℕ → Bool} {n i : ℕ} :
    (List.range n).reverse.find? p = some i ↔
      i < n ∧ p i = true ∧ ∀ j, i < j → j < n → p j = false := by
  induction n with
  | zero =>
    refine ⟨fun h => ?_, fun h => absurd h.1 (Nat.not_lt_zero i)⟩
    cases h
  | succ n ih =>
    rw [range_succ, reverse_append, reverse_singleton, singleton_append, List.find?_cons]
    cases hn : p n with
    | true =>
      constructor
      · intro h
        obtain rfl : n = i := Option.some.inj h
        exact ⟨by omega, hn, fun j hj hj' => by omega⟩
      · rintro ⟨hi, -, hafter⟩
        by_contra hne
        have hlt : i < n := by
          refine lt_of_le_of_ne (by omega) ?_
          rintro rfl
          exact hne rfl
        rw [hafter n hlt (by omega)] at hn
        cases hn
    | false =>
      refine ih.trans ⟨?_, ?_⟩
      · rintro ⟨hi, hp, hafter⟩
        refine ⟨by omega, hp, fun j hj hj' => ?_⟩
        rcases Nat.lt_succ_iff_lt_or_eq.1 hj' with hlt | rfl
        · exact hafter j hj hlt
        · exact hn
      · rintro ⟨hi, hp, hafter⟩
        refine ⟨lt_of_le_of_ne (by omega) ?_, hp, fun j hj hj' => hafter j hj (by omega)⟩
        rintro rfl
        rw [hn] at hp
        cases hp

variable {pat s t : List α} {c : α} {i : ℕ}

omit [DecidableEq α] in
lemma not_prefix_drop (hpat : pat ≠ []) (h : s.length ≤ i) : ¬ pat <+: s.drop i := by
  intro hpre
  rw [drop_eq_nil_of_le h, prefix_nil] at hpre
  exact hpat hpre

lemma rfind_eq_some (hpat : pat ≠ []) :
    rfind pat s = some i ↔ pat <+: s.drop i ∧ ∀ j, i < j → ¬ pat <+: s.drop j := by
  rw [rfind, find_reverse_range, isPrefixOf_iff_prefix]
  constructor
  · rintro ⟨hi, hpre, hafter⟩
    refine ⟨hpre, fun j hj hpre' => ?_⟩
    by_cases hlen : j < s.length + 1
    · have hfalse := hafter j hj hlen
      rw [ isPrefixOf_iff_prefix.2 hpre'] at hfalse
      cases hfalse
    · exact not_prefix_drop hpat (by omega) hpre'
  · rintro ⟨hpre, hafter⟩
    refine ⟨?_, hpre, fun j hj _ => ?_⟩
    · by_contra hlen
      exact not_prefix_drop hpat (by omega) hpre
    · exact Bool.eq_false_iff.2 fun htrue => hafter j hj ( isPrefixOf_iff_prefix.1 htrue)

/-! ### One element -/

omit [DecidableEq α] in
lemma mem_of_singleton_prefix_drop (h : [c] <+: s.drop i) : c ∈ s :=
  mem_of_mem_drop (h.subset mem_cons_self)

lemma rfind_append_cons (h : c ∉ t) : rfind [c] (s ++ c :: t) = some s.length := by
  rw [rfind_eq_some (cons_ne_nil _ _), drop_left]
  refine ⟨cons_prefix_cons.2 ⟨rfl, nil_prefix⟩, fun j hj hpre => h ?_⟩
  obtain ⟨k, rfl⟩ := Nat.exists_eq_add_of_lt hj
  rw [Nat.add_assoc, drop_append, drop_eq_nil_of_le (Nat.le_add_right _ _),
    nil_append, Nat.add_sub_cancel_left, drop_succ_cons] at hpre
  exact mem_of_singleton_prefix_drop hpre

lemma rfind_of_not_mem (h : c ∉ s) : rfind [c] s = none := by
  cases hfind : rfind [c] s with
  | none => rfl
  | some i =>
    rw [rfind_eq_some (cons_ne_nil _ _)] at hfind
    exact absurd (mem_of_singleton_prefix_drop hfind.1) h

lemma eq_of_rfind (h : rfind [c] s = some i) :
    s = s.take i ++ c :: s.drop (i + 1) ∧ c ∉ s.drop (i + 1) := by
  obtain ⟨⟨rest, hrest⟩, hafter⟩ := (rfind_eq_some (cons_ne_nil _ _)).1 h
  have hdrop : s.drop (i + 1) = rest := by
    rw [← drop_drop, ← hrest]
    rfl
  refine ⟨?_, fun hmem => ?_⟩
  · rw [hdrop]
    exact (take_append_drop i s).symm.trans (by rw [← hrest]; rfl)
  · obtain ⟨j, hj, hget⟩ := mem_iff_getElem.1 hmem
    refine hafter (i + 1 + j) (by omega) ?_
    rw [← drop_drop, drop_eq_getElem_cons hj, hget]
    exact cons_prefix_cons.2 ⟨rfl, nil_prefix⟩

end Lazaret
