import Mathlib.Order.Nat

/-!
# Searches that backtrack, with a budget

A search goes through candidates with one state, which it leaves as it was when a branch fails, and
counts what it tries against a budget.  `Explored v F s s' b` says what a part of such a search did
that began in `s` and ended in `s'`: if it found something (`b`), the result satisfies `F`; if not,
what is kept of the state is as it was, and unless the budget ran out nothing satisfies `F`.
-/

namespace Lazaret

/-- What is seen of the state of a search: what it has cost so far, what a branch that fails leaves
as it was, the result, and an invariant. -/
structure View (σ κ ρ : Type*) where
  cost : σ → ℕ
  budget : ℕ
  kept : σ → κ
  result : σ → ρ
  inv : σ → Prop

variable {σ κ ρ : Type*} {v : View σ κ ρ} {F G : ρ → Prop} {s s₁ s' : σ} {b : Bool}

/-- A part of a search for results that satisfy `F`. -/
structure Explored (v : View σ κ ρ) (F : ρ → Prop) (s s' : σ) (b : Bool) : Prop where
  cost_le : v.cost s ≤ v.cost s'
  inv : v.inv s → v.inv s'
  found : b = true → F (v.result s')
  kept : b = false → v.kept s' = v.kept s
  exhausted : b = false → v.cost s' ≤ v.budget → ∀ p, ¬ F p

namespace Explored

lemma nothing (v : View σ κ ρ) (s : σ) : Explored v (fun _ => False) s s false where
  cost_le := le_rfl
  inv := id
  found := fun h => by cases h
  kept := fun _ => rfl
  exhausted := fun _ _ _ => id

lemma congr (h : Explored v F s s' b) (hFG : ∀ p, F p ↔ G p) : Explored v G s s' b where
  cost_le := h.cost_le
  inv := h.inv
  found := fun hb => (hFG _).1 (h.found hb)
  kept := h.kept
  exhausted := fun hb hcost p hp => h.exhausted hb hcost p ((hFG p).2 hp)

lemma found_imp (h : Explored v F s s' true) (hFG : ∀ p, F p → G p) : Explored v G s s' true where
  cost_le := h.cost_le
  inv := h.inv
  found := fun hb => hFG _ (h.found hb)
  kept := fun hb => by cases hb
  exhausted := fun hb => by cases hb

lemma gave_up (hcost : v.cost s ≤ v.cost s') (hinv : v.inv s → v.inv s')
    (hkept : v.kept s' = v.kept s) (hbudget : v.budget < v.cost s') : Explored v F s s' false where
  cost_le := hcost
  inv := hinv
  found := fun h => by cases h
  kept := fun _ => hkept
  exhausted := fun _ hle => absurd hle (not_le.2 hbudget)

lemma or_else (h : Explored v F s s₁ false) (h' : Explored v G s₁ s' b) :
    Explored v (fun p => F p ∨ G p) s s' b where
  cost_le := h.cost_le.trans h'.cost_le
  inv := h'.inv ∘ h.inv
  found := fun hb => Or.inr (h'.found hb)
  kept := fun hb => (h'.kept hb).trans (h.kept rfl)
  exhausted := by
    rintro hb hcost p (hp | hp)
    · exact h.exhausted rfl (h'.cost_le.trans hcost) p hp
    · exact h'.exhausted hb hcost p hp

lemma after (hcost : v.cost s ≤ v.cost s₁) (hinv : v.inv s → v.inv s₁)
    (hkept : v.kept s₁ = v.kept s) (h : Explored v F s₁ s' b) : Explored v F s s' b where
  cost_le := hcost.trans h.cost_le
  inv := h.inv ∘ hinv
  found := h.found
  kept := fun hb => (h.kept hb).trans hkept
  exhausted := h.exhausted

end Explored

end Lazaret
