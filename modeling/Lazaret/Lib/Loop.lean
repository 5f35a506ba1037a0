import Mathlib.Data.List.Chain

/-!
# Loops that make progress

A loop is a turn that leaves a next state or the result.  Where every turn that goes on lowers a
measure, the loop ends (`Loop.run`), and what every turn keeps holds of the result (`Loop.rule`).
-/

namespace Lazaret

structure Loop (σ ρ : Type*) where
  turn : σ → σ ⊕ ρ
  measure : σ → ℕ
  progress : ∀ s s', turn s = Sum.inl s' → measure s' < measure s

namespace Loop

variable {σ ρ : Type*} (l : Loop σ ρ)

/-- The result of the loop from `s`. -/
def run (s : σ) : ρ :=
  match _h : l.turn s with
  | Sum.inl s' => run s'
  | Sum.inr r => r
termination_by l.measure s
decreasing_by exact l.progress _ _ _h

variable {l}

lemma run_of_next {s s' : σ} (h : l.turn s = Sum.inl s') : l.run s = l.run s' := by
  rw [run]
  split
  · rename_i t ht
    rw [h] at ht
    cases ht
    rfl
  · rename_i r hr
    rw [h] at hr
    cases hr

lemma run_of_done {s : σ} {r : ρ} (h : l.turn s = Sum.inr r) : l.run s = r := by
  rw [run]
  split
  · rename_i t ht
    rw [h] at ht
    cases ht
  · rename_i r' hr
    rw [h] at hr
    cases hr
    rfl

lemma run_congr {s t : σ} (h : l.turn s = l.turn t) : l.run s = l.run t := by
  cases hturn : l.turn t with
  | inl t' => rw [run_of_next hturn, run_of_next (h.trans hturn)]
  | inr r => rw [run_of_done hturn, run_of_done (h.trans hturn)]

theorem rule (Inv : σ → Prop) (Post : ρ → Prop)
    (hnext : ∀ s s', Inv s → l.turn s = Sum.inl s' → Inv s')
    (hdone : ∀ s r, Inv s → l.turn s = Sum.inr r → Post r) {s : σ} (hs : Inv s) :
    Post (l.run s) := by
  induction hm : l.measure s using Nat.strongRecOn generalizing s with
  | ind m ih =>
    cases h : l.turn s with
    | inl s' =>
      rw [run_of_next h]
      exact ih _ (hm ▸ l.progress _ _ h) (hnext _ _ hs h) rfl
    | inr r =>
      rw [run_of_done h]
      exact hdone _ _ hs h

theorem relate (R : σ → ρ → Prop) (hnext : ∀ s s' r, l.turn s = Sum.inl s' → R s' r → R s r)
    (hdone : ∀ s r, l.turn s = Sum.inr r → R s r) (s : σ) : R s (l.run s) := by
  induction hm : l.measure s using Nat.strongRecOn generalizing s with
  | ind m ih =>
    cases h : l.turn s with
    | inl s' =>
      rw [run_of_next h]
      exact hnext _ _ _ h (ih _ (hm ▸ l.progress _ _ h) s' rfl)
    | inr r =>
      rw [run_of_done h]
      exact hdone _ _ h

lemma wellFounded (l : Loop σ ρ) : WellFounded fun s' s => l.turn s = Sum.inl s' :=
  Subrelation.wf (fun {s' s} h => l.progress s s' h) (InvImage.wf l.measure Nat.lt_wfRel.wf)

end Loop

end Lazaret
