import Mathlib.Data.List.Induction

/-!
# Histories of a machine that takes every event

The state after events is a fold.  What every event keeps holds at the end (`after_invariant`), what
every event moves along a preorder is in order between any two moments (`after_rel`), and what holds
at the end but not at the start was brought about by one event and has held since
(`exists_last_change`).
-/

namespace Lazaret

open List

variable {σ ε : Type*} (step : σ → ε → σ)

def after (s : σ) (es : List ε) : σ := es.foldl step s

lemma after_append (s : σ) (es fs : List ε) :
    after step s (es ++ fs) = after step (after step s es) fs := foldl_append

lemma after_concat (s : σ) (es : List ε) (e : ε) :
    after step s (es ++ [e]) = step (after step s es) e := by
  rw [after_append]
  rfl

variable {step}

theorem after_invariant (Inv : σ → Prop) (hkeep : ∀ s e, Inv s → Inv (step s e)) {s : σ}
    (hs : Inv s) (es : List ε) : Inv (after step s es) := by
  induction es using reverseRecOn with
  | nil => exact hs
  | append_singleton es e ih =>
    rw [after_concat]
    exact hkeep _ e ih

/-- Where every event moves along a preorder (in the states of an invariant), later states are above
the earlier ones. -/
theorem after_rel {Inv : σ → Prop} {R : σ → σ → Prop} (hrefl : ∀ s, R s s)
    (htrans : ∀ s t u, R s t → R t u → R s u) (hkeep : ∀ s e, Inv s → Inv (step s e))
    (hstep : ∀ s e, Inv s → R s (step s e)) {s : σ} (hs : Inv s) (es fs : List ε) :
    R (after step s es) (after step s (es ++ fs)) := by
  rw [after_append]
  have h : Inv (after step (after step s es) fs) ∧
      R (after step s es) (after step (after step s es) fs) :=
    after_invariant (fun t => Inv t ∧ R (after step s es) t)
      (fun t e ht => ⟨hkeep t e ht.1, htrans _ _ _ ht.2 (hstep t e ht.1)⟩)
      ⟨after_invariant Inv hkeep hs es, hrefl _⟩ fs
  exact h.2

theorem exists_last_change {p : σ → Prop} {s : σ} {es : List ε} (hs : ¬ p s)
    (h : p (after step s es)) : ∃ pre e post, es = pre ++ e :: post ∧ ¬ p (after step s pre) ∧
      ∀ mid, mid <+: post → p (after step s (pre ++ e :: mid)) := by
  induction es using reverseRecOn with
  | nil => exact absurd h hs
  | append_singleton es e ih =>
    by_cases hes : p (after step s es)
    · obtain ⟨pre, e', post, rfl, hpre, hmid⟩ := ih hes
      refine ⟨pre, e', post ++ [e], by simp, hpre, fun mid hpref => ?_⟩
      rcases prefix_concat_iff.1 hpref with rfl | hpref
      · simpa using h
      · exact hmid mid hpref
    · refine ⟨es, e, [], by simp, hes, fun mid hpref => ?_⟩
      rw [prefix_nil.1 hpref]
      exact h

end Lazaret
