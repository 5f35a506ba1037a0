import Mathlib.Tactic.SplitIfs

/-!
# Runs of a state machine

A machine is a step function that may refuse an event.  `Run step ok s es s'` says that the events
`es`, each allowed in the state it comes in (`ok`) and taken by `step`, lead from `s` to `s'`.
-/

namespace Lazaret

variable {σ ε : Type*}

/-- The events `es` lead from `s` to `s'`, and each meets `ok` in the state it comes in. -/
inductive Run (step : σ → ε → Option σ) (ok : σ → ε → Prop) : σ → List ε → σ → Prop
  | nil (s : σ) : Run step ok s [] s
  | cons {s s' s'' : σ} {e : ε} {es : List ε} (hok : ok s e) (hstep : step s e = some s')
      (hrest : Run step ok s' es s'') : Run step ok s (e :: es) s''

namespace Run

variable {step : σ → ε → Option σ} {ok : σ → ε → Prop} {s s' : σ} {es : List ε}

theorem invariant {Inv : σ → Prop}
    (hkeep : ∀ s e s', Inv s → ok s e → step s e = some s' → Inv s')
    (h : Run step ok s es s') (hs : Inv s) : Inv s' := by
  induction h with
  | nil => exact hs
  | cons hok hstep _ ih => exact ih (hkeep _ _ _ hs hok hstep)

/-- Where the events lead, if each is allowed and taken. -/
def exec (step : σ → ε → Option σ) (ok : σ → ε → Prop) [∀ s e, Decidable (ok s e)] :
    σ → List ε → Option σ
  | s, [] => some s
  | s, e :: es => if ok s e then (step s e).bind fun s' => exec step ok s' es else none

theorem of_exec [∀ s e, Decidable (ok s e)] (h : exec step ok s es = some s') :
    Run step ok s es s' := by
  induction es generalizing s with
  | nil =>
    rw [exec, Option.some.injEq] at h
    exact h ▸ Run.nil s
  | cons e es ih =>
    rw [exec] at h
    split_ifs at h with hok
    obtain ⟨s₁, h1, h2⟩ := Option.bind_eq_some_iff.1 h
    exact Run.cons hok h1 (ih h2)

end Run

end Lazaret
