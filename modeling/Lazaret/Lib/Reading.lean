import Mathlib.Data.List.Basic

/-!
# Readings

A reading is a program that learns about its input by asking questions only.  The same reading can
be answered by a fixed table (`Reading.value`) or from a state that may not know an answer yet and
writes down what was missed (`Reading.run`).  The two agree where the state has the answer to every
question that the reading asks of the table (`Reading.Every`, `Reading.run_eq_value`).
-/

namespace Lazaret

/-- A program that asks questions `Q`, is given answers `A`, and returns an `α`. -/
inductive Reading (Q A α : Type)
  | done (a : α)
  | ask (q : Q) (k : A → Reading Q A α)

namespace Reading

variable {Q A α β σ : Type}

/-- `p`, then `f` of its result. -/
def bind : Reading Q A α → (α → Reading Q A β) → Reading Q A β
  | done a, f => f a
  | ask q k, f => ask q fun a => (k a).bind f

instance : Monad (Reading Q A) where
  pure := done
  bind := bind

/-- The result when every question has a fixed answer. -/
def value (answer : Q → A) : Reading Q A α → α
  | done a => a
  | ask q k => (k (answer q)).value answer

/-- The result, and the state left, when a state answers. -/
def run (step : σ → Q → A × σ) : Reading Q A α → σ → α × σ
  | done a, s => (a, s)
  | ask q k, s => (k (step s q).1).run step (step s q).2

/-- With fixed answers, every question is one of some. -/
def Every (answer : Q → A) (P : Q → Prop) : Reading Q A α → Prop
  | done _ => True
  | ask q k => P q ∧ (k (answer q)).Every answer P

instance decidableEvery (answer : Q → A) (P : Q → Prop) [∀ q, Decidable (P q)] :
    (p : Reading Q A α) → Decidable (p.Every answer P)
  | done _ => isTrue trivial
  | ask q k =>
    have := decidableEvery answer P (k (answer q))
    inferInstanceAs (Decidable (P q ∧ (k (answer q)).Every answer P))

variable {step : σ → Q → A × σ} {answer : Q → A} {P : Q → Prop}

lemma run_keeps (Inv : σ → Prop) (hstep : ∀ s q, Inv s → Inv (step s q).2) (p : Reading Q A α)
    (s : σ) (hs : Inv s) : Inv (p.run step s).2 := by
  induction p generalizing s with
  | done a => exact hs
  | ask q k ih => exact ih (step s q).1 (step s q).2 (hstep s q hs)

theorem run_eq_value {p : Reading Q A α} {s : σ} (h : p.Every answer P)
    (hanswer : ∀ q, P q → step s q = (answer q, s)) : p.run step s = (p.value answer, s) := by
  induction p with
  | done a => rfl
  | ask q k ih =>
    rw [run, hanswer q h.1]
    exact ih (answer q) h.2

end Reading

/-! ### Doing it again -/

variable {γ α : Type*}

/-- Rounds, at most `n`: each gives a result or what the next round starts from. -/
def again (round : γ → α ⊕ γ) : ℕ → γ → Option α
  | 0, _ => none
  | n + 1, g =>
    match round g with
    | .inl a => some a
    | .inr g' => again round n g'

/-- If every round that is not the last lowers a measure, the rounds end, with a result that only a
last round can give. -/
theorem again_ends {round : γ → α ⊕ γ} (Good : γ → Prop) (R : α → Prop) (measure : γ → ℕ)
    (hnext : ∀ g g', Good g → round g = .inr g' → Good g' ∧ measure g' < measure g)
    (hlast : ∀ g a, Good g → round g = .inl a → R a) (g : γ) (hg : Good g) :
    ∃ a, again round (measure g + 1) g = some a ∧ R a := by
  have key : ∀ n g, Good g → measure g < n → ∃ a, again round n g = some a ∧ R a := by
    intro n
    induction n with
    | zero =>
      intro g _ hlt
      exact absurd hlt (Nat.not_lt_zero _)
    | succ n ih =>
      intro g hg hlt
      rcases hr : round g with a | g'
      · refine ⟨a, ?_, hlast g a hg hr⟩
        rw [again, hr]
      · obtain ⟨hg', hdown⟩ := hnext g g' hg hr
        obtain ⟨a, ha, hRa⟩ := ih g' hg' (by omega)
        refine ⟨a, ?_, hRa⟩
        rw [again, hr]
        exact ha
  exact key (measure g + 1) g hg (Nat.lt_succ_self _)

end Lazaret
