import Mathlib.Data.Nat.Bitwise
import Mathlib.Tactic.IntervalCases

/-!
# Machine words

Unsigned words as natural numbers: an operation whose value does not fit has none (`fits`), so a
sequence of operations that has a value is one in which nothing overflows.  Masks and shifts are
quotients and remainders (`and_ones`, `or_shift`), a choice by a word of all ones or all zeros is
the one chosen (`select_ones`, `select_zero`).
-/

namespace Lazaret.Words

open List

/-- The value of an operation on words of `w` bits, if it does not overflow. -/
def fits (w n : ℕ) : Option ℕ := if n < 2 ^ w then some n else none

variable {w n a b k : ℕ}

lemma fits_of_lt (h : n < 2 ^ w) : fits w n = some n := if_pos h

lemma fits_bind {β : Type} (h : n < 2 ^ w) (f : ℕ → Option β) : (fits w n >>= f) = f n := by
  rw [fits_of_lt h]
  rfl

variable {l : ℕ} {σ : Type} {f : σ → ℕ → Option σ} {P : ℕ → σ → Prop}

lemma foldlM_range' {s : ℕ}
    (hstep : ∀ i st, s ≤ i → i < s + l → P i st → ∃ st', f st i = some st' ∧ P (i + 1) st')
    {x : σ} (h : P s x) : ∃ st', (range' s l).foldlM f x = some st' ∧ P (s + l) st' := by
  induction l generalizing s x with
  | zero => exact ⟨x, rfl, h⟩
  | succ l ih =>
    obtain ⟨st', hst', h'⟩ := hstep s x (le_refl s) (by omega) h
    obtain ⟨st'', hst'', h''⟩ := ih
      (fun i st hi hlt => hstep i st (Nat.le_of_succ_le hi) (by omega)) h'
    rw [Nat.succ_add_eq_add_succ] at h''
    refine ⟨st'', ?_, h''⟩
    rw [List.range'_succ, foldlM_cons, hst']
    exact hst''

lemma foldlM_reverse_range' {s : ℕ}
    (hstep : ∀ i st, s ≤ i → i < s + l → P (i + 1) st → ∃ st', f st i = some st' ∧ P i st')
    {st : σ} (h : P (s + l) st) :
    ∃ st', (range' s l).reverse.foldlM f st = some st' ∧ P s st' := by
  induction l generalizing st with
  | zero => exact ⟨st, rfl, h⟩
  | succ l ih =>
    obtain ⟨st', hst', h'⟩ := hstep (s + l) st (Nat.le_add_right s l) (Nat.lt_succ_self _) h
    obtain ⟨st'', hst'', h''⟩ := ih
      (fun i st hi hlt => hstep i st hi (Nat.lt_succ_of_lt hlt)) h'
    refine ⟨st'', ?_, h''⟩
    rw [List.range'_1_concat, reverse_append, reverse_singleton,
      singleton_append, foldlM_cons, hst']
    exact hst''

lemma foldlM_reverse_range
    (hstep : ∀ i st, i < l → P (i + 1) st → ∃ st', f st i = some st' ∧ P i st')
    {st : σ} (h : P l st) : ∃ st', (range l).reverse.foldlM f st = some st' ∧ P 0 st' := by
  rw [range_eq_range']
  rw [← zero_add l] at h
  exact foldlM_reverse_range' (fun i st _ hi => hstep i st (by omega)) h

/-- `!a` of a word. -/
def complement (w a : ℕ) : ℕ := 2 ^ w - 1 - a

def wrappingSub (w a b : ℕ) : ℕ := (a + (2 ^ w - b)) % 2 ^ w

/-- The sum of two words of 64 bits and a carry, and the carry out of it. -/
def adc (a b carry : ℕ) : ℕ × ℕ := ((a + b + carry) % 2 ^ 64, (a + b + carry) / 2 ^ 64)

lemma and_ones (n k : ℕ) : n &&& (2 ^ k - 1) = n % 2 ^ k := Nat.and_two_pow_sub_one_eq_mod n k

lemma and_all (h : n < 2 ^ w) : n &&& (2 ^ w - 1) = n := by
  rw [and_ones, Nat.mod_eq_of_lt h]

lemma or_shift (h : a < 2 ^ k) (b : ℕ) : a ||| b <<< k = a + b * 2 ^ k := by
  rw [Nat.shiftLeft_eq, Nat.or_comm, Nat.mul_comm, ← Nat.two_pow_add_eq_or_of_lt h, Nat.add_comm]

lemma shiftLeft_mod (a : ℕ) {j : ℕ} (h : j + k = w) : (a <<< k) % 2 ^ w = (a % 2 ^ j) <<< k := by
  rw [Nat.shiftLeft_eq, Nat.shiftLeft_eq, ← h, Nat.pow_add, Nat.mul_mod_mul_right]

lemma and_split (n m k : ℕ) :
    n &&& m = (n % 2 ^ k &&& m % 2 ^ k) + 2 ^ k * (n / 2 ^ k &&& m / 2 ^ k) := by
  rw [← Nat.and_mod_two_pow, ← Nat.and_div_two_pow, Nat.mod_add_div]

lemma or_two_pow (h : n < 2 ^ (k + 1)) : n ||| 2 ^ k = n % 2 ^ k + 2 ^ k := by
  have hpos : 0 < 2 ^ k := Nat.two_pow_pos k
  have hdiv : n / 2 ^ k < 2 := Nat.div_lt_of_lt_mul (by rwa [← Nat.pow_succ])
  have hbit : n / 2 ^ k ||| 1 = 1 := by
    interval_cases n / 2 ^ k <;> rfl
  rw [← Nat.mod_add_div (n ||| 2 ^ k) (2 ^ k), Nat.or_mod_two_pow, Nat.or_div_two_pow, Nat.mod_self,
    Nat.or_zero, Nat.div_self hpos, hbit, Nat.mul_one]

lemma select_zero (h : a < 2 ^ w) (b : ℕ) : (a &&& complement w 0) ||| (b &&& 0) = a := by
  rw [complement, Nat.sub_zero, and_all h, Nat.and_zero, Nat.or_zero]

lemma select_ones (a : ℕ) (h : b < 2 ^ w) :
    (a &&& complement w (2 ^ w - 1)) ||| (b &&& (2 ^ w - 1)) = b := by
  rw [complement, Nat.sub_self, Nat.and_zero, and_all h, Nat.zero_or]

lemma wrappingSub_zero_bit (hw : 0 < w) (b : Bool) :
    wrappingSub w 0 b.toNat = if b then 2 ^ w - 1 else 0 := by
  have hpow : 1 < 2 ^ w := Nat.one_lt_two_pow hw.ne'
  cases b with
  | false => simp [wrappingSub]
  | true =>
    rw [wrappingSub, Bool.toNat_true, zero_add, if_pos rfl]
    exact Nat.mod_eq_of_lt (by omega)

end Lazaret.Words
