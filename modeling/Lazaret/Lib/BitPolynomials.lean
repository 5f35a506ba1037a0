import Mathlib.Algebra.Field.ZMod
import Mathlib.Algebra.Polynomial.Reverse

/-!
# The bits of a word as a polynomial

A word as the polynomial whose coefficients are its bits (`bits`), over any semiring.  Its value at
two is the word itself (`eval_bits`); modulo two a sum is an exclusive or (`bits_xor`).  Where the
coefficients of a polynomial are small and stand far enough apart, the lowest bits of each are found
again in its value (`testBit_eval`).
-/

namespace Lazaret

open Polynomial Finset

namespace BitPolynomials

noncomputable def bits (R : Type*) [Semiring R] {w : ℕ} (x : BitVec w) : R[X] :=
  ∑ i ∈ Finset.range w, if x.getLsbD i then X ^ i else 0

variable {R : Type*} [Semiring R] {w k : ℕ} {x y : BitVec w}

lemma coeff_bits (x : BitVec w) (k : ℕ) :
    (bits R x).coeff k = if x.getLsbD k then 1 else 0 := by
  have hterm : ∀ i, (if x.getLsbD i then (X ^ i : R[X]) else 0).coeff k =
      if k = i then (if x.getLsbD k then 1 else 0) else 0 := by
    intro i
    by_cases hik : k = i
    · subst hik
      split <;> simp [coeff_X_pow]
    · split <;> simp [coeff_X_pow, hik]
  rw [bits, finsetSum_coeff, sum_congr rfl fun i _ => hterm i, sum_ite_eq]
  by_cases hk : k < w
  · rw [if_pos (mem_range.2 hk)]
  · have hfalse : x.getLsbD k = false := x.getLsbD_of_ge k (Nat.le_of_not_lt hk)
    rw [if_neg (by rwa [mem_range]), hfalse]
    rfl

lemma map_bits {S : Type*} [Semiring S] (f : R →+* S) (x : BitVec w) :
    (bits R x).map f = bits S x := by
  ext k
  rw [coeff_map, coeff_bits, coeff_bits]
  split <;> simp

lemma degree_bits (x : BitVec w) : (bits R x).degree < w := by
  rw [degree_lt_iff_coeff_zero]
  intro k hk
  rw [coeff_bits, x.getLsbD_of_ge k hk]
  rfl

lemma natDegree_bits (x : BitVec w) : (bits R x).natDegree ≤ w - 1 := by
  rw [natDegree_le_iff_coeff_eq_zero]
  intro k hk
  rw [coeff_bits, x.getLsbD_of_ge k (by omega)]
  rfl

lemma bits_injective [Nontrivial R] (h : bits R x = bits R y) : x = y := by
  apply BitVec.eq_of_getLsbD_eq
  intro i _
  have hcoeff := congrArg (coeff · i) h
  simp only [coeff_bits] at hcoeff
  cases hx : x.getLsbD i <;> cases hy : y.getLsbD i <;> simp [hx, hy] at hcoeff ⊢

lemma eval_bits (x : BitVec w) : (bits ℕ x).eval 2 = x.toNat := by
  have hsum : ∀ n ≤ w, ∑ i ∈ Finset.range n, (if x.getLsbD i then 2 ^ i else 0) =
      x.toNat % 2 ^ n := by
    intro n hn
    induction n with
    | zero => simp [Nat.mod_one]
    | succ n ih =>
      rw [sum_range_succ, ih (Nat.le_of_succ_le hn), Nat.mod_pow_succ,
        ← BitVec.testBit_toNat, ← Nat.toNat_testBit]
      cases x.toNat.testBit n <;> simp
  have hterm : ∀ i, (if x.getLsbD i then (X ^ i : ℕ[X]) else 0).eval 2 =
      if x.getLsbD i then 2 ^ i else 0 := by
    intro i
    split <;> simp
  rw [bits, eval_finsetSum, sum_congr rfl fun i _ => hterm i, hsum w (Nat.le_refl w),
    Nat.mod_eq_of_lt x.isLt]

lemma bits_zero : bits R (0 : BitVec w) = 0 := by
  ext k
  rw [coeff_bits]
  simp

lemma bits_mul_X_pow (x : BitVec w) (hk : k ≤ w) :
    bits R x * X ^ k = bits R (x <<< k) + bits R (x >>> (w - k)) * X ^ w := by
  ext n
  rw [coeff_add, coeff_mul_X_pow', coeff_mul_X_pow', coeff_bits, coeff_bits, coeff_bits,
    BitVec.getLsbD_shiftLeft, BitVec.getLsbD_ushiftRight]
  by_cases hkn : k ≤ n
  · by_cases hnw : n < w
    · simp [hkn, hnw, not_le.2 hnw, not_lt.2 hkn]
    · have hsub : w - k + (n - w) = n - k := by omega
      simp [hkn, hnw, not_lt.1 hnw, hsub]
  · have hnw : n < w := by omega
    simp [hkn, not_le.2 hnw, not_le.1 hkn]

lemma bits_setWidth {v : ℕ} (x : BitVec w) (h : w ≤ v) : bits R (x.setWidth v) = bits R x := by
  ext k
  rw [coeff_bits, coeff_bits, BitVec.getLsbD_setWidth]
  by_cases hk : k < v
  · simp [hk]
  · simp [x.getLsbD_of_ge k (by omega)]

lemma bits_halves {v : ℕ} (hw : w = v + v) (x : BitVec w) :
    bits R x = bits R (x.setWidth v) + bits R ((x >>> v).setWidth v) * X ^ v := by
  ext k
  rw [coeff_add, coeff_mul_X_pow', coeff_bits, coeff_bits, coeff_bits, BitVec.getLsbD_setWidth,
    BitVec.getLsbD_setWidth, BitVec.getLsbD_ushiftRight]
  by_cases hk : k < v
  · simp [hk, not_le.2 hk]
  · have hle : v ≤ k := Nat.le_of_not_lt hk
    rw [Nat.add_sub_cancel' hle]
    by_cases hk2 : k < w
    · simp [hk, hle, show k - v < v by omega]
    · simp [hk, x.getLsbD_of_ge k (Nat.le_of_not_lt hk2)]

lemma bits_reverse (x : BitVec w) : bits R x.reverse = reflect (w - 1) (bits R x) := by
  ext k
  rw [coeff_reflect, coeff_bits, coeff_bits, BitVec.getLsbD_reverse, BitVec.getMsbD_eq_getLsbD]
  by_cases hk : k < w
  · rw [revAt_le (by omega)]
    simp [hk]
  · have hfalse : ∀ i, x.getLsbD i = false ∨ i < w := by
      intro i
      obtain hi | hi := lt_or_ge i w
      · exact Or.inr hi
      · exact Or.inl (x.getLsbD_of_ge i hi)
    by_cases hw : w = 0
    · subst hw
      simp
    · rw [revAt_eq_self_of_lt (by omega), (hfalse k).resolve_right hk]
      simp [hk]

/-! ## Modulo two -/

lemma bits_xor (x y : BitVec w) :
    bits (ZMod 2) (x ^^^ y) = bits (ZMod 2) x + bits (ZMod 2) y := by
  ext k
  rw [coeff_add, coeff_bits, coeff_bits, coeff_bits, BitVec.getLsbD_xor]
  cases x.getLsbD k <;> cases y.getLsbD k <;> decide

/-! ## Coefficients with holes between them -/

variable {p : ℕ[X]} {t gap : ℕ}

lemma sum_lt (hgap : 0 < gap) (hholes : ∀ j, j % gap ≠ k % gap → p.coeff j = 0)
    (hsmall : ∀ j < k, p.coeff j < 2 ^ gap) :
    ∑ j ∈ Finset.range k, p.coeff j * 2 ^ j < 2 ^ k := by
  induction k using Nat.strong_induction_on with
  | _ k ih =>
    obtain hlt | hle := Nat.lt_or_ge k gap
    · have hzero : ∑ j ∈ Finset.range k, p.coeff j * 2 ^ j = 0 := by
        apply sum_eq_zero
        intro j hj
        have hj := mem_range.1 hj
        have hjk : j % gap ≠ k % gap := by
          rw [Nat.mod_eq_of_lt hlt, Nat.mod_eq_of_lt (hj.trans hlt)]
          omega
        rw [hholes j hjk, zero_mul]
      rw [hzero]
      exact Nat.two_pow_pos k
    · obtain ⟨m, rfl⟩ := Nat.exists_eq_add_of_le' hle
      have hmod : (m + gap) % gap = m % gap := Nat.add_mod_right m gap
      rw [hmod] at hholes
      have hbefore := ih m (by omega) hholes fun j hj => hsmall j (by omega)
      -- the next places are empty, but for the first
      have hnext : ∑ j ∈ Finset.range gap, p.coeff (m + j) * 2 ^ (m + j) = p.coeff m * 2 ^ m := by
        apply sum_eq_single_of_mem 0 (mem_range.2 hgap)
        intro j hj hj0
        have hj := mem_range.1 hj
        rw [hholes (m + j), zero_mul]
        intro hmod
        have hdvd : gap ∣ j := (Nat.modEq_zero_iff_dvd).1
          (Nat.ModEq.add_left_cancel' m (show m + j ≡ m + 0 [MOD gap] from hmod))
        exact hj0 (Nat.eq_zero_of_dvd_of_lt hdvd hj)
      have hm : p.coeff m < 2 ^ gap := hsmall m (by omega)
      have hmul : (p.coeff m + 1) * 2 ^ m ≤ 2 ^ gap * 2 ^ m := Nat.mul_le_mul_right _ hm
      rw [sum_range_add, hnext, Nat.pow_add, Nat.mul_comm (2 ^ m)]
      rw [Nat.add_mul, Nat.one_mul] at hmul
      omega

theorem testBit_eval (hgap : 0 < gap) (hholes : ∀ j, j % gap ≠ k % gap → p.coeff j = 0)
    (hsmall : ∀ j < k, p.coeff j < 2 ^ gap) :
    (p.eval 2).testBit k = decide (p.coeff k % 2 = 1) := by
  have hlow := sum_lt hgap hholes hsmall
  have heval : p.eval 2 = ∑ j ∈ Finset.range k, p.coeff j * 2 ^ j + 2 ^ k * (p.coeff k +
      2 * ∑ j ∈ Finset.range (p.natDegree + 1), p.coeff (k + 1 + j) * 2 ^ j) := by
    have hdegree : p.natDegree < k + 1 + (p.natDegree + 1) := by omega
    have hhigh : ∀ j, p.coeff (k + 1 + j) * 2 ^ (k + 1 + j) =
        2 ^ (k + 1) * (p.coeff (k + 1 + j) * 2 ^ j) := by
      intro j
      ring
    rw [eval_eq_sum_range' hdegree, sum_range_add, sum_range_succ,
      sum_congr rfl fun j _ => hhigh j, ← mul_sum]
    ring
  have hdiv : p.eval 2 / 2 ^ k % 2 = p.coeff k % 2 := by
    rw [heval, Nat.add_mul_div_left _ _ (Nat.two_pow_pos k), Nat.div_eq_of_lt hlow]
    omega
  rw [Nat.testBit_eq_decide_div_mod_eq, hdiv]

end BitPolynomials

end Lazaret
