import Lazaret.Crypto.Montgomery

/-!
# The Montgomery constants

What the contexts of `bignum.rs` and `ct_mod.rs` hold once they are made: `R`, `R^2` and `R^3`
modulo `m`, by doublings, by squares and doublings, by long division, or by products.  With them a
number goes into Montgomery form and back reduced, and so does one of two parts (`constants`).
-/

namespace Lazaret.Bignum

open Multiword List
open Words (fits adc)

variable {n : ℕ} {m a b : List ℕ}

/-! ## Numbers by their values -/

lemma eq_words {v : ℕ} (h : Number n a) (hv : value a = v) : a = words n v :=
  h.eq_of_value (number_words n v) (by rw [value_words (hv ▸ h.value_lt), hv])

lemma IsModulus.lt_size (hm : IsModulus n m) {v : ℕ} (hv : v < value m) : v < size n :=
  hv.trans hm.number.value_lt

lemma IsModulus.value_pos (hm : IsModulus n m) : 0 < value m := by
  have := hm.value_odd
  omega

lemma IsModulus.one_lt_size (hm : IsModulus n m) : 1 < size n := by
  obtain ⟨k, rfl⟩ : ∃ k, n = k + 1 := ⟨n - 1, by have := hm.pos; omega⟩
  rw [size_succ]
  have := size_pos k
  omega

lemma IsModulus.mod_lt (hm : IsModulus n m) (v : ℕ) : v % value m < value m :=
  Nat.mod_lt v hm.value_pos

/-- Products modulo `m`, out of the limbs `R` too many. -/
def IsMul (n : ℕ) (m : List ℕ) (mul : List ℕ → List ℕ → Option (List ℕ)) : Prop :=
  ∀ a b, Number n a → Number n b → value a * value b < value m * size n →
    ∃ x, mul a b = some x ∧ IsProduct n a b m x

/-- Squares modulo `m`, out of the limbs `R` too many. -/
def IsSqr (n : ℕ) (m : List ℕ) (sqr : List ℕ → Option (List ℕ)) : Prop :=
  ∀ a, Number n a → value a * value a < value m * size n →
    ∃ x, sqr a = some x ∧ IsProduct n a a m x

lemma IsProduct.eq_words {x : List ℕ} (hm : IsModulus n m) (h : IsProduct n a b m x) {w : ℕ}
    (hw : value a * value b ≡ w * size n [MOD value m]) : x = words n (w % value m) := by
  refine Bignum.eq_words h.number ?_
  have hmod : value x ≡ w [MOD value m] :=
    Nat.ModEq.cancel_right_of_coprime (coprime_size hm.value_odd n) (h.modEq.trans hw)
  rw [← Nat.mod_eq_of_lt h.lt]
  exact hmod

lemma IsMul.run {mul : List ℕ → List ℕ → Option (List ℕ)} (h : IsMul n m mul)
    (hm : IsModulus n m) {u v w : ℕ} (hu : u < size n) (hv : v < value m)
    (hw : u * v ≡ w * size n [MOD value m]) :
    mul (words n u) (words n v) = some (words n (w % value m)) := by
  have hlt : value (words n u) * value (words n v) < value m * size n := by
    rw [value_words hu, value_words (hm.lt_size hv), mul_comm]
    exact Nat.mul_lt_mul_of_lt_of_lt hv hu
  obtain ⟨x, hx, hproduct⟩ := h _ _ (number_words n u) (number_words n v) hlt
  rw [hx, hproduct.eq_words hm]
  rwa [value_words hu, value_words (hm.lt_size hv)]

lemma IsSqr.run {sqr : List ℕ → Option (List ℕ)} (h : IsSqr n m sqr) (hm : IsModulus n m)
    {u w : ℕ} (hu : u < value m) (hw : u * u ≡ w * size n [MOD value m]) :
    sqr (words n u) = some (words n (w % value m)) := by
  have hlt : value (words n u) * value (words n u) < value m * size n := by
    rw [value_words (hm.lt_size hu)]
    exact Nat.mul_lt_mul_of_lt_of_lt hu (hm.lt_size hu)
  obtain ⟨x, hx, hproduct⟩ := h _ (number_words n u) hlt
  rw [hx, hproduct.eq_words hm]
  rwa [value_words (hm.lt_size hu)]

lemma Mont.Of.isMul {g : Mont} (hm : IsModulus n m) (h : g.Of m) : IsMul n m g.mul :=
  fun _ _ ha hb hab => h.mul hm ha hb hab

lemma Field.Of.isMul {f : Field} (hm : IsModulus n m) (hN : 2 * n < 2 ^ 64) (h : f.Of m) :
    IsMul n m f.mul := fun _ _ ha hb hab => h.mul hm ha hb hab hN

lemma Field.Of.isSqr {f : Field} (hm : IsModulus n m) (hN : 2 * n < 2 ^ 64) (h : f.Of m) :
    IsSqr n m f.sqr := fun _ ha haa => h.sqr hm ha haa hN

lemma Modulus.Of.isMul {k : Modulus} (hm : IsModulus n m) (hN : 2 * n < 2 ^ 64) (h : k.Of m) :
    IsMul n m k.mul := fun _ _ ha hb hab => h.mul hm ha hb hab hN

lemma Modulus.Of.isSqr {k : Modulus} (hm : IsModulus n m) (hN : 2 * n < 2 ^ 64) (h : k.Of m) :
    IsSqr n m k.sqr := fun _ ha haa => h.sqr hm ha haa hN

/-! ## Sums and doublings -/

def addMod (m a b : List ℕ) : List ℕ :=
  reduceOnce m (chain adc a b 0).1 ((chain adc a b 0).2 != 0)

lemma Mont.Of.add_eq {g : Mont} (hm : IsModulus n m) (h : g.Of m) (ha : Number n a)
    (hb : Number n b) : g.add a b = addMod m a b := by
  rw [Mont.add, h.m_eq, chain_congr adcFlags_eq (fun ha hb hc => (adc_spec ha hb hc).1) ha hb
    (Nat.zero_le 1)]
  exact mont_reduce (chain_number adc_fst_lt ha hb 0) hm.number _

lemma Modulus.Of.add_eq {k : Modulus} (hm : IsModulus n m) (h : k.Of m) (ha : Number n a)
    (hb : Number n b) : k.add a b = addMod m a b := by
  rw [Modulus.add, h.m_eq]
  exact reduceOnceMask_eq hm.number (chain_number adc_fst_lt ha hb 0)
    (chain_adc ha hb (Nat.zero_le 1)).1

lemma addMod_words (hm : IsModulus n m) {u v : ℕ} (hu : u < value m) (hv : v < value m) :
    addMod m (words n u) (words n v) = words n ((u + v) % value m) := by
  have hnumber := chain_number adc_fst_lt (number_words n u) (number_words n v) 0
  obtain ⟨-, hsum⟩ := chain_adc (number_words n u) (number_words n v) (Nat.zero_le 1)
  rw [value_words (hm.lt_size hu), value_words (hm.lt_size hv), add_zero] at hsum
  obtain ⟨hr, hvalue⟩ := reduceOnce_spec hm.number hnumber (c := (chain adc _ _ 0).2)
    (by rw [hsum]; omega)
  rw [hsum] at hvalue
  exact eq_words hr hvalue

lemma double_words (hm : IsModulus n m) {d : List ℕ → List ℕ → List ℕ}
    (hadd : ∀ u, d (words n u) (words n u) = addMod m (words n u) (words n u)) {v : ℕ}
    (hv : v < value m) (k : ℕ) :
    (fun x => d x x)^[k] (words n v) = words n (2 ^ k * v % value m) := by
  induction k with
  | zero => rw [Nat.pow_zero, Nat.one_mul, Nat.mod_eq_of_lt hv, Function.iterate_zero_apply]
  | succ k ih =>
    rw [Function.iterate_succ_apply', ih, hadd, addMod_words hm (hm.mod_lt _) (hm.mod_lt _),
      ← Nat.add_mod, ← Nat.two_mul, ← Nat.mul_assoc, ← Nat.pow_succ']

/-! ## One bit -/

lemma set_zeros {j y : ℕ} (hj : j < n) (hy : y < 2 ^ 64) :
    Number n ((replicate n 0).set j y) ∧
      value ((replicate n 0).set j y) = y * size j := by
  induction n generalizing j with
  | zero => exact absurd hj (Nat.not_lt_zero j)
  | succ n ih =>
    rw [replicate_succ]
    cases j with
    | zero =>
      rw [set_cons_zero, value_cons, value_replicate_zero, size_zero]
      exact ⟨number_cons.2 ⟨hy, Number.replicate n (Nat.two_pow_pos 64)⟩, by omega⟩
    | succ j =>
      obtain ⟨hnumber, hvalue⟩ := ih (Nat.lt_of_succ_lt_succ hj)
      rw [set_cons_succ, value_cons, hvalue, size_succ]
      exact ⟨number_cons.2 ⟨Nat.two_pow_pos 64, hnumber⟩, by ring⟩

lemma small_eq (hn : 0 < n) {k : ℕ} (hk : k < 2 ^ 64) : small n k = words n k := by
  obtain ⟨hnumber, hvalue⟩ := set_zeros hn hk
  exact eq_words hnumber (hvalue.trans (by rw [size_zero, mul_one]))

lemma size_eq (n : ℕ) : size n = 2 ^ (64 * n) := (pow_mul 2 64 n).symm

lemma single_eq {i : ℕ} (hi : i < 64 * n) : single n i = words n (2 ^ i) := by
  have hlt : 1 <<< (i % 64) < 2 ^ 64 := by
    rw [Nat.one_shiftLeft]
    exact Nat.pow_lt_pow_right (by decide) (Nat.mod_lt i (by decide))
  obtain ⟨hnumber, hvalue⟩ := set_zeros (n := n) (j := i / 64) (by omega) hlt
  refine eq_words hnumber (hvalue.trans ?_)
  rw [Nat.one_shiftLeft, size_eq, ← Nat.pow_add, Nat.mod_add_div]

lemma IsModulus.highest (hm : IsModulus n m) (h1 : 1 < value m) :
    64 * n - leadingZeros (m.getD (n - 1) 0) - 1 < 64 * n ∧
      2 ^ (64 * n - leadingZeros (m.getD (n - 1) 0) - 1) < value m := by
  obtain ⟨k, rfl⟩ : ∃ k, n = k + 1 := ⟨n - 1, by have := hm.pos; omega⟩
  have htop := hm.top
  obtain ⟨-, hvalue⟩ := hm.number.top
  have hlog : (m.getD k 0).log2 < 64 := (Nat.log2_lt htop).2 (hm.number.getD_lt k)
  rw [Nat.add_sub_cancel] at htop ⊢
  have hbits : 64 * (k + 1) - leadingZeros (m.getD k 0) - 1 = 64 * k + (m.getD k 0).log2 := by
    rw [leadingZeros, if_neg htop]
    omega
  rw [hbits]
  refine ⟨by omega, lt_of_le_of_ne ?_ fun heq => ?_⟩
  · rw [pow_add, ← size_eq, hvalue]
    have := Nat.mul_le_mul_left (size k) (Nat.log2_self_le htop)
    omega
  · -- a power of two is not odd unless it is one
    have hodd := hm.value_odd
    rw [← heq] at hodd h1
    cases hexp : 64 * k + (m.getD k 0).log2 with
    | zero =>
      rw [hexp, pow_zero] at h1
      exact absurd h1 (lt_irrefl 1)
    | succ e =>
      rw [hexp, pow_succ] at hodd
      omega

lemma doubled_one (hm : IsModulus n m) (h1 : 1 < value m) {d : List ℕ → List ℕ → List ℕ}
    (hadd : ∀ u, d (words n u) (words n u) = addMod m (words n u) (words n u)) {bits : ℕ}
    (hbits : bits = 64 * n - leadingZeros (m.getD (n - 1) 0)) :
    (fun x => d x x)^[64 * n - (bits - 1)] (single n (bits - 1)) =
      words n (size n % value m) := by
  obtain ⟨hlt, hbelow⟩ := hm.highest h1
  rw [← hbits] at hlt hbelow
  rw [single_eq hlt, double_words hm hadd hbelow, ← Nat.pow_add, Nat.sub_add_cancel hlt.le,
    ← size_eq]

/-! ## The contexts as they are made -/

structure Field.Valid (n : ℕ) (m : List ℕ) (f : Field) : Prop extends Field.Of m f where
  one_eq : f.one = words n (size n % value m)
  r2_eq : f.r2 = words n (size n ^ 2 % value m)

structure Mont.Valid (n : ℕ) (m : List ℕ) (g : Mont) : Prop extends Mont.Of m g where
  n_eq : g.n = n
  one_eq : g.one = words n (size n % value m)
  r2_eq : g.r2 = words n (size n ^ 2 % value m)

structure Modulus.Valid (n : ℕ) (m : List ℕ) (k : Modulus) : Prop extends Modulus.Of m k where
  r2_eq : k.r2 = words n (size n ^ 2 % value m)
  r3_eq : k.r3 = words n (size n ^ 3 % value m)
  m_minus_2_eq : 1 < value m → k.m_minus_2 = words n (value m - 2)

lemma shiftMod_words (hm : IsModulus n m) {v : ℕ} (hv : v < value m) :
    shiftMod m (words n v) = some (words n (v * size n % value m)) := by
  obtain ⟨k, rfl⟩ : ∃ k, n = k + 1 := ⟨n - 1, by have := hm.pos; omega⟩
  obtain ⟨r, hr, hnumber, hvalue⟩ := shiftMod_spec hm.number hm.top (number_words _ v)
    (by rwa [value_words (hm.lt_size hv)])
  rw [value_words (hm.lt_size hv)] at hvalue
  rw [hr, eq_words hnumber hvalue]

theorem Field.fromModulus_spec (hm : IsModulus n m) (h1 : 1 < value m) :
    ∃ f, Field.fromModulus m = some f ∧ f.Valid n m := by
  obtain ⟨f0, hf0⟩ : ∃ f0 : Field, f0 = ⟨m, newton (m.headD 0), replicate n 0,
    replicate n 0, n == 4 && m == P256⟩ := ⟨_, rfl⟩
  have hone := doubled_one hm h1 (d := f0.add)
    (fun u => (by rw [hf0]; rfl : f0.add (words n u) (words n u) = _)) rfl
  have hshift := shiftMod_words hm (hm.mod_lt (size n))
  rw [Nat.mod_mul_mod, ← Nat.pow_two] at hshift
  have hnew : Field.fromModulus m = some { f0 with
      one := words n (size n % value m), r2 := words n (size n ^ 2 % value m) } := by
    simp only [Field.fromModulus, hm.number.length_eq]
    rw [if_pos ⟨hm.odd, hm.top⟩, ← hf0, hone, hshift, some_bind, hf0]
  exact ⟨_, hnew, Field.of_fromModulus hnew, rfl, rfl⟩

lemma Mont.squareStep_eq (hm : IsModulus n m) {g : Mont} (hg : g.Of m) (e i : ℕ) :
    g.squareStep e (words n (2 ^ (e >>> (i + 1)) * size n % value m)) i =
      some (words n (2 ^ (e >>> i) * size n % value m)) := by
  obtain ⟨k, hk⟩ : ∃ k, k = e >>> (i + 1) := ⟨_, rfl⟩
  have hexp : e >>> i = 2 * k + e >>> i % 2 := by
    rw [hk, Nat.shiftRight_succ]
    omega
  have hsquare : g.mul (words n (2 ^ k * size n % value m)) (words n (2 ^ k * size n % value m)) =
      some (words n (2 ^ (2 * k) * size n % value m)) := by
    refine (hg.isMul hm).run hm (hm.lt_size (hm.mod_lt _)) (hm.mod_lt _) ?_
    calc
      2 ^ k * size n % value m * (2 ^ k * size n % value m)
          ≡ 2 ^ k * size n * (2 ^ k * size n) [MOD value m] :=
        (Nat.mod_modEq _ _).mul (Nat.mod_modEq _ _)
      _ = 2 ^ (2 * k) * size n * size n := by
        rw [Nat.two_mul, Nat.pow_add]
        ring
  rw [Mont.squareStep, ← hk, hsquare, some_bind, Nat.and_one_is_mod]
  by_cases hbit : e >>> i % 2 = 1
  · rw [if_pos hbit, hexp, hbit, hg.add_eq hm (number_words n _) (number_words n _),
      addMod_words hm (hm.mod_lt _) (hm.mod_lt _), ← Nat.add_mod, ← Nat.two_mul,
      ← Nat.mul_assoc, ← Nat.pow_succ']
  · rw [if_neg hbit, hexp, (by omega : e >>> i % 2 = 0), Nat.add_zero]

lemma words_zero (n : ℕ) : words n 0 = replicate n 0 :=
  (eq_words (Number.replicate n (Nat.two_pow_pos 64)) (value_replicate_zero n)).symm

lemma IsModulus.eq_one (hm : IsModulus n m) (h1 : ¬ 1 < value m) : n = 1 ∧ m = [1] := by
  have hpos := hm.value_pos
  obtain ⟨k, rfl⟩ : ∃ k, n = k + 1 := ⟨n - 1, by have := hm.pos; omega⟩
  obtain ⟨-, hvalue⟩ := hm.number.top
  have hle := Nat.mul_le_mul_left (size k) (Nat.one_le_iff_ne_zero.2 hm.top)
  cases k with
  | zero =>
    obtain ⟨x, rfl⟩ := length_eq_one_iff.1 hm.number.length_eq
    rw [value_singleton] at h1 hpos
    exact ⟨rfl, by rw [(by omega : x = 1)]⟩
  | succ k =>
    rw [size_succ, mul_one] at hle
    have := size_pos k
    simp only [Nat.add_sub_cancel] at hle
    rw [size_succ] at hvalue
    omega

theorem Mont.new_spec (hm : IsModulus n m) : ∃ g, Mont.new m = some g ∧ g.Valid n m := by
  obtain ⟨g0, hg0⟩ : ∃ g0 : Mont, g0 = ⟨m, n, newton (m.headD 0), replicate n 0,
    replicate n 0⟩ := ⟨_, rfl⟩
  by_cases h1 : 1 < value m
  · have hof : g0.Of m := by
      rw [hg0]
      exact ⟨rfl, rfl⟩
    have hone := doubled_one hm h1 (d := g0.add)
      (fun u => hof.add_eq hm (number_words n u) (number_words n u)) rfl
    have hbits : bitLen m = 64 * n - leadingZeros (m.getD (n - 1) 0) := by
      simp only [bitLen, hm.trimmedLen]
      exact if_neg hm.pos.ne'
    have hlarge : ¬ (n = 1 ∧ m.headD 0 = 1) := by
      rintro ⟨rfl, h⟩
      obtain ⟨x, rfl⟩ := length_eq_one_iff.1 hm.number.length_eq
      rw [value_singleton] at h1
      rw [headD_cons] at h
      omega
    -- the exponent has no bits above its highest
    have hstart : words n (size n % value m) =
        words n (2 ^ ((64 * n) >>> ((64 * n).log2 + 1)) * size n % value m) := by
      rw [Nat.shiftRight_eq_div_pow, Nat.div_eq_of_lt Nat.lt_log2_self, Nat.pow_zero, Nat.one_mul]
    obtain ⟨r2, hr2, hend⟩ := Words.foldlM_reverse_range (f := g0.squareStep (64 * n))
      (P := fun i y => y = words n (2 ^ ((64 * n) >>> i) * size n % value m))
      (fun i y _ hy => ⟨_, hy ▸ Mont.squareStep_eq hm hof (64 * n) i, rfl⟩) hstart
    rw [Nat.shiftRight_zero, ← size_eq, ← Nat.pow_two] at hend
    subst hend
    have hnew : Mont.new m = some { g0 with
        one := words n (size n % value m), r2 := words n (size n ^ 2 % value m) } := by
      simp only [Mont.new, hm.trimmedLen, take_of_length_le hm.number.length_eq.le]
      rw [if_pos ⟨hm.pos, hm.odd⟩, if_neg hlarge, hbits, ← hg0, hone, hr2, some_bind, hg0]
    exact ⟨_, hnew, Mont.of_new hm hnew, by rw [hg0], rfl, rfl⟩
  · -- everything is zero modulo one
    obtain ⟨rfl, rfl⟩ := hm.eq_one h1
    have hnew : Mont.new [1] = some g0 := by
      simp only [Mont.new, hm.trimmedLen, take_of_length_le hm.number.length_eq.le]
      rw [if_pos ⟨hm.pos, hm.odd⟩, hg0]
      rfl
    refine ⟨_, hnew, Mont.of_new hm hnew, by rw [hg0], ?_, ?_⟩
    · rw [hg0, value_singleton, Nat.mod_one, words_zero]
    · rw [hg0, value_singleton, Nat.mod_one, words_zero]

lemma sub_two (hm : IsModulus n m) (h1 : 1 < value m) :
    chain sbbFlags m (small n 2) 0 = (words n (value m - 2), 0) := by
  have hsize : 2 < size n := by
    have hm2 := hm.value_odd
    exact hm.lt_size (by omega)
  rw [small_eq hm.pos (by decide)]
  obtain ⟨hborrow, hvalue⟩ := chain_sbbFlags hm.number (number_words n 2) (Nat.zero_le 1)
  have hnumber := chain_number sbbFlags_fst_lt hm.number (number_words n 2) 0
  have hlt := hnumber.value_lt
  rw [value_words hsize] at hvalue
  obtain ⟨⟨d, borrow⟩, hchain⟩ : ∃ r, r = chain sbbFlags m (words n 2) 0 := ⟨_, rfl⟩
  rw [← hchain] at hborrow hvalue hnumber hlt ⊢
  dsimp only at hborrow hvalue hnumber hlt ⊢
  interval_cases borrow
  · rw [eq_words hnumber (by omega : value d = value m - 2)]
  · omega

/-! ## Into Montgomery form and back -/

section

variable {mul : List ℕ → List ℕ → Option (List ℕ)} (hm : IsModulus n m) (hmul : IsMul n m mul)

include hm hmul

lemma toMont_run {u : ℕ} (hu : u < size n) : mul (words n u) (words n (size n ^ 2 % value m)) =
    some (words n (u * size n % value m)) := by
  refine hmul.run hm hu (hm.mod_lt _) ?_
  calc
    u * (size n ^ 2 % value m) ≡ u * size n ^ 2 [MOD value m] := (Nat.mod_modEq _ _).mul_left u
    _ = u * size n * size n := by ring

lemma power_run {u : ℕ} (hu : u < size n) (e : ℕ) :
    mul (words n u) (words n (size n ^ (e + 1) % value m)) =
      some (words n (u * size n ^ e % value m)) := by
  refine hmul.run hm hu (hm.mod_lt _) ?_
  calc
    u * (size n ^ (e + 1) % value m) ≡ u * size n ^ (e + 1) [MOD value m] :=
      (Nat.mod_modEq _ _).mul_left u
    _ = u * size n ^ e * size n := by ring

lemma fromMont_run (h1 : 1 < value m) {u v : ℕ} (hu : u < size n)
    (h : u ≡ v * size n [MOD value m]) :
    mul (words n u) (small n 1) = some (words n (v % value m)) := by
  rw [small_eq hm.pos (by decide)]
  exact hmul.run hm hu h1 (by rwa [mul_one])

lemma round_trip (h1 : 1 < value m) {a : List ℕ} (ha : Number n a) :
    ∃ x, mul a (words n (size n ^ 2 % value m)) = some x ∧
      mul x (small n 1) = some (words n (value a % value m)) := by
  refine ⟨words n (value a * size n % value m), ?_,
    fromMont_run hm hmul h1 (hm.lt_size (hm.mod_lt _)) (Nat.mod_modEq _ _)⟩
  rw [← toMont_run hm hmul ha.value_lt, ← eq_words ha rfl]

end

lemma toArr_words (n v : ℕ) : Modulus.toArr n (words n v) = some (words n v) := by
  rw [Modulus.toArr, if_pos (number_words n v).length_eq.ge,
    take_of_length_le (number_words n v).length_eq.le]

theorem Modulus.new_spec (hm : IsModulus n m) (h1 : 1 < value m) :
    ∃ k, Modulus.new m = some k ∧ k.Valid n m := by
  obtain ⟨g, hg, hvalid⟩ := Mont.new_spec hm
  have hmul := hvalid.toOf.isMul hm
  have hr2 : g.toMont g.one = some (words n (size n ^ 2 % value m)) := by
    rw [Mont.toMont, hvalid.one_eq, hvalid.r2_eq, toMont_run hm hmul (hm.lt_size (hm.mod_lt _)),
      Nat.mod_mul_mod, ← Nat.pow_two]
  have hr3 : g.toMont (words n (size n ^ 2 % value m)) =
      some (words n (size n ^ 3 % value m)) := by
    rw [Mont.toMont, hvalid.r2_eq, toMont_run hm hmul (hm.lt_size (hm.mod_lt _)),
      Nat.mod_mul_mod, ← Nat.pow_succ]
  have hnew : Modulus.new m = some ⟨m, newton (m.headD 0), words n (size n ^ 2 % value m),
      words n (size n ^ 3 % value m), words n (value m - 2)⟩ := by
    simp only [Modulus.new, hm.number.length_eq]
    rw [if_pos ⟨hm.odd, hm.top⟩, hg, some_bind, hr2, some_bind, toArr_words, some_bind, hr3,
      some_bind, toArr_words, some_bind, sub_two hm h1]
    rfl
  exact ⟨_, hnew, Modulus.of_new hnew, rfl, rfl, fun _ => rfl⟩

theorem Modulus.newSecret_spec (hm : IsModulus n m) (hN : 2 * n < 2 ^ 64) :
    ∃ k, Modulus.newSecret m = some k ∧ k.Valid n m := by
  obtain ⟨d, hd⟩ : ∃ d, d = (chain sbbFlags m (small n 2) 0).1 := ⟨_, rfl⟩
  obtain ⟨k0, hk0⟩ : ∃ k0 : Modulus, k0 = ⟨m, newton (m.headD 0), replicate n 0,
    replicate n 0, d⟩ := ⟨_, rfl⟩
  have hof : k0.Of m := by
    rw [hk0]
    exact ⟨rfl, rfl⟩
  have hone : k0.reduceBelowTwice (small n 1) = words n (1 % value m) := by
    have hpos := hm.value_pos
    rw [Modulus.reduceBelowTwice, hof.m_eq, small_eq hm.pos (by decide),
      reduceOnceMask_eq hm.number (number_words n 1) (Nat.zero_le 1)]
    obtain ⟨hr, hvalue⟩ := reduceOnce_spec hm.number (number_words n 1) (c := 0)
      (by rw [value_words hm.one_lt_size]; omega)
    rw [value_words hm.one_lt_size, mul_zero, add_zero] at hvalue
    exact eq_words hr hvalue
  have hr2 : (fun x => k0.add x x)^[128 * n] (words n (1 % value m)) =
      words n (size n ^ 2 % value m) := by
    rw [double_words hm (fun u => hof.add_eq hm (number_words n u) (number_words n u))
      (hm.mod_lt 1), Nat.mul_mod_mod, Nat.mul_one, size_eq, ← Nat.pow_mul,
      (by ring : 128 * n = 64 * n * 2)]
  obtain ⟨k1, hk1⟩ : ∃ k1 : Modulus, k1 = ⟨m, newton (m.headD 0), words n (size n ^ 2 % value m),
    replicate n 0, d⟩ := ⟨_, rfl⟩
  have hof' : k1.Of m := by
    rw [hk1]
    exact ⟨rfl, rfl⟩
  have hr3 : k1.mul (words n (size n ^ 2 % value m)) (words n (size n ^ 2 % value m)) =
      some (words n (size n ^ 3 % value m)) := by
    rw [power_run hm (hof'.isMul hm hN) (hm.lt_size (hm.mod_lt _)) 1, Nat.mod_mul_mod,
      pow_one, ← pow_succ]
  have hnew : Modulus.newSecret m = some { k1 with r3 := words n (size n ^ 3 % value m) } := by
    simp only [Modulus.newSecret, hm.number.length_eq]
    rw [← hd, ← hk0, hone, hr2, ← hk1, hr3, some_bind, hk1]
  refine ⟨_, hnew, Modulus.of_newSecret hnew, by rw [hk1], rfl, fun h1 => ?_⟩
  rw [hk1, hd, sub_two hm h1]

section

variable {k : Modulus} (hm : IsModulus n m) (hN : 2 * n < 2 ^ 64) (hk : k.Valid n m)

include hm hN hk

lemma Modulus.Valid.one_run : k.one = some (words n (size n % value m)) := by
  rw [Modulus.one, Modulus.toMont, hk.m_eq, hm.number.length_eq, hk.r2_eq,
    small_eq hm.pos (by decide), toMont_run hm (hk.toOf.isMul hm hN) hm.one_lt_size, one_mul]

variable (h1 : 1 < value m)

include h1

lemma Modulus.Valid.round_trip (ha : Number n a) :
    (k.toMont a >>= k.fromMont) = some (words n (value a % value m)) := by
  obtain ⟨x, hto, hfrom⟩ := Bignum.round_trip hm (hk.toOf.isMul hm hN) h1 ha
  rw [Modulus.toMont, hk.r2_eq, hto, some_bind, Modulus.fromMont, hk.m_eq,
    hm.number.length_eq, hfrom]

lemma Modulus.Valid.reduceWide {lo hi : List ℕ} (hlo : Number n lo) (hhi : Number n hi) :
    k.reduceWide lo hi = some (words n ((value lo + value hi * size n) % value m)) := by
  have hmul := hk.toOf.isMul hm hN
  have hx := toMont_run hm hmul hlo.value_lt
  have hy := power_run hm hmul hhi.value_lt 2
  rw [← eq_words hlo rfl] at hx
  rw [← eq_words hhi rfl] at hy
  rw [Modulus.reduceWide, hk.r2_eq, hk.r3_eq, hx, some_bind, hy, some_bind,
    hk.toOf.add_eq hm (number_words _ _) (number_words _ _),
    addMod_words hm (hm.mod_lt _) (hm.mod_lt _), Modulus.fromMont, hk.m_eq, hm.number.length_eq]
  refine fromMont_run hm hmul h1 (hm.lt_size (hm.mod_lt _)) ?_
  calc
    (value lo * size n % value m + value hi * size n ^ 2 % value m) % value m
        ≡ value lo * size n + value hi * size n ^ 2 [MOD value m] :=
      (Nat.mod_modEq _ _).trans ((Nat.mod_modEq _ _).add (Nat.mod_modEq _ _))
    _ = (value lo + value hi * size n) * size n := by ring

end

/-- The divisor of `shift_mod`. -/
def normalized (m : List ℕ) : List ℕ := (shiftLeft (leadingZeros (m.getD (m.length - 1) 0)) m 0).1

lemma divStep_words (hm : IsModulus n m) {w : List ℕ} {u0 : ℕ} (hw : Number n w)
    (hu0 : u0 < 2 ^ 64) (hlt : value w + size n * u0 < 2 ^ 64 * value (normalized m)) :
    ∃ q, estimate (normalized m) w u0 = some q ∧
      (value w + size n * u0) / value (normalized m) ≤ q ∧
      q ≤ (value w + size n * u0) / value (normalized m) + 1 ∧
      divStep (normalized m) w u0 =
        some (words n ((value w + size n * u0) % value (normalized m)), 0) := by
  obtain ⟨k, rfl⟩ : ∃ k, n = k + 1 := ⟨n - 1, by have := hm.pos; omega⟩
  obtain ⟨hv, -, hvalue⟩ := shiftLeft_leading hm.number hm.top hm.number (Nat.le_refl _)
  rw [normalized, hm.number.length_eq, Nat.add_sub_cancel] at *
  have htop := normalized_top hm.number hm.top hv hvalue
  generalize (shiftLeft (leadingZeros (m.getD k 0)) m 0).1 = v at *
  obtain ⟨q, -, hq, hlow, hhigh⟩ := estimate_spec hv hw htop hlt
  obtain ⟨r, hr, hnumber, hrvalue⟩ := divStep_spec hv hw hu0 htop hlt
  have hpos : 0 < value v := Nat.pos_of_mul_pos_left (Nat.zero_lt_of_lt hlt)
  refine ⟨q, hq, ?_, ?_, ?_⟩
  · exact Nat.le_of_lt_succ ((Nat.div_lt_iff_lt_mul hpos).2 hlow)
  · rw [← Nat.add_div_right _ hpos]
    exact (Nat.le_div_iff_mul_le hpos).2 hhigh
  · rw [hr, eq_words hnumber hrvalue]

/-- The constants, and what they are for. -/
theorem constants (hm : IsModulus n m) (h1 : 1 < value m) (hN : 8 * n < 2 ^ 63) :
    (newton (m.headD 0) < 2 ^ 64 ∧ (m.headD 0 * newton (m.headD 0) + 1) % 2 ^ 64 = 0) ∧
    (∀ x, Number n x → value x < value m →
      shiftMod m x = some (words n (value x * size n % value m))) ∧
    (∀ w u0, Number n w → u0 < 2 ^ 64 →
      value w + size n * u0 < 2 ^ 64 * value (normalized m) →
      ∃ q, estimate (normalized m) w u0 = some q ∧
        (value w + size n * u0) / value (normalized m) ≤ q ∧
        q ≤ (value w + size n * u0) / value (normalized m) + 1 ∧
        divStep (normalized m) w u0 =
          some (words n ((value w + size n * u0) % value (normalized m)), 0)) ∧
    ∃ f g k s, Field.fromModulus m = some f ∧ Mont.new m = some g ∧ Modulus.new m = some k ∧
      Modulus.newSecret m = some s ∧ f.Valid n m ∧ g.Valid n m ∧ k.Valid n m ∧ s.Valid n m ∧
      k.one = some (words n (size n % value m)) ∧ s.one = some (words n (size n % value m)) ∧
      (∀ a, Number n a →
        (f.toMont a >>= f.fromMont) = some (words n (value a % value m)) ∧
        (g.toMont a >>= g.fromMont) = some (words n (value a % value m)) ∧
        (k.toMont a >>= k.fromMont) = some (words n (value a % value m)) ∧
        (s.toMont a >>= s.fromMont) = some (words n (value a % value m))) ∧
      ∀ lo hi, Number n lo → Number n hi →
        k.reduceWide lo hi = some (words n ((value lo + value hi * size n) % value m)) ∧
        s.reduceWide lo hi = some (words n ((value lo + value hi * size n) % value m)) := by
  have h2N : 2 * n < 2 ^ 64 := by omega
  obtain ⟨f, hf, hfv⟩ := Field.fromModulus_spec hm h1
  obtain ⟨g, hg, hgv⟩ := Mont.new_spec hm
  obtain ⟨k, hk, hkv⟩ := Modulus.new_spec hm h1
  obtain ⟨s, hs, hsv⟩ := Modulus.newSecret_spec hm h2N
  refine ⟨newton_spec hm.odd, fun x hx hlt => ?_,
    fun w u0 hw hu0 hlt => divStep_words hm hw hu0 hlt,
    f, g, k, s, hf, hg, hk, hs, hfv, hgv, hkv, hsv, hkv.one_run hm h2N, hsv.one_run hm h2N,
    fun a ha => ⟨?_, ?_, hkv.round_trip hm h2N h1 ha, hsv.round_trip hm h2N h1 ha⟩,
    fun lo hi hlo hhi => ⟨hkv.reduceWide hm h2N h1 hlo hhi, hsv.reduceWide hm h2N h1 hlo hhi⟩⟩
  · rw [← shiftMod_words hm hlt, ← eq_words hx rfl]
  · obtain ⟨x, hto, hfrom⟩ := Bignum.round_trip hm (hfv.toOf.isMul hm h2N) h1 ha
    rw [Field.toMont, hfv.r2_eq, hto, some_bind, Field.fromMont, hfv.m_eq,
      hm.number.length_eq, hfrom]
  · obtain ⟨x, hto, hfrom⟩ := Bignum.round_trip hm (hgv.toOf.isMul hm) h1 ha
    rw [Mont.toMont, hgv.r2_eq, hto, some_bind, Mont.fromMont, hgv.n_eq, hfrom]

theorem constants_P256 : ∃ f k, Field.fromModulus P256 = some f ∧ Modulus.new P256 = some k ∧
    f.Valid 4 P256 ∧ k.Valid 4 P256 ∧
    (f.toMont [7, 0, 0, 0] >>= f.fromMont) = some (words 4 (value [7, 0, 0, 0] % value P256)) := by
  have hm : IsModulus 4 P256 := ⟨number_P256, by decide, by decide⟩
  obtain ⟨-, -, -, f, g, k, s, hf, -, hk, -, hfv, -, hkv, -, -, -, hround, -⟩ :=
    constants hm (by decide) (by decide)
  exact ⟨f, k, hf, hk, hfv, hkv, (hround [7, 0, 0, 0] ⟨rfl, by decide⟩).1⟩

end Lazaret.Bignum
