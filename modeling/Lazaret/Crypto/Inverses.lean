import Lazaret.Crypto.MontConstants

/-!
# Inverses by the binary Euclidean algorithm

`inv_vartime` of `bignum.rs`.  Of the four values `u`, `v`, `x1` and `x2` the loop keeps `x1 a = u`
and `x2 a = v` modulo `m` and the divisor that `u` and `v` have in common, which is odd (`Pair`); a
turn lowers their sum, so with more turns allowed than that sum the loop ends (`invLoop_spec`).
-/

namespace Lazaret.Bignum

open Multiword List
open Words (adc)

/-! ## The code -/

namespace Field

variable (f : Field)

def halve (x : List ℕ) : List ℕ :=
  let (x, carry) := if x.headD 0 &&& 1 = 1 then
    let (sum, carry) := chain adc x f.m 0
    (sum, carry != 0)
  else (x, false)
  shiftRightOne carry.toNat x

/-- A number shifted right while it is even, and what goes with it halved; the turns allowed come
first. -/
def halveEven : ℕ → List ℕ → List ℕ → Option (List ℕ × List ℕ)
  | 0, _, _ => none
  | fuel + 1, u, x =>
    if u.headD 0 &&& 1 = 0 then halveEven fuel (shiftRightOne 0 u) (f.halve x) else some (u, x)

def isZero (a : List ℕ) : Bool := a.all (· == 0)

/-- The loop of `inv_vartime`. -/
def invLoop : ℕ → List ℕ → List ℕ → List ℕ → List ℕ → Option (List ℕ)
  | 0, _, _, _, _ => none
  | fuel + 1, u, v, x1, x2 =>
    let one := small f.m.length 1
    if u ≠ one ∧ v ≠ one then
      if isZero u || isZero v then some (List.replicate f.m.length 0)
      else do
        let (u, x1) ← f.halveEven (fuel + 1) u x1
        let (v, x2) ← f.halveEven (fuel + 1) v x2
        if Multiword.cmp u v != .lt then invLoop fuel (subBorrow u v).1 v (f.sub x1 x2) x2
        else invLoop fuel u (subBorrow v u).1 x1 (f.sub x2 x1)
    else some (if u = one then x1 else x2)

def invVartime (fuel : ℕ) (a : List ℕ) : Option (List ℕ) :=
  f.invLoop fuel a f.m (small f.m.length 1) (List.replicate f.m.length 0)

end Field

/-! ## The operations by values -/

variable {n : ℕ} {m a : List ℕ} {f : Field} {u v x : ℕ}

lemma words_inj (hu : u < size n) (hv : v < size n) : words n u = words n v ↔ u = v := by
  refine ⟨fun h => ?_, fun h => h ▸ rfl⟩
  rw [← value_words hu, ← value_words hv, h]

lemma words_mod_two (hn : 0 < n) (u : ℕ) : (words n u).headD 0 &&& 1 = u % 2 := by
  obtain ⟨k, rfl⟩ : ∃ k, n = k + 1 := ⟨n - 1, by omega⟩
  rw [words, headD_cons, Nat.and_one_is_mod]
  omega

lemma isZero_words (hu : u < size n) : Field.isZero (words n u) = (u == 0) := by
  rw [Bool.eq_iff_iff, beq_iff_eq, Field.isZero, all_eq_true]
  constructor
  · intro h
    have hzero : words n u = words n 0 := by
      rw [words_zero]
      exact eq_replicate_iff.2 ⟨(number_words n u).length_eq, fun y hy => eq_of_beq (h y hy)⟩
    exact (words_inj hu (size_pos n)).1 hzero
  · rintro rfl y hy
    rw [words_zero] at hy
    exact beq_iff_eq.2 (eq_of_mem_replicate hy)

lemma shiftRightOne_words {c : ℕ} (hu : u < size n) (hc : c ≤ 1) :
    shiftRightOne c (words n u) = words n ((u + size n * c) / 2) := by
  obtain ⟨hnumber, hvalue⟩ := shiftRightOne_spec (number_words n u) hc
  rw [value_words hu] at hvalue
  exact eq_words hnumber hvalue

lemma subBorrow_words (hu : u < size n) (hv : v < size n) :
    subBorrow (words n u) (words n v) = (words n ((u + size n - v) % size n), decide (u < v)) := by
  obtain ⟨hborrow, hvalue⟩ := chain_sbbFlags (number_words n u) (number_words n v) (Nat.zero_le 1)
  have hnumber := chain_number sbbFlags_fst_lt (number_words n u) (number_words n v) 0
  have hlt := hnumber.value_lt
  rw [value_words hu, value_words hv] at hvalue
  obtain ⟨⟨d, borrow⟩, hchain⟩ : ∃ r, r = chain sbbFlags (words n u) (words n v) 0 := ⟨_, rfl⟩
  rw [subBorrow, ← hchain]
  rw [← hchain] at hborrow hvalue hnumber hlt
  dsimp only at hborrow hvalue hnumber hlt ⊢
  interval_cases borrow
  · rw [decide_eq_false (by omega), (by omega : u + size n - v = u - v + size n),
      Nat.add_mod_right, Nat.mod_eq_of_lt (by omega), eq_words hnumber (by omega : value d = u - v)]
    rfl
  · rw [decide_eq_true (by omega), Nat.mod_eq_of_lt (by omega),
      eq_words hnumber (by omega : value d = u + size n - v)]
    rfl

lemma subBorrow_of_le (hu : u < size n) (hle : v ≤ u) :
    (subBorrow (words n u) (words n v)).1 = words n (u - v) := by
  rw [subBorrow_words hu (hle.trans_lt hu), (by omega : u + size n - v = u - v + size n),
    Nat.add_mod_right, Nat.mod_eq_of_lt (by omega)]

lemma cmp_words (hu : u < size n) (hv : v < size n) :
    (Multiword.cmp (words n u) (words n v) != .lt) = decide (v ≤ u) := by
  rw [Bool.eq_iff_iff, bne_iff_ne, cmp_ne_lt (number_words n u) (number_words n v), value_words hu,
    value_words hv, decide_eq_true_iff]

def halfMod (m x : ℕ) : ℕ := if x % 2 = 1 then (x + m) / 2 else x / 2

lemma halfMod_spec {m : ℕ} (hodd : m % 2 = 1) (hx : x < m) :
    halfMod m x < m ∧ 2 * halfMod m x ≡ x [MOD m] := by
  rw [halfMod]
  split
  · have h2 : 2 * ((x + m) / 2) = x + m := by omega
    rw [h2]
    exact ⟨by omega, Nat.add_modEq_right⟩
  · have h2 : 2 * (x / 2) = x := by omega
    rw [h2]
    exact ⟨by omega, Nat.ModEq.refl x⟩

lemma Field.Of.halve_words (hm : IsModulus n m) (hf : f.Of m) (hx : x < value m) :
    f.halve (words n x) = words n (halfMod (value m) x) := by
  have hxs := hm.lt_size hx
  rw [Field.halve, words_mod_two hm.pos, halfMod, hf.m_eq]
  by_cases hodd : x % 2 = 1
  · rw [if_pos hodd, if_pos hodd]
    obtain ⟨hcarry, hsum⟩ := chain_adc (number_words n x) hm.number (Nat.zero_le 1)
    have hnumber := chain_number adc_fst_lt (number_words n x) hm.number 0
    rw [value_words hxs, add_zero] at hsum
    obtain ⟨⟨s, c⟩, hchain⟩ : ∃ r, r = chain adc (words n x) m 0 := ⟨_, rfl⟩
    rw [← hchain] at hcarry hsum hnumber ⊢
    dsimp only at hcarry hsum hnumber ⊢
    have hc : (c != 0).toNat = c := by
      interval_cases c <;> rfl
    rw [hc, eq_words hnumber rfl, shiftRightOne_words hnumber.value_lt hcarry, hsum]
  · rw [if_neg hodd, if_neg hodd]
    exact (shiftRightOne_words hxs (Nat.zero_le 1)).trans (by rw [Nat.mul_zero, Nat.add_zero])

def subMod (m x y : ℕ) : ℕ := if x < y then x + m - y else x - y

lemma subMod_spec {m y : ℕ} (hx : x < m) (hy : y < m) :
    subMod m x y < m ∧ subMod m x y + y ≡ x [MOD m] := by
  rw [subMod]
  split
  · have hsum : x + m - y + y = x + m := by omega
    rw [hsum]
    exact ⟨by omega, Nat.add_modEq_right⟩
  · have hsum : x - y + y = x := by omega
    rw [hsum]
    exact ⟨by omega, Nat.ModEq.refl x⟩

lemma Field.Of.sub_words (hm : IsModulus n m) (hf : f.Of m) {y : ℕ} (hx : x < value m)
    (hy : y < value m) : f.sub (words n x) (words n y) = words n (subMod (value m) x y) := by
  have hmlt := hm.number.value_lt
  rw [Field.sub, subBorrow_words (hm.lt_size hx) (hm.lt_size hy), subMod, hf.m_eq]
  by_cases hlt : x < y
  · have hmod : (x + size n - y) % size n = x + size n - y := Nat.mod_eq_of_lt (by omega)
    simp only [decide_eq_true hlt, if_true, if_pos hlt, hmod]
    obtain ⟨hcarry, hsum⟩ := chain_adc (number_words n (x + size n - y)) hm.number (Nat.zero_le 1)
    have hnumber := chain_number adc_fst_lt (number_words n (x + size n - y)) hm.number 0
    have hvlt := hnumber.value_lt
    rw [value_words (by omega)] at hsum
    obtain ⟨⟨s, c⟩, hchain⟩ : ∃ r, r = chain adc (words n (x + size n - y)) m 0 := ⟨_, rfl⟩
    rw [← hchain] at hcarry hsum hnumber hvlt ⊢
    dsimp only at hcarry hsum hnumber hvlt ⊢
    refine eq_words hnumber ?_
    interval_cases c
    · omega
    · omega
  · simp only [decide_eq_false hlt, Bool.false_eq_true, if_false, if_neg hlt]
    rw [(by omega : x + size n - y = x - y + size n), Nat.add_mod_right,
      Nat.mod_eq_of_lt (by omega)]

/-! ## The loops -/

structure Times (m a u x : ℕ) : Prop where
  lt : x < m
  modEq : x * a ≡ u [MOD m]

lemma Times.half {M a : ℕ} (hodd : M % 2 = 1) (h : Times M a u x) (heven : u % 2 = 0) :
    Times M a (u / 2) (halfMod M x) := by
  obtain ⟨hlt, hhalf⟩ := halfMod_spec hodd h.lt
  refine ⟨hlt, Nat.ModEq.cancel_left_of_coprime (c := 2) ?_ ?_⟩
  · exact Nat.coprime_two_right.2 (Nat.odd_iff.2 hodd)
  · calc
      2 * (halfMod M x * a) = 2 * halfMod M x * a := (mul_assoc _ _ _).symm
      _ ≡ x * a [MOD M] := hhalf.mul_right a
      _ ≡ u [MOD M] := h.modEq
      _ = 2 * (u / 2) := by omega

lemma Times.sub {M a y : ℕ} (h : Times M a u x) (h' : Times M a v y) (hle : v ≤ u) :
    Times M a (u - v) (subMod M x y) := by
  obtain ⟨hlt, hsub⟩ := subMod_spec h.lt h'.lt
  refine ⟨hlt, Nat.ModEq.add_right_cancel h'.modEq ?_⟩
  calc
    subMod M x y * a + y * a = (subMod M x y + y) * a := (add_mul _ _ _).symm
    _ ≡ x * a [MOD M] := hsub.mul_right a
    _ ≡ u [MOD M] := h.modEq
    _ = u - v + v := (Nat.sub_add_cancel hle).symm

lemma halveEven_spec (hm : IsModulus n m) (hf : f.Of m) {A g : ℕ} (hu : u < size n) (hpos : 0 < u)
    (h : Times (value m) A u x) {w : ℕ} (hg : Nat.gcd u w = g) (hodd : g % 2 = 1) {fuel : ℕ}
    (hfuel : u < fuel) : ∃ u' x', f.halveEven fuel (words n u) (words n x) =
      some (words n u', words n x') ∧ u' % 2 = 1 ∧ u' ≤ u ∧ Times (value m) A u' x' ∧
        Nat.gcd u' w = g := by
  induction fuel generalizing u x with
  | zero => exact absurd hfuel (Nat.not_lt_zero u)
  | succ fuel ih =>
    rw [Field.halveEven, words_mod_two hm.pos]
    by_cases heven : u % 2 = 0
    · -- the other value is odd, since the common divisor is
      have hcop : Nat.Coprime 2 w := by
        refine Nat.coprime_two_left.2 (Nat.odd_iff.2 ?_)
        by_contra hw
        have hdvd : 2 ∣ g := hg ▸ Nat.dvd_gcd (Nat.dvd_of_mod_eq_zero heven)
          (Nat.dvd_of_mod_eq_zero (by omega))
        omega
      have hgcd : Nat.gcd (u / 2) w = g := by
        rw [← hg, ← Nat.Coprime.gcd_mul_left_cancel (u / 2) hcop,
          Nat.mul_div_cancel' (Nat.dvd_of_mod_eq_zero heven)]
      rw [if_pos heven, shiftRightOne_words hu (Nat.zero_le 1), Nat.mul_zero, Nat.add_zero,
        hf.halve_words hm h.lt]
      obtain ⟨u', x', hrun, hodd', hle, htimes, hgcd'⟩ := ih (u := u / 2) (by omega) (by omega)
        (h.half hm.value_odd heven) hgcd (by omega)
      exact ⟨u', x', hrun, hodd', by omega, htimes, hgcd'⟩
    · rw [if_neg heven]
      exact ⟨u, x, rfl, by omega, le_refl u, h, hg⟩

/-- What the loop returns: the inverse, or zero where there is none. -/
def IsInverse (n M A : ℕ) (r : List ℕ) : Prop :=
  (Nat.gcd A M = 1 → ∃ x < M, r = words n x ∧ A * x ≡ 1 [MOD M]) ∧
    (Nat.gcd A M ≠ 1 → r = words n 0)

lemma Times.isInverse {M A : ℕ} (h : Times M A 1 x) (hgcd : Nat.gcd A M = 1) :
    IsInverse n M A (words n x) :=
  ⟨fun _ => ⟨x, h.lt, rfl, mul_comm A x ▸ h.modEq⟩, fun hne => absurd hgcd hne⟩

theorem invLoop_spec (hm : IsModulus n m) (hf : f.Of m) {A y : ℕ} (hu : u < size n)
    (hv : v < size n) (hx : Times (value m) A u x) (hy : Times (value m) A v y)
    (hgcd : Nat.gcd u v = Nat.gcd A (value m)) {fuel : ℕ} (hfuel : u + v < fuel) :
    ∃ r, f.invLoop fuel (words n u) (words n v) (words n x) (words n y) = some r ∧
      IsInverse n (value m) A r := by
  induction fuel generalizing u v x y with
  | zero => exact absurd hfuel (Nat.not_lt_zero _)
  | succ fuel ih =>
    have hone := hm.one_lt_size
    simp only [Field.invLoop, hf.m_eq, hm.number.length_eq,
      small_eq hm.pos (by decide : 1 < 2 ^ 64),
      ne_eq, words_inj hu hone, words_inj hv hone, isZero_words hu, isZero_words hv,
      Bool.or_eq_true, beq_iff_eq]
    by_cases hnone : ¬ u = 1 ∧ ¬ v = 1
    · rw [if_pos hnone]
      by_cases hzero : u = 0 ∨ v = 0
      · rw [if_pos hzero, ← words_zero]
        refine ⟨_, rfl, fun h1 => ?_, fun _ => rfl⟩
        rw [← hgcd] at h1
        obtain rfl | rfl := hzero
        · rw [Nat.gcd_zero_left] at h1
          exact absurd h1 hnone.2
        · rw [Nat.gcd_zero_right] at h1
          exact absurd h1 hnone.1
      · rw [if_neg hzero]
        have hodd : Nat.gcd A (value m) % 2 = 1 := by
          by_contra heven
          have hdvd : 2 ∣ value m :=
            (Nat.dvd_of_mod_eq_zero (by omega)).trans (Nat.gcd_dvd_right A (value m))
          have := hm.value_odd
          omega
        obtain ⟨u', x', hrun, hu2, hule, hx', hgcd'⟩ := halveEven_spec hm hf hu (by omega) hx
          hgcd hodd (show u < fuel + 1 by omega)
        rw [Nat.gcd_comm] at hgcd'
        obtain ⟨v', y', hrun', hv2, hvle, hy', hgcd''⟩ := halveEven_spec hm hf hv (by omega) hy
          hgcd' hodd (show v < fuel + 1 by omega)
        rw [hrun, some_bind]
        dsimp only
        rw [hrun', some_bind]
        dsimp only
        rw [cmp_words (by omega) (by omega)]
        by_cases hle : v' ≤ u'
        · rw [if_pos (decide_eq_true hle), subBorrow_of_le (by omega) hle,
            hf.sub_words hm hx'.lt hy'.lt]
          refine ih (by omega) (by omega) (hx'.sub hy' hle) hy' ?_ (by omega)
          rw [Nat.gcd_comm, Nat.gcd_sub_self_right hle, hgcd'']
        · rw [if_neg (by rw [decide_eq_true_iff]; exact hle),
            subBorrow_of_le (by omega) (by omega : u' ≤ v'), hf.sub_words hm hy'.lt hx'.lt]
          refine ih (by omega) (by omega) hx' (hy'.sub hx' (by omega)) ?_ (by omega)
          rw [Nat.gcd_sub_self_right (by omega), Nat.gcd_comm, hgcd'']
    · rw [if_neg hnone]
      by_cases hu1 : u = 1
      · subst hu1
        rw [if_pos rfl]
        rw [Nat.gcd_one_left] at hgcd
        exact ⟨_, rfl, hx.isInverse hgcd.symm⟩
      · have hv1 : v = 1 := by
          by_contra hv1
          exact hnone ⟨hu1, hv1⟩
        subst hv1
        rw [if_neg hu1]
        rw [Nat.gcd_one_right] at hgcd
        exact ⟨_, rfl, hy.isInverse hgcd.symm⟩

theorem invVartime_spec (hm : IsModulus n m) (hf : f.Of m) (ha : Number n a)
    (hlt : value a < value m) {fuel : ℕ} (hfuel : value a + value m < fuel) :
    ∃ r, f.invVartime fuel a = some r ∧ IsInverse n (value m) (value a) r := by
  have hrun : f.invVartime fuel a = f.invLoop fuel (words n (value a)) (words n (value m))
      (words n 1) (words n 0) := by
    rw [Field.invVartime, hf.m_eq, hm.number.length_eq, small_eq hm.pos (by decide), words_zero,
      ← eq_words ha rfl, ← eq_words hm.number rfl]
  rw [hrun]
  have hy : Times (value m) (value a) (value m) 0 := by
    refine ⟨hm.value_pos, ?_⟩
    rw [zero_mul]
    exact (Nat.modEq_zero_iff_dvd.2 (Nat.dvd_refl _)).symm
  by_cases h1 : 1 < value m
  · have hx : Times (value m) (value a) (value a) 1 := ⟨h1, by rw [one_mul]⟩
    exact invLoop_spec hm hf (hm.lt_size hlt) hm.number.value_lt hx hy rfl hfuel
  · -- modulo one there is nothing to do
    have hm1 : value m = 1 := by
      have := hm.value_pos
      omega
    have ha0 : value a = 0 := by omega
    obtain ⟨fuel, rfl⟩ : ∃ k, fuel = k + 1 := ⟨fuel - 1, by omega⟩
    rw [hm1] at hy ⊢
    rw [ha0] at hy ⊢
    refine ⟨words n 0, ?_, hy.isInverse (by rw [Nat.gcd_zero_left])⟩
    rw [Field.invLoop, hf.m_eq, hm.number.length_eq, small_eq hm.pos (by decide)]
    rw [if_neg (fun h => h.2 rfl),
      if_neg (fun h => absurd ((words_inj (size_pos n) hm.one_lt_size).1 h) (by decide))]

end Lazaret.Bignum
