import Lazaret.Lib.Multiword
import Mathlib.Data.Nat.Prime.Basic

/-!
# Montgomery products by rows

The products of `bignum.rs` and `ct_mod.rs` that go row by row: each limb of `b` times `a` is added,
then the multiple of the modulus that clears the lowest limb, which is shifted out.  Rows one after
the other make a number `T` with `T R = a b + q m` for some `q` below `R` (`rows_spec`), which one
subtraction reduces (`Reduced`).
-/

namespace Lazaret.Bignum

open Multiword List Words
open Words (fits adc)

/-! ## The code -/

def newtonStep (m0 inv : ℕ) : ℕ := inv * Words.wrappingSub 64 2 (m0 * inv % 2 ^ 64) % 2 ^ 64

/-- `-m^-1 mod 2^64` -/
def newton (m0 : ℕ) : ℕ :=
  let inv := (List.range 6).foldl (fun inv _ => newtonStep m0 inv) 1
  (2 ^ 64 - inv) % 2 ^ 64

/-- A limb of `b`: the lowest limbs and the one above them. -/
def rowStep (m : List ℕ) (m0inv : ℕ) (a : List ℕ) (st : List ℕ × ℕ) (bi : ℕ) :
    Option (List ℕ × ℕ) := do
  let (t, tn) := st
  let (t, c) ← mulAdd bi t a 0
  let s ← fits 128 (tn + c)
  let tn := s % 2 ^ 64
  let tn1 := s >>> 64 % 2 ^ 64
  let q := t.headD 0 * m0inv % 2 ^ 64
  let s ← fits 128 (t.headD 0 + q * m.headD 0)
  let (t, c) ← mulAdd q t.tail m.tail (s >>> 64)
  let s ← fits 128 (tn + c)
  let tn ← fits 64 (tn1 + s >>> 64 % 2 ^ 64)
  some (t ++ [s % 2 ^ 64], tn)

def rows (m : List ℕ) (m0inv : ℕ) (a b : List ℕ) : Option (List ℕ × ℕ) :=
  b.foldlM (rowStep m m0inv a) (List.replicate m.length 0, 0)

def P256 : List ℕ := [2 ^ 64 - 1, 0x00000000ffffffff, 0, 0xffffffff00000001]

/-- A limb of `b` in `mul_p256`. -/
def rowStepP256 (a : List ℕ) (st : List ℕ × ℕ) (bi : ℕ) : Option (List ℕ × ℕ) := do
  let (t, tn) := st
  let (t, c) ← mulAdd bi t a 0
  let s ← fits 128 (tn + c)
  let tn := s % 2 ^ 64
  let tn1 := s >>> 64 % 2 ^ 64
  let q := t.getD 0 0
  let s ← fits 128 (t.getD 1 0 + q <<< 32)
  let t0 := s % 2 ^ 64
  let s ← fits 128 (t.getD 2 0 + s >>> 64)
  let t1 := s % 2 ^ 64
  let s ← fits 128 (t.getD 3 0 + q * P256.getD 3 0 + s >>> 64)
  let t2 := s % 2 ^ 64
  let s ← fits 128 (tn + s >>> 64)
  let tn ← fits 64 (tn1 + s >>> 64 % 2 ^ 64)
  some ([t0, t1, t2, s % 2 ^ 64], tn)

def subBorrow (a b : List ℕ) : List ℕ × Bool :=
  let (d, borrow) := chain sbbFlags a b 0
  (d, borrow != 0)

def reduceOnce (m t : List ℕ) (carry : Bool) : List ℕ :=
  let (d, borrow) := subBorrow t m
  if carry || !borrow then d else t

def maskOf (bit : ℕ) : ℕ := Words.wrappingSub 64 0 (bit &&& 1)

def select (mask : ℕ) (a b : List ℕ) : List ℕ :=
  List.zipWith (fun x y => x &&& mask ||| y &&& Words.complement 64 mask) a b

def reduceOnceMask (m t : List ℕ) (carry : ℕ) : List ℕ :=
  let (d, borrow) := chain sbbFlags t m 0
  select (maskOf (carry ||| borrow ^^^ 1)) d t

def mulP256 (a b : List ℕ) : Option (List ℕ) := do
  let (t, tn) ← b.foldlM (rowStepP256 a) (List.replicate 4 0, 0)
  some (reduceOnce P256 t (tn != 0))

/-! ## Newton's iteration -/

lemma newton_step {m0 inv k : ℕ} (h : (2 : ℤ) ^ k ∣ 1 - m0 * inv) (hk : 2 * k ≤ 64) :
    (2 : ℤ) ^ (2 * k) ∣ 1 - m0 * newtonStep m0 inv := by
  obtain ⟨w, hw⟩ : ∃ w, w = Words.wrappingSub 64 2 (m0 * inv % 2 ^ 64) := ⟨_, rfl⟩
  have hdiff : (2 : ℤ) ^ 64 ∣ w - (2 - m0 * inv) := by
    rw [hw, Words.wrappingSub, ← Nat.cast_mul]
    generalize m0 * inv = p
    omega
  have hstep : (2 : ℤ) ^ 64 ∣ (inv * w % 2 ^ 64 : ℕ) - inv * w := by
    rw [← Nat.cast_mul]
    generalize inv * w = p
    omega
  have hpow : (2 : ℤ) ^ (2 * k) ∣ 2 ^ 64 := pow_dvd_pow 2 hk
  have hsquare : (2 : ℤ) ^ (2 * k) ∣ (1 - m0 * inv) ^ 2 := by
    rw [mul_comm, pow_mul]
    exact pow_dvd_pow_of_dvd h 2
  rw [newtonStep, ← hw]
  have hsum : 1 - (m0 : ℤ) * (inv * w % 2 ^ 64 : ℕ) = (1 - m0 * inv) ^ 2 -
      m0 * (((inv * w % 2 ^ 64 : ℕ) - inv * w) + inv * (w - (2 - m0 * inv))) := by
    ring
  rw [hsum]
  exact dvd_sub hsquare (Dvd.dvd.mul_left (dvd_add (hpow.trans hstep)
    (Dvd.dvd.mul_left (hpow.trans hdiff) _)) _)

theorem newton_spec {m0 : ℕ} (hodd : m0 % 2 = 1) :
    newton m0 < 2 ^ 64 ∧ (m0 * newton m0 + 1) % 2 ^ 64 = 0 := by
  have hsteps : ∀ n ≤ 6, (range n).foldl (fun inv _ => newtonStep m0 inv) 1 < 2 ^ 64 ∧
      (2 : ℤ) ^ 2 ^ n ∣ 1 - m0 * ((range n).foldl (fun inv _ => newtonStep m0 inv) 1 : ℕ) := by
    intro n hn
    induction n with
    | zero =>
      rw [range_zero, foldl_nil]
      refine ⟨by decide, ?_⟩
      push_cast
      omega
    | succ n ih =>
      have hsucc : 2 ^ (n + 1) = 2 * 2 ^ n := Nat.pow_succ'
      have hpow : 2 * 2 ^ n ≤ 64 :=
        hsucc ▸ (Nat.pow_le_pow_right (by decide) hn).trans (by decide)
      rw [range_succ, foldl_append, foldl_cons, foldl_nil, hsucc]
      exact ⟨Nat.mod_lt _ (by decide), newton_step (ih (by omega)).2 hpow⟩
  obtain ⟨hlt, hall⟩ := hsteps 6 (le_refl 6)
  rw [newton]
  generalize (range 6).foldl (fun inv _ => newtonStep m0 inv) 1 = inv at *
  refine ⟨Nat.mod_lt _ (by decide), ?_⟩
  obtain ⟨x, hx⟩ : ∃ x, x = (2 ^ 64 - inv) % 2 ^ 64 := ⟨_, rfl⟩
  have hneg : (2 : ℤ) ^ 64 ∣ x + inv := by omega
  have hsum : (m0 : ℤ) * x + 1 = m0 * (x + inv) + (1 - m0 * inv) := by ring
  have hdvd : (2 : ℤ) ^ 64 ∣ m0 * x + 1 := by
    rw [hsum]
    exact dvd_add (Dvd.dvd.mul_left hneg _) hall
  rw [← hx]
  exact Nat.mod_eq_zero_of_dvd (by exact_mod_cast hdvd)

/-! ## Rows -/

/-- What a row leaves: with a multiple of the modulus, its limbs and the one above them are a limb
lower. -/
structure Row (n A M : ℕ) (st : List ℕ × ℕ) (bi : ℕ) (st' : List ℕ × ℕ) : Prop where
  number : Number n st'.1
  value_mul : ∃ q < 2 ^ 64,
    (value st'.1 + size n * st'.2) * 2 ^ 64 = value st.1 + size n * st.2 + A * bi + q * M

lemma some_bind {α β : Type} (x : α) (f : α → Option β) : (some x >>= f) = f x := rfl

lemma clears {m0 m0inv : ℕ} (hinv : (m0 * m0inv + 1) % 2 ^ 64 = 0) (t : ℕ) :
    2 ^ 64 ∣ t + t * m0inv % 2 ^ 64 * m0 := by
  have hsum : t + t * m0inv % 2 ^ 64 * m0 + 2 ^ 64 * (t * m0inv / 2 ^ 64 * m0) =
      t * (m0 * m0inv + 1) := by
    have := Nat.mod_add_div (t * m0inv) (2 ^ 64)
    linear_combination m0 * this
  exact (Nat.dvd_add_left (Dvd.intro _ rfl)).1
    (hsum ▸ Dvd.dvd.mul_left (Nat.dvd_of_mod_eq_zero hinv) t)

variable {n : ℕ} {m a b : List ℕ} {m0inv : ℕ} {st : List ℕ × ℕ} {bi : ℕ}

theorem rowStep_spec (hm : Number (n + 1) m) (hinv : (m.headD 0 * m0inv + 1) % 2 ^ 64 = 0)
    (ha : Number (n + 1) a) (ht : Number (n + 1) st.1) (htn : st.2 < 2 ^ 64) (hbi : bi < 2 ^ 64) :
    ∃ st', rowStep m m0inv a st bi = some st' ∧ st'.2 < 2 ^ 64 ∧
      Row (n + 1) (value a) (value m) st bi st' := by
  obtain ⟨t, tn⟩ := st
  obtain ⟨t', c, hrun, ht', hc, hvalue⟩ := mulAdd_spec ht ha hbi (c := 0) (by decide)
  cases t' with
  | nil => exact absurd ht'.length_eq (Nat.succ_ne_zero n).symm
  | cons t0 ts =>
    cases m with
    | nil => exact absurd hm.length_eq (Nat.succ_ne_zero n).symm
    | cons m0 ms =>
      obtain ⟨ht0, hts⟩ := number_cons.1 ht'
      obtain ⟨hm0, hms⟩ := number_cons.1 hm
      dsimp only at htn hvalue
      rw [headD_cons] at hinv
      obtain ⟨q, hq⟩ : ∃ q, q = t0 * m0inv % 2 ^ 64 := ⟨_, rfl⟩
      have hqlt : q < 2 ^ 64 := hq ▸ Nat.mod_lt _ (by decide)
      have hmul : q * m0 ≤ (2 ^ 64 - 1) * (2 ^ 64 - 1) :=
        Nat.mul_le_mul (Nat.le_sub_one_of_lt hqlt) (Nat.le_sub_one_of_lt hm0)
      have hclear : t0 + q * m0 = 2 ^ 64 * ((t0 + q * m0) / 2 ^ 64) :=
        (Nat.mul_div_cancel' (hq ▸ clears hinv t0)).symm
      have hcarry : (t0 + q * m0) >>> 64 < 2 ^ 64 := by
        rw [Nat.shiftRight_eq_div_pow]
        omega
      obtain ⟨rs, c', hrun', hrs, hc', hvalue'⟩ := mulAdd_spec hts hms hqlt hcarry
      rw [Nat.shiftRight_eq_div_pow] at hvalue'
      obtain ⟨s, hs⟩ : ∃ s, s = tn + c := ⟨_, rfl⟩
      obtain ⟨u, hu⟩ : ∃ u, u = s % 2 ^ 64 + c' := ⟨_, rfl⟩
      have hdiv : s >>> 64 % 2 ^ 64 = s / 2 ^ 64 := by
        rw [Nat.shiftRight_eq_div_pow]
        omega
      have hdiv' : u >>> 64 % 2 ^ 64 = u / 2 ^ 64 := by
        rw [Nat.shiftRight_eq_div_pow]
        omega
      refine ⟨(rs ++ [u % 2 ^ 64], s / 2 ^ 64 + u / 2 ^ 64), ?_, by dsimp only; omega,
        hrs.append (Number.singleton (Nat.mod_lt u (by decide))), q, hqlt, ?_⟩
      · simp only [rowStep]
        rw [hrun, some_bind]
        simp only [headD_cons, tail_cons, ← hq]
        rw [fits_bind (by omega), ← hs, fits_bind (by omega), hrun', some_bind]
        simp only [← hu, hdiv]
        rw [fits_bind (by omega), hdiv', fits_bind (by omega)]
      · have hsdiv := Nat.mod_add_div s (2 ^ 64)
        have hudiv := Nat.mod_add_div u (2 ^ 64)
        rw [value_cons] at hvalue
        rw [value_append, value_singleton, hrs.length_eq, value_cons, size_succ]
        rw [size_succ] at hvalue
        rw [← hsdiv] at hs
        dsimp only
        zify at *
        linear_combination 2 ^ 64 * hvalue' + hvalue +
          2 ^ 64 * size n * (hudiv + hu + hs) - hclear

lemma number_P256 : Number 4 P256 := ⟨rfl, by decide⟩

theorem rowStepP256_spec (ha : Number 4 a) (ht : Number 4 st.1) (htn : st.2 < 2 ^ 64)
    (hbi : bi < 2 ^ 64) : ∃ st', rowStepP256 a st bi = some st' ∧ st'.2 < 2 ^ 64 ∧
      Row 4 (value a) (value P256) st bi st' := by
  obtain ⟨t, tn⟩ := st
  obtain ⟨t', c, hrun, ht', hc, hvalue⟩ := mulAdd_spec ht ha hbi (c := 0) (by decide)
  obtain ⟨x0, x1, x2, x3, rfl⟩ : ∃ x0 x1 x2 x3, t' = [x0, x1, x2, x3] :=
    length_eq_four.1 ht'.length_eq
  obtain ⟨h0, ht'⟩ := number_cons.1 ht'
  obtain ⟨h1, ht'⟩ := number_cons.1 ht'
  obtain ⟨h2, ht'⟩ := number_cons.1 ht'
  obtain ⟨h3, -⟩ := number_cons.1 ht'
  dsimp only at htn hvalue
  obtain ⟨s, hs⟩ : ∃ s, s = tn + c := ⟨_, rfl⟩
  obtain ⟨s1, hs1⟩ : ∃ s1, s1 = x1 + x0 * 2 ^ 32 := ⟨_, rfl⟩
  obtain ⟨s2, hs2⟩ : ∃ s2, s2 = x2 + s1 / 2 ^ 64 := ⟨_, rfl⟩
  obtain ⟨s3, hs3⟩ : ∃ s3, s3 = x3 + x0 * 0xffffffff00000001 + s2 / 2 ^ 64 := ⟨_, rfl⟩
  obtain ⟨s4, hs4⟩ : ∃ s4, s4 = s % 2 ^ 64 + s3 / 2 ^ 64 := ⟨_, rfl⟩
  have hdiv : s / 2 ^ 64 % 2 ^ 64 = s / 2 ^ 64 := by omega
  have hdiv4 : s4 / 2 ^ 64 % 2 ^ 64 = s4 / 2 ^ 64 := by omega
  refine ⟨([s1 % 2 ^ 64, s2 % 2 ^ 64, s3 % 2 ^ 64, s4 % 2 ^ 64], s / 2 ^ 64 + s4 / 2 ^ 64), ?_,
    by dsimp only; omega, ?_, x0, h0, ?_⟩
  · simp only [rowStepP256]
    rw [hrun, some_bind]
    have hp3 : P256.getD 3 0 = 0xffffffff00000001 := rfl
    simp only [getD_cons_zero, getD_cons_succ, Nat.shiftRight_eq_div_pow, Nat.shiftLeft_eq, hp3]
    rw [fits_bind (by omega), ← hs, ← hs1, fits_bind (by omega), ← hs2, fits_bind (by omega), ← hs3,
      fits_bind (by omega), ← hs4, fits_bind (by omega), hdiv, hdiv4, fits_bind (by omega)]
  · have hlt : ∀ x, x % 2 ^ 64 < 2 ^ 64 := fun x => Nat.mod_lt x (by decide)
    exact number_cons.2 ⟨hlt s1, number_cons.2 ⟨hlt s2, number_cons.2 ⟨hlt s3,
      Number.singleton (hlt s4)⟩⟩⟩
  · have hP : value P256 = 2 ^ 256 - 2 ^ 224 + 2 ^ 192 + 2 ^ 96 - 1 := by decide
    have hsize : size 4 = 2 ^ 256 := by decide
    rw [hP, hsize]
    rw [hsize] at hvalue
    simp only [value_cons, value_nil] at hvalue ⊢
    rw [mul_comm bi] at hvalue
    generalize value a * bi = p at *
    omega

/-! ## All the rows -/

/-- What a number stands for with the limb above it. -/
def total (n : ℕ) (st : List ℕ × ℕ) : ℕ := value st.1 + size n * st.2

lemma foldlM_rows {step : List ℕ × ℕ → ℕ → Option (List ℕ × ℕ)} {A M : ℕ}
    (hstep : ∀ {st bi}, Number n st.1 → st.2 < 2 ^ 64 → bi < 2 ^ 64 →
      ∃ st', step st bi = some st' ∧ st'.2 < 2 ^ 64 ∧ Row n A M st bi st')
    {k : ℕ} (hb : Number k b) (ht : Number n st.1) (htn : st.2 < 2 ^ 64) :
    ∃ st', b.foldlM step st = some st' ∧ Number n st'.1 ∧
      ∃ q < size k, total n st' * size k = total n st + A * value b + q * M := by
  induction b generalizing st k with
  | nil =>
    have hk : k = 0 := hb.length_eq.symm
    subst hk
    refine ⟨st, rfl, ht, 0, size_pos 0, ?_⟩
    rw [value_nil, size_zero]
    omega
  | cons bi b ih =>
    obtain ⟨k, rfl⟩ : ∃ j, k = j + 1 := ⟨_, hb.length_eq.symm⟩
    obtain ⟨hbi, hb⟩ := number_cons.1 hb
    obtain ⟨st', hst', htn', ht', q, hq, hvalue⟩ := hstep ht htn hbi
    obtain ⟨st'', hst'', ht'', q', hq', hvalue'⟩ := ih hb ht' htn'
    refine ⟨st'', ?_, ht'', q + 2 ^ 64 * q', ?_, ?_⟩
    · rw [foldlM_cons, hst']
      exact hst''
    · rw [size_succ]
      omega
    · rw [value_cons, size_succ]
      simp only [total] at hvalue' ⊢
      linear_combination 2 ^ 64 * hvalue' + hvalue

/-- What is reduced to the product: a number that times `R` is the product and a multiple of the
modulus. -/
def Unreduced (n : ℕ) (a b m : List ℕ) (st : List ℕ × ℕ) : Prop :=
  Number n st.1 ∧ ∃ q < size n, total n st * size n = value a * value b + q * value m

theorem rows_spec (hm : Number (n + 1) m) (hinv : (m.headD 0 * m0inv + 1) % 2 ^ 64 = 0)
    (ha : Number (n + 1) a) (hb : Number (n + 1) b) :
    ∃ st, rows m m0inv a b = some st ∧ Unreduced (n + 1) a b m st := by
  have hzero : Number (n + 1) (replicate m.length 0) :=
    hm.length_eq.symm ▸ Number.replicate (n + 1) (by decide)
  obtain ⟨st, hst, ht, q, hq, hvalue⟩ := foldlM_rows
    (fun ht htn hbi => rowStep_spec hm hinv ha ht htn hbi) hb
    (show Number (n + 1) (replicate m.length 0, 0).1 from hzero) (Nat.two_pow_pos 64)
  refine ⟨st, hst, ht, q, hq, ?_⟩
  rw [hvalue, total, value_replicate_zero]
  ring

theorem rowsP256_spec (ha : Number 4 a) (hb : Number 4 b) :
    ∃ st, b.foldlM (rowStepP256 a) (replicate 4 0, 0) = some st ∧
      Unreduced 4 a b P256 st := by
  obtain ⟨st, hst, ht, q, hq, hvalue⟩ := foldlM_rows
    (fun ht htn hbi => rowStepP256_spec ha ht htn hbi) hb
    (show Number 4 (replicate 4 0, 0).1 from Number.replicate 4 (by decide)) (by decide)
  refine ⟨st, hst, ht, q, hq, ?_⟩
  rw [hvalue, total, value_replicate_zero]
  ring

/-! ## One subtraction -/

/-- The product modulo `m`, out of the limbs `R` too many. -/
structure IsProduct (n : ℕ) (a b m r : List ℕ) : Prop where
  number : Number n r
  lt : value r < value m
  modEq : value r * size n ≡ value a * value b [MOD value m]

lemma reduceOnce_spec (hm : Number n m) {t : List ℕ} (ht : Number n t) {c : ℕ}
    (hlt : value t + size n * c < 2 * value m) : Number n (reduceOnce m t (c != 0)) ∧
      value (reduceOnce m t (c != 0)) = (value t + size n * c) % value m := by
  have hd := chain_number sbbFlags_fst_lt ht hm 0
  obtain ⟨hborrow, hvalue⟩ := chain_sbbFlags ht hm (Nat.zero_le 1)
  have hdlt := hd.value_lt
  have hmlt := hm.value_lt
  obtain ⟨⟨d, borrow⟩, hchain⟩ : ∃ r, r = chain sbbFlags t m 0 := ⟨_, rfl⟩
  rw [reduceOnce, subBorrow, ← hchain]
  rw [← hchain] at hd hborrow hvalue hdlt
  dsimp only at hd hborrow hvalue hdlt ⊢
  have hc : c ≤ 1 := by
    by_contra! hc
    have := Nat.mul_le_mul_left (size n) hc
    omega
  interval_cases c <;> interval_cases borrow
  · rw [if_pos (by decide), Nat.mul_zero, Nat.add_zero, Nat.mod_eq_sub_mod (by omega),
      Nat.mod_eq_of_lt (by omega)]
    exact ⟨hd, by omega⟩
  · rw [if_neg (by decide), Nat.mul_zero, Nat.add_zero, Nat.mod_eq_of_lt (by omega)]
    exact ⟨ht, rfl⟩
  · omega
  · rw [if_pos (by decide), Nat.mod_eq_sub_mod (by omega), Nat.mod_eq_of_lt (by omega)]
    exact ⟨hd, by omega⟩

lemma select_ones (ha : Number n a) (hb : Number n b) : select (2 ^ 64 - 1) a b = a := by
  induction a generalizing b n with
  | nil => rfl
  | cons x a ih =>
    cases b with
    | nil => exact absurd (ha.length_eq.trans hb.length_eq.symm) (Nat.succ_ne_zero _)
    | cons y b =>
      obtain ⟨n, rfl⟩ : ∃ k, n = k + 1 := ⟨_, ha.length_eq.symm⟩
      obtain ⟨hx, ha⟩ := number_cons.1 ha
      have hword : x &&& (2 ^ 64 - 1) ||| y &&& Words.complement 64 (2 ^ 64 - 1) = x := by
        rw [and_all hx, Words.complement, Nat.sub_self, Nat.and_zero, Nat.or_zero]
      exact congrArg₂ cons hword (ih ha (number_cons.1 hb).2)

lemma select_zero (ha : Number n a) (hb : Number n b) : select 0 a b = b := by
  induction a generalizing b n with
  | nil => exact (length_eq_zero_iff.1 (hb.length_eq.trans ha.length_eq.symm)).symm
  | cons x a ih =>
    cases b with
    | nil => exact absurd (ha.length_eq.trans hb.length_eq.symm) (Nat.succ_ne_zero _)
    | cons y b =>
      obtain ⟨n, rfl⟩ : ∃ k, n = k + 1 := ⟨_, ha.length_eq.symm⟩
      obtain ⟨hy, hb⟩ := number_cons.1 hb
      have hword : x &&& 0 ||| y &&& Words.complement 64 0 = y := by
        rw [Words.complement, Nat.sub_zero, and_all hy, Nat.and_zero, Nat.zero_or]
      exact congrArg₂ cons hword (ih (number_cons.1 ha).2 hb)

lemma reduceOnceMask_eq (hm : Number n m) {t : List ℕ} (ht : Number n t) {c : ℕ} (hc : c ≤ 1) :
    reduceOnceMask m t c = reduceOnce m t (c != 0) := by
  have hd := chain_number sbbFlags_fst_lt ht hm 0
  obtain ⟨hborrow, -⟩ := chain_sbbFlags ht hm (Nat.zero_le 1)
  obtain ⟨⟨d, borrow⟩, hchain⟩ : ∃ r, r = chain sbbFlags t m 0 := ⟨_, rfl⟩
  rw [reduceOnceMask, reduceOnce, subBorrow, ← hchain]
  rw [← hchain] at hd hborrow
  dsimp only at hd hborrow ⊢
  have hones : maskOf 1 = 2 ^ 64 - 1 := by decide
  have hzero : maskOf 0 = 0 := by decide
  interval_cases c <;> interval_cases borrow
  · exact (congrArg (select · d t) hones).trans (select_ones hd ht)
  · exact (congrArg (select · d t) hzero).trans (select_zero hd ht)
  · exact (congrArg (select · d t) hones).trans (select_ones hd ht)
  · exact (congrArg (select · d t) hones).trans (select_ones hd ht)

lemma Unreduced.total_lt (h : Unreduced n a b m st)
    (hab : value a * value b < value m * size n) : total n st < 2 * value m := by
  obtain ⟨-, q, hq, hvalue⟩ := h
  have hqm : q * value m ≤ size n * value m := Nat.mul_le_mul_right _ hq.le
  have hlt : total n st * size n < 2 * value m * size n := by
    rw [hvalue, mul_assoc, two_mul]
    rw [mul_comm (size n)] at hqm
    omega
  exact Nat.lt_of_mul_lt_mul_right hlt

lemma Unreduced.isProduct (h : Unreduced n a b m st) {r : List ℕ} (hr : Number n r)
    (hlt : value r < value m) (hmod : value r ≡ total n st [MOD value m]) :
    IsProduct n a b m r := by
  obtain ⟨-, q, -, hvalue⟩ := h
  refine ⟨hr, hlt, ?_⟩
  calc
    value r * size n ≡ total n st * size n [MOD value m] := hmod.mul_right _
    _ = value a * value b + q * value m := hvalue
    _ ≡ value a * value b [MOD value m] := Nat.add_mul_modulus_modEq_iff.2 rfl

lemma coprime_size (hodd : value m % 2 = 1) (n : ℕ) : Nat.gcd (value m) (size n) = 1 := by
  rw [size, ← pow_mul]
  exact Nat.Coprime.pow_right _ (Nat.coprime_two_right.2 (Nat.odd_iff.2 hodd))

theorem IsProduct.eq {r r' : List ℕ} (h : IsProduct n a b m r) (h' : IsProduct n a b m r')
    (hodd : value m % 2 = 1) : r = r' := by
  have hmod : value r ≡ value r' [MOD value m] :=
    Nat.ModEq.cancel_right_of_coprime (coprime_size hodd n) (h.modEq.trans h'.modEq.symm)
  exact h.number.eq_of_value h'.number (Nat.ModEq.eq_of_lt_of_lt hmod h.lt h'.lt)

end Lazaret.Bignum
