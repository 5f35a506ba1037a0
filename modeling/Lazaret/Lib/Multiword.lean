import Lazaret.Lib.Words
import Mathlib.Algebra.BigOperators.Ring.Finset
import Mathlib.Data.Nat.Digits.Lemmas
import Mathlib.Tactic.LinearCombination

/-!
# Numbers of several words

Numbers as lists of words of 64 bits, the lowest first (`Number`, `value`), and the loops that go
over two of them with a carry, each with the equation between numbers that it leaves; `size n` is
the place above `n` words.  A place of a product is the sum of the products of words that meet in it
(`conv`), and the places from the lowest make the product (`columns_eq`).
-/

namespace Lazaret.Multiword

open List Words

open Words (fits adc)

/-- The number that words stand for, the lowest first. -/
def value (xs : List ℕ) : ℕ := Nat.ofDigits (2 ^ 64) xs

/-- One more than the largest number of so many words. -/
def size (n : ℕ) : ℕ := (2 ^ 64) ^ n

structure Number (n : ℕ) (xs : List ℕ) : Prop where
  length_eq : xs.length = n
  lt : ∀ x ∈ xs, x < 2 ^ 64

variable {n : ℕ} {xs ys : List ℕ} {x y : ℕ}

lemma size_zero : size 0 = 1 := rfl

lemma size_succ (n : ℕ) : size (n + 1) = 2 ^ 64 * size n := by
  rw [size, size, pow_succ']

lemma size_add (m n : ℕ) : size (m + n) = size m * size n := by
  rw [size, size, size, pow_add]

lemma size_pos (n : ℕ) : 0 < size n := Nat.pow_pos (by decide)

lemma value_nil : value [] = 0 := rfl

lemma value_cons (x : ℕ) (xs : List ℕ) : value (x :: xs) = x + 2 ^ 64 * value xs :=
  Nat.ofDigits_cons

lemma value_append (xs ys : List ℕ) :
    value (xs ++ ys) = value xs + size xs.length * value ys := Nat.ofDigits_append

lemma value_singleton (x : ℕ) : value [x] = x := Nat.ofDigits_singleton

lemma value_replicate_zero (n : ℕ) : value (replicate n 0) = 0 := Nat.ofDigits_replicate_zero

lemma Number.nil : Number 0 [] := ⟨rfl, fun _ h => absurd h not_mem_nil⟩

lemma number_cons : Number (n + 1) (x :: xs) ↔ x < 2 ^ 64 ∧ Number n xs := by
  constructor
  · rintro ⟨hlen, hlt⟩
    exact ⟨hlt x mem_cons_self, Nat.succ.inj hlen, fun y hy => hlt y (mem_cons_of_mem x hy)⟩
  · rintro ⟨hx, hlen, hlt⟩
    refine ⟨by rw [length_cons, hlen], fun y hy => ?_⟩
    obtain rfl | hy := mem_cons.1 hy
    · exact hx
    · exact hlt y hy

lemma Number.append {m : ℕ} (hx : Number m xs) (hy : Number n ys) : Number (m + n) (xs ++ ys) := by
  refine ⟨by rw [length_append, hx.length_eq, hy.length_eq], fun z hz => ?_⟩
  obtain hz | hz := mem_append.1 hz
  · exact hx.lt z hz
  · exact hy.lt z hz

lemma Number.singleton (h : x < 2 ^ 64) : Number 1 [x] := number_cons.2 ⟨h, Number.nil⟩

lemma Number.replicate (n : ℕ) (h : x < 2 ^ 64) : Number n (replicate n x) :=
  ⟨length_replicate, fun _ hy => (eq_of_mem_replicate hy).symm ▸ h⟩

lemma Number.value_lt (h : Number n xs) : value xs < size n := by
  rw [size, ← h.length_eq]
  exact Nat.ofDigits_lt_base_pow_length (by decide) h.lt

lemma Number.eq_of_value (hx : Number n xs) (hy : Number n ys) (h : value xs = value ys) :
    xs = ys :=
  Nat.ofDigits_inj_of_len_eq (by decide) (hx.length_eq.trans hy.length_eq.symm) hx.lt hy.lt h

def words : ℕ → ℕ → List ℕ
  | 0, _ => []
  | n + 1, v => v % 2 ^ 64 :: words n (v / 2 ^ 64)

lemma number_words (n v : ℕ) : Number n (words n v) := by
  induction n generalizing v with
  | zero => exact Number.nil
  | succ n ih => exact number_cons.2 ⟨Nat.mod_lt v (by decide), ih _⟩

lemma value_words {v : ℕ} (h : v < size n) : value (words n v) = v := by
  induction n generalizing v with
  | zero =>
    rw [size_zero] at h
    rw [words, value_nil]
    omega
  | succ n ih =>
    rw [size_succ] at h
    rw [words, value_cons, ih (Nat.div_lt_of_lt_mul h)]
    omega

lemma Number.top (h : Number (n + 1) xs) :
    Number n (xs.take n) ∧ value xs = value (xs.take n) + size n * xs.getD n 0 := by
  have hn : n < xs.length := h.length_eq.symm ▸ Nat.lt_succ_self n
  have htake : Number n (xs.take n) :=
    ⟨length_take_of_le hn.le, fun x hx => h.lt x (mem_of_mem_take hx)⟩
  refine ⟨htake, ?_⟩
  have hdrop : xs.drop n = [xs.getD n 0] := by
    rw [drop_eq_getElem_cons hn, drop_eq_nil_of_le h.length_eq.le, getD_eq_getElem _ _ hn]
  have hvalue := value_append (xs.take n) (xs.drop n)
  rw [take_append_drop, htake.length_eq, hdrop, value_singleton] at hvalue
  exact hvalue

lemma Number.getD_lt (h : Number n xs) (i : ℕ) : xs.getD i 0 < 2 ^ 64 := by
  rw [getD_eq_getElem?_getD]
  cases hi : xs[i]? with
  | none => exact Nat.two_pow_pos 64
  | some x => exact h.lt x (mem_of_getElem? hi)

@[elab_as_elim]
lemma Number.induct {motive : ∀ n xs, Number n xs → Prop} {n : ℕ} {xs : List ℕ} (h : Number n xs)
    (nil : motive 0 [] Number.nil)
    (cons : ∀ (x n : ℕ) (xs : List ℕ) (hx : x < 2 ^ 64) (h : Number n xs), motive n xs h →
      motive (n + 1) (x :: xs) (number_cons.2 ⟨hx, h⟩)) : motive n xs h := by
  induction xs generalizing n with
  | nil =>
    obtain rfl : n = 0 := h.length_eq.symm
    exact nil
  | cons x xs ih =>
    obtain ⟨n, rfl⟩ : ∃ m, n = m + 1 := ⟨_, h.length_eq.symm⟩
    exact cons x n xs (number_cons.1 h).1 (number_cons.1 h).2 (ih _)

@[elab_as_elim]
lemma Number.induct₂ {motive : ∀ n xs ys, Number n xs → Number n ys → Prop} {n : ℕ} {xs ys : List ℕ}
    (hx : Number n xs) (hy : Number n ys) (nil : motive 0 [] [] Number.nil Number.nil)
    (cons : ∀ (x y n : ℕ) (xs ys : List ℕ) (hx0 : x < 2 ^ 64) (hy0 : y < 2 ^ 64)
      (hx : Number n xs) (hy : Number n ys), motive n xs ys hx hy → motive (n + 1) (x :: xs)
        (y :: ys) (number_cons.2 ⟨hx0, hx⟩) (number_cons.2 ⟨hy0, hy⟩)) : motive n xs ys hx hy := by
  induction hx using Number.induct generalizing ys with
  | nil =>
    obtain rfl : ys = [] := length_eq_zero_iff.1 hy.length_eq
    exact nil
  | cons x n xs hx0 hx ih =>
    cases ys with
    | nil => exact absurd hy.length_eq.symm (Nat.succ_ne_zero n)
    | cons y ys =>
      obtain ⟨hy0, hy⟩ := number_cons.1 hy
      exact cons x y n xs ys hx0 hy0 hx hy (ih hy)

/-! ## Sums and differences -/

/-- A loop over the words of two numbers with a carry. -/
def chain (f : ℕ → ℕ → ℕ → ℕ × ℕ) : List ℕ → List ℕ → ℕ → List ℕ × ℕ
  | x :: xs, y :: ys, c =>
    let (r, c) := f x y c
    let (rs, c) := chain f xs ys c
    (r :: rs, c)
  | _, _, c => ([], c)

lemma chain_number {f : ℕ → ℕ → ℕ → ℕ × ℕ} (hf : ∀ x y c, (f x y c).1 < 2 ^ 64) (hx : Number n xs)
    (hy : Number n ys) (c : ℕ) : Number n (chain f xs ys c).1 := by
  induction hx, hy using Number.induct₂ generalizing c with
  | nil =>
    exact Number.nil
  | cons x y n xs ys hx0 hy0 hx hy ih =>
    exact number_cons.2 ⟨hf x y c, ih _⟩

def overflowingAdd (a b : ℕ) : ℕ × Bool := ((a + b) % 2 ^ 64, decide (2 ^ 64 ≤ a + b))

def overflowingSub (a b : ℕ) : ℕ × Bool := (Words.wrappingSub 64 a b, decide (a < b))

def adcFlags (a b carry : ℕ) : ℕ × ℕ :=
  let (s1, c1) := overflowingAdd a b
  let (s2, c2) := overflowingAdd s1 carry
  (s2, (c1 || c2).toNat)

/-- A difference of two words and a borrow, by the flags. -/
def sbbFlags (a b borrow : ℕ) : ℕ × ℕ :=
  let (d1, b1) := overflowingSub a b
  let (d2, b2) := overflowingSub d1 borrow
  (d2, (b1 || b2).toNat)

lemma adc_spec {a b c : ℕ} (ha : a < 2 ^ 64) (hb : b < 2 ^ 64) (hc : c ≤ 1) :
    (adc a b c).2 ≤ 1 ∧ (adc a b c).1 + 2 ^ 64 * (adc a b c).2 = a + b + c := by
  simp only [adc]
  omega

lemma adcFlags_eq {a b c : ℕ} (ha : a < 2 ^ 64) (hb : b < 2 ^ 64) (hc : c ≤ 1) :
    adcFlags a b c = adc a b c := by
  have hflags : adcFlags a b c = (((a + b) % 2 ^ 64 + c) % 2 ^ 64,
      (decide (2 ^ 64 ≤ a + b) || decide (2 ^ 64 ≤ (a + b) % 2 ^ 64 + c)).toNat) := rfl
  rw [hflags, adc, Prod.mk.injEq]
  refine ⟨by omega, ?_⟩
  -- at most one of the two sums overflows
  by_cases h1 : 2 ^ 64 ≤ a + b
  · have h2 : ¬ 2 ^ 64 ≤ (a + b) % 2 ^ 64 + c := by omega
    simp only [h1, h2, decide_true, decide_false, Bool.or_false, Bool.toNat_true]
    omega
  · by_cases h2 : 2 ^ 64 ≤ (a + b) % 2 ^ 64 + c
    · simp only [h1, h2, decide_true, decide_false, Bool.false_or, Bool.toNat_true]
      omega
    · simp only [h1, h2, decide_false, Bool.or_false, Bool.toNat_false]
      omega

lemma sbbFlags_spec {a b c : ℕ} (ha : a < 2 ^ 64) (hb : b < 2 ^ 64) (hc : c ≤ 1) :
    (sbbFlags a b c).2 ≤ 1 ∧ (sbbFlags a b c).1 + b + c = a + 2 ^ 64 * (sbbFlags a b c).2 := by
  have hflags : sbbFlags a b c =
      (((a + (2 ^ 64 - b)) % 2 ^ 64 + (2 ^ 64 - c)) % 2 ^ 64,
        (decide (a < b) || decide ((a + (2 ^ 64 - b)) % 2 ^ 64 < c)).toNat) := rfl
  rw [hflags]
  by_cases h1 : a < b
  · have h2 : ¬ (a + (2 ^ 64 - b)) % 2 ^ 64 < c := by omega
    simp only [h1, h2, decide_true, decide_false, Bool.or_false, Bool.toNat_true]
    omega
  · by_cases h2 : (a + (2 ^ 64 - b)) % 2 ^ 64 < c
    · simp only [h1, h2, decide_true, decide_false, Bool.false_or, Bool.toNat_true]
      omega
    · simp only [h1, h2, decide_false, Bool.false_or, Bool.toNat_false]
      omega

lemma chain_congr {f g : ℕ → ℕ → ℕ → ℕ × ℕ}
    (hfg : ∀ {x y c}, x < 2 ^ 64 → y < 2 ^ 64 → c ≤ 1 → f x y c = g x y c)
    (hg : ∀ {x y c}, x < 2 ^ 64 → y < 2 ^ 64 → c ≤ 1 → (g x y c).2 ≤ 1) (hx : Number n xs)
    (hy : Number n ys) {c : ℕ} (hc : c ≤ 1) : chain f xs ys c = chain g xs ys c := by
  induction hx, hy using Number.induct₂ generalizing c with
  | nil => rfl
  | cons x y n xs ys hx0 hy0 hx hy ih =>
    rw [chain, chain, hfg hx0 hy0 hc]
    simp only [ih (hg hx0 hy0 hc)]

lemma chain_adc (hx : Number n xs) (hy : Number n ys) {c : ℕ} (hc : c ≤ 1) :
    (chain adc xs ys c).2 ≤ 1 ∧
      value (chain adc xs ys c).1 + size n * (chain adc xs ys c).2 = value xs + value ys + c := by
  induction hx, hy using Number.induct₂ generalizing c with
  | nil =>
    simp only [chain, value_nil, size_zero]
    omega
  | cons x y n xs ys hx0 hy0 hx hy ih =>
    obtain ⟨hc', hword⟩ := adc_spec hx0 hy0 hc
    obtain ⟨hcarry, hvalue⟩ := ih hc'
    simp only [chain, value_cons, size_succ]
    refine ⟨hcarry, ?_⟩
    linear_combination 2 ^ 64 * hvalue + hword

lemma chain_sbbFlags (hx : Number n xs) (hy : Number n ys) {c : ℕ} (hc : c ≤ 1) :
    (chain sbbFlags xs ys c).2 ≤ 1 ∧
      value (chain sbbFlags xs ys c).1 + value ys + c =
        value xs + size n * (chain sbbFlags xs ys c).2 := by
  induction hx, hy using Number.induct₂ generalizing c with
  | nil =>
    simp only [chain, value_nil, size_zero]
    omega
  | cons x y n xs ys hx0 hy0 hx hy ih =>
    obtain ⟨hc', hword⟩ := sbbFlags_spec hx0 hy0 hc
    obtain ⟨hborrow, hvalue⟩ := ih hc'
    simp only [chain, value_cons, size_succ]
    refine ⟨hborrow, ?_⟩
    linear_combination 2 ^ 64 * hvalue + hword

lemma adc_fst_lt (a b c : ℕ) : (adc a b c).1 < 2 ^ 64 := Nat.mod_lt _ (by decide)

lemma sbbFlags_fst_lt (a b c : ℕ) : (sbbFlags a b c).1 < 2 ^ 64 := Nat.mod_lt _ (by decide)

/-! ## Multiples -/

/-- A multiple of a number added to another, and the word above them. -/
def mulAdd (q : ℕ) : List ℕ → List ℕ → ℕ → Option (List ℕ × ℕ)
  | t :: ts, x :: xs, c => do
    let s ← fits 128 (t + x * q + c)
    let (rs, c) ← mulAdd q ts xs (s >>> 64)
    some (s % 2 ^ 64 :: rs, c)
  | _, _, c => some ([], c)

lemma mulAdd_spec {q c : ℕ} (hx : Number n xs) (hy : Number n ys) (hq : q < 2 ^ 64)
    (hc : c < 2 ^ 64) : ∃ rs c', mulAdd q xs ys c = some (rs, c') ∧ Number n rs ∧ c' < 2 ^ 64 ∧
      value rs + size n * c' = value xs + q * value ys + c := by
  induction hx, hy using Number.induct₂ generalizing c with
  | nil =>
    refine ⟨[], c, rfl, Number.nil, hc, ?_⟩
    rw [value_nil, size_zero]
    omega
  | cons x y n xs ys hx0 hy0 hx hy ih =>
    have hmul : y * q ≤ (2 ^ 64 - 1) * (2 ^ 64 - 1) :=
      Nat.mul_le_mul (Nat.le_sub_one_of_lt hy0) (Nat.le_sub_one_of_lt hq)
    have hs : x + y * q + c < 2 ^ 128 := by omega
    have hc' : (x + y * q + c) >>> 64 < 2 ^ 64 := by
      rw [Nat.shiftRight_eq_div_pow]
      omega
    obtain ⟨rs, c', hrun, hrs, hclt, hvalue⟩ := ih hc'
    refine ⟨(x + y * q + c) % 2 ^ 64 :: rs, c', ?_,
      number_cons.2 ⟨Nat.mod_lt _ (by decide), hrs⟩, hclt, ?_⟩
    · rw [mulAdd, fits_bind hs, hrun]
      rfl
    · rw [Nat.shiftRight_eq_div_pow] at hvalue
      have hword := Nat.mod_add_div (x + y * q + c) (2 ^ 64)
      rw [value_cons, value_cons, value_cons, size_succ]
      linear_combination 2 ^ 64 * hvalue + hword

/-! ## Comparison -/

/-- Two numbers compared from the top, with zeros above the shorter one. -/
def cmp : List ℕ → List ℕ → Ordering
  | [], [] => .eq
  | x :: xs, [] => (cmp xs []).then (compare x 0)
  | [], y :: ys => (cmp [] ys).then (compare 0 y)
  | x :: xs, y :: ys => (cmp xs ys).then (compare x y)

lemma compare_add_right (x y z : ℕ) : compare (x + z) (y + z) = compare x y := by
  obtain h | h | h := lt_trichotomy x y
  · rw [Nat.compare_eq_lt.2 h, Nat.compare_eq_lt.2 (Nat.add_lt_add_right h z)]
  · rw [h, Nat.compare_eq_eq.2 rfl, Nat.compare_eq_eq.2 rfl]
  · rw [Nat.compare_eq_gt.2 h, Nat.compare_eq_gt.2 (Nat.add_lt_add_right h z)]

lemma cmp_eq (hx : Number n xs) (hy : Number n ys) : cmp xs ys = compare (value xs) (value ys) := by
  induction hx, hy using Number.induct₂ with
  | nil =>
    rw [cmp, value_nil, Nat.compare_eq_eq.2 rfl]
  | cons x y n xs ys hx0 hy0 hx hy ih =>
    rw [cmp, ih]
    obtain h | h | h := lt_trichotomy (value xs) (value ys)
    · have hall : value (x :: xs) < value (y :: ys) := by
        rw [value_cons, value_cons]
        omega
      rw [Nat.compare_eq_lt.2 h, Nat.compare_eq_lt.2 hall]
      rfl
    · rw [h, Nat.compare_eq_eq.2 rfl, value_cons, value_cons, h]
      exact (compare_add_right x y _).symm
    · have hall : value (y :: ys) < value (x :: xs) := by
        rw [value_cons, value_cons]
        omega
      rw [Nat.compare_eq_gt.2 h, Nat.compare_eq_gt.2 hall]
      rfl

lemma cmp_ne_lt (hx : Number n xs) (hy : Number n ys) :
    (cmp xs ys ≠ .lt) ↔ value ys ≤ value xs := by
  rw [cmp_eq hx hy, Ne, Nat.compare_eq_lt, Nat.not_lt]

/-! ## A bit to the right -/

/-- `x >> 1`, with a new top bit. -/
def shiftRightOne (top : ℕ) : List ℕ → List ℕ
  | [] => []
  | x :: xs => (x >>> 1 ||| (xs.headD top) <<< 63 % 2 ^ 64) :: shiftRightOne top xs

lemma value_mod_two (hx : Number n xs) (top : ℕ) :
    (value xs + size n * top) % 2 = xs.headD top % 2 := by
  cases xs with
  | nil =>
    have hn : n = 0 := hx.length_eq.symm
    subst hn
    rw [value_nil, size_zero, zero_add, one_mul]
    rfl
  | cons x xs =>
    obtain ⟨n, rfl⟩ : ∃ m, n = m + 1 := ⟨_, hx.length_eq.symm⟩
    rw [value_cons, size_succ, mul_assoc, headD_cons]
    omega

lemma shiftRightOne_spec (hx : Number n xs) {top : ℕ} (htop : top ≤ 1) :
    Number n (shiftRightOne top xs) ∧
      value (shiftRightOne top xs) = (value xs + size n * top) / 2 := by
  induction hx using Number.induct with
  | nil =>
    refine ⟨Number.nil, ?_⟩
    rw [shiftRightOne, value_nil, size_zero]
    omega
  | cons x n xs hx0 hx ih =>
    obtain ⟨hn, hvalue⟩ := ih
    have hword : x >>> 1 ||| (xs.headD top) <<< 63 % 2 ^ 64 =
        x / 2 + xs.headD top % 2 * 2 ^ 63 := by
      rw [Nat.shiftRight_eq_div_pow, shiftLeft_mod _ (j := 1) rfl, or_shift (by omega), pow_one]
    have hmod := value_mod_two hx top
    refine ⟨number_cons.2 ⟨by omega, hn⟩, ?_⟩
    rw [shiftRightOne, value_cons, hvalue, hword, ← hmod, value_cons, size_succ, mul_assoc]
    generalize size n * top = z at *
    omega

/-! ## Bits to the left and to the right -/

/-- A number shifted left by less than a word, and the bits that come out. -/
def shiftLeft (d : ℕ) : List ℕ → ℕ → List ℕ × ℕ
  | [], carry => ([], carry)
  | f :: fs, carry =>
    let t := if d = 0 then f else (f <<< d) % 2 ^ 64 ||| carry
    let (ts, carry) := shiftLeft d fs (if d = 0 then 0 else f >>> (64 - d))
    (t :: ts, carry)

lemma shiftLeft_word {d f carry : ℕ} (hd : d < 64) (hf : f < 2 ^ 64) (hcarry : carry < 2 ^ d) :
    (if d = 0 then f else (f <<< d) % 2 ^ 64 ||| carry) < 2 ^ 64 ∧
      (if d = 0 then 0 else f >>> (64 - d)) < 2 ^ d ∧
      (if d = 0 then f else (f <<< d) % 2 ^ 64 ||| carry) +
        2 ^ 64 * (if d = 0 then 0 else f >>> (64 - d)) = f * 2 ^ d + carry := by
  by_cases h0 : d = 0
  · subst h0
    rw [if_pos rfl, if_pos rfl]
    omega
  · obtain ⟨j, hj⟩ : ∃ j, j + d = 64 := ⟨64 - d, by omega⟩
    rw [if_neg h0, if_neg h0, shiftLeft_mod f hj, Nat.or_comm, or_shift hcarry,
      Nat.shiftRight_eq_div_pow, (by omega : 64 - d = j)]
    have hpow : 2 ^ j * 2 ^ d = 2 ^ 64 := by rw [← Nat.pow_add, hj]
    have hdiv := Nat.mod_add_div f (2 ^ j)
    have hlow : f % 2 ^ j < 2 ^ j := Nat.mod_lt _ (Nat.two_pow_pos j)
    refine ⟨?_, Nat.div_lt_of_lt_mul (hpow.symm ▸ hf), ?_⟩
    · have := Nat.mul_le_mul_right (2 ^ d) (Nat.succ_le_of_lt hlow)
      rw [hpow, Nat.succ_mul] at this
      omega
    · rw [← hpow]
      linear_combination 2 ^ d * hdiv

lemma shiftLeft_spec {d carry : ℕ} (hd : d < 64) (hx : Number n xs) (hcarry : carry < 2 ^ d) :
    Number n (shiftLeft d xs carry).1 ∧ (shiftLeft d xs carry).2 < 2 ^ d ∧
      value (shiftLeft d xs carry).1 + size n * (shiftLeft d xs carry).2 =
        value xs * 2 ^ d + carry := by
  induction hx using Number.induct generalizing carry with
  | nil =>
    refine ⟨Number.nil, hcarry, ?_⟩
    rw [shiftLeft, value_nil, size_zero, zero_mul]
    omega
  | cons x n xs hx0 hx ih =>
    obtain ⟨hlt, hout, hword⟩ := shiftLeft_word hd hx0 hcarry
    obtain ⟨hn, hlast, hvalue⟩ := ih hout
    refine ⟨number_cons.2 ⟨hlt, hn⟩, hlast, ?_⟩
    simp only [shiftLeft]
    rw [value_cons, value_cons, size_succ]
    linear_combination 2 ^ 64 * hvalue + hword

/-- A number shifted right by less than a word, with the bits of a word above it. -/
def shiftRight (d top : ℕ) : List ℕ → List ℕ
  | [] => []
  | x :: xs =>
    (if d = 0 then x else x >>> d ||| (xs.headD top) <<< (64 - d) % 2 ^ 64) :: shiftRight d top xs

lemma value_mod_two_pow (hx : Number n xs) {d : ℕ} (hd : d ≤ 64) :
    value xs % 2 ^ d = xs.headD 0 % 2 ^ d := by
  cases xs with
  | nil => rfl
  | cons x xs =>
    rw [value_cons, headD_cons, ← Nat.sub_add_cancel hd, Nat.pow_add, Nat.mul_comm (2 ^ _),
      Nat.mul_assoc, Nat.add_mul_mod_self_left]

lemma shiftRight_spec {d : ℕ} (hd : d < 64) (hx : Number n xs) :
    Number n (shiftRight d 0 xs) ∧ value (shiftRight d 0 xs) = value xs / 2 ^ d := by
  induction hx using Number.induct with
  | nil =>
    refine ⟨Number.nil, ?_⟩
    rw [shiftRight, value_nil, Nat.zero_div]
  | cons x n xs hx0 hx ih =>
    obtain ⟨hn, hvalue⟩ := ih
    obtain ⟨j, hj⟩ : ∃ j, d + j = 64 := ⟨64 - d, by omega⟩
    have hpow : 2 ^ d * 2 ^ j = 2 ^ 64 := by rw [← pow_add, hj]
    have hhigh : x / 2 ^ d < 2 ^ j := Nat.div_lt_of_lt_mul (hpow.symm ▸ hx0)
    have hlow : xs.headD 0 % 2 ^ d < 2 ^ d := Nat.mod_lt _ (Nat.two_pow_pos d)
    have hword : (if d = 0 then x else x >>> d ||| (xs.headD 0) <<< (64 - d) % 2 ^ 64) =
        x / 2 ^ d + xs.headD 0 % 2 ^ d * 2 ^ j := by
      by_cases h0 : d = 0
      · subst h0
        rw [if_pos rfl, Nat.pow_zero, Nat.mod_one, Nat.zero_mul, Nat.div_one, Nat.add_zero]
      · rw [if_neg h0, (by omega : 64 - d = j), shiftLeft_mod _ hj,
          Nat.shiftRight_eq_div_pow, or_shift hhigh]
    refine ⟨number_cons.2 ⟨?_, hn⟩, ?_⟩
    · rw [hword, ← hpow]
      have := Nat.mul_le_mul_right (2 ^ j) (Nat.succ_le_of_lt hlow)
      rw [Nat.succ_mul] at this
      omega
    · have hdiv := Nat.mod_add_div (value xs) (2 ^ d)
      rw [value_mod_two_pow hx hd.le] at hdiv
      rw [shiftRight, value_cons, hvalue, hword, value_cons, ← hpow, mul_assoc,
        Nat.mul_assoc, Nat.add_mul_div_left _ _ (Nat.two_pow_pos d)]
      linear_combination 2 ^ j * hdiv

/-! ## A multiple taken away -/

/-- A multiple of a number taken from another, with the carry of the products and the borrow
apart. -/
def mulSub (q : ℕ) : List ℕ → List ℕ → ℕ → ℕ → Option (List ℕ × ℕ × ℕ)
  | u :: us, v :: vs, carry, borrow => do
    let p ← fits 128 (q * v + carry)
    let (d, borrow) := sbbFlags u (p % 2 ^ 64) borrow
    let (ds, carry, borrow) ← mulSub q us vs (p >>> 64) borrow
    some (d :: ds, carry, borrow)
  | _, _, carry, borrow => some ([], carry, borrow)

lemma mulSub_spec {q carry borrow : ℕ} (hx : Number n xs) (hy : Number n ys) (hq : q < 2 ^ 64)
    (hcarry : carry < 2 ^ 64) (hborrow : borrow ≤ 1) :
    ∃ ds carry' borrow', mulSub q xs ys carry borrow = some (ds, carry', borrow') ∧ Number n ds ∧
      carry' < 2 ^ 64 ∧ borrow' ≤ 1 ∧
      value ds + q * value ys + carry + borrow = value xs + size n * (carry' + borrow') := by
  induction hx, hy using Number.induct₂ generalizing carry borrow with
  | nil =>
    refine ⟨[], carry, borrow, rfl, Number.nil, hcarry, hborrow, ?_⟩
    rw [value_nil, size_zero]
    omega
  | cons x y n xs ys hx0 hy0 hx hy ih =>
    have hmul : q * y ≤ (2 ^ 64 - 1) * (2 ^ 64 - 1) :=
      Nat.mul_le_mul (Nat.le_sub_one_of_lt hq) (Nat.le_sub_one_of_lt hy0)
    obtain ⟨p, hp⟩ : ∃ p, p = q * y + carry := ⟨_, rfl⟩
    have hplt : p < 2 ^ 128 := by omega
    have hc' : p >>> 64 < 2 ^ 64 := by
      rw [Nat.shiftRight_eq_div_pow]
      omega
    obtain ⟨hb', hword⟩ := sbbFlags_spec hx0 (Nat.mod_lt p (Nat.two_pow_pos 64)) hborrow
    obtain ⟨ds, c', b', hrun, hds, hclt, hble, hvalue⟩ := ih hc' hb'
    refine ⟨(sbbFlags x (p % 2 ^ 64) borrow).1 :: ds, c', b', ?_,
      number_cons.2 ⟨sbbFlags_fst_lt _ _ _, hds⟩, hclt, hble, ?_⟩
    · rw [mulSub, ← hp, fits_bind hplt]
      simp only [hrun]
      rfl
    · rw [Nat.shiftRight_eq_div_pow] at hvalue
      have hdiv := Nat.mod_add_div p (2 ^ 64)
      rw [value_cons, value_cons, value_cons, size_succ]
      linear_combination 2 ^ 64 * hvalue + hword - hdiv - hp

/-! ## Columns of a product -/

/-- The sum of the products in place `k`, with zeros above the highest words. -/
def conv (a b : List ℕ) (k : ℕ) : ℕ := ∑ j ∈ Finset.range (k + 1), a.getD j 0 * b.getD (k - j) 0

/-- The lowest `k` places of a product, as a number. -/
def columns (a b : List ℕ) (k : ℕ) : ℕ := ∑ i ∈ Finset.range k, conv a b i * size i

variable {a b : List ℕ} {k : ℕ}

lemma columns_succ (a b : List ℕ) (k : ℕ) :
    columns a b (k + 1) = columns a b k + conv a b k * size k := Finset.sum_range_succ _ _

lemma conv_nil (b : List ℕ) (k : ℕ) : conv [] b k = 0 :=
  Finset.sum_eq_zero fun j _ => by rw [List.getD_nil, zero_mul]

lemma conv_cons_zero (x : ℕ) (a b : List ℕ) : conv (x :: a) b 0 = x * b.getD 0 0 :=
  Finset.sum_range_one _

lemma conv_cons_succ (x : ℕ) (a b : List ℕ) (k : ℕ) :
    conv (x :: a) b (k + 1) = x * b.getD (k + 1) 0 + conv a b k := by
  rw [conv, Finset.sum_range_succ', Nat.add_comm]
  refine congrArg₂ _ rfl (Finset.sum_congr rfl fun j _ => ?_)
  rw [List.getD_cons_succ, Nat.add_sub_add_right]

lemma value_eq_sum (h : b.length ≤ k) : value b = ∑ i ∈ Finset.range k, b.getD i 0 * size i := by
  induction b generalizing k with
  | nil =>
    exact (Finset.sum_eq_zero fun i _ => by rw [List.getD_nil, zero_mul]).symm
  | cons y b ih =>
    obtain ⟨k, rfl⟩ : ∃ j, k = j + 1 := ⟨k - 1, by rw [List.length_cons] at h; omega⟩
    rw [value_cons, ih (Nat.le_of_succ_le_succ h), Finset.sum_range_succ', Finset.mul_sum, add_comm]
    refine congrArg₂ _ (Finset.sum_congr rfl fun i _ => ?_) ?_
    · rw [List.getD_cons_succ, size_succ]
      ring
    · rw [List.getD_cons_zero, size_zero, mul_one]

lemma columns_cons (x : ℕ) (a b : List ℕ) (k : ℕ) : columns (x :: a) b (k + 1) =
    x * ∑ i ∈ Finset.range (k + 1), b.getD i 0 * size i + 2 ^ 64 * columns a b k := by
  rw [columns, Finset.sum_range_succ', Finset.sum_range_succ' (fun i => b.getD i 0 * size i),
    conv_cons_zero, columns, mul_add, Finset.mul_sum, Finset.mul_sum, add_right_comm,
    ← Finset.sum_add_distrib, mul_assoc]
  refine congrArg₂ _ (Finset.sum_congr rfl fun i _ => ?_) rfl
  rw [conv_cons_succ, size_succ]
  ring

theorem columns_eq (h : a.length + b.length ≤ k + 1) : columns a b k = value a * value b := by
  induction a generalizing k with
  | nil =>
    rw [value_nil, zero_mul]
    exact Finset.sum_eq_zero fun i _ => by rw [conv_nil, zero_mul]
  | cons x a ih =>
    rw [List.length_cons] at h
    cases k with
    | zero =>
      have hb : b = [] := List.length_eq_zero_iff.1 (by omega)
      rw [hb, value_nil, mul_zero]
      rfl
    | succ k =>
      rw [columns_cons, ih (by omega), ← value_eq_sum (by omega), value_cons]
      ring

lemma conv_append_left (a c b : List ℕ) (h : k < a.length) : conv (a ++ c) b k = conv a b k := by
  refine Finset.sum_congr rfl fun j hj => ?_
  rw [Finset.mem_range] at hj
  rw [List.getD_append _ _ _ _ (by omega)]

lemma columns_append_left (a c b : List ℕ) (h : k ≤ a.length) :
    columns (a ++ c) b k = columns a b k := by
  refine Finset.sum_congr rfl fun i hi => ?_
  rw [conv_append_left _ _ _ (by rw [Finset.mem_range] at hi; omega)]

lemma conv_high (ha : a.length ≤ n) (hb : b.length ≤ n) :
    conv a b k = ∑ j ∈ Finset.Ico (k + 1 - n) (min n (k + 1)), a.getD j 0 * b.getD (k - j) 0 := by
  refine (Finset.sum_subset (fun j hj => ?_) fun j hj hout => ?_).symm
  · rw [Finset.mem_Ico] at hj
    rw [Finset.mem_range]
    omega
  · rw [Finset.mem_range] at hj
    rw [Finset.mem_Ico] at hout
    by_cases hlow : j < k + 1 - n
    · rw [List.getD_eq_default b 0 (by omega), mul_zero]
    · rw [List.getD_eq_default a 0 (by omega), zero_mul]

lemma conv_le {M : ℕ} (h : ∀ i j, a.getD i 0 * b.getD j 0 ≤ M) (k : ℕ) :
    conv a b k ≤ a.length * M := by
  induction a generalizing k with
  | nil => exact (conv_nil b k).trans_le (Nat.zero_le _)
  | cons x a ih =>
    have hx : ∀ j, x * b.getD j 0 ≤ M := fun j => h 0 j
    have ih := ih fun i j => h (i + 1) j
    rw [List.length_cons, Nat.succ_mul]
    cases k with
    | zero =>
      rw [conv_cons_zero]
      exact (hx 0).trans (Nat.le_add_left _ _)
    | succ k =>
      rw [conv_cons_succ, add_comm]
      exact add_le_add (ih k) (hx _)

lemma sum_symmetric {f : ℕ → ℕ} (hf : ∀ j ≤ k, f (k - j) = f j) : ∑ j ∈ Finset.range (k + 1), f j =
    2 * ∑ j ∈ Finset.range ((k + 1) / 2), f j + if k % 2 = 0 then f (k / 2) else 0 := by
  -- the terms above the middle one, from the highest
  have hupper : ∀ l, l ≤ k + 1 → ∑ j ∈ Finset.range l, f (k + 1 - l + j) =
      ∑ j ∈ Finset.range l, f j := by
    intro l hl
    rw [← Finset.sum_range_reflect]
    refine Finset.sum_congr rfl fun j hj => ?_
    rw [Finset.mem_range] at hj
    rw [← hf j (by omega)]
    exact congrArg f (by omega)
  obtain ⟨l, hl | hl⟩ := Nat.even_or_odd' k
  · rw [if_pos (by omega), (by omega : (k + 1) / 2 = l), (by omega : k / 2 = l)]
    have h := hupper l (by omega)
    rw [(by omega : k + 1 - l = l + 1)] at h
    rw [(by omega : k + 1 = l + 1 + l), Finset.sum_range_add, h, Finset.sum_range_succ]
    omega
  · rw [if_neg (by omega), (by omega : (k + 1) / 2 = l + 1)]
    have h := hupper (l + 1) (by omega)
    rw [(by omega : k + 1 - (l + 1) = l + 1)] at h
    rw [(by omega : k + 1 = l + 1 + (l + 1)), Finset.sum_range_add, h]
    omega

theorem conv_self (ha : a.length ≤ n) (k : ℕ) : conv a a k =
    2 * ∑ j ∈ Finset.Ico (k + 1 - n) ((k + 1) / 2), a.getD j 0 * a.getD (k - j) 0 +
      if k % 2 = 0 then a.getD (k / 2) 0 * a.getD (k / 2) 0 else 0 := by
  have hsym : ∀ j ≤ k, a.getD (k - j) 0 * a.getD (k - (k - j)) 0 =
    a.getD j 0 * a.getD (k - j) 0 := by
    intro j hj
    rw [Nat.sub_sub_self hj, Nat.mul_comm]
  have hlow : ∑ j ∈ Finset.range ((k + 1) / 2), a.getD j 0 * a.getD (k - j) 0 =
      ∑ j ∈ Finset.Ico (k + 1 - n) ((k + 1) / 2), a.getD j 0 * a.getD (k - j) 0 := by
    refine (Finset.sum_subset (fun j hj => ?_) fun j hj hout => ?_).symm
    · rw [Finset.mem_Ico] at hj
      exact Finset.mem_range.2 hj.2
    · rw [Finset.mem_range] at hj
      rw [Finset.mem_Ico] at hout
      rw [List.getD_eq_default a 0 (by omega : a.length ≤ k - j), mul_zero]
  rw [conv, sum_symmetric hsym, hlow]
  split
  · rename_i heven
    rw [(by omega : k - k / 2 = k / 2)]
  · rfl

end Lazaret.Multiword
