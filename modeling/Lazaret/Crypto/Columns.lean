import Lazaret.Crypto.MontRows
import Mathlib.Algebra.Order.BigOperators.Group.Finset

/-!
# Montgomery products by columns

The products of `bignum.rs` and `ct_mod.rs` that go column by column: all the products of a place of
`a b + q m` are added into a sum of 192 bits, the words of `q` chosen on the way so that the places
below the modulus are zero.  The columns so far make one equation (`Below`, `Above`), so the sum is
the same `T` as by rows (`mulColumns_spec`, `sqrColumns_spec`).
-/

namespace Lazaret.Bignum

open Multiword List Words Finset
open Words (fits)

/-! ## The code -/

/-- A column sum of products: 128 bits and the limb above. -/
structure Column where
  low : ℕ
  high : ℕ
  deriving DecidableEq

namespace Column

/-- `Column::default` -/
def zero : Column := ⟨0, 0⟩

def overflowingAdd (a b : ℕ) : ℕ × Bool := ((a + b) % 2 ^ 128, decide (2 ^ 128 ≤ a + b))

def addProduct (acc : Column) (x y : ℕ) : Option Column := do
  let p ← fits 128 (x * y)
  let (s, c) := overflowingAdd acc.low p
  let high ← fits 64 (acc.high + c.toNat)
  some ⟨s, high⟩

def add (acc other : Column) : Option Column := do
  let (s, c) := overflowingAdd acc.low other.low
  let h ← fits 64 (other.high + c.toNat)
  let high ← fits 64 (acc.high + h)
  some ⟨s, high⟩

def lowLimb (acc : Column) : ℕ := acc.low % 2 ^ 64

def shift (acc : Column) : ℕ × Column :=
  (acc.lowLimb, ⟨acc.low >>> 64 ||| (acc.high <<< 64) % 2 ^ 128, 0⟩)

def isZero (acc : Column) : Bool := acc.low == 0 && acc.high == 0

end Column

/-- A column below the modulus, with the limbs of `q` so far. -/
def mulLow (m : List ℕ) (m0inv : ℕ) (a b : List ℕ) (st : Column × List ℕ) (i : ℕ) :
    Option (Column × List ℕ) := do
  let (acc, q) := st
  let acc ← (List.range' 0 i).foldlM (fun acc j => do
    let acc ← acc.addProduct (a.getD j 0) (b.getD (i - j) 0)
    acc.addProduct (q.getD j 0) (m.getD (i - j) 0)) acc
  let acc ← acc.addProduct (a.getD i 0) (b.getD 0 0)
  let qi := acc.lowLimb * m0inv % 2 ^ 64
  let acc ← acc.addProduct qi (m.getD 0 0)
  some (acc.shift.2, q ++ [qi])

def mulHigh (m a b q : List ℕ) (st : Column × List ℕ) (i : ℕ) : Option (Column × List ℕ) := do
  let (acc, r) := st
  let first := i + 1 - m.length
  let acc ← (List.range' first (m.length - first)).foldlM (fun acc j => do
    let acc ← acc.addProduct (a.getD j 0) (b.getD (i - j) 0)
    acc.addProduct (q.getD j 0) (m.getD (i - j) 0)) acc
  some (acc.shift.2, r ++ [acc.shift.1])

/-- The columns of a product: the limbs from `N` up and what is left. -/
def mulColumns (m : List ℕ) (m0inv : ℕ) (a b : List ℕ) : Option (List ℕ × Column) := do
  let (acc, q) ← (List.range' 0 m.length).foldlM (mulLow m m0inv a b) (Column.zero, [])
  let (acc, r) ← (List.range' m.length m.length).foldlM (mulHigh m a b q) (acc, [])
  some (r, acc)

/-- The product of a limb with itself, which an even column has. -/
def addSquare (acc : Column) (a : List ℕ) (i : ℕ) : Option Column :=
  if i % 2 = 0 then acc.addProduct (a.getD (i / 2) 0) (a.getD (i / 2) 0) else some acc

/-- A column of a square, with the limbs of `q` and of the result so far. -/
def sqrColumn (m : List ℕ) (m0inv : ℕ) (a : List ℕ) (st : Column × List ℕ × List ℕ) (i : ℕ) :
    Option (Column × List ℕ × List ℕ) := do
  let (acc, q, r) := st
  let first := i + 1 - m.length
  let cross ← (List.range' first ((i + 1) / 2 - first)).foldlM
    (fun acc j => acc.addProduct (a.getD j 0) (a.getD (i - j) 0)) Column.zero
  let acc ← acc.add cross
  let acc ← acc.add cross
  let acc ← addSquare acc a i
  if i < m.length then do
    let acc ← (List.range' 0 i).foldlM
      (fun acc j => acc.addProduct (q.getD j 0) (m.getD (i - j) 0)) acc
    let qi := acc.lowLimb * m0inv % 2 ^ 64
    let acc ← acc.addProduct qi (m.getD 0 0)
    some (acc.shift.2, q ++ [qi], r)
  else do
    let acc ← (List.range' first (m.length - first)).foldlM
      (fun acc j => acc.addProduct (q.getD j 0) (m.getD (i - j) 0)) acc
    some (acc.shift.2, q, r ++ [acc.shift.1])

def sqrColumns (m : List ℕ) (m0inv : ℕ) (a : List ℕ) : Option (List ℕ × Column) := do
  let (acc, _, r) ← (List.range' 0 (2 * m.length)).foldlM (sqrColumn m m0inv a)
    (Column.zero, [], [])
  some (r, acc)

/-! ## Column sums -/

namespace Column

structure Sums (acc : Column) (v : ℕ) : Prop where
  low_lt : acc.low < 2 ^ 128
  high_lt : acc.high < 2 ^ 64
  eq : acc.low + 2 ^ 128 * acc.high = v

variable {acc other : Column} {v w x y : ℕ}

lemma Sums.zero : zero.Sums 0 := ⟨Nat.two_pow_pos 128, Nat.two_pow_pos 64, rfl⟩

lemma Sums.carry {a b h : ℕ} (ha : a < 2 ^ 128) (hb : b < 2 ^ 128)
    (hv : a + b + 2 ^ 128 * h = v) (hlt : v < 2 ^ 192) :
    h + (overflowingAdd a b).2.toNat < 2 ^ 64 ∧
      Sums ⟨(overflowingAdd a b).1, h + (overflowingAdd a b).2.toNat⟩ v := by
  have hcarry : (overflowingAdd a b).2.toNat = (a + b) / 2 ^ 128 := by
    simp only [overflowingAdd]
    by_cases h : 2 ^ 128 ≤ a + b
    · rw [decide_eq_true h, Bool.toNat_true]
      omega
    · rw [decide_eq_false h, Bool.toNat_false]
      omega
  rw [hcarry]
  simp only [overflowingAdd]
  have hhigh : h + (a + b) / 2 ^ 128 < 2 ^ 64 := by omega
  exact ⟨hhigh, Nat.mod_lt _ (Nat.two_pow_pos 128), hhigh, by dsimp only; omega⟩

lemma Sums.addProduct (h : acc.Sums v) (hp : x * y < 2 ^ 128) (hlt : v + x * y < 2 ^ 192) :
    ∃ acc', acc.addProduct x y = some acc' ∧ acc'.Sums (v + x * y) := by
  obtain ⟨hlow, hhigh, rfl⟩ := h
  obtain ⟨hfits, hsum⟩ := Sums.carry hlow hp (h := acc.high) (add_right_comm _ _ _) hlt
  refine ⟨_, ?_, hsum⟩
  rw [Column.addProduct, fits_bind hp]
  exact fits_bind hfits _

lemma Sums.add (h : acc.Sums v) (h' : other.Sums w) (hlt : v + w < 2 ^ 192) :
    ∃ acc', acc.add other = some acc' ∧ acc'.Sums (v + w) := by
  obtain ⟨hlow, hhigh, rfl⟩ := h
  obtain ⟨hlow', hhigh', rfl⟩ := h'
  obtain ⟨hfits, hsum⟩ := Sums.carry hlow hlow' (h := acc.high + other.high) (by ring) hlt
  refine ⟨_, ?_, hsum⟩
  rw [add_assoc] at hfits
  have hhigh : other.high + (overflowingAdd acc.low other.low).2.toNat < 2 ^ 64 := by omega
  rw [Column.add, add_assoc]
  exact (fits_bind hhigh _).trans (fits_bind hfits _)

lemma Sums.lowLimb (h : acc.Sums v) : acc.lowLimb = v % 2 ^ 64 := by
  obtain ⟨-, -, rfl⟩ := h
  rw [Column.lowLimb]
  omega

lemma Sums.shift (h : acc.Sums v) : acc.shift.1 = v % 2 ^ 64 ∧ acc.shift.2.Sums (v / 2 ^ 64) := by
  refine ⟨h.lowLimb, ?_⟩
  obtain ⟨hlow, hhigh, rfl⟩ := h
  have hhalf : acc.low >>> 64 < 2 ^ 64 := by
    rw [Nat.shiftRight_eq_div_pow]
    omega
  have hmod : (acc.high <<< 64) % 2 ^ 128 = acc.high <<< 64 :=
    Nat.mod_eq_of_lt (by rw [Nat.shiftLeft_eq]; omega)
  have hword : acc.low >>> 64 ||| (acc.high <<< 64) % 2 ^ 128 =
      acc.low / 2 ^ 64 + acc.high * 2 ^ 64 := by
    rw [hmod, or_shift hhalf, Nat.shiftRight_eq_div_pow]
  simp only [Column.shift, hword]
  exact ⟨by dsimp only; omega, Nat.two_pow_pos 64, by dsimp only; omega⟩

lemma Sums.isZero (h : acc.Sums v) : (!acc.isZero) = (v != 0) := by
  obtain ⟨-, -, rfl⟩ := h
  rw [Bool.eq_iff_iff, Bool.not_eq_true', bne_iff_ne, ← Bool.not_eq_true, Column.isZero,
    Bool.and_eq_true, beq_iff_eq, beq_iff_eq]
  omega

end Column

/-! ## The products of a column -/

variable {n : ℕ} {m a b q r : List ℕ} {m0inv : ℕ} {acc : Column} {i v : ℕ}

open Finset (Ico)

def limbs : ℕ := (2 ^ 64 - 1) * (2 ^ 64 - 1)

lemma mul_le_limbs {x y : ℕ} (hx : x < 2 ^ 64) (hy : y < 2 ^ 64) : x * y ≤ limbs :=
  Nat.mul_le_mul (Nat.le_sub_one_of_lt hx) (Nat.le_sub_one_of_lt hy)

lemma mul_lt {x y : ℕ} (hx : x < 2 ^ 64) (hy : y < 2 ^ 64) : x * y < 2 ^ 128 :=
  (mul_le_limbs hx hy).trans_lt (by decide)

lemma sum_steps {f : Column → ℕ → Option Column} {t : ℕ → ℕ}
    (hf : ∀ {acc v} j, acc.Sums v → v + t j < 2 ^ 192 →
      ∃ acc', f acc j = some acc' ∧ acc'.Sums (v + t j)) {s l : ℕ}
    (h : acc.Sums v) (hlt : v + ∑ j ∈ Ico s (s + l), t j < 2 ^ 192) :
    ∃ acc', (range' s l).foldlM f acc = some acc' ∧ acc'.Sums (v + ∑ j ∈ Ico s (s + l), t j) := by
  refine foldlM_range' (P := fun i (acc : Column) => acc.Sums (v + ∑ j ∈ Ico s i, t j))
    (fun i acc hi hil h => ?_) ?_
  · have hle : ∑ j ∈ Ico s (i + 1), t j ≤ ∑ j ∈ Ico s (s + l), t j :=
      sum_le_sum_of_subset (Finset.Ico_subset_Ico_right hil)
    rw [sum_Ico_succ_top hi, ← add_assoc] at *
    exact hf i h (by omega)
  · rw [Finset.Ico_self, sum_empty]
    exact h

lemma sum_products {x y : ℕ → ℕ} (hx : ∀ j, x j < 2 ^ 64) (hy : ∀ j, y j < 2 ^ 64) {s l : ℕ}
    (h : acc.Sums v) (hlt : v + ∑ j ∈ Ico s (s + l), x j * y j < 2 ^ 192) :
    ∃ acc', (range' s l).foldlM (fun acc j => acc.addProduct (x j) (y j)) acc = some acc' ∧
      acc'.Sums (v + ∑ j ∈ Ico s (s + l), x j * y j) :=
  sum_steps (fun j h => h.addProduct (mul_lt (hx j) (hy j))) h hlt

lemma sum_products_two {x y z w : ℕ → ℕ} (hx : ∀ j, x j < 2 ^ 64) (hy : ∀ j, y j < 2 ^ 64)
    (hz : ∀ j, z j < 2 ^ 64) (hw : ∀ j, w j < 2 ^ 64) {s l : ℕ} (h : acc.Sums v)
    (hlt : v + ∑ j ∈ Ico s (s + l), x j * y j + ∑ j ∈ Ico s (s + l), z j * w j < 2 ^ 192) :
    ∃ acc', (range' s l).foldlM (fun acc j => do
        let acc ← acc.addProduct (x j) (y j)
        acc.addProduct (z j) (w j)) acc = some acc' ∧
      acc'.Sums (v + ∑ j ∈ Ico s (s + l), x j * y j + ∑ j ∈ Ico s (s + l), z j * w j) := by
  rw [add_assoc, ← Finset.sum_add_distrib] at hlt ⊢
  refine sum_steps (fun {acc v} j h hlt => ?_) h hlt
  obtain ⟨acc', hacc', h'⟩ := h.addProduct (mul_lt (hx j) (hy j)) (by omega)
  obtain ⟨acc'', hacc'', h''⟩ := h'.addProduct (mul_lt (hz j) (hw j)) (by omega)
  refine ⟨acc'', ?_, by rwa [← add_assoc]⟩
  rw [hacc']
  exact hacc''

lemma column_le (ha : Number n a) (hb : Number n b) (hq : q.length ≤ n)
    (hqlt : ∀ x ∈ q, x < 2 ^ 64) (hm : Number n m) (hv : v ≤ 2 * n * 2 ^ 64) :
    v + conv a b i + conv q m i ≤ 2 * n * 2 ^ 128 := by
  have hab := conv_le (fun i j => mul_le_limbs (ha.getD_lt i) (hb.getD_lt j)) i
  have hqm := conv_le (fun i j => mul_le_limbs (Number.getD_lt ⟨rfl, hqlt⟩ i) (hm.getD_lt j)) i
  have hqn : q.length * limbs ≤ n * limbs := Nat.mul_le_mul_right _ hq
  rw [ha.length_eq] at hab
  have hlimbs : limbs = 2 ^ 128 - 2 ^ 65 + 1 := by decide
  rw [hlimbs] at hab hqm hqn
  omega

/-! ## Columns below the modulus -/

/-- What the columns below place `i` make, with the limbs of `q` that clear them. -/
structure Below (n : ℕ) (a b m : List ℕ) (i : ℕ) (q : List ℕ) (v : ℕ) : Prop where
  number : Number i q
  le : v ≤ 2 * n * 2 ^ 64
  eq : columns a b i + columns q m i = v * size i

lemma Below.zero (n : ℕ) (a b m : List ℕ) : Below n a b m 0 [] 0 :=
  ⟨Number.nil, Nat.zero_le _, by rw [Nat.zero_mul]; rfl⟩

lemma Below.next (hn : 2 * n < 2 ^ 64) (hm : Number n m)
    (hinv : (m.headD 0 * m0inv + 1) % 2 ^ 64 = 0) (ha : Number n a) (hb : Number n b)
    (hi : i < n) (h : Below n a b m i q v)
    (hacc : acc.Sums (v + conv a b i + ∑ j ∈ Ico 0 i, q.getD j 0 * m.getD (i - j) 0)) :
    ∃ acc', acc.addProduct (acc.lowLimb * m0inv % 2 ^ 64) (m.getD 0 0) = some acc' ∧
      ∃ v', acc'.shift.2.Sums v' ∧
        Below n a b m (i + 1) (q ++ [acc.lowLimb * m0inv % 2 ^ 64]) v' := by
  obtain ⟨qi, hqi⟩ : ∃ qi, qi = acc.lowLimb * m0inv % 2 ^ 64 := ⟨_, rfl⟩
  obtain ⟨m0, hm0⟩ : ∃ m0, m0 = m.getD 0 0 := ⟨_, rfl⟩
  obtain ⟨w, hw⟩ : ∃ w, w = v + conv a b i + ∑ j ∈ Ico 0 i, q.getD j 0 * m.getD (i - j) 0 :=
    ⟨_, rfl⟩
  have hqlt : qi < 2 ^ 64 := hqi ▸ Nat.mod_lt _ (Nat.two_pow_pos 64)
  have hnext : Number (i + 1) (q ++ [qi]) := h.number.append (Number.singleton hqlt)
  have hconv : conv (q ++ [qi]) m i =
      ∑ j ∈ Ico 0 i, q.getD j 0 * m.getD (i - j) 0 + qi * m0 := by
    rw [conv, Finset.sum_range_succ, Finset.range_eq_Ico, Nat.sub_self, ← hm0]
    refine congrArg₂ _ (sum_congr rfl fun j hj => ?_) (congrArg (· * m0) ?_)
    · rw [getD_append _ _ _ _ (by rw [h.number.length_eq]; exact (mem_Ico.1 hj).2)]
    · rw [getD_append_right _ _ _ _ (by rw [h.number.length_eq]), h.number.length_eq,
        Nat.sub_self, getD_cons_zero]
  have hcolumns : columns (q ++ [qi]) m i = columns q m i :=
    columns_append_left q [qi] m (by rw [h.number.length_eq])
  have hle : w + qi * m0 ≤ 2 * n * 2 ^ 128 := by
    have := column_le (i := i) ha hb (hnext.length_eq.trans_le hi) hnext.lt hm h.le
    rw [hconv] at this
    omega
  have hclear : w + qi * m0 = 2 ^ 64 * ((w + qi * m0) / 2 ^ 64) := by
    have hdvd := clears hinv acc.lowLimb
    rw [← hqi, headD_eq_head?_getD, head?_eq_getElem?, ← getD_eq_getElem?_getD, ← hm0] at hdvd
    have hlow : acc.lowLimb = w % 2 ^ 64 := hw ▸ hacc.lowLimb
    rw [hlow] at hdvd
    generalize qi * m0 = p at *
    omega
  rw [← hw] at hacc
  rw [← hqi, ← hm0]
  obtain ⟨acc', hacc', h'⟩ := hacc.addProduct (mul_lt hqlt (hm0 ▸ hm.getD_lt 0))
    (hle.trans_lt (by omega))
  refine ⟨acc', hacc', _, h'.shift.2, hnext, by omega, ?_⟩
  have heq := h.eq
  rw [columns_succ, columns_succ, hcolumns, hconv, size_succ]
  zify at *
  linear_combination heq + size i * hclear - size i * hw

/-! ## Columns of the result -/

/-- What the columns below place `i` make, those from `N` up having been kept. -/
structure Above (n : ℕ) (a b m q : List ℕ) (i : ℕ) (r : List ℕ) (v : ℕ) : Prop where
  number : Number (i - n) r
  le : v ≤ 2 * n * 2 ^ 64
  eq : columns a b i + columns q m i = v * size i + size n * value r

lemma Below.above (h : Below n a b m n q v) : Above n a b m q n [] v := by
  refine ⟨?_, h.le, ?_⟩
  · rw [Nat.sub_self]
    exact Number.nil
  · rw [value_nil, h.eq]
    rfl

lemma Above.next (hm : Number n m) (ha : Number n a) (hb : Number n b) (hq : Number n q)
    (hi : n ≤ i) (h : Above n a b m q i r v) (hacc : acc.Sums (v + conv a b i + conv q m i)) :
    ∃ v', acc.shift.2.Sums v' ∧ Above n a b m q (i + 1) (r ++ [acc.shift.1]) v' := by
  obtain ⟨hlow, hshift⟩ := hacc.shift
  have hle := column_le (i := i) ha hb hq.length_eq.le hq.lt hm h.le
  obtain ⟨w, hw⟩ : ∃ w, w = v + conv a b i + conv q m i := ⟨_, rfl⟩
  rw [← hw] at hlow hshift hle
  obtain ⟨k, rfl⟩ : ∃ k, i = n + k := ⟨i - n, by omega⟩
  have hnumber := h.number
  rw [Nat.add_sub_cancel_left] at hnumber
  refine ⟨_, hshift, ?_, by omega, ?_⟩
  · rw [(by omega : n + k + 1 - n = k + 1), hlow]
    exact hnumber.append (Number.singleton (Nat.mod_lt _ (Nat.two_pow_pos 64)))
  · have heq := h.eq
    have hdiv := Nat.mod_add_div w (2 ^ 64)
    rw [columns_succ, columns_succ, value_append, value_singleton, hnumber.length_eq, hlow,
      size_succ]
    rw [size_add] at *
    zify at *
    linear_combination heq - size n * size k * hdiv - size n * size k * hw

lemma Above.unreduced (hm : Number n m) (ha : Number n a) (hb : Number n b) (hq : Number n q)
    (h : Above n a b m q (2 * n) r v) : Unreduced n a b m (r, v) := by
  have hnumber := h.number
  rw [(by omega : 2 * n - n = n)] at hnumber
  refine ⟨hnumber, value q, hq.value_lt, ?_⟩
  have heq := h.eq
  rw [columns_eq (by rw [ha.length_eq, hb.length_eq]; omega),
    columns_eq (by rw [hq.length_eq, hm.length_eq]; omega), two_mul, size_add] at heq
  rw [heq, total]
  ring

/-! ## The loops -/

lemma conv_eq_Ico (a b : List ℕ) (k : ℕ) :
    conv a b k = ∑ j ∈ Ico 0 k, a.getD j 0 * b.getD (k - j) 0 + a.getD k 0 * b.getD 0 0 := by
  rw [conv, Finset.sum_range_succ, Finset.range_eq_Ico, Nat.sub_self]

lemma conv_of_length_eq (h : q.length = i) (m : List ℕ) :
    conv q m i = ∑ j ∈ Ico 0 i, q.getD j 0 * m.getD (i - j) 0 := by
  rw [conv_eq_Ico, getD_eq_default q 0 h.le, zero_mul, add_zero]

lemma conv_from (hn : Number n a) (hm : Number n m) (hi : n ≤ i) :
    conv a m i = ∑ j ∈ Ico (i + 1 - n) (i + 1 - n + (n - (i + 1 - n))),
      a.getD j 0 * m.getD (i - j) 0 := by
  rw [conv_high hn.length_eq.le hm.length_eq.le]
  by_cases h : i + 1 - n ≤ n
  · rw [(by omega : i + 1 - n + (n - (i + 1 - n)) = min n (i + 1))]
  · rw [Finset.Ico_eq_empty (by omega), Finset.Ico_eq_empty (by omega)]

lemma mulLow_spec (hn : 2 * n < 2 ^ 64) (hm : Number n m)
    (hinv : (m.headD 0 * m0inv + 1) % 2 ^ 64 = 0) (ha : Number n a) (hb : Number n b)
    (hi : i < n) (hv : acc.Sums v) (h : Below n a b m i q v) :
    ∃ st, mulLow m m0inv a b (acc, q) i = some st ∧
      ∃ v', st.1.Sums v' ∧ Below n a b m (i + 1) st.2 v' := by
  have hq : Number i q := h.number
  have hle := column_le (i := i) ha hb (hq.length_eq.trans_le hi.le) hq.lt hm h.le
  rw [conv_of_length_eq hq.length_eq, conv_eq_Ico] at hle
  obtain ⟨acc1, hacc1, h1⟩ := sum_products_two ha.getD_lt (fun j => hb.getD_lt (i - j))
    hq.getD_lt (fun j => hm.getD_lt (i - j)) (s := 0) (l := i) hv
    (by rw [zero_add]; omega)
  rw [zero_add] at h1
  obtain ⟨acc2, hacc2, h2⟩ := h1.addProduct (mul_lt (ha.getD_lt i) (hb.getD_lt 0)) (by omega)
  rw [add_right_comm, add_assoc v, ← conv_eq_Ico] at h2
  obtain ⟨acc3, hacc3, v', h3, hnext⟩ := h.next hn hm hinv ha hb hi h2
  refine ⟨(acc3.shift.2, q ++ [acc2.lowLimb * m0inv % 2 ^ 64]), ?_, v', h3, hnext⟩
  simp only [mulLow]
  rw [hacc1, some_bind, hacc2, some_bind, hacc3, some_bind]

lemma mulHigh_spec (hn : 2 * n < 2 ^ 64) (hm : Number n m) (ha : Number n a) (hb : Number n b)
    (hq : Number n q) (hi : n ≤ i) (hv : acc.Sums v) (h : Above n a b m q i r v) :
    ∃ st, mulHigh m a b q (acc, r) i = some st ∧
      ∃ v', st.1.Sums v' ∧ Above n a b m q (i + 1) st.2 v' := by
  have hle := column_le (i := i) ha hb hq.length_eq.le hq.lt hm h.le
  rw [conv_from ha hb hi, conv_from hq hm hi] at hle
  obtain ⟨acc1, hacc1, h1⟩ := sum_products_two ha.getD_lt (fun j => hb.getD_lt (i - j))
    hq.getD_lt (fun j => hm.getD_lt (i - j)) hv (hle.trans_lt (by omega))
  rw [← conv_from ha hb hi, ← conv_from hq hm hi] at h1
  obtain ⟨v', h2, hnext⟩ := h.next hm ha hb hq hi h1
  refine ⟨(acc1.shift.2, r ++ [acc1.shift.1]), ?_, v', h2, hnext⟩
  simp only [mulHigh, hm.length_eq]
  rw [hacc1, some_bind]

theorem mulColumns_spec (hn : 2 * n < 2 ^ 64) (hm : Number n m)
    (hinv : (m.headD 0 * m0inv + 1) % 2 ^ 64 = 0) (ha : Number n a) (hb : Number n b) :
    ∃ r acc v, mulColumns m m0inv a b = some (r, acc) ∧ acc.Sums v ∧
      Unreduced n a b m (r, v) := by
  obtain ⟨⟨acc, q⟩, hlow, v, hv, hbelow⟩ := foldlM_range' (f := mulLow m m0inv a b)
    (P := fun i st => ∃ v, st.1.Sums v ∧ Below n a b m i st.2 v) (s := 0) (l := n)
    (fun i st _ hi h => by
      obtain ⟨v, hv, h⟩ := h
      exact mulLow_spec hn hm hinv ha hb (by omega) hv h)
    (x := (Column.zero, [])) ⟨0, Column.Sums.zero, Below.zero n a b m⟩
  rw [zero_add] at hbelow
  have hq : Number n q := hbelow.number
  obtain ⟨⟨acc', r⟩, hhigh, v', hv', habove⟩ := foldlM_range' (f := mulHigh m a b q)
    (P := fun i st => ∃ v, st.1.Sums v ∧ Above n a b m q i st.2 v) (s := n) (l := n)
    (fun i st hi _ h => by
      obtain ⟨v, hv, h⟩ := h
      exact mulHigh_spec hn hm ha hb hq hi hv h)
    (x := (acc, [])) ⟨v, hv, hbelow.above⟩
  rw [← two_mul] at habove
  refine ⟨r, acc', v', ?_, hv', habove.unreduced hm ha hb hq⟩
  rw [mulColumns, hm.length_eq, hlow, some_bind]
  dsimp only
  rw [hhigh, some_bind]

/-! ## Squares -/

lemma square_sums (hn : 2 * n < 2 ^ 64) (ha : Number n a) {m : List ℕ} (hm : Number n m)
    (hv : acc.Sums v) (hle : v + conv a a i ≤ 2 * n * 2 ^ 128) :
    ∃ cross acc1 acc2 acc3, (range' (i + 1 - m.length)
        ((i + 1) / 2 - (i + 1 - m.length))).foldlM
        (fun acc j => acc.addProduct (a.getD j 0) (a.getD (i - j) 0)) Column.zero = some cross ∧
      acc.add cross = some acc1 ∧ acc1.add cross = some acc2 ∧
      addSquare acc2 a i = some acc3 ∧ acc3.Sums (v + conv a a i) := by
  have hself := conv_self ha.length_eq.le i
  have hIco : Finset.Ico (i + 1 - n) (i + 1 - n + ((i + 1) / 2 - (i + 1 - n))) =
      Finset.Ico (i + 1 - n) ((i + 1) / 2) := by
    by_cases h : i + 1 - n ≤ (i + 1) / 2
    · rw [(by omega : i + 1 - n + ((i + 1) / 2 - (i + 1 - n)) = (i + 1) / 2)]
    · rw [Finset.Ico_eq_empty (by omega), Finset.Ico_eq_empty (by omega)]
  rw [← hIco] at hself
  obtain ⟨cross, hcross, h0⟩ := sum_products ha.getD_lt (fun j => ha.getD_lt (i - j))
    (s := i + 1 - n) (l := (i + 1) / 2 - (i + 1 - n)) Column.Sums.zero (by omega)
  rw [zero_add] at h0
  generalize ∑ j ∈ Ico (i + 1 - n) (i + 1 - n + ((i + 1) / 2 - (i + 1 - n))),
    a.getD j 0 * a.getD (i - j) 0 = c at *
  obtain ⟨acc1, hacc1, h1⟩ := hv.add h0 (by omega)
  obtain ⟨acc2, hacc2, h2⟩ := h1.add h0 (by omega)
  rw [hm.length_eq]
  by_cases heven : i % 2 = 0
  · rw [if_pos heven] at hself
    obtain ⟨acc3, hacc3, h3⟩ :=
      h2.addProduct (mul_lt (ha.getD_lt (i / 2)) (ha.getD_lt (i / 2))) (by omega)
    rw [(by omega : v + c + c + a.getD (i / 2) 0 * a.getD (i / 2) 0 = v + conv a a i)] at h3
    exact ⟨cross, acc1, acc2, acc3, hcross, hacc1, hacc2, (if_pos heven).trans hacc3, h3⟩
  · rw [if_neg heven] at hself
    rw [(by omega : v + c + c = v + conv a a i)] at h2
    exact ⟨cross, acc1, acc2, acc2, hcross, hacc1, hacc2, if_neg heven, h2⟩

lemma sqrColumn_low (hn : 2 * n < 2 ^ 64) (hm : Number n m)
    (hinv : (m.headD 0 * m0inv + 1) % 2 ^ 64 = 0) (ha : Number n a) (hi : i < n)
    (hv : acc.Sums v) (h : Below n a a m i q v) :
    ∃ st, sqrColumn m m0inv a (acc, q, r) i = some st ∧ st.2.2 = r ∧
      ∃ v', st.1.Sums v' ∧ Below n a a m (i + 1) st.2.1 v' := by
  have hq : Number i q := h.number
  have hle := column_le (i := i) ha ha (hq.length_eq.trans_le hi.le) hq.lt hm h.le
  obtain ⟨cross, acc1, acc2, acc3, hcross, hacc1, hacc2, hacc3, h3⟩ :=
    square_sums (i := i) hn ha hm hv (by omega)
  rw [conv_of_length_eq hq.length_eq] at hle
  obtain ⟨acc4, hacc4, h4⟩ := sum_products hq.getD_lt (fun j => hm.getD_lt (i - j)) (s := 0)
    (l := i) h3 (by rw [zero_add]; omega)
  rw [zero_add] at h4
  obtain ⟨acc5, hacc5, v', h5, hnext⟩ := h.next hn hm hinv ha ha hi h4
  refine ⟨(acc5.shift.2, q ++ [acc4.lowLimb * m0inv % 2 ^ 64], r), ?_, rfl, v', h5, hnext⟩
  simp only [sqrColumn]
  rw [hcross, some_bind, hacc1, some_bind, hacc2, some_bind, hacc3, some_bind,
    if_pos (hm.length_eq.symm ▸ hi), hacc4, some_bind, hacc5, some_bind]

lemma sqrColumn_high (hn : 2 * n < 2 ^ 64) (hm : Number n m) (ha : Number n a) (hq : Number n q)
    (hi : n ≤ i) (hv : acc.Sums v) (h : Above n a a m q i r v) :
    ∃ st, sqrColumn m m0inv a (acc, q, r) i = some st ∧ st.2.1 = q ∧
      ∃ v', st.1.Sums v' ∧ Above n a a m q (i + 1) st.2.2 v' := by
  have hle := column_le (i := i) ha ha hq.length_eq.le hq.lt hm h.le
  obtain ⟨cross, acc1, acc2, acc3, hcross, hacc1, hacc2, hacc3, h3⟩ :=
    square_sums (i := i) hn ha hm hv (by omega)
  rw [conv_from hq hm hi] at hle
  obtain ⟨acc4, hacc4, h4⟩ := sum_products hq.getD_lt (fun j => hm.getD_lt (i - j)) h3
    (hle.trans_lt (by omega))
  rw [← conv_from hq hm hi] at h4
  obtain ⟨v', h5, hnext⟩ := h.next hm ha ha hq hi h4
  refine ⟨(acc4.shift.2, q, r ++ [acc4.shift.1]), ?_, rfl, v', h5, hnext⟩
  simp only [sqrColumn]
  rw [hcross, some_bind, hacc1, some_bind, hacc2, some_bind, hacc3, some_bind,
    if_neg (hm.length_eq.symm ▸ not_lt.2 hi)]
  simp only [hm.length_eq]
  rw [hacc4, some_bind]

theorem sqrColumns_spec (hn : 2 * n < 2 ^ 64) (hm : Number n m)
    (hinv : (m.headD 0 * m0inv + 1) % 2 ^ 64 = 0) (ha : Number n a) :
    ∃ r acc v, sqrColumns m m0inv a = some (r, acc) ∧ acc.Sums v ∧ Unreduced n a a m (r, v) := by
  obtain ⟨⟨acc, q, r⟩, hlow, hr, v, hv, hbelow⟩ := foldlM_range' (f := sqrColumn m m0inv a)
    (P := fun i st => st.2.2 = [] ∧ ∃ v, st.1.Sums v ∧ Below n a a m i st.2.1 v) (s := 0) (l := n)
    (fun i st _ hi h => by
      obtain ⟨hr, v, hv, h⟩ := h
      rw [← hr]
      exact sqrColumn_low hn hm hinv ha (by omega) hv h)
    (x := (Column.zero, [], [])) ⟨rfl, 0, Column.Sums.zero, Below.zero n a a m⟩
  rw [zero_add] at hbelow
  dsimp only at hr hv hbelow
  subst hr
  have hq : Number n q := hbelow.number
  obtain ⟨⟨acc', q', r'⟩, hhigh, -, v', hv', habove⟩ :=
    foldlM_range' (f := sqrColumn m m0inv a)
    (P := fun i st => st.2.1 = q ∧ ∃ v, st.1.Sums v ∧ Above n a a m q i st.2.2 v) (s := n) (l := n)
    (fun i st hi _ h => by
      obtain ⟨hst, v, hv, h⟩ := h
      subst hst
      exact sqrColumn_high hn hm ha hq hi hv h)
    (x := (acc, q, [])) ⟨rfl, v, hv, hbelow.above⟩
  rw [← two_mul] at habove
  refine ⟨r', acc', v', ?_, hv', habove.unreduced hm ha ha hq⟩
  rw [sqrColumns, hm.length_eq, two_mul, ← List.range'_append_1, foldlM_append, hlow,
    zero_add, some_bind, hhigh, some_bind]

end Lazaret.Bignum
