import Lazaret.Crypto.Columns
import Lazaret.Crypto.ShiftMod

/-!
# Montgomery arithmetic

The three contexts for arithmetic modulo an odd number: `Mont` of any length and `Field` of `N`
limbs for public values (`bignum.rs`), and `Modulus` with masks for secret ones (`ct_mod.rs`).
Whatever the form, a product is the one number below the modulus that times `R` is `a b`
(`products`).
-/

namespace Lazaret.Bignum

open Multiword Option
open Words (fits adc)

/-! ## The code -/

/-- `trimmed_len`, from some length down. -/
def trimmedFrom (a : List ℕ) : ℕ → ℕ
  | 0 => 0
  | n + 1 => if a.getD n 0 = 0 then trimmedFrom a n else n + 1

def trimmedLen (a : List ℕ) : ℕ := trimmedFrom a a.length

def bitLen (a : List ℕ) : ℕ :=
  let n := trimmedLen a
  if n = 0 then 0 else 64 * n - leadingZeros (a.getD (n - 1) 0)

def bit (a : List ℕ) (i : ℕ) : Bool := a.getD (i / 64) 0 >>> (i % 64) &&& 1 == 1

def small (n k : ℕ) : List ℕ := (List.replicate n 0).set 0 k

def single (n i : ℕ) : List ℕ := (List.replicate n 0).set (i / 64) (1 <<< (i % 64))

structure Mont where
  m : List ℕ
  n : ℕ
  /-- `-m^-1 mod 2^64` -/
  m0inv : ℕ
  /-- `R mod m` -/
  one : List ℕ
  r2 : List ℕ

namespace Mont

variable (ctx : Mont)

def add (a b : List ℕ) : List ℕ :=
  let (r, carry) := chain adcFlags a b 0
  if carry != 0 || Multiword.cmp r ctx.m != .lt then (subBorrow r ctx.m).1 else r

def mul (a b : List ℕ) : Option (List ℕ) := do
  let (r, tn) ← rows ctx.m ctx.m0inv a b
  some (if tn != 0 || Multiword.cmp r ctx.m != .lt then (subBorrow r ctx.m).1 else r)

def sqr (a : List ℕ) : Option (List ℕ) := ctx.mul a a

def toMont (a : List ℕ) : Option (List ℕ) := ctx.mul a ctx.r2

def fromMont (a : List ℕ) : Option (List ℕ) := ctx.mul a (small ctx.n 1)

def squareStep (e : ℕ) (y : List ℕ) (i : ℕ) : Option (List ℕ) := do
  let y ← ctx.mul y y
  some (if e >>> i &&& 1 = 1 then ctx.add y y else y)

def new (modulus : List ℕ) : Option Mont :=
  let n := trimmedLen modulus
  if 0 < n ∧ modulus.headD 0 % 2 = 1 then do
    let m := modulus.take n
    let ctx : Mont := ⟨m, n, newton (m.headD 0), List.replicate n 0, List.replicate n 0⟩
    if n = 1 ∧ m.headD 0 = 1 then
      some ctx
    else
      let bits := bitLen m
      let one := (fun x => ctx.add x x)^[64 * n - (bits - 1)] (single n (bits - 1))
      let e := 64 * n
      let r2 ← (List.range (e.log2 + 1)).reverse.foldlM (ctx.squareStep e) one
      some { ctx with one, r2 }
  else none

end Mont

/-- From this many limbs products are made by columns. -/
def COLUMNS_MIN : ℕ := 32

structure Field where
  m : List ℕ
  /-- `-m^-1 mod 2^64` -/
  m0inv : ℕ
  /-- `R mod m` -/
  one : List ℕ
  r2 : List ℕ
  p256 : Bool

namespace Field

variable (f : Field)

def add (a b : List ℕ) : List ℕ :=
  let (s, carry) := chain adc a b 0
  reduceOnce f.m s (carry != 0)

def sub (a b : List ℕ) : List ℕ :=
  let (d, borrow) := subBorrow a b
  if borrow then (chain adc d f.m 0).1 else d

def mulRows (a b : List ℕ) : Option (List ℕ) :=
  if f.m.length = 4 ∧ f.p256 then mulP256 a b
  else do
    let (t, tn) ← rows f.m f.m0inv a b
    some (reduceOnce f.m t (tn != 0))

def mulColumns (a b : List ℕ) : Option (List ℕ) := do
  let (r, acc) ← Bignum.mulColumns f.m f.m0inv a b
  some (reduceOnce f.m r (!acc.isZero))

def sqrColumns (a : List ℕ) : Option (List ℕ) := do
  let (r, acc) ← Bignum.sqrColumns f.m f.m0inv a
  some (reduceOnce f.m r (!acc.isZero))

def mul (a b : List ℕ) : Option (List ℕ) :=
  if COLUMNS_MIN ≤ f.m.length then f.mulColumns a b else f.mulRows a b

def sqr (a : List ℕ) : Option (List ℕ) :=
  if COLUMNS_MIN ≤ f.m.length then f.sqrColumns a else f.mulRows a a

def toMont (a : List ℕ) : Option (List ℕ) := f.mul a f.r2

def fromMont (a : List ℕ) : Option (List ℕ) := f.mul a (small f.m.length 1)

def fromModulus (m : List ℕ) : Option Field :=
  let n := m.length
  if m.headD 0 % 2 = 1 ∧ m.getD (n - 1) 0 ≠ 0 then do
    let f : Field := ⟨m, newton (m.headD 0), List.replicate n 0, List.replicate n 0,
      n == 4 && m == P256⟩
    let bits := 64 * n - leadingZeros (m.getD (n - 1) 0)
    let one := (fun x => f.add x x)^[64 * n - (bits - 1)] (single n (bits - 1))
    let r2 ← shiftMod m one
    some { f with one, r2 }
  else none

end Field

structure Modulus where
  m : List ℕ
  /-- `-m^-1 mod 2^64` -/
  m0inv : ℕ
  r2 : List ℕ
  r3 : List ℕ
  /-- `m - 2` -/
  m_minus_2 : List ℕ

namespace Modulus

variable (k : Modulus)

def reduceBelowTwice (a : List ℕ) : List ℕ := reduceOnceMask k.m a 0

def add (a b : List ℕ) : List ℕ :=
  let (t, carry) := chain adc a b 0
  reduceOnceMask k.m t carry

def mulRows (a b : List ℕ) : Option (List ℕ) := do
  let (t, tn) ← rows k.m k.m0inv a b
  some (reduceOnceMask k.m t tn)

def mulColumns (a b : List ℕ) : Option (List ℕ) := do
  let (r, acc) ← Bignum.mulColumns k.m k.m0inv a b
  some (reduceOnceMask k.m r acc.lowLimb)

def sqrColumns (a : List ℕ) : Option (List ℕ) := do
  let (r, acc) ← Bignum.sqrColumns k.m k.m0inv a
  some (reduceOnceMask k.m r acc.lowLimb)

def mul (a b : List ℕ) : Option (List ℕ) :=
  if COLUMNS_MIN ≤ k.m.length then k.mulColumns a b else k.mulRows a b

def sqr (a : List ℕ) : Option (List ℕ) :=
  if COLUMNS_MIN ≤ k.m.length then k.sqrColumns a else k.mulRows a a

def toMont (a : List ℕ) : Option (List ℕ) := k.mul a k.r2

def fromMont (a : List ℕ) : Option (List ℕ) := k.mul a (small k.m.length 1)

def one : Option (List ℕ) := k.toMont (small k.m.length 1)

def reduceWide (lo hi : List ℕ) : Option (List ℕ) := do
  let x ← k.mul lo k.r2
  let y ← k.mul hi k.r3
  k.fromMont (k.add x y)

/-- A vector as an array of `n` limbs. -/
def toArr (n : ℕ) (v : List ℕ) : Option (List ℕ) := if n ≤ v.length then some (v.take n) else none

def new (m : List ℕ) : Option Modulus :=
  let n := m.length
  if m.headD 0 % 2 = 1 ∧ m.getD (n - 1) 0 ≠ 0 then do
    let mont ← Mont.new m
    let v ← mont.toMont mont.one
    let r2 ← toArr n v
    let v ← mont.toMont r2
    let r3 ← toArr n v
    let (d, borrow) := chain sbbFlags m (small n 2) 0
    if borrow = 0 then some ⟨m, newton (m.headD 0), r2, r3, d⟩ else none
  else none

def newSecret (m : List ℕ) : Option Modulus := do
  let n := m.length
  let (d, _) := chain sbbFlags m (small n 2) 0
  let k : Modulus := ⟨m, newton (m.headD 0), List.replicate n 0, List.replicate n 0, d⟩
  let x := (fun x => k.add x x)^[128 * n] (k.reduceBelowTwice (small n 1))
  let y ← mul { k with r2 := x } x x
  some { k with r2 := x, r3 := y }

end Modulus

/-! ## The modulus and the contexts made for it -/

/-- An odd modulus of `n` limbs, the highest not zero. -/
structure IsModulus (n : ℕ) (m : List ℕ) : Prop where
  number : Number n m
  odd : m.headD 0 % 2 = 1
  top : m.getD (n - 1) 0 ≠ 0

variable {n : ℕ} {m a b t : List ℕ}

lemma IsModulus.pos (h : IsModulus n m) : 0 < n := by
  obtain ⟨hnumber, hodd, -⟩ := h
  cases m with
  | nil => exact absurd hodd (by decide)
  | cons x xs => exact hnumber.length_eq ▸ Nat.succ_pos _

lemma IsModulus.value_odd (h : IsModulus n m) : value m % 2 = 1 := by
  have := value_mod_two h.number 0
  rw [mul_zero, add_zero, h.odd] at this
  exact this

lemma IsModulus.inverse (h : IsModulus n m) :
    (m.headD 0 * newton (m.headD 0) + 1) % 2 ^ 64 = 0 := (newton_spec h.odd).2

/-- What products use of a field: the modulus, the inverse and whether the prime is that of
P-256. -/
structure Field.Of (m : List ℕ) (f : Field) : Prop where
  m_eq : f.m = m
  m0inv_eq : f.m0inv = newton (m.headD 0)
  p256 : f.p256 = true → m = P256

structure Mont.Of (m : List ℕ) (g : Mont) : Prop where
  m_eq : g.m = m
  m0inv_eq : g.m0inv = newton (m.headD 0)

structure Modulus.Of (m : List ℕ) (k : Modulus) : Prop where
  m_eq : k.m = m
  m0inv_eq : k.m0inv = newton (m.headD 0)

lemma Field.of_fromModulus {f : Field} (h : Field.fromModulus m = some f) : f.Of m := by
  simp only [Field.fromModulus] at h
  split at h
  · obtain ⟨r2, -, h⟩ := bind_eq_some_iff.1 h
    cases h
    refine ⟨rfl, rfl, fun hp => ?_⟩
    exact eq_of_beq (Bool.and_eq_true _ _ ▸ hp).2
  · cases h

lemma trimmedFrom_of_ne {k : ℕ} (h : a.getD k 0 ≠ 0) : trimmedFrom a (k + 1) = k + 1 := if_neg h

lemma IsModulus.trimmedLen (h : IsModulus n m) : trimmedLen m = n := by
  obtain ⟨k, rfl⟩ : ∃ k, n = k + 1 := ⟨n - 1, by have := h.pos; omega⟩
  rw [Bignum.trimmedLen, h.number.length_eq]
  exact trimmedFrom_of_ne h.top

lemma Mont.of_new (hm : IsModulus n m) {g : Mont} (h : Mont.new m = some g) : g.Of m := by
  simp only [Mont.new, hm.trimmedLen, List.take_of_length_le hm.number.length_eq.le] at h
  split at h
  · split at h
    · cases h
      exact ⟨rfl, rfl⟩
    · obtain ⟨r2, -, h⟩ := bind_eq_some_iff.1 h
      cases h
      exact ⟨rfl, rfl⟩
  · cases h

lemma Modulus.of_new {k : Modulus} (h : Modulus.new m = some k) : k.Of m := by
  simp only [Modulus.new] at h
  split at h
  · obtain ⟨mont, -, h⟩ := bind_eq_some_iff.1 h
    obtain ⟨v, -, h⟩ := bind_eq_some_iff.1 h
    obtain ⟨r2, -, h⟩ := bind_eq_some_iff.1 h
    obtain ⟨w, -, h⟩ := bind_eq_some_iff.1 h
    obtain ⟨r3, -, h⟩ := bind_eq_some_iff.1 h
    split at h
    · cases h
      exact ⟨rfl, rfl⟩
    · cases h
  · cases h

lemma Modulus.of_newSecret {k : Modulus} (h : Modulus.newSecret m = some k) : k.Of m := by
  obtain ⟨y, -, h⟩ := bind_eq_some_iff.1 h
  cases h
  exact ⟨rfl, rfl⟩

/-! ## Products -/

lemma Unreduced.carry_le {c : ℕ} (h : Unreduced n a b m (t, c)) (hm : Number n m)
    (hab : value a * value b < value m * size n) : c ≤ 1 := by
  have hlt := h.total_lt hab
  have hmlt := hm.value_lt
  by_contra! hc
  have := Nat.mul_le_mul_left (size n) hc
  simp only [total] at hlt
  omega

lemma Unreduced.reduced {c : ℕ} (h : Unreduced n a b m (t, c)) (hm : Number n m)
    (hab : value a * value b < value m * size n) :
    IsProduct n a b m (reduceOnce m t (c != 0)) := by
  obtain ⟨hnumber, hvalue⟩ := reduceOnce_spec hm h.1 (h.total_lt hab)
  have hpos : 0 < value m := Nat.pos_of_mul_pos_right (Nat.zero_lt_of_lt hab)
  refine h.isProduct hnumber ?_ ?_
  · rw [hvalue]
    exact Nat.mod_lt _ hpos
  · rw [hvalue]
    exact Nat.mod_modEq _ _

lemma Unreduced.reducedMask {c : ℕ} (h : Unreduced n a b m (t, c)) (hm : Number n m)
    (hab : value a * value b < value m * size n) : IsProduct n a b m (reduceOnceMask m t c) := by
  rw [reduceOnceMask_eq hm h.1 (h.carry_le hm hab)]
  exact h.reduced hm hab

lemma Unreduced.lowLimb_eq {acc : Column} {v : ℕ} (h : Unreduced n a b m (t, v)) (hm : Number n m)
    (hab : value a * value b < value m * size n) (hacc : acc.Sums v) : acc.lowLimb = v := by
  have hle := h.carry_le hm hab
  rw [hacc.lowLimb]
  omega

lemma cmp_borrow (ht : Number n t) (hm : Number n m) :
    (Multiword.cmp t m != .lt) = !(subBorrow t m).2 := by
  obtain ⟨hborrow, hvalue⟩ := chain_sbbFlags ht hm (Nat.zero_le 1)
  have hlt := (chain_number sbbFlags_fst_lt ht hm 0).value_lt
  rw [Bool.eq_iff_iff, bne_iff_ne, cmp_ne_lt ht hm, subBorrow, Bool.not_eq_true',
    bne_eq_false_iff_eq]
  obtain ⟨⟨d, borrow⟩, hchain⟩ : ∃ r, r = chain sbbFlags t m 0 := ⟨_, rfl⟩
  rw [← hchain] at hborrow hvalue hlt ⊢
  dsimp only at hborrow hvalue hlt ⊢
  interval_cases borrow
  · omega
  · omega

lemma mont_reduce (ht : Number n t) (hm : Number n m) (c : Bool) :
    (if c || Multiword.cmp t m != .lt then (subBorrow t m).1 else t) = reduceOnce m t c := by
  rw [cmp_borrow ht hm]
  rfl

section

variable (hm : IsModulus n m) (ha : Number n a) (hb : Number n b)
  (hab : value a * value b < value m * size n)

include hm ha hb

lemma rows_unreduced : ∃ t c, rows m (newton (m.headD 0)) a b = some (t, c) ∧
    Unreduced n a b m (t, c) := by
  obtain ⟨k, rfl⟩ : ∃ k, n = k + 1 := ⟨n - 1, by have := hm.pos; omega⟩
  obtain ⟨⟨t, c⟩, hrows, h⟩ := rows_spec hm.number hm.inverse ha hb
  exact ⟨t, c, hrows, h⟩

include hab

theorem Mont.Of.mul {g : Mont} (hg : g.Of m) : ∃ x, g.mul a b = some x ∧ IsProduct n a b m x := by
  obtain ⟨t, c, hrows, h⟩ := rows_unreduced hm ha hb
  refine ⟨_, ?_, h.reduced hm.number hab⟩
  rw [Mont.mul, hg.m_eq, hg.m0inv_eq, hrows]
  exact congrArg some (mont_reduce h.1 hm.number _)

theorem mulP256_spec (hP : m = P256) : ∃ x, mulP256 a b = some x ∧ IsProduct n a b m x := by
  subst hP
  have hn : n = 4 := hm.number.length_eq.symm
  subst hn
  obtain ⟨⟨t, c⟩, hrows, h⟩ := rowsP256_spec ha hb
  refine ⟨_, ?_, h.reduced hm.number hab⟩
  rw [mulP256, hrows]
  rfl

theorem Field.Of.mulRows {f : Field} (hf : f.Of m) :
    ∃ x, f.mulRows a b = some x ∧ IsProduct n a b m x := by
  rw [Field.mulRows]
  split
  · rename_i hp
    exact mulP256_spec hm ha hb hab (hf.p256 hp.2)
  · obtain ⟨t, c, hrows, h⟩ := rows_unreduced hm ha hb
    refine ⟨_, ?_, h.reduced hm.number hab⟩
    rw [hf.m_eq, hf.m0inv_eq, hrows]
    rfl

theorem Modulus.Of.mulRows {k : Modulus} (hk : k.Of m) :
    ∃ x, k.mulRows a b = some x ∧ IsProduct n a b m x := by
  obtain ⟨t, c, hrows, h⟩ := rows_unreduced hm ha hb
  refine ⟨_, ?_, h.reducedMask hm.number hab⟩
  rw [Modulus.mulRows, hk.m_eq, hk.m0inv_eq, hrows]
  rfl

variable (hN : 2 * n < 2 ^ 64)

include hN

theorem Field.Of.mulColumns {f : Field} (hf : f.Of m) :
    ∃ x, f.mulColumns a b = some x ∧ IsProduct n a b m x := by
  obtain ⟨r, acc, v, hcolumns, hacc, h⟩ := mulColumns_spec hN hm.number hm.inverse ha hb
  refine ⟨_, ?_, h.reduced hm.number hab⟩
  rw [Field.mulColumns, hf.m_eq, hf.m0inv_eq, hcolumns, some_bind, ← hacc.isZero]

theorem Modulus.Of.mulColumns {k : Modulus} (hk : k.Of m) :
    ∃ x, k.mulColumns a b = some x ∧ IsProduct n a b m x := by
  obtain ⟨r, acc, v, hcolumns, hacc, h⟩ := mulColumns_spec hN hm.number hm.inverse ha hb
  refine ⟨_, ?_, h.reducedMask hm.number hab⟩
  rw [Modulus.mulColumns, hk.m_eq, hk.m0inv_eq, hcolumns, some_bind]
  exact congrArg (fun c => some (reduceOnceMask m r c)) (h.lowLimb_eq hm.number hab hacc)

theorem Field.Of.mul {f : Field} (hf : f.Of m) :
    ∃ x, f.mul a b = some x ∧ IsProduct n a b m x := by
  rw [Field.mul]
  split
  · exact hf.mulColumns hm ha hb hab hN
  · exact hf.mulRows hm ha hb hab

theorem Modulus.Of.mul {k : Modulus} (hk : k.Of m) :
    ∃ x, k.mul a b = some x ∧ IsProduct n a b m x := by
  rw [Modulus.mul]
  split
  · exact hk.mulColumns hm ha hb hab hN
  · exact hk.mulRows hm ha hb hab

end

section

variable (hm : IsModulus n m) (ha : Number n a) (haa : value a * value a < value m * size n)
  (hN : 2 * n < 2 ^ 64)

include hm ha haa hN

theorem Field.Of.sqrColumns {f : Field} (hf : f.Of m) :
    ∃ x, f.sqrColumns a = some x ∧ IsProduct n a a m x := by
  obtain ⟨r, acc, v, hcolumns, hacc, h⟩ := sqrColumns_spec hN hm.number hm.inverse ha
  refine ⟨_, ?_, h.reduced hm.number haa⟩
  rw [Field.sqrColumns, hf.m_eq, hf.m0inv_eq, hcolumns, some_bind, ← hacc.isZero]

theorem Modulus.Of.sqrColumns {k : Modulus} (hk : k.Of m) :
    ∃ x, k.sqrColumns a = some x ∧ IsProduct n a a m x := by
  obtain ⟨r, acc, v, hcolumns, hacc, h⟩ := sqrColumns_spec hN hm.number hm.inverse ha
  refine ⟨_, ?_, h.reducedMask hm.number haa⟩
  rw [Modulus.sqrColumns, hk.m_eq, hk.m0inv_eq, hcolumns, some_bind]
  exact congrArg (fun c => some (reduceOnceMask m r c)) (h.lowLimb_eq hm.number haa hacc)

theorem Field.Of.sqr {f : Field} (hf : f.Of m) : ∃ x, f.sqr a = some x ∧ IsProduct n a a m x := by
  rw [Field.sqr]
  split
  · exact hf.sqrColumns hm ha haa hN
  · exact hf.mulRows hm ha ha haa

theorem Modulus.Of.sqr {k : Modulus} (hk : k.Of m) :
    ∃ x, k.sqr a = some x ∧ IsProduct n a a m x := by
  rw [Modulus.sqr]
  split
  · exact hk.sqrColumns hm ha haa hN
  · exact hk.mulRows hm ha ha haa

end

/-- All the products are the one `x` below the modulus with `x R = a b`, and the squares for
`b = a`; an array of the language has fewer than `2^63` bytes. -/
theorem products (hm : IsModulus n m) (hN : 8 * n < 2 ^ 63) (ha : Number n a) (hb : Number n b)
    (hab : value a * value b < value m * size n) :
    ∃ x, IsProduct n a b m x ∧ (∀ y, IsProduct n a b m y → y = x) ∧
      (∀ f, Field.fromModulus m = some f → f.mulRows a b = some x ∧ f.mulColumns a b = some x ∧
        f.mul a b = some x ∧ (b = a → f.sqrColumns a = some x ∧ f.sqr a = some x)) ∧
      (m = P256 → mulP256 a b = some x) ∧
      (∀ g, Mont.new m = some g → g.mul a b = some x) ∧
      ∀ k, Modulus.new m = some k ∨ Modulus.newSecret m = some k → k.mulRows a b = some x ∧
        k.mulColumns a b = some x ∧ k.mul a b = some x ∧
        (b = a → k.sqrColumns a = some x ∧ k.sqr a = some x) := by
  have h2N : 2 * n < 2 ^ 64 := by omega
  obtain ⟨t, c, -, h⟩ := rows_unreduced hm ha hb
  have hx := h.reduced hm.number hab
  have hunique : ∀ y, IsProduct n a b m y → y = reduceOnce m t (c != 0) :=
    fun y hy => hy.eq hx hm.value_odd
  -- what is some product is this one
  have hsame : ∀ {p : Option (List ℕ)}, (∃ y, p = some y ∧ IsProduct n a b m y) →
      p = some (reduceOnce m t (c != 0)) := by
    rintro p ⟨y, rfl, hy⟩
    rw [hunique y hy]
  refine ⟨_, hx, hunique, fun f hf => ?_, fun hP => hsame (mulP256_spec hm ha hb hab hP),
    fun g hg => hsame ((Mont.of_new hm hg).mul hm ha hb hab), fun k hk => ?_⟩
  · have hf := Field.of_fromModulus hf
    refine ⟨hsame (hf.mulRows hm ha hb hab), hsame (hf.mulColumns hm ha hb hab h2N),
      hsame (hf.mul hm ha hb hab h2N), fun heq => ?_⟩
    subst heq
    exact ⟨hsame (hf.sqrColumns hm hb hab h2N), hsame (hf.sqr hm hb hab h2N)⟩
  · have hk : k.Of m := hk.elim Modulus.of_new Modulus.of_newSecret
    refine ⟨hsame (hk.mulRows hm ha hb hab), hsame (hk.mulColumns hm ha hb hab h2N),
      hsame (hk.mul hm ha hb hab h2N), fun heq => ?_⟩
    subst heq
    exact ⟨hsame (hk.sqrColumns hm hb hab h2N), hsame (hk.sqr hm hb hab h2N)⟩

theorem products_P256 : ∃ x, IsProduct 4 [3, 0, 0, 0] [5, 0, 0, 0] P256 x ∧
    mulP256 [3, 0, 0, 0] [5, 0, 0, 0] = some x := by
  have hm : IsModulus 4 P256 := ⟨number_P256, by decide, by decide⟩
  obtain ⟨x, hx, -, -, hP, -⟩ := products hm (by decide) (a := [3, 0, 0, 0]) (b := [5, 0, 0, 0])
    ⟨rfl, by decide⟩ ⟨rfl, by decide⟩ (by decide)
  exact ⟨x, hx, hP rfl⟩

end Lazaret.Bignum
