import Lazaret.Lib.FiveLimbs
import Lazaret.Lib.Packed

/-!
# The field of `2^255 - 19`

The arithmetic of `fe25519.rs`, in five limbs of 51 bits.  Every operation has its value only if no
word overflows.  For operands in their bounds it has one, it is right modulo the prime, and its
limbs are in the bounds of the next use (`mul_spec` and the others); `toBytes` gives the one
encoding below the prime (`toBytes_spec`).
-/

namespace Lazaret.Fe25519

open Words

open Packed (ofBytes leAt leAt_eq)
open Words (fits)

/-- The prime `2^255 - 19`. -/
def P : ℕ := 2 ^ 255 - 19

def MASK51 : ℕ := 2 ^ 51 - 1

abbrev Fe := Limbs

def val (a : Fe) : ℕ := a.value (2 ^ 51)

def ZERO : Fe := ⟨0, 0, 0, 0, 0⟩

def ONE : Fe := ⟨1, 0, 0, 0, 0⟩

/-- The value of a difference of two words, if it does not overflow. -/
def minus (a b : ℕ) : Option ℕ := if b ≤ a then some (a - b) else none

def load8 (s : List UInt8) (i : ℕ) : ℕ := leAt 8 s i

def fromBytes (s : Vector UInt8 32) : Fe :=
  let s := s.toList
  ⟨load8 s 0 &&& MASK51, (load8 s 6 >>> 3) &&& MASK51, (load8 s 12 >>> 6) &&& MASK51,
    (load8 s 19 >>> 1) &&& MASK51, (load8 s 24 >>> 12) &&& MASK51⟩

def carry (h : Fe) : Option Fe := Limbs.carryIn 51 19 h

def addLazy (a b : Fe) : Option Fe := do
  let l0 ← fits 64 (a.l0 + b.l0)
  let l1 ← fits 64 (a.l1 + b.l1)
  let l2 ← fits 64 (a.l2 + b.l2)
  let l3 ← fits 64 (a.l3 + b.l3)
  let l4 ← fits 64 (a.l4 + b.l4)
  some ⟨l0, l1, l2, l3, l4⟩

def add (a b : Fe) : Option Fe := addLazy a b >>= carry

def TWO_P0 : ℕ := 0xfffffffffffda

def TWO_PN : ℕ := 0xffffffffffffe

/-- A limb of a difference: `a + t - b`. -/
def subLimb (a t b : ℕ) : Option ℕ := fits 64 (a + t) >>= fun x => minus x b

def subLazy (a b : Fe) : Option Fe := do
  let l0 ← subLimb a.l0 TWO_P0 b.l0
  let l1 ← subLimb a.l1 TWO_PN b.l1
  let l2 ← subLimb a.l2 TWO_PN b.l2
  let l3 ← subLimb a.l3 TWO_PN b.l3
  let l4 ← subLimb a.l4 TWO_PN b.l4
  some ⟨l0, l1, l2, l3, l4⟩

def sub (a b : Fe) : Option Fe := subLazy a b >>= carry

def reduce (c : Limbs) : Option Fe := do
  let ⟨c0, c1, c2, c3, c4⟩ := c
  let c1 ← fits 128 (c1 + c0 >>> 51)
  let r0 := c0 % 2 ^ 64 &&& MASK51
  let c2 ← fits 128 (c2 + c1 >>> 51)
  let r1 := c1 % 2 ^ 64 &&& MASK51
  let c3 ← fits 128 (c3 + c2 >>> 51)
  let r2 := c2 % 2 ^ 64 &&& MASK51
  let c4 ← fits 128 (c4 + c3 >>> 51)
  let r3 := c3 % 2 ^ 64 &&& MASK51
  let carry := (c4 >>> 51) % 2 ^ 64
  let r4 := c4 % 2 ^ 64 &&& MASK51
  let t ← fits 64 (carry * 19)
  let r0 ← fits 64 (r0 + t)
  let r1 ← fits 64 (r1 + r0 >>> 51)
  some ⟨r0 &&& MASK51, r1, r2, r3, r4⟩

def mul (a b : Fe) : Option Fe := Limbs.productIn 64 128 19 a b >>= reduce

def square (a : Fe) : Option Fe := do
  let ⟨a0, a1, a2, a3, a4⟩ := a
  let a3_19 ← fits 64 (a3 * 19)
  let a4_19 ← fits 64 (a4 * 19)
  let d0 ← fits 64 (a0 * 2)
  let d1 ← fits 64 (a1 * 2)
  let d2 ← fits 64 (a2 * 2)
  let d3 ← fits 64 (a3 * 2)
  let c0 ← fits 128 (a0 * a0 + d1 * a4_19 + d2 * a3_19)
  let c1 ← fits 128 (d0 * a1 + d2 * a4_19 + a3 * a3_19)
  let c2 ← fits 128 (d0 * a2 + a1 * a1 + d3 * a4_19)
  let c3 ← fits 128 (d0 * a3 + d1 * a2 + a4 * a4_19)
  let c4 ← fits 128 (d0 * a4 + d1 * a3 + a2 * a2)
  reduce ⟨c0, c1, c2, c3, c4⟩

/-- `u64 << k` -/
def shl64 (a k : ℕ) : ℕ := (a <<< k) % 2 ^ 64

/-- What is below the prime: the first part of `to_bytes`. -/
def canonical (h : Fe) : Option Fe := do
  let ⟨h0, h1, h2, h3, h4⟩ := h
  let t ← fits 64 (h0 + 19)
  let q := t >>> 51
  let t ← fits 64 (h1 + q)
  let q := t >>> 51
  let t ← fits 64 (h2 + q)
  let q := t >>> 51
  let t ← fits 64 (h3 + q)
  let q := t >>> 51
  let t ← fits 64 (h4 + q)
  let q := t >>> 51
  let h0 ← fits 64 (h0 + 19 * q)
  let c := h0 >>> 51
  let h0 := h0 &&& MASK51
  let h1 ← fits 64 (h1 + c)
  let c := h1 >>> 51
  let h1 := h1 &&& MASK51
  let h2 ← fits 64 (h2 + c)
  let c := h2 >>> 51
  let h2 := h2 &&& MASK51
  let h3 ← fits 64 (h3 + c)
  let c := h3 >>> 51
  let h3 := h3 &&& MASK51
  let h4 ← fits 64 (h4 + c)
  let h4 := h4 &&& MASK51
  some ⟨h0, h1, h2, h3, h4⟩

/-- Limbs in words of 64 bits, lowest byte first: the second part. -/
def pack (h : Fe) : List UInt8 :=
  let w0 := h.l0 ||| shl64 h.l1 51
  let w1 := h.l1 >>> 13 ||| shl64 h.l2 38
  let w2 := h.l2 >>> 26 ||| shl64 h.l3 25
  let w3 := h.l3 >>> 39 ||| shl64 h.l4 12
  Packed.toBytes 8 w0 ++ Packed.toBytes 8 w1 ++ Packed.toBytes 8 w2 ++ Packed.toBytes 8 w3

def toBytes (a : Fe) : Option (List UInt8) := do
  let h ← carry a
  let h ← carry h
  let h ← canonical h
  some (pack h)

abbrev Reduced (a : Fe) : Prop := Limbs.Carried (2 ^ 51) (2 ^ 12) a

lemma P_add : P + 19 = (2 ^ 51) ^ 5 := rfl

lemma val_eq (a : Fe) :
    val a = a.l0 + 2 ^ 51 * a.l1 + 2 ^ 102 * a.l2 + 2 ^ 153 * a.l3 + 2 ^ 204 * a.l4 := by
  rw [val, Limbs.value, ← pow_mul, ← pow_mul, ← pow_mul]

lemma and_mask (n : ℕ) : n &&& MASK51 = n % 2 ^ 51 := and_ones n 51

variable {a b : Fe}

/-! ## Carries -/

lemma carry_eq (h : a.Lt (2 ^ 63)) :
    carry a = some (a.carried (2 ^ 51) 19) ∧
      Limbs.Carried (2 ^ 51) (2 ^ 6) (a.carried (2 ^ 51) 19) := by
  obtain ⟨h0, h1, h2, h3, h4⟩ := h
  have hraised : (a.raised (2 ^ 51)).Le (2 ^ 63 + 2 ^ 13) := by
    constructor <;> simp only [Limbs.raised] <;> omega
  have hfold : (a.raised (2 ^ 51)).l0 % 2 ^ 51 + 19 * ((a.raised (2 ^ 51)).l4 / 2 ^ 51) <
      2 ^ 51 * 2 ^ 6 := by
    have := hraised.l4_le
    omega
  have hcarried := Limbs.carried_lt (by decide) hfold
  exact ⟨Limbs.carryIn_eq hraised (by decide) (hfold.trans (by decide))
    (hcarried.l1_lt.trans (by decide)), hcarried⟩

theorem carry_spec (h : a.Lt (2 ^ 63)) : ∃ c, carry a = some c ∧
    Limbs.Carried (2 ^ 51) (2 ^ 6) c ∧ val c ≡ val a [MOD P] :=
  ⟨_, (carry_eq h).1, (carry_eq h).2, Limbs.carried_value P_add a⟩

lemma reduce_spec {c : Limbs} {m : ℕ} (h : c.Le m) (hm : m ≤ 2 ^ 114) (h4 : c.l4 ≤ 5 * 2 ^ 106) :
    ∃ r, reduce c = some r ∧ Reduced r ∧ val r ≡ val c [MOD P] := by
  obtain ⟨c0, c1, c2, c3, c4⟩ := c
  obtain ⟨h0, h1, h2, h3, -⟩ := h
  dsimp only at h0 h1 h2 h3 h4
  obtain ⟨e1, he1⟩ : ∃ e1, e1 = c1 + c0 / 2 ^ 51 := ⟨_, rfl⟩
  obtain ⟨e2, he2⟩ : ∃ e2, e2 = c2 + e1 / 2 ^ 51 := ⟨_, rfl⟩
  obtain ⟨e3, he3⟩ : ∃ e3, e3 = c3 + e2 / 2 ^ 51 := ⟨_, rfl⟩
  obtain ⟨e4, he4⟩ : ∃ e4, e4 = c4 + e3 / 2 ^ 51 := ⟨_, rfl⟩
  have hraised : (Limbs.mk c0 c1 c2 c3 c4).raised (2 ^ 51) = ⟨c0, e1, e2, e3, e4⟩ := by
    rw [he4, he3, he2, he1]
    rfl
  have hcarried : (Limbs.mk c0 c1 c2 c3 c4).carried (2 ^ 51) 19 =
      ⟨(c0 % 2 ^ 51 + 19 * (e4 / 2 ^ 51)) % 2 ^ 51,
        e1 % 2 ^ 51 + (c0 % 2 ^ 51 + 19 * (e4 / 2 ^ 51)) / 2 ^ 51,
        e2 % 2 ^ 51, e3 % 2 ^ 51, e4 % 2 ^ 51⟩ := by
    rw [Limbs.carried, hraised]
  have hmod : ∀ n, n % 2 ^ 64 % 2 ^ 51 = n % 2 ^ 51 := fun n => by omega
  have htop : e4 / 2 ^ 51 % 2 ^ 64 = e4 / 2 ^ 51 := by omega
  refine ⟨(Limbs.mk c0 c1 c2 c3 c4).carried (2 ^ 51) 19, ?_,
    Limbs.carried_lt (by decide) (by rw [hraised]; dsimp only; omega),
    Limbs.carried_value P_add _⟩
  rw [hcarried]
  simp only [reduce, and_mask, hmod, Nat.shiftRight_eq_div_pow]
  rw [← he1, fits_bind (by omega), ← he2, fits_bind (by omega), ← he3,
    fits_bind (by omega), ← he4, fits_bind (by omega), htop, Nat.mul_comm _ 19,
    fits_bind (by omega), fits_bind (by omega), fits_bind (by omega)]

/-! ## Products -/

lemma product_bounds (ha : a.Lt (2 ^ 53)) (hb : b.Lt (2 ^ 53)) :
    (a.product 19 b).Le (2 ^ 114) ∧ (a.product 19 b).l4 ≤ 5 * 2 ^ 106 := by
  obtain ⟨hle, h4⟩ := Limbs.product_le (f := 19) ha.le hb.le
  have := mul_le_mul ha.l0_lt.le hb.l4_lt.le
  exact ⟨hle.mono (by decide), by omega⟩

theorem mul_spec (ha : a.Lt (2 ^ 53)) (hb : b.Lt (2 ^ 53)) :
    ∃ c, mul a b = some c ∧ Reduced c ∧ val c ≡ val a * val b [MOD P] := by
  obtain ⟨hle, h4⟩ := product_bounds ha hb
  have hin : Limbs.productIn 64 128 19 a b = some (a.product 19 b) :=
    Limbs.productIn_eq (fun x hx => by omega) hb.le hle (by decide)
  obtain ⟨c, hc, hreduced, hvalue⟩ := reduce_spec hle (le_refl _) h4
  refine ⟨c, ?_, hreduced, hvalue.trans (Limbs.product_value P_add a b)⟩
  rw [mul, hin]
  exact hc

theorem square_spec (ha : a.Lt (2 ^ 53)) :
    ∃ c, square a = some c ∧ Reduced c ∧ val c ≡ val a * val a [MOD P] := by
  obtain ⟨hle, h4⟩ := product_bounds ha ha
  obtain ⟨c, hc, hreduced, hvalue⟩ := reduce_spec hle (le_refl _) h4
  refine ⟨c, ?_, hreduced, hvalue.trans (Limbs.product_value P_add a a)⟩
  obtain ⟨a0, a1, a2, a3, a4⟩ := a
  obtain ⟨ha0, ha1, ha2, ha3, ha4⟩ := ha
  dsimp only at ha0 ha1 ha2 ha3 ha4
  have hproduct : (Limbs.mk a0 a1 a2 a3 a4).product 19 ⟨a0, a1, a2, a3, a4⟩ =
      ⟨a0 * a0 + a1 * 2 * (a4 * 19) + a2 * 2 * (a3 * 19),
        a0 * 2 * a1 + a2 * 2 * (a4 * 19) + a3 * (a3 * 19),
        a0 * 2 * a2 + a1 * a1 + a3 * 2 * (a4 * 19),
        a0 * 2 * a3 + a1 * 2 * a2 + a4 * (a4 * 19),
        a0 * 2 * a4 + a1 * 2 * a3 + a2 * a2⟩ := by
    simp only [Limbs.product, Limbs.mk.injEq]
    refine ⟨?_, ?_, ?_, ?_, ?_⟩ <;> ring
  rw [hproduct] at hle hc
  obtain ⟨hc0, hc1, hc2, hc3, hc4⟩ := hle
  have h128 : (2 : ℕ) ^ 114 < 2 ^ 128 := by decide
  simp only [square]
  rw [fits_bind (by omega), fits_bind (by omega), fits_bind (by omega), fits_bind (by omega),
    fits_bind (by omega), fits_bind (by omega), fits_bind (hc0.trans_lt h128),
    fits_bind (hc1.trans_lt h128), fits_bind (hc2.trans_lt h128), fits_bind (hc3.trans_lt h128),
    fits_bind (hc4.trans_lt h128)]
  exact hc

/-! ## Sums and differences -/

lemma TWO_P_eq : TWO_P0 + 2 ^ 51 * TWO_PN + 2 ^ 102 * TWO_PN + 2 ^ 153 * TWO_PN + 2 ^ 204 * TWO_PN =
    2 * P := by
  decide

theorem addLazy_spec {m n : ℕ} (ha : a.Lt m) (hb : b.Lt n) (hmn : m + n ≤ 2 ^ 64) :
    ∃ c, addLazy a b = some c ∧ c.Lt (m + n) ∧ val c = val a + val b := by
  obtain ⟨ha0, ha1, ha2, ha3, ha4⟩ := ha
  obtain ⟨hb0, hb1, hb2, hb3, hb4⟩ := hb
  refine ⟨⟨a.l0 + b.l0, a.l1 + b.l1, a.l2 + b.l2, a.l3 + b.l3, a.l4 + b.l4⟩, ?_,
    ⟨by dsimp only; omega, by dsimp only; omega, by dsimp only; omega, by dsimp only; omega,
      by dsimp only; omega⟩, ?_⟩
  · rw [addLazy, fits_bind (by omega), fits_bind (by omega),
      fits_bind (by omega), fits_bind (by omega), fits_bind (by omega)]
  · rw [val_eq, val_eq, val_eq]
    ring

theorem add_spec (ha : a.Lt (2 ^ 52)) (hb : b.Lt (2 ^ 52)) : ∃ c, add a b = some c ∧
    Limbs.Carried (2 ^ 51) (2 ^ 6) c ∧ val c ≡ val a + val b [MOD P] := by
  obtain ⟨d, hd, hlt, hvalue⟩ := addLazy_spec ha hb (by decide)
  obtain ⟨c, hc, hcarried, hmod⟩ := carry_spec (hlt.mono (by decide))
  refine ⟨c, ?_, hcarried, hvalue ▸ hmod⟩
  rw [add, hd]
  exact hc

lemma subLimb_eq {x t y : ℕ} (hx : x + t < 2 ^ 64) (hy : y ≤ x + t) :
    subLimb x t y = some (x + t - y) := by
  rw [subLimb, fits_bind hx, minus, if_pos hy]

/-- No limb is more than that of `2p`, which a difference adds first. -/
structure WithinTwoP (b : Fe) : Prop where
  l0_le : b.l0 ≤ TWO_P0
  l1_le : b.l1 ≤ TWO_PN
  l2_le : b.l2 ≤ TWO_PN
  l3_le : b.l3 ≤ TWO_PN
  l4_le : b.l4 ≤ TWO_PN

lemma withinTwoP_of_lt (h : b.Lt (2 ^ 51 + 2 ^ 12)) : WithinTwoP b := by
  have h0 : 2 ^ 51 + 2 ^ 12 ≤ TWO_P0 := by decide
  have hn : 2 ^ 51 + 2 ^ 12 ≤ TWO_PN := by decide
  exact ⟨h.l0_lt.le.trans h0, h.l1_lt.le.trans hn, h.l2_lt.le.trans hn, h.l3_lt.le.trans hn,
    h.l4_lt.le.trans hn⟩

theorem subLazy_spec (ha : a.Lt (2 ^ 52)) (hb : WithinTwoP b) : ∃ c, subLazy a b = some c ∧
    c.Lt (2 ^ 53) ∧ val c + val b = val a + 2 * P := by
  obtain ⟨ha0, ha1, ha2, ha3, ha4⟩ := ha
  obtain ⟨hb0, hb1, hb2, hb3, hb4⟩ := hb
  have h0 : TWO_P0 = 2 ^ 52 - 38 := by decide
  have hn : TWO_PN = 2 ^ 52 - 2 := by decide
  refine ⟨⟨a.l0 + TWO_P0 - b.l0, a.l1 + TWO_PN - b.l1, a.l2 + TWO_PN - b.l2,
    a.l3 + TWO_PN - b.l3, a.l4 + TWO_PN - b.l4⟩, ?_,
    ⟨by dsimp only; omega, by dsimp only; omega, by dsimp only; omega, by dsimp only; omega,
      by dsimp only; omega⟩, ?_⟩
  · rw [subLazy, subLimb_eq (by omega) (by omega), subLimb_eq (by omega) (by omega),
      subLimb_eq (by omega) (by omega), subLimb_eq (by omega) (by omega),
      subLimb_eq (by omega) (by omega)]
    rfl
  · rw [← TWO_P_eq, val_eq, val_eq, val_eq]
    dsimp only
    omega

theorem sub_spec (ha : a.Lt (2 ^ 52)) (hb : WithinTwoP b) : ∃ c, sub a b = some c ∧
    Limbs.Carried (2 ^ 51) (2 ^ 6) c ∧ val c + val b ≡ val a [MOD P] := by
  obtain ⟨d, hd, hlt, hvalue⟩ := subLazy_spec ha hb
  obtain ⟨c, hc, hcarried, hmod⟩ := carry_spec (hlt.mono (by decide))
  refine ⟨c, ?_, hcarried, ?_⟩
  · rw [sub, hd]
    exact hc
  · calc
      val c + val b ≡ val d + val b [MOD P] := hmod.add_right _
      _ = val a + 2 * P := hvalue
      _ ≡ val a [MOD P] := Nat.add_mul_modulus_modEq_iff.2 rfl

/-! ## Bytes -/

theorem fromBytes_spec (s : Vector UInt8 32) :
    (fromBytes s).Lt (2 ^ 51) ∧ val (fromBytes s) = ofBytes s.toList % 2 ^ 255 := by
  have hlt : ofBytes s.toList < 256 ^ 32 := by
    have := Packed.ofBytes_lt s.toList
    rwa [Vector.length_toList] at this
  refine ⟨⟨?_, ?_, ?_, ?_, ?_⟩, ?_⟩
  case refine_6 =>
    rw [val_eq, fromBytes]
    simp only [load8, leAt_eq, and_mask, Nat.shiftRight_eq_div_pow]
    generalize ofBytes s.toList = n at *
    norm_num only at *
    omega
  all_goals
    simp only [fromBytes, and_mask]
    exact Nat.mod_lt _ (by decide)

lemma carry_carry_spec (h : a.Lt (2 ^ 63)) : ∃ b c, carry a = some b ∧ carry b = some c ∧
    c.Lt (2 ^ 51) ∧ val c ≡ val a [MOD P] := by
  obtain ⟨b, hb, hcarried, hvalue⟩ := carry_spec h
  obtain ⟨hc, -⟩ := carry_eq (hcarried.lt (n := 2 ^ 63) (by decide))
  refine ⟨b, _, hb, hc, ?_, (Limbs.carried_value P_add b).trans hvalue⟩
  obtain ⟨h0, h1, h2, h3, h4⟩ := hcarried
  have hmod : ∀ n, n % 2 ^ 51 < 2 ^ 51 := fun n => Nat.mod_lt n (by decide)
  refine ⟨hmod _, ?_, hmod _, hmod _, hmod _⟩
  -- a carry out of the last limb leaves little in the second
  simp only [Limbs.carried, Limbs.raised]
  omega

lemma val_lt (h : a.Lt (2 ^ 51)) : val a < 2 ^ 255 := by
  obtain ⟨h0, h1, h2, h3, h4⟩ := h
  rw [val_eq]
  omega

lemma canonical_spec (h : a.Lt (2 ^ 51)) :
    ∃ c, canonical a = some c ∧ c.Lt (2 ^ 51) ∧ val c = val a % P := by
  obtain ⟨h0, h1, h2, h3, h4⟩ := a
  obtain ⟨hh0, hh1, hh2, hh3, hh4⟩ := h
  dsimp only at hh0 hh1 hh2 hh3 hh4
  have hP : P = 2 ^ 255 - 19 := rfl
  obtain ⟨q0, hq0⟩ : ∃ q, q = (h0 + 19) / 2 ^ 51 := ⟨_, rfl⟩
  obtain ⟨q1, hq1⟩ : ∃ q, q = (h1 + q0) / 2 ^ 51 := ⟨_, rfl⟩
  obtain ⟨q2, hq2⟩ : ∃ q, q = (h2 + q1) / 2 ^ 51 := ⟨_, rfl⟩
  obtain ⟨q3, hq3⟩ : ∃ q, q = (h3 + q2) / 2 ^ 51 := ⟨_, rfl⟩
  obtain ⟨q, hq⟩ : ∃ q, q = (h4 + q3) / 2 ^ 51 := ⟨_, rfl⟩
  obtain ⟨e0, he0⟩ : ∃ e, e = h0 + 19 * q := ⟨_, rfl⟩
  obtain ⟨e1, he1⟩ : ∃ e, e = h1 + e0 / 2 ^ 51 := ⟨_, rfl⟩
  obtain ⟨e2, he2⟩ : ∃ e, e = h2 + e1 / 2 ^ 51 := ⟨_, rfl⟩
  obtain ⟨e3, he3⟩ : ∃ e, e = h3 + e2 / 2 ^ 51 := ⟨_, rfl⟩
  obtain ⟨e4, he4⟩ : ∃ e, e = h4 + e3 / 2 ^ 51 := ⟨_, rfl⟩
  have hmod : ∀ n, n % 2 ^ 51 < 2 ^ 51 := fun n => Nat.mod_lt n (by decide)
  refine ⟨⟨e0 % 2 ^ 51, e1 % 2 ^ 51, e2 % 2 ^ 51, e3 % 2 ^ 51, e4 % 2 ^ 51⟩, ?_,
    ⟨hmod _, hmod _, hmod _, hmod _, hmod _⟩, ?_⟩
  · simp only [canonical, and_mask, Nat.shiftRight_eq_div_pow]
    rw [fits_bind (by omega), ← hq0, fits_bind (by omega), ← hq1, fits_bind (by omega), ← hq2,
      fits_bind (by omega), ← hq3, fits_bind (by omega), ← hq, fits_bind (by omega), ← he0,
      fits_bind (by omega), ← he1, fits_bind (by omega), ← he2, fits_bind (by omega), ← he3,
      fits_bind (by omega), ← he4]
  · have hw : val ⟨e0 % 2 ^ 51, e1 % 2 ^ 51, e2 % 2 ^ 51, e3 % 2 ^ 51, e4 % 2 ^ 51⟩ +
        2 ^ 255 * (e4 / 2 ^ 51) = val ⟨h0, h1, h2, h3, h4⟩ + 19 * q := by
      rw [val_eq, val_eq]
      dsimp only
      omega
    have hq : ∃ r < 2 ^ 255, val ⟨h0, h1, h2, h3, h4⟩ + 19 = r + 2 ^ 255 * q := by
      refine ⟨val ⟨(h0 + 19) % 2 ^ 51, (h1 + q0) % 2 ^ 51, (h2 + q1) % 2 ^ 51,
        (h3 + q2) % 2 ^ 51, (h4 + q3) % 2 ^ 51⟩,
        val_lt ⟨hmod _, hmod _, hmod _, hmod _, hmod _⟩, ?_⟩
      rw [val_eq, val_eq]
      dsimp only
      omega
    have hlt :
        val ⟨e0 % 2 ^ 51, e1 % 2 ^ 51, e2 % 2 ^ 51, e3 % 2 ^ 51, e4 % 2 ^ 51⟩ < 2 ^ 255 :=
      val_lt ⟨hmod _, hmod _, hmod _, hmod _, hmod _⟩
    have hlt' : val ⟨h0, h1, h2, h3, h4⟩ < 2 ^ 255 := val_lt ⟨hh0, hh1, hh2, hh3, hh4⟩
    generalize val ⟨h0, h1, h2, h3, h4⟩ = v at *
    obtain ⟨r, hr, hq⟩ := hq
    generalize val ⟨e0 % 2 ^ 51, e1 % 2 ^ 51, e2 % 2 ^ 51, e3 % 2 ^ 51, e4 % 2 ^ 51⟩ = w at *
    obtain hlt | hle := lt_or_ge v P
    · rw [Nat.mod_eq_of_lt hlt]
      omega
    · rw [Nat.mod_eq_sub_mod hle, Nat.mod_eq_of_lt (by omega)]
      omega

lemma pack_spec (h : a.Lt (2 ^ 51)) : pack a = Packed.toBytes 32 (val a) := by
  obtain ⟨h0, h1, h2, h3, h4⟩ := a
  obtain ⟨hh0, hh1, hh2, hh3, hh4⟩ := h
  dsimp only at hh0 hh1 hh2 hh3 hh4
  have hw0 : h0 ||| shl64 h1 51 = h0 + h1 % 2 ^ 13 * 2 ^ 51 := by
    rw [shl64, shiftLeft_mod h1 (j := 13) rfl, or_shift (by omega)]
  have hw1 : h1 >>> 13 ||| shl64 h2 38 = h1 / 2 ^ 13 + h2 % 2 ^ 26 * 2 ^ 38 := by
    rw [shl64, shiftLeft_mod h2 (j := 26) rfl, Nat.shiftRight_eq_div_pow, or_shift (by omega)]
  have hw2 : h2 >>> 26 ||| shl64 h3 25 = h2 / 2 ^ 26 + h3 % 2 ^ 39 * 2 ^ 25 := by
    rw [shl64, shiftLeft_mod h3 (j := 39) rfl, Nat.shiftRight_eq_div_pow, or_shift (by omega)]
  have hw3 : h3 >>> 39 ||| shl64 h4 12 = h3 / 2 ^ 39 + h4 % 2 ^ 52 * 2 ^ 12 := by
    rw [shl64, shiftLeft_mod h4 (j := 52) rfl, Nat.shiftRight_eq_div_pow, or_shift (by omega)]
  have hval : val ⟨h0, h1, h2, h3, h4⟩ = h0 + h1 % 2 ^ 13 * 2 ^ 51 +
      256 ^ 8 * (h1 / 2 ^ 13 + h2 % 2 ^ 26 * 2 ^ 38 + 256 ^ 8 * (h2 / 2 ^ 26 +
        h3 % 2 ^ 39 * 2 ^ 25 + 256 ^ 8 * (h3 / 2 ^ 39 + h4 % 2 ^ 52 * 2 ^ 12))) := by
    rw [val_eq]
    dsimp only
    omega
  rw [pack, hw0, hw1, hw2, hw3, hval, Packed.toBytes_append (v := 8) (by omega) 24,
    Packed.toBytes_append (v := 8) (by omega) 16, Packed.toBytes_append (v := 8) (by omega) 8]
  simp only [List.append_assoc]

theorem toBytes_spec (h : a.Lt (2 ^ 53)) : toBytes a = some (Packed.toBytes 32 (val a % P)) := by
  obtain ⟨b, c, hb, hc, hlt, hvalue⟩ := carry_carry_spec (h.mono (by decide))
  obtain ⟨d, hd, hlt', hvalue'⟩ := canonical_spec hlt
  have hbytes : pack d = Packed.toBytes 32 (val a % P) := by
    rw [pack_spec hlt', hvalue', hvalue]
  simp only [toBytes, Option.bind_eq_bind, hb, hc, hd, hbytes, Option.bind_some]

end Lazaret.Fe25519
