import Lazaret.Lib.Words
import Mathlib.Data.Nat.ModEq
import Mathlib.Tactic.LinearCombination
import Mathlib.Tactic.Zify

/-!
# Five limbs

Numbers of five limbs in a base `B`, with some room above each digit, modulo `M = B^5 - f` for a
small `f`.  A product is five sums of products in which `B^5` is replaced by `f` (`product_value`),
and one pass of carries, the last one folded back `f` times, brings limbs down again
(`carried_value`, `carried_lt`).
-/

namespace Lazaret

open Words

structure Limbs where
  l0 : ℕ
  l1 : ℕ
  l2 : ℕ
  l3 : ℕ
  l4 : ℕ
deriving DecidableEq

namespace Limbs

def value (B : ℕ) (l : Limbs) : ℕ := l.l0 + B * l.l1 + B ^ 2 * l.l2 + B ^ 3 * l.l3 + B ^ 4 * l.l4

def product (f : ℕ) (h r : Limbs) : Limbs where
  l0 := h.l0 * r.l0 + h.l1 * (r.l4 * f) + h.l2 * (r.l3 * f) + h.l3 * (r.l2 * f) + h.l4 * (r.l1 * f)
  l1 := h.l0 * r.l1 + h.l1 * r.l0 + h.l2 * (r.l4 * f) + h.l3 * (r.l3 * f) + h.l4 * (r.l2 * f)
  l2 := h.l0 * r.l2 + h.l1 * r.l1 + h.l2 * r.l0 + h.l3 * (r.l4 * f) + h.l4 * (r.l3 * f)
  l3 := h.l0 * r.l3 + h.l1 * r.l2 + h.l2 * r.l1 + h.l3 * r.l0 + h.l4 * (r.l4 * f)
  l4 := h.l0 * r.l4 + h.l1 * r.l3 + h.l2 * r.l2 + h.l3 * r.l1 + h.l4 * r.l0

/-- The limbs with every carry brought on to the next one, on the way up. -/
def raised (B : ℕ) (d : Limbs) : Limbs :=
  let d1 := d.l1 + d.l0 / B
  let d2 := d.l2 + d1 / B
  let d3 := d.l3 + d2 / B
  let d4 := d.l4 + d3 / B
  ⟨d.l0, d1, d2, d3, d4⟩

/-- One pass of carries, and that of the last limb folded back to the first and on to the second. -/
def carried (B f : ℕ) (d : Limbs) : Limbs :=
  let e := d.raised B
  let g := e.l0 % B + f * (e.l4 / B)
  ⟨g % B, e.l1 % B + g / B, e.l2 % B, e.l3 % B, e.l4 % B⟩

structure Le (l : Limbs) (n : ℕ) : Prop where
  l0_le : l.l0 ≤ n
  l1_le : l.l1 ≤ n
  l2_le : l.l2 ≤ n
  l3_le : l.l3 ≤ n
  l4_le : l.l4 ≤ n

structure Lt (l : Limbs) (n : ℕ) : Prop where
  l0_lt : l.l0 < n
  l1_lt : l.l1 < n
  l2_lt : l.l2 < n
  l3_lt : l.l3 < n
  l4_lt : l.l4 < n

/-- What limbs are like after a pass of carries: digits, but for a little room in the second. -/
structure Carried (B room : ℕ) (l : Limbs) : Prop where
  l0_lt : l.l0 < B
  l1_lt : l.l1 < B + room
  l2_lt : l.l2 < B
  l3_lt : l.l3 < B
  l4_lt : l.l4 < B

variable {B f M : ℕ}

variable {n : ℕ} {l : Limbs} {m : ℕ}

lemma Le.mono (h : l.Le m) (hmn : m ≤ n) : l.Le n :=
  ⟨h.l0_le.trans hmn, h.l1_le.trans hmn, h.l2_le.trans hmn, h.l3_le.trans hmn, h.l4_le.trans hmn⟩

lemma Lt.mono (h : l.Lt m) (hmn : m ≤ n) : l.Lt n :=
  ⟨h.l0_lt.trans_le hmn, h.l1_lt.trans_le hmn, h.l2_lt.trans_le hmn, h.l3_lt.trans_le hmn,
    h.l4_lt.trans_le hmn⟩

lemma Lt.le (h : l.Lt n) : l.Le n :=
  ⟨h.l0_lt.le, h.l1_lt.le, h.l2_lt.le, h.l3_lt.le, h.l4_lt.le⟩

lemma Carried.lt {room : ℕ} (h : Carried B room l) (hn : B + room ≤ n) : l.Lt n :=
  ⟨by have := h.l0_lt; omega, by have := h.l1_lt; omega, by have := h.l2_lt; omega,
    by have := h.l3_lt; omega, by have := h.l4_lt; omega⟩

lemma Carried.mono {r s : ℕ} (h : Carried B r l) (hrs : r ≤ s) : Carried B s l :=
  ⟨h.l0_lt, h.l1_lt.trans_le (Nat.add_le_add_left hrs B), h.l2_lt, h.l3_lt, h.l4_lt⟩

theorem product_value (hM : M + f = B ^ 5) (h r : Limbs) :
    (product f h r).value B ≡ h.value B * r.value B [MOD M] := by
  obtain ⟨h0, h1, h2, h3, h4⟩ := h
  obtain ⟨r0, r1, r2, r3, r4⟩ := r
  -- what stands at `B^5` and above
  have hsum : (Limbs.mk h0 h1 h2 h3 h4).value B * (Limbs.mk r0 r1 r2 r3 r4).value B =
      (product f ⟨h0, h1, h2, h3, h4⟩ ⟨r0, r1, r2, r3, r4⟩).value B +
        M * ((h1 * r4 + h2 * r3 + h3 * r2 + h4 * r1) + B * (h2 * r4 + h3 * r3 + h4 * r2) +
          B ^ 2 * (h3 * r4 + h4 * r3) + B ^ 3 * (h4 * r4)) := by
    zify at hM ⊢
    simp only [value, product]
    push_cast
    linear_combination (-((h1 * r4 + h2 * r3 + h3 * r2 + h4 * r1 : ℤ) +
      B * (h2 * r4 + h3 * r3 + h4 * r2) + B ^ 2 * (h3 * r4 + h4 * r3) + B ^ 3 * (h4 * r4))) * hM
  rw [hsum]
  exact (Nat.modEq_iff_dvd' (Nat.le_add_right _ _)).2 (by simp)

lemma product_le {h r : Limbs} {a b : ℕ} (hh : h.Le a) (hr : r.Le b) :
    (product f h r).Le (5 * (a * b) + 4 * (f * (a * b))) ∧
      (product f h r).l4 ≤ h.l0 * r.l4 + 4 * (a * b) := by
  obtain ⟨h0, h1, h2, h3, h4⟩ := hh
  obtain ⟨r0, r1, r2, r3, r4⟩ := hr
  have hfold : ∀ {x y}, x ≤ a → y ≤ b → x * (y * f) ≤ f * (a * b) := by
    intro x y hx hy
    rw [← mul_assoc, mul_comm _ f]
    exact Nat.mul_le_mul_left f (Nat.mul_le_mul hx hy)
  have hlast : (product f h r).l4 ≤ h.l0 * r.l4 + 4 * (a * b) := by
    have := mul_le_mul h1 r3
    have := mul_le_mul h2 r2
    have := mul_le_mul h3 r1
    have := mul_le_mul h4 r0
    simp only [product]
    omega
  refine ⟨⟨?_, ?_, ?_, ?_, ?_⟩, hlast⟩
  · have := mul_le_mul h0 r0
    have := hfold h1 r4
    have := hfold h2 r3
    have := hfold h3 r2
    have := hfold h4 r1
    simp only [product]
    omega
  · have := mul_le_mul h0 r1
    have := mul_le_mul h1 r0
    have := hfold h2 r4
    have := hfold h3 r3
    have := hfold h4 r2
    simp only [product]
    omega
  · have := mul_le_mul h0 r2
    have := mul_le_mul h1 r1
    have := mul_le_mul h2 r0
    have := hfold h3 r4
    have := hfold h4 r3
    simp only [product]
    omega
  · have := mul_le_mul h0 r3
    have := mul_le_mul h1 r2
    have := mul_le_mul h2 r1
    have := mul_le_mul h3 r0
    have := hfold h4 r4
    simp only [product]
    omega
  · have := mul_le_mul h0 r4
    omega

lemma carried_value_add (hM : M + f = B ^ 5) (d : Limbs) :
    d.value B = (d.carried B f).value B + M * ((d.raised B).l4 / B) := by
  obtain ⟨d0, d1, d2, d3, d4⟩ := d
  simp only [value, carried, raised]
  have h0 := Nat.mod_add_div d0 B
  have h1 := Nat.mod_add_div (d1 + d0 / B) B
  have h2 := Nat.mod_add_div (d2 + (d1 + d0 / B) / B) B
  have h3 := Nat.mod_add_div (d3 + (d2 + (d1 + d0 / B) / B) / B) B
  have h4 := Nat.mod_add_div (d4 + (d3 + (d2 + (d1 + d0 / B) / B) / B) / B) B
  generalize (d4 + (d3 + (d2 + (d1 + d0 / B) / B) / B) / B) / B = q4 at *
  generalize (d4 + (d3 + (d2 + (d1 + d0 / B) / B) / B) / B) % B = r4 at *
  generalize (d3 + (d2 + (d1 + d0 / B) / B) / B) / B = q3 at *
  generalize (d3 + (d2 + (d1 + d0 / B) / B) / B) % B = r3 at *
  generalize (d2 + (d1 + d0 / B) / B) / B = q2 at *
  generalize (d2 + (d1 + d0 / B) / B) % B = r2 at *
  generalize (d1 + d0 / B) / B = q1 at *
  generalize (d1 + d0 / B) % B = r1 at *
  generalize d0 / B = q0 at *
  generalize d0 % B = r0 at *
  have hg := Nat.mod_add_div (r0 + f * q4) B
  generalize (r0 + f * q4) / B = qg at *
  generalize (r0 + f * q4) % B = rg at *
  zify at *
  linear_combination (-1) * h0 - B * h1 - B ^ 2 * h2 - B ^ 3 * h3 - B ^ 4 * h4 - hg - q4 * hM

theorem carried_value (hM : M + f = B ^ 5) (d : Limbs) :
    (d.carried B f).value B ≡ d.value B [MOD M] := by
  rw [carried_value_add hM d]
  exact (Nat.modEq_iff_dvd' (Nat.le_add_right _ _)).2 (by simp)

theorem carried_lt (hB : 0 < B) {d : Limbs} {room : ℕ}
    (h : (d.raised B).l0 % B + f * ((d.raised B).l4 / B) < B * room) :
    Carried B room (d.carried B f) := by
  have hmod : ∀ n, n % B < B := fun n => Nat.mod_lt n hB
  exact ⟨hmod _, Nat.add_lt_add (hmod _) (Nat.div_lt_of_lt_mul h), hmod _, hmod _, hmod _⟩

/-! ## In words -/

open Words (fits)

/-- The sums of products, with the multiples by `f` in words of `small` bits and the sums in words
of `big` bits. -/
def productIn (small big f : ℕ) (h r : Limbs) : Option Limbs := do
  let s1 ← fits small (r.l1 * f)
  let s2 ← fits small (r.l2 * f)
  let s3 ← fits small (r.l3 * f)
  let s4 ← fits small (r.l4 * f)
  let d0 ← fits big (h.l0 * r.l0 + h.l1 * s4 + h.l2 * s3 + h.l3 * s2 + h.l4 * s1)
  let d1 ← fits big (h.l0 * r.l1 + h.l1 * r.l0 + h.l2 * s4 + h.l3 * s3 + h.l4 * s2)
  let d2 ← fits big (h.l0 * r.l2 + h.l1 * r.l1 + h.l2 * r.l0 + h.l3 * s4 + h.l4 * s3)
  let d3 ← fits big (h.l0 * r.l3 + h.l1 * r.l2 + h.l2 * r.l1 + h.l3 * r.l0 + h.l4 * s4)
  let d4 ← fits big (h.l0 * r.l4 + h.l1 * r.l3 + h.l2 * r.l2 + h.l3 * r.l1 + h.l4 * r.l0)
  some ⟨d0, d1, d2, d3, d4⟩

/-- The pass of carries on words of 64 bits, with digits of `w` bits. -/
def carryIn (w f : ℕ) (d : Limbs) : Option Limbs := do
  let ⟨d0, d1, d2, d3, d4⟩ := d
  let d1 ← fits 64 (d1 + d0 >>> w)
  let d0 := d0 &&& (2 ^ w - 1)
  let d2 ← fits 64 (d2 + d1 >>> w)
  let d1 := d1 &&& (2 ^ w - 1)
  let d3 ← fits 64 (d3 + d2 >>> w)
  let d2 := d2 &&& (2 ^ w - 1)
  let d4 ← fits 64 (d4 + d3 >>> w)
  let d3 := d3 &&& (2 ^ w - 1)
  let d0 ← fits 64 (d0 + f * (d4 >>> w))
  let d4 := d4 &&& (2 ^ w - 1)
  let d1 ← fits 64 (d1 + d0 >>> w)
  let d0 := d0 &&& (2 ^ w - 1)
  some ⟨d0, d1, d2, d3, d4⟩

lemma productIn_eq {small big : ℕ} {h r : Limbs} (hr : ∀ x, x ≤ n → x * f < 2 ^ small)
    (hle : r.Le n) (hd : (product f h r).Le m) (hm : m < 2 ^ big) :
    productIn small big f h r = some (product f h r) := by
  obtain ⟨-, hr1, hr2, hr3, hr4⟩ := hle
  obtain ⟨hd0, hd1, hd2, hd3, hd4⟩ := hd
  refine (fits_bind (hr _ hr1) _).trans ?_
  refine (fits_bind (hr _ hr2) _).trans ?_
  refine (fits_bind (hr _ hr3) _).trans ?_
  refine (fits_bind (hr _ hr4) _).trans ?_
  refine (fits_bind (hd0.trans_lt hm) _).trans ?_
  refine (fits_bind (hd1.trans_lt hm) _).trans ?_
  refine (fits_bind (hd2.trans_lt hm) _).trans ?_
  refine (fits_bind (hd3.trans_lt hm) _).trans ?_
  exact (fits_bind (hd4.trans_lt hm) _).trans rfl

lemma carryIn_eq {w : ℕ} {d : Limbs} (hd : (d.raised (2 ^ w)).Le m) (hm : m < 2 ^ 64)
    (hfold : (d.raised (2 ^ w)).l0 % 2 ^ w + f * ((d.raised (2 ^ w)).l4 / 2 ^ w) < 2 ^ 64)
    (hlast : (d.carried (2 ^ w) f).l1 < 2 ^ 64) :
    carryIn w f d = some (d.carried (2 ^ w) f) := by
  obtain ⟨d0, d1, d2, d3, d4⟩ := d
  obtain ⟨-, h1, h2, h3, h4⟩ := hd
  simp only [carryIn, and_ones, Nat.shiftRight_eq_div_pow]
  refine (fits_bind (h1.trans_lt hm) _).trans ?_
  refine (fits_bind (h2.trans_lt hm) _).trans ?_
  refine (fits_bind (h3.trans_lt hm) _).trans ?_
  refine (fits_bind (h4.trans_lt hm) _).trans ?_
  refine (fits_bind hfold _).trans ?_
  exact (fits_bind hlast _).trans rfl

end Limbs

end Lazaret
