import Lazaret.Crypto.Poly1305
import Lazaret.Lib.Words

/-!
# Poly1305 in two limbs of 64 bits

The implementation `radix64` of `poly1305.rs`: the accumulator is in two words of 64 bits and a
third of a few bits.  Every operation has its value only if it does not overflow.  A block
multiplies the accumulator by `r` modulo the prime (`block_spec`) and `finish` reduces it fully
(`finish_spec`).
-/

namespace Lazaret.Poly1305.Radix64

open Words

open Packed (ofBytes toBytes leAt_eq)
open Words (fits adc complement wrappingSub)

/-- The state: `r`, `h` and `pad`. -/
structure State where
  r : ℕ × ℕ
  h : ℕ × ℕ × ℕ
  pad : ℕ × ℕ
deriving DecidableEq

def new (key : Vector UInt8 32) : State :=
  let key := key.toList
  let r0 := le64 key 0 &&& 0x0ffffffc0fffffff
  let r1 := le64 key 8 &&& 0x0ffffffc0ffffffc
  ⟨(r0, r1), (0, 0, 0), (le64 key 16, le64 key 24)⟩

def block (st : State) (b : Block) : Option State := do
  let (r0, r1) := st.r
  let s1 ← fits 64 (r1 + r1 >>> 2)
  let (h0, h1, h2) := st.h
  let (h0, c) := adc h0 (le64 b.1.toList 0) 0
  let (h1, c) := adc h1 (le64 b.1.toList 8) c
  let h2 ← fits 64 (h2 + c + b.2.toNat)
  let d0 ← fits 128 (h0 * r0 + h1 * s1)
  let t ← fits 64 (h2 * s1)
  let d1 ← fits 128 (h0 * r1 + h1 * r0 + t + d0 >>> 64)
  let h2 ← fits 64 (h2 * r0 + (d1 >>> 64) % 2 ^ 64)
  let c ← fits 64 ((h2 &&& complement 64 3) + h2 >>> 2)
  let (h0, c) := adc (d0 % 2 ^ 64) c 0
  let (h1, c) := adc (d1 % 2 ^ 64) 0 c
  let h2 ← fits 64 ((h2 &&& 3) + c)
  some { st with h := (h0, h1, h2) }

def finish (st : State) : Option (List UInt8) := do
  let (h0, h1, h2) := st.h
  let (g0, c) := adc h0 5 0
  let (g1, c) := adc h1 0 c
  let t ← fits 64 (h2 + c)
  let take := wrappingSub 64 0 (t >>> 2)
  let h0 := (h0 &&& complement 64 take) ||| (g0 &&& take)
  let h1 := (h1 &&& complement 64 take) ||| (g1 &&& take)
  let (h0, c) := adc h0 st.pad.1 0
  let (h1, _) := adc h1 st.pad.2 c
  some (toBytes 8 h0 ++ toBytes 8 h1)

def blocks (st : State) (bs : List Block) : Option State := bs.foldlM block st

def State.multiplier (st : State) : ℕ := st.r.1 + 2 ^ 64 * st.r.2

/-- The number that `h` stands for. -/
def State.value (st : State) : ℕ := st.h.1 + 2 ^ 64 * st.h.2.1 + 2 ^ 128 * st.h.2.2

/-- What holds between blocks: `r` is clamped and `h` is partly reduced. -/
structure Inv (st : State) : Prop where
  r0_lt : st.r.1 < 2 ^ 60
  r1_lt : st.r.2 < 2 ^ 60
  r1_mod : st.r.2 % 4 = 0
  h0_lt : st.h.1 < 2 ^ 64
  h1_lt : st.h.2.1 < 2 ^ 64
  h2_le : st.h.2.2 ≤ 4
  pad0_lt : st.pad.1 < 2 ^ 64
  pad1_lt : st.pad.2 < 2 ^ 64

lemma adc_eq (a b c : ℕ) : (adc a b c).1 + 2 ^ 64 * (adc a b c).2 = a + b + c :=
  Nat.mod_add_div _ _

lemma and_complement_three {n : ℕ} (h : n < 2 ^ 64) : n &&& complement 64 3 = 4 * (n / 4) := by
  have hsplit := and_split n (complement 64 3) 2
  have hlow : complement 64 3 % 2 ^ 2 = 0 := rfl
  have hhigh : complement 64 3 / 2 ^ 2 = 2 ^ 62 - 1 := rfl
  rw [hsplit, hlow, hhigh, Nat.and_zero, Nat.zero_add, and_ones]
  omega

lemma products_eq (r0 k x0 x1 x2 d0 d1 : ℕ) (hd0 : d0 = x0 * r0 + x1 * (5 * k))
    (hd1 : d1 = x0 * (4 * k) + x1 * r0 + x2 * (5 * k) + d0 / 2 ^ 64) :
    (x0 + 2 ^ 64 * x1 + 2 ^ 128 * x2) * (r0 + 2 ^ 64 * (4 * k)) =
      d0 % 2 ^ 64 + 2 ^ 64 * (d1 % 2 ^ 64) + 2 ^ 128 * (x2 * r0 + d1 / 2 ^ 64) +
        P * (x1 * k + 2 ^ 64 * (x2 * k)) := by
  have hP : P + 5 = 2 ^ 130 := rfl
  have hsum : d0 % 2 ^ 64 + 2 ^ 64 * (d1 % 2 ^ 64) + 2 ^ 128 * (x2 * r0 + d1 / 2 ^ 64) =
      x0 * r0 + x1 * (5 * k) + 2 ^ 64 * (x0 * (4 * k) + x1 * r0 + x2 * (5 * k)) +
        2 ^ 128 * (x2 * r0) := by
    omega
  calc (x0 + 2 ^ 64 * x1 + 2 ^ 128 * x2) * (r0 + 2 ^ 64 * (4 * k))
      = x0 * r0 + 2 ^ 64 * (x0 * (4 * k) + x1 * r0) + 2 ^ 128 * (x2 * r0) +
          2 ^ 130 * (x1 * k + 2 ^ 64 * (x2 * k)) := by ring
    _ = x0 * r0 + 2 ^ 64 * (x0 * (4 * k) + x1 * r0) + 2 ^ 128 * (x2 * r0) +
          (P + 5) * (x1 * k + 2 ^ 64 * (x2 * k)) := by rw [hP]
    _ = x0 * r0 + x1 * (5 * k) + 2 ^ 64 * (x0 * (4 * k) + x1 * r0 + x2 * (5 * k)) +
          2 ^ 128 * (x2 * r0) + P * (x1 * k + 2 ^ 64 * (x2 * k)) := by ring
    _ = _ := by rw [hsum]

lemma fold_top (y0 y1 y2 : ℕ) :
    y0 + 2 ^ 64 * y1 + 2 ^ 128 * y2 =
      y0 + 5 * (y2 / 4) + 2 ^ 64 * y1 + 2 ^ 128 * (y2 % 4) + P * (y2 / 4) := by
  have hP : P = 2 ^ 130 - 5 := rfl
  rw [hP]
  omega

lemma value_block (b : Block) :
    b.value = le64 b.1.toList 0 + 2 ^ 64 * le64 b.1.toList 8 + 2 ^ 128 * b.2.toNat := by
  have hlt := Packed.ofBytes_lt b.1.toList
  rw [Vector.length_toList] at hlt
  rw [Block.value, le64, le64, leAt_eq, leAt_eq]
  cases b.2 <;>
    simp only [Bool.toNat_true, Bool.toNat_false, if_true, if_false, Bool.false_eq_true] <;> omega

lemma le64_lt (bytes : List UInt8) (i : ℕ) : le64 bytes i < 2 ^ 64 := by
  rw [le64, leAt_eq]
  exact Nat.mod_lt _ (by decide)

variable {st : State}

theorem block_spec (h : Inv st) (b : Block) :
    ∃ st', block st b = some st' ∧ Inv st' ∧ st'.r = st.r ∧ st'.pad = st.pad ∧
      st'.value ≡ (st.value + b.value) * st.multiplier [MOD P] := by
  obtain ⟨⟨r0, r1⟩, ⟨h0, h1, h2⟩, pad⟩ := st
  obtain ⟨hr0, hr1, hmod, hh0, hh1, hh2, hp0, hp1⟩ := h
  dsimp only at hr0 hr1 hmod hh0 hh1 hh2 hp0 hp1
  obtain ⟨k, rfl⟩ : ∃ k, r1 = 4 * k := ⟨r1 / 4, by omega⟩
  have hm0 := le64_lt b.1.toList 0
  have hm1 := le64_lt b.1.toList 8
  have hbit := b.2.toNat_le
  have hvalue := value_block b
  generalize hmb0 : le64 b.1.toList 0 = m0 at hm0 hvalue
  generalize hmb1 : le64 b.1.toList 8 = m1 at hm1 hvalue
  generalize hbb : b.2.toNat = hb at hbit hvalue
  -- the block is added
  have hx0 := adc_eq h0 m0 0
  have hx0lt : (adc h0 m0 0).1 < 2 ^ 64 := Nat.mod_lt _ (by decide)
  rcases hadc0 : adc h0 m0 0 with ⟨x0, c0⟩
  rw [hadc0] at hx0 hx0lt
  have hx1 := adc_eq h1 m1 c0
  have hx1lt : (adc h1 m1 c0).1 < 2 ^ 64 := Nat.mod_lt _ (by decide)
  rcases hadc1 : adc h1 m1 c0 with ⟨x1, c1⟩
  rw [hadc1] at hx1 hx1lt
  dsimp only at hx0 hx0lt hx1 hx1lt
  obtain ⟨x2, hx2⟩ : ∃ x2, x2 = h2 + c1 + hb := ⟨_, rfl⟩
  have hx2le : x2 ≤ 6 := by omega
  have hsum : x0 + 2 ^ 64 * x1 + 2 ^ 128 * x2 =
      h0 + 2 ^ 64 * h1 + 2 ^ 128 * h2 + (m0 + 2 ^ 64 * m1 + 2 ^ 128 * hb) := by omega
  -- the products fit
  have hs1 : 4 * k + (4 * k) >>> 2 = 5 * k := by
    rw [Nat.shiftRight_eq_div_pow]
    omega
  have h00 : x0 * r0 ≤ 2 ^ 64 * 2 ^ 60 := Nat.mul_le_mul hx0lt.le hr0.le
  have h01 : x0 * (4 * k) ≤ 2 ^ 64 * 2 ^ 60 := Nat.mul_le_mul hx0lt.le hr1.le
  have h10 : x1 * r0 ≤ 2 ^ 64 * 2 ^ 60 := Nat.mul_le_mul hx1lt.le hr0.le
  have h11 : x1 * (5 * k) ≤ 2 ^ 64 * 2 ^ 61 := Nat.mul_le_mul hx1lt.le (by omega)
  have h20 : x2 * r0 ≤ 6 * 2 ^ 60 := Nat.mul_le_mul hx2le hr0.le
  have h21 : x2 * (5 * k) ≤ 6 * 2 ^ 61 := Nat.mul_le_mul hx2le (by omega)
  obtain ⟨d0, hd0⟩ : ∃ d0, d0 = x0 * r0 + x1 * (5 * k) := ⟨_, rfl⟩
  obtain ⟨d1, hd1⟩ : ∃ d1, d1 = x0 * (4 * k) + x1 * r0 + x2 * (5 * k) + d0 / 2 ^ 64 := ⟨_, rfl⟩
  have hd1mod : (d1 >>> 64) % 2 ^ 64 = d1 / 2 ^ 64 := by
    rw [Nat.shiftRight_eq_div_pow]
    omega
  obtain ⟨y2, hy2⟩ : ∃ y2, y2 = x2 * r0 + d1 / 2 ^ 64 := ⟨_, rfl⟩
  have hy2lt : y2 < 2 ^ 64 := by omega
  -- what is over comes back
  have hc : (y2 &&& complement 64 3) + y2 >>> 2 = 5 * (y2 / 4) := by
    rw [and_complement_three hy2lt, Nat.shiftRight_eq_div_pow]
    omega
  have hz0 := adc_eq (d0 % 2 ^ 64) (5 * (y2 / 4)) 0
  have hz0lt : (adc (d0 % 2 ^ 64) (5 * (y2 / 4)) 0).1 < 2 ^ 64 := Nat.mod_lt _ (by decide)
  rcases hadcz0 : adc (d0 % 2 ^ 64) (5 * (y2 / 4)) 0 with ⟨z0, e0⟩
  rw [hadcz0] at hz0 hz0lt
  have hz1 := adc_eq (d1 % 2 ^ 64) 0 e0
  have hz1lt : (adc (d1 % 2 ^ 64) 0 e0).1 < 2 ^ 64 := Nat.mod_lt _ (by decide)
  rcases hadcz1 : adc (d1 % 2 ^ 64) 0 e0 with ⟨z1, e1⟩
  rw [hadcz1] at hz1 hz1lt
  dsimp only at hz0 hz0lt hz1 hz1lt
  have hthree : y2 &&& 3 = y2 % 4 := and_ones y2 2
  refine ⟨⟨(r0, 4 * k), (z0, z1, y2 % 4 + e1), pad⟩, ?_, ?_, rfl, rfl, ?_⟩
  · simp only [block, hs1, hmb0, hmb1, hbb, hadc0, hadc1]
    rw [fits_bind (by omega), fits_bind (by omega), ← hx2, ← hd0, fits_bind (by omega),
      fits_bind (by omega), Nat.shiftRight_eq_div_pow d0, ← hd1, fits_bind (by omega), hd1mod,
      ← hy2, fits_bind (by omega), hc, fits_bind (by omega)]
    simp only [hadcz0, hadcz1]
    rw [hthree, fits_bind (by omega)]
  · exact ⟨hr0, hr1, hmod, hz0lt, hz1lt, by dsimp only; omega, hp0, hp1⟩
  · have hproducts := products_eq r0 k x0 x1 x2 d0 d1 hd0 hd1
    have hfold := fold_top (d0 % 2 ^ 64) (d1 % 2 ^ 64) y2
    rw [← hy2, hfold, hsum, ← hvalue] at hproducts
    have hz : z0 + 2 ^ 64 * z1 + 2 ^ 128 * (y2 % 4 + e1) =
        d0 % 2 ^ 64 + 5 * (y2 / 4) + 2 ^ 64 * (d1 % 2 ^ 64) + 2 ^ 128 * (y2 % 4) := by omega
    show z0 + 2 ^ 64 * z1 + 2 ^ 128 * (y2 % 4 + e1) ≡
      (h0 + 2 ^ 64 * h1 + 2 ^ 128 * h2 + b.value) * (r0 + 2 ^ 64 * (4 * k)) [MOD P]
    rw [hproducts, hz, add_assoc _ (P * _), ← mul_add]
    exact (Nat.modEq_iff_dvd' (Nat.le_add_right _ _)).2 (by simp)

theorem new_spec (key : Vector UInt8 32) :
    Inv (new key) ∧ (new key).multiplier = r key ∧ (new key).value = 0 ∧
      (new key).pad.1 + 2 ^ 64 * (new key).pad.2 = s key := by
  have hr : (new key).multiplier = r key := by
    have hsplit := and_split (ofBytes (key.toList.take 16)) CLAMP 64
    have hlow : CLAMP % 2 ^ 64 = 0x0ffffffc0fffffff := rfl
    have hhigh : CLAMP / 2 ^ 64 = 0x0ffffffc0ffffffc := rfl
    have h0 : le64 key.toList 0 = ofBytes (key.toList.take 16) % 2 ^ 64 := by
      rw [le64, leAt_eq, Packed.ofBytes_take]
      omega
    have h8 : le64 key.toList 8 = ofBytes (key.toList.take 16) / 2 ^ 64 := by
      rw [le64, leAt_eq, Packed.ofBytes_take]
      omega
    rw [r, hsplit, hlow, hhigh, ← h0, ← h8]
    rfl
  have hs : (new key).pad.1 + 2 ^ 64 * (new key).pad.2 = s key := by
    have hlt := Packed.ofBytes_lt key.toList
    rw [Vector.length_toList] at hlt
    show le64 key.toList 16 + 2 ^ 64 * le64 key.toList 24 = _
    rw [s, le64, le64, leAt_eq, leAt_eq, Packed.ofBytes_drop]
    omega
  have hmod : (le64 key.toList 8 &&& 0x0ffffffc0ffffffc) % 4 = 0 := by
    have hmask : (0x0ffffffc0ffffffc : ℕ) % 2 ^ 2 = 0 := rfl
    show _ % 2 ^ 2 = 0
    rw [Nat.and_mod_two_pow, hmask, Nat.and_zero]
  refine ⟨⟨?_, ?_, hmod, Nat.two_pow_pos 64, Nat.two_pow_pos 64, Nat.zero_le 4, le64_lt _ _,
    le64_lt _ _⟩, hr, rfl, hs⟩
  · exact Nat.and_lt_two_pow _ (by decide)
  · exact Nat.and_lt_two_pow _ (by decide)

theorem finish_spec (h : Inv st) :
    finish st =
      some (toBytes 16 ((st.value % P + (st.pad.1 + 2 ^ 64 * st.pad.2)) % 2 ^ 128)) := by
  obtain ⟨⟨r0, r1⟩, ⟨h0, h1, h2⟩, ⟨p0, p1⟩⟩ := st
  obtain ⟨-, -, -, hh0, hh1, hh2, hp0, hp1⟩ := h
  dsimp only at hh0 hh1 hh2 hp0 hp1
  have hg0 := adc_eq h0 5 0
  have hg0lt : (adc h0 5 0).1 < 2 ^ 64 := Nat.mod_lt _ (by decide)
  rcases hadcg0 : adc h0 5 0 with ⟨g0, c0⟩
  rw [hadcg0] at hg0 hg0lt
  have hg1 := adc_eq h1 0 c0
  have hg1lt : (adc h1 0 c0).1 < 2 ^ 64 := Nat.mod_lt _ (by decide)
  rcases hadcg1 : adc h1 0 c0 with ⟨g1, c1⟩
  rw [hadcg1] at hg1 hg1lt
  dsimp only at hg0 hg0lt hg1 hg1lt
  have hP : P = 2 ^ 130 - 5 := rfl
  -- bit 130 of `h + 5` says whether `h` is at least the prime
  have hbit : (h2 + c1) >>> 2 = (decide (P ≤ h0 + 2 ^ 64 * h1 + 2 ^ 128 * h2)).toNat := by
    rw [Nat.shiftRight_eq_div_pow, hP]
    by_cases hle : 2 ^ 130 - 5 ≤ h0 + 2 ^ 64 * h1 + 2 ^ 128 * h2
    · rw [decide_eq_true hle, Bool.toNat_true]
      omega
    · rw [decide_eq_false hle, Bool.toNat_false]
      omega
  obtain ⟨v0, v1, hv0, hv1, hselect0, hselect1, hvalue⟩ : ∃ v0 v1, v0 < 2 ^ 64 ∧ v1 < 2 ^ 64 ∧
      (h0 &&& complement 64 (wrappingSub 64 0 ((h2 + c1) >>> 2))) |||
        (g0 &&& wrappingSub 64 0 ((h2 + c1) >>> 2)) = v0 ∧
      (h1 &&& complement 64 (wrappingSub 64 0 ((h2 + c1) >>> 2))) |||
        (g1 &&& wrappingSub 64 0 ((h2 + c1) >>> 2)) = v1 ∧
      (v0 + 2 ^ 64 * v1) % 2 ^ 128 = (h0 + 2 ^ 64 * h1 + 2 ^ 128 * h2) % P % 2 ^ 128 := by
    rw [hbit, wrappingSub_zero_bit (by decide)]
    by_cases hle : P ≤ h0 + 2 ^ 64 * h1 + 2 ^ 128 * h2
    · rw [decide_eq_true hle, if_pos rfl, select_ones _ hg0lt, select_ones _ hg1lt]
      have hmod : (h0 + 2 ^ 64 * h1 + 2 ^ 128 * h2) % P = h0 + 2 ^ 64 * h1 + 2 ^ 128 * h2 - P := by
        rw [Nat.mod_eq_sub_mod hle]
        exact Nat.mod_eq_of_lt (by omega)
      refine ⟨g0, g1, hg0lt, hg1lt, rfl, rfl, ?_⟩
      rw [hmod]
      omega
    · rw [decide_eq_false hle, if_neg Bool.false_ne_true, select_zero hh0, select_zero hh1]
      have hmod := Nat.mod_eq_of_lt (Nat.not_le.1 hle)
      refine ⟨h0, h1, hh0, hh1, rfl, rfl, ?_⟩
      rw [hmod]
      omega
  have ht0 := adc_eq v0 p0 0
  have ht0lt : (adc v0 p0 0).1 < 2 ^ 64 := Nat.mod_lt _ (by decide)
  rcases hadct0 : adc v0 p0 0 with ⟨t0, c0'⟩
  rw [hadct0] at ht0 ht0lt
  have ht1 := adc_eq v1 p1 c0'
  have ht1lt : (adc v1 p1 c0').1 < 2 ^ 64 := Nat.mod_lt _ (by decide)
  rcases hadct1 : adc v1 p1 c0' with ⟨t1, c1'⟩
  rw [hadct1] at ht1 ht1lt
  dsimp only at ht0 ht0lt ht1 ht1lt
  have hsum : ((h0 + 2 ^ 64 * h1 + 2 ^ 128 * h2) % P + (p0 + 2 ^ 64 * p1)) % 2 ^ 128 =
      t0 + 256 ^ 8 * t1 := by
    rw [Nat.add_mod, ← hvalue, ← Nat.add_mod]
    omega
  show finish _ = some (toBytes 16 (((h0 + 2 ^ 64 * h1 + 2 ^ 128 * h2) % P +
    (p0 + 2 ^ 64 * p1)) % 2 ^ 128))
  rw [hsum, Packed.toBytes_append (v := 8) ht0lt 8]
  simp only [finish, hadcg0, hadcg1]
  rw [fits_bind (by omega)]
  simp only [hselect0, hselect1, hadct0, hadct1]

end Lazaret.Poly1305.Radix64
