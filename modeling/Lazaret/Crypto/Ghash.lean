import Lazaret.Crypto.Clmul
import Lazaret.Lib.Packed
import Mathlib.RingTheory.AdjoinRoot

/-!
# GHASH

The universal hash of `ghash.rs`, over any product without carries (`IsClmul`).  A block read
backwards is an element of the field of `x^128 + x^7 + x^2 + x + 1` (`el`), and there the product by
halves and folds (`mul_spec`) and the one that goes bit by bit (`gfMul_spec`) are the same.
-/

namespace Lazaret.Ghash

open Polynomial BitPolynomials List

/-! ## The code -/

section

variable (clmul64 : BitVec 64 → BitVec 64 → BitVec 128)

def fold (v : BitVec 128) : BitVec 128 := v ^^^ (v <<< 1) ^^^ (v <<< 2) ^^^ (v <<< 7)

def reduce (pLo pHi : BitVec 128) : BitVec 128 :=
  let spill := (pHi >>> 121) ^^^ (pHi >>> 126) ^^^ (pHi >>> 127)
  pLo ^^^ fold pHi ^^^ fold spill

def mul (a b : BitVec 128) : BitVec 128 :=
  let (a0, a1) := (a.setWidth 64, (a >>> 64).setWidth 64)
  let (b0, b1) := (b.setWidth 64, (b >>> 64).setWidth 64)
  let lo := clmul64 a0 b0
  let hi := clmul64 a1 b1
  let mid := clmul64 (a0 ^^^ a1) (b0 ^^^ b1) ^^^ lo ^^^ hi
  let pLo := lo ^^^ (mid <<< 64)
  let pHi := hi ^^^ (mid >>> 64)
  reduce pLo pHi

def fromBeBytes (bytes : List UInt8) : BitVec 128 := BitVec.ofNat 128 (Packed.ofBytes bytes.reverse)

def chunksExact (data : List UInt8) : List (List UInt8) :=
  (List.range (data.length / 16)).map fun i => (data.drop (16 * i)).take 16

def remainder (data : List UInt8) : List UInt8 := data.drop (16 * (data.length / 16))

/-- The start of a block of zeros, copied from a slice. -/
def padded (rest : List UInt8) : List UInt8 := rest ++ List.replicate (16 - rest.length) 0

def absorb (h acc : BitVec 128) (data : List UInt8) : BitVec 128 :=
  let acc := (chunksExact data).foldl
    (fun acc c => mul clmul64 (acc ^^^ (fromBeBytes c).reverse) h) acc
  let rest := remainder data
  if rest.isEmpty then acc
  else mul clmul64 (acc ^^^ (fromBeBytes (padded rest)).reverse) h

def lens (aad ct : List UInt8) : BitVec 128 :=
  ((BitVec.ofNat 128 aad.length * 8) <<< 64) ||| (BitVec.ofNat 128 ct.length * 8)

def hashWith (h : BitVec 128) (aad ct : List UInt8) : BitVec 128 :=
  let acc := absorb clmul64 h 0 aad
  let acc := absorb clmul64 h acc ct
  let acc := mul clmul64 (acc ^^^ (lens aad ct).reverse) h
  acc.reverse

end

/-! ## The reference -/

def R : BitVec 128 := 0xe1#128 <<< 120

/-- A step of the loop of `gf_mul`. -/
def gfStep (x : BitVec 128) (st : BitVec 128 × BitVec 128) (i : ℕ) : BitVec 128 × BitVec 128 :=
  let (z, v) := st
  let bit := (x >>> (127 - i)) &&& 1#128
  let z := z ^^^ (v &&& (0 - bit))
  let lsb := v &&& 1#128
  (z, (v >>> 1) ^^^ (R &&& (0 - lsb)))

def gfMul (x y : BitVec 128) : BitVec 128 := ((List.range 128).foldl (gfStep x) (0, y)).1

def chunks (data : List UInt8) : List (List UInt8) :=
  (List.range ((data.length + 15) / 16)).map fun i => (data.drop (16 * i)).take 16

def refStep (h acc : BitVec 128) (chunk : List UInt8) : BitVec 128 :=
  gfMul (acc ^^^ fromBeBytes (padded chunk)) h

def referenceGhash (h : BitVec 128) (aad ct : List UInt8) : BitVec 128 :=
  let acc := [aad, ct].foldl (fun acc data => (chunks data).foldl (refStep h) acc) 0
  gfMul (acc ^^^ lens aad ct) h

/-! ## The field -/

@[irreducible] noncomputable def above (w : ℕ) : (ZMod 2)[X] := X ^ w

noncomputable def tail : (ZMod 2)[X] := 1 + X + X ^ 2 + X ^ 7

noncomputable def modulus : (ZMod 2)[X] := above 128 + tail

/-- The element of the field that a word stands for. -/
noncomputable def el {w : ℕ} (x : BitVec w) : AdjoinRoot modulus :=
  AdjoinRoot.mk modulus (bits (ZMod 2) x)

lemma two_eq_zero : (2 : (ZMod 2)[X]) = 0 := CharTwo.two_eq_zero

lemma mk_above : AdjoinRoot.mk modulus (above 128) = AdjoinRoot.mk modulus tail := by
  rw [AdjoinRoot.mk_eq_mk]
  refine ⟨1, ?_⟩
  rw [modulus]
  linear_combination -tail * two_eq_zero

lemma natDegree_above (w : ℕ) : (above w).natDegree = w := by
  rw [above, natDegree_X_pow]

lemma natDegree_modulus : modulus.natDegree = 128 := by
  have htail : tail.natDegree ≤ 7 := by
    rw [tail]
    compute_degree
  have habove : (above 128).natDegree = 128 := natDegree_above 128
  rw [modulus, natDegree_add_eq_left_of_natDegree_lt (by omega), habove]

variable {w : ℕ}

lemma el_xor (x y : BitVec w) : el (x ^^^ y) = el x + el y := by
  rw [el, bits_xor, map_add, el, el]

lemma eq_of_dvd {p : (ZMod 2)[X]} (hp : p ≠ 0) (hw : p.natDegree = w) {x y : BitVec w}
    (h : p ∣ bits (ZMod 2) x - bits (ZMod 2) y) : x = y := by
  have hdegree : (bits (ZMod 2) x - bits (ZMod 2) y).degree < p.degree := by
    rw [degree_eq_natDegree hp, hw]
    exact (degree_sub_le _ _).trans_lt (max_lt (degree_bits x) (degree_bits y))
  exact bits_injective (sub_eq_zero.1 (eq_zero_of_dvd_of_degree_lt h hdegree))

lemma el_injective {x y : BitVec 128} (h : el x = el y) : x = y := by
  have hne : modulus ≠ 0 := by
    intro h0
    have := natDegree_modulus
    rw [h0, natDegree_zero] at this
    omega
  exact eq_of_dvd hne natDegree_modulus (AdjoinRoot.mk_eq_mk.1 h)

/-! ## Reduction -/

lemma bits_mul_X_pow_above (v : BitVec w) {k : ℕ} (hk : k ≤ w) : bits (ZMod 2) v * X ^ k =
      bits (ZMod 2) (v <<< k) + bits (ZMod 2) (v >>> (w - k)) * above w := by
  rw [above]
  exact bits_mul_X_pow v hk

lemma bits_mul_above (v : BitVec w) {k : ℕ} (hk : k ≤ w) : bits (ZMod 2) v * above k =
    bits (ZMod 2) (v <<< k) + bits (ZMod 2) (v >>> (w - k)) * above w := by
  rw [above]
  exact bits_mul_X_pow_above v hk

lemma bits_halves_above {v : ℕ} (hw : w = v + v) (x : BitVec w) : bits (ZMod 2) x =
    bits (ZMod 2) (x.setWidth v) + bits (ZMod 2) ((x >>> v).setWidth v) * above v := by
  rw [above]
  exact bits_halves hw x

lemma above_mul (m n : ℕ) : above m * above n = above (m + n) := by
  rw [above, above, above, pow_add]

lemma bits_mul_tail (v : BitVec 128) : bits (ZMod 2) v * tail = bits (ZMod 2) (fold v) +
    bits (ZMod 2) ((v >>> 121) ^^^ (v >>> 126) ^^^ (v >>> 127)) * above 128 := by
  have h1 := bits_mul_X_pow_above v (k := 1) (by decide)
  have h2 := bits_mul_X_pow_above v (k := 2) (by decide)
  have h7 := bits_mul_X_pow_above v (k := 7) (by decide)
  simp only [fold, tail, bits_xor]
  linear_combination h1 + h2 + h7

lemma reduce_spec (pLo pHi : BitVec 128) :
    el (reduce pLo pHi) = el pLo + el pHi * AdjoinRoot.mk modulus (above 128) := by
  obtain ⟨spill, hspill⟩ : ∃ s, s = (pHi >>> 121) ^^^ (pHi >>> 126) ^^^ (pHi >>> 127) := ⟨_, rfl⟩
  -- what spills has seven bits, so it spills no more
  have hnone : (spill >>> 121) ^^^ (spill >>> 126) ^^^ (spill >>> 127) = 0 := by
    apply BitVec.eq_of_getLsbD_eq
    intro i _
    rw [hspill]
    simp only [BitVec.getLsbD_xor, BitVec.getLsbD_ushiftRight]
    rw [pHi.getLsbD_of_ge _ (by omega), pHi.getLsbD_of_ge _ (by omega),
      pHi.getLsbD_of_ge _ (by omega), pHi.getLsbD_of_ge _ (by omega),
      pHi.getLsbD_of_ge _ (by omega), pHi.getLsbD_of_ge _ (by omega),
      pHi.getLsbD_of_ge _ (by omega), pHi.getLsbD_of_ge _ (by omega),
      pHi.getLsbD_of_ge _ (by omega)]
    simp
  have hhi := congrArg (AdjoinRoot.mk modulus) (bits_mul_tail pHi)
  have hsp := congrArg (AdjoinRoot.mk modulus) (bits_mul_tail spill)
  simp only [hnone, bits_zero, zero_mul, add_zero, map_mul] at hsp
  rw [← hspill, map_mul, map_add, map_mul] at hhi
  have hreduce : reduce pLo pHi = pLo ^^^ fold pHi ^^^ fold spill := by
    rw [hspill]
    rfl
  rw [hreduce, el_xor, el_xor, mk_above, el, el, el, el, hhi, mk_above, hsp]
  ring

theorem mul_spec {clmul : BitVec 64 → BitVec 64 → BitVec 128} (h : IsClmul clmul)
    (a b : BitVec 128) : el (mul clmul a b) = el a * el b := by
  obtain ⟨a0, ha0⟩ : ∃ a0, a0 = a.setWidth 64 := ⟨_, rfl⟩
  obtain ⟨a1, ha1⟩ : ∃ a1, a1 = (a >>> 64).setWidth 64 := ⟨_, rfl⟩
  obtain ⟨b0, hb0⟩ : ∃ b0, b0 = b.setWidth 64 := ⟨_, rfl⟩
  obtain ⟨b1, hb1⟩ : ∃ b1, b1 = (b >>> 64).setWidth 64 := ⟨_, rfl⟩
  obtain ⟨mid, hmid⟩ : ∃ mid, mid = clmul (a0 ^^^ a1) (b0 ^^^ b1) ^^^ clmul a0 b0 ^^^ clmul a1 b1 :=
    ⟨_, rfl⟩
  have ha : bits (ZMod 2) a = bits (ZMod 2) a0 + bits (ZMod 2) a1 * above 64 := by
    rw [ha0, ha1]
    exact bits_halves_above (by decide) a
  have hb : bits (ZMod 2) b = bits (ZMod 2) b0 + bits (ZMod 2) b1 * above 64 := by
    rw [hb0, hb1]
    exact bits_halves_above (by decide) b
  -- the cross products are what is left of that of the sums
  have hcross : bits (ZMod 2) mid =
      bits (ZMod 2) a0 * bits (ZMod 2) b1 + bits (ZMod 2) a1 * bits (ZMod 2) b0 := by
    rw [hmid, bits_xor, bits_xor, h, h, h, bits_xor, bits_xor]
    linear_combination (bits (ZMod 2) a0 * bits (ZMod 2) b0 + bits (ZMod 2) a1 * bits (ZMod 2) b1) *
      two_eq_zero
  have hshift : bits (ZMod 2) mid * above 64 =
      bits (ZMod 2) (mid <<< 64) + bits (ZMod 2) (mid >>> 64) * above 128 :=
    bits_mul_above mid (k := 64) (by decide)
  have habove : above 64 * above 64 = above 128 := above_mul 64 64
  have hmul : mul clmul a b =
      reduce (clmul a0 b0 ^^^ (mid <<< 64)) (clmul a1 b1 ^^^ (mid >>> 64)) := by
    rw [hmid, ha0, ha1, hb0, hb1]
    rfl
  rw [hmul, reduce_spec, el, el, el, el, ← map_mul, ← map_mul, ← map_add, bits_xor, bits_xor, h, h,
    ha, hb]
  refine congrArg _ ?_
  linear_combination -hshift + above 64 * hcross - bits (ZMod 2) a1 * bits (ZMod 2) b1 * habove

/-! ## Bit by bit -/

lemma and_neg_bit (v x : BitVec 128) (k : ℕ) :
    v &&& (0 - ((x >>> k) &&& 1#128)) = if x.getLsbD k then v else 0 := by
  rw [BitVec.and_one_eq_setWidth_ofBool_getLsbD, BitVec.getLsbD_ushiftRight, add_zero]
  cases x.getLsbD k with
  | false => simp
  | true =>
    have hones : (0 : BitVec 128) - BitVec.setWidth 128 (BitVec.ofBool true) =
        BitVec.allOnes 128 := by
      decide
    rw [hones, BitVec.and_allOnes]
    rfl

lemma reverse_xor (x y : BitVec w) : (x ^^^ y).reverse = x.reverse ^^^ y.reverse := by
  apply BitVec.eq_of_getLsbD_eq
  intro i _
  simp only [BitVec.getLsbD_reverse, BitVec.getMsbD_xor, BitVec.getLsbD_xor]

lemma reverse_zero : (0 : BitVec w).reverse = 0 := by
  apply BitVec.eq_of_getLsbD_eq
  intro i _
  rw [BitVec.getLsbD_reverse, BitVec.getMsbD_eq_getLsbD]
  simp only [BitVec.ofNat_eq_ofNat, BitVec.getLsbD_zero, Bool.and_false]

lemma el_zero : el (0 : BitVec w) = 0 := by
  rw [el, bits_zero, map_zero]

lemma bits_one (hw : 0 < w) : bits (ZMod 2) (1#w) = 1 := by
  ext k
  rw [coeff_bits, coeff_one, BitVec.getLsbD_one]
  by_cases hk : k = 0
  · simp [hk, hw]
  · simp [hk]

lemma bits_reverse_R : bits (ZMod 2) R.reverse = tail := by
  have hbits : ∀ k < 8, (0xe1#128).getLsbD (7 - k) = decide (k = 0 ∨ k = 1 ∨ k = 2 ∨ k = 7) := by
    decide
  ext k
  have hk : R.reverse.getLsbD k = decide (k = 0 ∨ k = 1 ∨ k = 2 ∨ k = 7) := by
    rw [BitVec.getLsbD_reverse, BitVec.getMsbD_eq_getLsbD, R, BitVec.getLsbD_shiftLeft]
    by_cases hk : k < 8
    · have hplace : 128 - 1 - k - 120 = 7 - k := by omega
      rw [hplace, hbits k hk, decide_eq_true (show k < 128 by omega),
        decide_eq_true (show 128 - 1 - k < 128 by omega),
        decide_eq_false (show ¬ 128 - 1 - k < 120 by omega)]
      rfl
    · rw [decide_eq_false (by omega : ¬ (k = 0 ∨ k = 1 ∨ k = 2 ∨ k = 7))]
      by_cases hk' : k < 128
      · rw [decide_eq_true (show 128 - 1 - k < 120 by omega)]
        simp
      · rw [decide_eq_false hk']
        rfl
  rw [coeff_bits, hk, tail]
  simp only [coeff_add, coeff_one, coeff_X, coeff_X_pow]
  obtain rfl | rfl | rfl | rfl | hne : k = 0 ∨ k = 1 ∨ k = 2 ∨ k = 7 ∨
      ¬ (k = 0 ∨ k = 1 ∨ k = 2 ∨ k = 7) := by omega
  · simp
  · simp
  · simp
  · simp
  · rw [if_neg (by simpa using hne), if_neg (by omega), if_neg (by omega), if_neg (by omega),
      if_neg (by omega)]
    simp

lemma el_next (v : BitVec 128) :
    el ((v >>> 1) ^^^ (R &&& (0 - (v &&& 1#128)))).reverse =
      el v.reverse * AdjoinRoot.mk modulus X := by
  have hlsb : R &&& (0 - (v &&& 1#128)) = if v.getLsbD 0 then R else 0 := and_neg_bit R v 0
  have hshift : (v >>> 1).reverse = v.reverse <<< 1 := by
    apply BitVec.eq_of_getLsbD_eq
    intro i hi
    simp only [BitVec.getLsbD_reverse, BitVec.getMsbD_eq_getLsbD, BitVec.getLsbD_ushiftRight,
      BitVec.getLsbD_shiftLeft, hi, decide_true, Bool.true_and]
    obtain rfl | hpos := eq_zero_or_pos i
    · rw [v.getLsbD_of_ge _ (by omega)]
      simp
    · have hplace : 1 + (128 - 1 - i) = 128 - 1 - (i - 1) := by omega
      rw [hplace]
      simp [show ¬ i < 1 by omega, show i - 1 < 128 by omega]
  have hout : v.reverse >>> 127 = if v.getLsbD 0 then 1 else 0 := by
    apply BitVec.eq_of_getLsbD_eq
    intro i hi
    simp only [BitVec.getLsbD_reverse, BitVec.getMsbD_eq_getLsbD, BitVec.getLsbD_ushiftRight]
    obtain rfl | hpos := eq_zero_or_pos i
    · cases v.getLsbD 0 <;> simp
    · cases v.getLsbD 0 <;> simp [show ¬ 127 + i < 128 by omega]
      omega
  have hmul := bits_mul_X_pow_above v.reverse (k := 1) (by decide)
  rw [pow_one] at hmul
  have hel := congrArg (AdjoinRoot.mk modulus) hmul
  rw [map_mul, map_add, map_mul, mk_above] at hel
  rw [reverse_xor, el_xor, hlsb, hshift, el, el, el, hel]
  refine congrArg _ ?_
  rw [← map_mul]
  refine congrArg _ ?_
  rw [hout]
  cases v.getLsbD 0 with
  | false =>
    rw [if_neg Bool.false_ne_true, if_neg Bool.false_ne_true, reverse_zero, bits_zero, zero_mul]
  | true => simp [bits_reverse_R, bits_one]

lemma foldl_gfStep (x y : BitVec 128) (n : ℕ) (hn : n ≤ 128) :
    el ((range n).foldl (gfStep x) (0, y)).1.reverse =
        el y.reverse * AdjoinRoot.mk modulus
          (∑ i ∈ Finset.range n, if x.reverse.getLsbD i then X ^ i else 0) ∧
      el ((range n).foldl (gfStep x) (0, y)).2.reverse =
        el y.reverse * AdjoinRoot.mk modulus (X ^ n) := by
  induction n with
  | zero =>
    rw [range_zero, foldl_nil, Finset.sum_range_zero, map_zero, mul_zero, reverse_zero,
      el_zero, pow_zero, map_one, mul_one]
    exact ⟨rfl, rfl⟩
  | succ n ih =>
    obtain ⟨hz, hv⟩ := ih (Nat.le_of_succ_le hn)
    rw [range_succ, foldl_append, foldl_cons, foldl_nil]
    generalize (range n).foldl (gfStep x) (0, y) = st at *
    obtain ⟨z, v⟩ := st
    have hbit : x.getLsbD (127 - n) = x.reverse.getLsbD n := by
      rw [BitVec.getLsbD_reverse, BitVec.getMsbD_eq_getLsbD, decide_eq_true (show n < 128 from hn)]
      rfl
    constructor
    · simp only [gfStep]
      rw [and_neg_bit, reverse_xor, el_xor, hz, hbit, Finset.sum_range_succ, map_add, mul_add]
      refine congrArg _ ?_
      cases x.reverse.getLsbD n with
      | false =>
        rw [if_neg Bool.false_ne_true, if_neg Bool.false_ne_true, reverse_zero, el_zero,
          map_zero, mul_zero]
      | true => exact hv
    · simp only [gfStep]
      rw [el_next, hv, pow_succ, map_mul, mul_assoc]

theorem gfMul_spec (x y : BitVec 128) : el (gfMul x y).reverse = el x.reverse * el y.reverse := by
  rw [gfMul, (foldl_gfStep x y 128 (le_refl 128)).1, mul_comm]
  rfl

/-! ## Blocks -/

section

variable {clmul : BitVec 64 → BitVec 64 → BitVec 128} (hc : IsClmul clmul)
include hc

theorem mul_reverse (x y : BitVec 128) : mul clmul x.reverse y.reverse = (gfMul x y).reverse := by
  apply el_injective
  rw [mul_spec hc, gfMul_spec]

lemma mul_block (h acc b : BitVec 128) :
    mul clmul (acc.reverse ^^^ b.reverse) h.reverse = (gfMul (acc ^^^ b) h).reverse := by
  rw [← reverse_xor, mul_reverse hc]

omit hc in
lemma padded_eq {chunk : List UInt8} (h : chunk.length = 16) : padded chunk = chunk := by
  rw [padded, h]
  exact append_nil chunk

lemma foldl_full (h : BitVec 128) {pieces : List (List UInt8)} (hfull : ∀ c ∈ pieces, c.length = 16)
    (acc : BitVec 128) :
    pieces.foldl (fun acc c => mul clmul (acc ^^^ (fromBeBytes c).reverse) h.reverse) acc.reverse =
      (pieces.foldl (refStep h) acc).reverse := by
  induction pieces generalizing acc with
  | nil => rfl
  | cons c pieces ih =>
    have hstep : mul clmul (acc.reverse ^^^ (fromBeBytes c).reverse) h.reverse =
        (refStep h acc c).reverse := by
      rw [mul_block hc, refStep, padded_eq (hfull c mem_cons_self)]
    rw [foldl_cons, hstep, ih fun d hd => hfull d (mem_cons_of_mem c hd),
      foldl_cons]

omit hc in
lemma length_of_mem_chunksExact {data c : List UInt8} (h : c ∈ chunksExact data) :
    c.length = 16 := by
  obtain ⟨i, hi, rfl⟩ := mem_map.1 h
  have hi := mem_range.1 hi
  rw [length_take, length_drop]
  omega

omit hc in
lemma chunks_eq (data : List UInt8) :
    chunks data = chunksExact data ++
      if (remainder data).isEmpty then [] else [remainder data] := by
  have hempty : (remainder data).isEmpty = decide (data.length % 16 = 0) := by
    rw [Bool.eq_iff_iff, List.isEmpty_iff, ← length_eq_zero_iff, decide_eq_true_eq, remainder,
      length_drop]
    omega
  rw [hempty, chunks, chunksExact]
  by_cases h : data.length % 16 = 0
  · have hn : (data.length + 15) / 16 = data.length / 16 := by omega
    rw [hn, if_pos (decide_eq_true h), append_nil]
  · have hn : (data.length + 15) / 16 = data.length / 16 + 1 := by omega
    have hrest : (data.drop (16 * (data.length / 16))).length ≤ 16 := by
      rw [length_drop]
      omega
    rw [hn, range_succ, map_append, map_singleton, take_of_length_le hrest,
      if_neg (by simpa using h), remainder]

lemma absorb_spec (h acc : BitVec 128) (data : List UInt8) :
    absorb clmul h.reverse acc.reverse data = ((chunks data).foldl (refStep h) acc).reverse := by
  rw [chunks_eq, foldl_append, absorb, foldl_full hc h (fun c => length_of_mem_chunksExact)]
  split
  · rfl
  · exact mul_block hc h _ _

theorem hashWith_spec (h : BitVec 128) (aad ct : List UInt8) :
    hashWith clmul h.reverse aad ct = referenceGhash h aad ct := by
  have hzero : (0 : BitVec 128) = (0 : BitVec 128).reverse := reverse_zero.symm
  have hacc : absorb clmul h.reverse (absorb clmul h.reverse 0 aad) ct =
      ((chunks ct).foldl (refStep h) ((chunks aad).foldl (refStep h) 0)).reverse := by
    rw [← absorb_spec hc, ← absorb_spec hc, ← hzero]
  simp only [hashWith, hacc, mul_block hc, BitVec.reverse_reverse_eq, referenceGhash,
    foldl_cons, foldl_nil]

end

lemma lens_eq {aad ct : List UInt8} (ha : aad.length < 2 ^ 61) (hc : ct.length < 2 ^ 61) :
    lens aad ct = BitVec.ofNat 64 (8 * aad.length) ++ BitVec.ofNat 64 (8 * ct.length) := by
  have h8 : ∀ n < 2 ^ 61, (BitVec.ofNat 128 n * 8).toNat = 8 * n := by
    intro n hn
    have h : (8 : BitVec 128).toNat = 8 := rfl
    rw [BitVec.toNat_mul, BitVec.toNat_ofNat, h]
    omega
  apply BitVec.eq_of_toNat_eq
  rw [lens, BitVec.toNat_or, BitVec.toNat_shiftLeft, h8 _ ha, h8 _ hc, BitVec.toNat_append,
    BitVec.toNat_ofNat, BitVec.toNat_ofNat,
    Nat.mod_eq_of_lt (show 8 * aad.length < 2 ^ 64 by omega),
    Nat.mod_eq_of_lt (show 8 * ct.length < 2 ^ 64 by omega), Nat.mod_eq_of_lt]
  rw [Nat.shiftLeft_eq]
  omega

/-- The portable multiplication and hash are the ones of the standard. -/
theorem portable :
    (∀ a b : BitVec 64, clmul64Portable a b = slowClmul a b ∧
      bits (ZMod 2) (clmul64Portable a b) = bits (ZMod 2) a * bits (ZMod 2) b) ∧
    (∀ (a b : BitVec 64) (r s k : ℕ), r < 4 → s < 4 → k < 64 → k % 4 = (r + s) % 4 →
      (bits (ZMod 2) ((a &&& mask r) * (b &&& mask s))).coeff k =
        (bits (ZMod 2) (a &&& mask r) * bits (ZMod 2) (b &&& mask s)).coeff k) ∧
    (∀ x y : BitVec 128, (mul clmul64Portable x.reverse y.reverse).reverse = gfMul x y) ∧
    ∀ (h : BitVec 128) (aad ct : List UInt8), aad.length < 2 ^ 61 → ct.length < 2 ^ 61 →
      hashWith clmul64Portable h.reverse aad ct = referenceGhash h aad ct ∧
        lens aad ct = BitVec.ofNat 64 (8 * aad.length) ++ BitVec.ofNat 64 (8 * ct.length) := by
  refine ⟨fun a b => ⟨clmul64Portable_spec.eq slowClmul_spec a b, clmul64Portable_spec a b⟩,
    fun a b r s k hr hs hk hmod =>
      product_bit (inClass_mask hr a) (inClass_mask hs b) hk hmod,
    fun x y => ?_, fun h aad ct ha hc => ⟨hashWith_spec clmul64Portable_spec h aad ct,
      lens_eq ha hc⟩⟩
  rw [mul_reverse clmul64Portable_spec, BitVec.reverse_reverse_eq]

/-- A kept place of an integer product, and a hash of one short block. -/
theorem portable_short :
    (bits (ZMod 2) ((0xffffffffffffffff#64 &&& mask 1) * (0x8000000000000001#64 &&& mask 3))).coeff
        60 = (bits (ZMod 2) (0xffffffffffffffff#64 &&& mask 1) *
          bits (ZMod 2) (0x8000000000000001#64 &&& mask 3)).coeff 60 ∧
      hashWith clmul64Portable (0x42#128).reverse [1, 2, 3] [4] =
        referenceGhash 0x42 [1, 2, 3] [4] ∧
      lens [1, 2, 3] [4] = BitVec.ofNat 64 24 ++ BitVec.ofNat 64 8 := by
  obtain ⟨-, hkept, -, hhash⟩ := portable
  exact ⟨hkept _ _ 1 3 60 (by decide) (by decide) (by decide) (by decide),
    hhash 0x42 [1, 2, 3] [4] (by decide) (by decide)⟩

end Lazaret.Ghash
