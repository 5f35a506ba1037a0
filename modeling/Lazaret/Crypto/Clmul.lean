import Lazaret.Lib.BitPolynomials

/-!
# Products without carries

The carry-less products of `ghash.rs`.  `bmul64` takes its low half from integer products of
operands that keep every fourth bit: at most fifteen ones land on a place below the last one of a
class, so no carry reaches the next place that is kept (`product_bit`).  The high half is a low half
read backwards, and the two are the product of the operands' polynomials (`clmul64Portable_spec`).
-/

namespace Lazaret.Ghash

open Polynomial BitPolynomials Finset

/-! ## The code -/

def M0 : BitVec 64 := 0x1111111111111111

def M1 : BitVec 64 := 0x2222222222222222

def M2 : BitVec 64 := 0x4444444444444444

def M3 : BitVec 64 := 0x8888888888888888

def bmul64 (x y : BitVec 64) : BitVec 64 :=
  let (x0, x1, x2, x3) := (x &&& M0, x &&& M1, x &&& M2, x &&& M3)
  let (y0, y1, y2, y3) := (y &&& M0, y &&& M1, y &&& M2, y &&& M3)
  let z0 := x0 * y0 ^^^ x1 * y3 ^^^ x2 * y2 ^^^ x3 * y1
  let z1 := x0 * y1 ^^^ x1 * y0 ^^^ x2 * y3 ^^^ x3 * y2
  let z2 := x0 * y2 ^^^ x1 * y1 ^^^ x2 * y0 ^^^ x3 * y3
  let z3 := x0 * y3 ^^^ x1 * y2 ^^^ x2 * y1 ^^^ x3 * y0
  (z0 &&& M0) ||| (z1 &&& M1) ||| (z2 &&& M2) ||| (z3 &&& M3)

def clmul64Portable (a b : BitVec 64) : BitVec 128 :=
  let lo := bmul64 a b
  let hi := (bmul64 a.reverse b.reverse).reverse >>> 1
  (hi.setWidth 128 <<< 64) ||| lo.setWidth 128

def slowClmul (a b : BitVec 64) : BitVec 128 :=
  (List.range 64).foldl
    (fun r i => if (b >>> i) &&& 1#64 = 1#64 then r ^^^ (a.setWidth 128 <<< i) else r) 0

/-- A product of two words without carries, in one of twice their bits. -/
def IsClmul (clmul : BitVec 64 → BitVec 64 → BitVec 128) : Prop :=
  ∀ a b, bits (ZMod 2) (clmul a b) = bits (ZMod 2) a * bits (ZMod 2) b

/-! ## Every fourth bit -/

def InClass (r : ℕ) (x : BitVec 64) : Prop := ∀ i, x.getLsbD i → i % 4 = r

variable {r s k : ℕ} {x y : BitVec 64}

lemma coeff_mul_eq_zero (hx : InClass r x) (hy : InClass s y) (hk : k % 4 ≠ (r + s) % 4) {R : Type}
    [Semiring R] : (bits R x * bits R y).coeff k = 0 := by
  rw [coeff_mul]
  apply sum_eq_zero
  rintro ⟨i, j⟩ hij
  have hij : i + j = k := Finset.HasAntidiagonal.mem_antidiagonal.1 hij
  rw [coeff_bits, coeff_bits]
  by_cases hi : x.getLsbD i
  · by_cases hj : y.getLsbD j
    · have := hx i hi
      have := hy j hj
      omega
    · rw [if_neg hj, mul_zero]
  · rw [if_neg hi, zero_mul]

lemma coeff_mul_le (hx : InClass r x) (y : BitVec 64) (k : ℕ) :
    (bits ℕ x * bits ℕ y).coeff k ≤ k / 4 + 1 := by
  have hterm : ∀ i, (bits ℕ x).coeff i * (bits ℕ y).coeff (k - i) ≤ if i % 4 = r then 1 else 0 := by
    intro i
    rw [coeff_bits, coeff_bits]
    by_cases hi : x.getLsbD i
    · rw [if_pos hi, if_pos (hx i hi), one_mul]
      split <;> decide
    · rw [if_neg hi, zero_mul]
      exact Nat.zero_le _
  -- each place of the class is another quotient by four
  have hcard : (Finset.filter (fun i => i % 4 = r) (Finset.range (k + 1))).card ≤
      (Finset.range (k / 4 + 1)).card := by
    apply card_le_card_of_injOn (· / 4)
    · intro i hi
      rw [mem_coe, mem_filter, mem_range] at hi
      rw [mem_coe, mem_range]
      dsimp only
      omega
    · intro i hi j hj hij
      rw [mem_coe, mem_filter] at hi hj
      dsimp only at hij
      omega
  rw [card_range] at hcard
  rw [coeff_mul, Finset.Nat.sum_antidiagonal_eq_sum_range_succ_mk]
  calc
    _ ≤ ∑ i ∈ Finset.range (k + 1), if i % 4 = r then 1 else 0 :=
      sum_le_sum fun i _ => hterm i
    _ = (Finset.filter (fun i => i % 4 = r) (Finset.range (k + 1))).card :=
      (card_filter _ _).symm
    _ ≤ k / 4 + 1 := hcard

theorem product_bit (hx : InClass r x) (hy : InClass s y) (hk : k < 64)
    (hmod : k % 4 = (r + s) % 4) :
    (bits (ZMod 2) (x * y)).coeff k = (bits (ZMod 2) x * bits (ZMod 2) y).coeff k := by
  have hholes : ∀ j, j % 4 ≠ k % 4 → (bits ℕ x * bits ℕ y).coeff j = 0 := by
    intro j hj
    exact coeff_mul_eq_zero hx hy (hmod ▸ hj)
  have hsmall : ∀ j < k, (bits ℕ x * bits ℕ y).coeff j < 2 ^ 4 := by
    intro j hj
    by_cases hjk : j % 4 = k % 4
    · have := coeff_mul_le hx y j
      omega
    · rw [hholes j hjk]
      decide
  have hbit : (x * y).getLsbD k = decide ((bits ℕ x * bits ℕ y).coeff k % 2 = 1) := by
    rw [← testBit_eval (by decide) hholes hsmall, eval_mul, eval_bits, eval_bits,
      ← BitVec.testBit_toNat, BitVec.toNat_mul, Nat.testBit_mod_two_pow, decide_eq_true hk,
      Bool.true_and]
  have hcast : (bits (ZMod 2) x * bits (ZMod 2) y).coeff k =
      ((bits ℕ x * bits ℕ y).coeff k : ZMod 2) := by
    rw [← map_bits (Nat.castRingHom (ZMod 2)) x, ← map_bits (Nat.castRingHom (ZMod 2)) y,
      ← Polynomial.map_mul, coeff_map]
    rfl
  rw [coeff_bits, hbit, hcast]
  obtain h | h := Nat.mod_two_eq_zero_or_one ((bits ℕ x * bits ℕ y).coeff k)
  · rw [h, (ZMod.natCast_eq_zero_iff_even).2 (Nat.even_iff.2 h)]
    rfl
  · rw [h, (ZMod.natCast_eq_one_iff_odd).2 (Nat.odd_iff.2 h)]
    rfl

/-! ## The low half -/

def mask : ℕ → BitVec 64
  | 0 => M0
  | 1 => M1
  | 2 => M2
  | _ => M3

lemma getLsbD_mask (hr : r < 4) (i : ℕ) : (mask r).getLsbD i = decide (i < 64 ∧ i % 4 = r) := by
  have hmask : ∀ r < 4, ∀ i < 64, (mask r).getLsbD i = decide (i % 4 = r) := by decide
  by_cases hi : i < 64
  · rw [hmask r hr i hi]
    simp [hi]
  · rw [BitVec.getLsbD_of_ge _ i (Nat.le_of_not_lt hi)]
    simp [hi]

lemma inClass_mask (hr : r < 4) (x : BitVec 64) : InClass r (x &&& mask r) := by
  intro i hi
  rw [BitVec.getLsbD_and, getLsbD_mask hr, Bool.and_eq_true, decide_eq_true_eq] at hi
  exact hi.2.2

lemma bits_eq_sum (x : BitVec 64) :
    bits (ZMod 2) x = ∑ r ∈ Finset.range 4, bits (ZMod 2) (x &&& mask r) := by
  ext k
  have hterm : ∀ r ∈ Finset.range 4, (bits (ZMod 2) (x &&& mask r)).coeff k =
      if k % 4 = r then (bits (ZMod 2) x).coeff k else 0 := by
    intro r hr
    rw [coeff_bits, coeff_bits, BitVec.getLsbD_and, getLsbD_mask (mem_range.1 hr)]
    by_cases hk : k < 64
    · by_cases hr : k % 4 = r <;> simp [hk, hr]
    · simp [x.getLsbD_of_ge k (Nat.le_of_not_lt hk)]
  rw [finsetSum_coeff, sum_congr rfl hterm, sum_ite_eq,
    if_pos (mem_range.2 (Nat.mod_lt k (by decide)))]

lemma coeff_mul_eq_sum (x y : BitVec 64) (hk : k < 64) :
    (bits (ZMod 2) x * bits (ZMod 2) y).coeff k = ∑ r ∈ Finset.range 4,
      (bits (ZMod 2) ((x &&& mask r) * (y &&& mask ((k + 4 - r) % 4)))).coeff k := by
  rw [bits_eq_sum x, sum_mul, finsetSum_coeff]
  apply sum_congr rfl
  intro r hr
  have hr := mem_range.1 hr
  have hs : (k + 4 - r) % 4 < 4 := Nat.mod_lt _ (by decide)
  have hmod : k % 4 = (r + (k + 4 - r) % 4) % 4 := by omega
  rw [product_bit (inClass_mask hr x) (inClass_mask hs y) hk hmod, bits_eq_sum y, mul_sum,
    finsetSum_coeff]
  apply sum_eq_single_of_mem _ (mem_range.2 hs)
  intro s hs hne
  have hs := mem_range.1 hs
  exact coeff_mul_eq_zero (inClass_mask hr x) (inClass_mask hs y) (by omega)

lemma coeff_kept (z0 z1 z2 z3 : BitVec 64) (hk : k < 64) :
    (bits (ZMod 2) ((z0 &&& M0) ||| (z1 &&& M1) ||| (z2 &&& M2) ||| (z3 &&& M3))).coeff k =
      (bits (ZMod 2) (if k % 4 = 0 then z0 else if k % 4 = 1 then z1 else
        if k % 4 = 2 then z2 else z3)).coeff k := by
  have h0 : M0.getLsbD k = decide (k < 64 ∧ k % 4 = 0) := getLsbD_mask (r := 0) (by decide) k
  have h1 : M1.getLsbD k = decide (k < 64 ∧ k % 4 = 1) := getLsbD_mask (r := 1) (by decide) k
  have h2 : M2.getLsbD k = decide (k < 64 ∧ k % 4 = 2) := getLsbD_mask (r := 2) (by decide) k
  have h3 : M3.getLsbD k = decide (k < 64 ∧ k % 4 = 3) := getLsbD_mask (r := 3) (by decide) k
  rw [coeff_bits, coeff_bits]
  simp only [BitVec.getLsbD_or, BitVec.getLsbD_and, h0, h1, h2, h3]
  obtain h | h | h | h : k % 4 = 0 ∨ k % 4 = 1 ∨ k % 4 = 2 ∨ k % 4 = 3 := by omega
  all_goals simp [h, hk]

theorem coeff_bmul64 (x y : BitVec 64) (hk : k < 64) :
    (bits (ZMod 2) (bmul64 x y)).coeff k = (bits (ZMod 2) x * bits (ZMod 2) y).coeff k := by
  rw [coeff_mul_eq_sum x y hk, bmul64, coeff_kept _ _ _ _ hk]
  simp only [sum_range_succ, sum_range_zero, zero_add]
  obtain h | h | h | h : k % 4 = 0 ∨ k % 4 = 1 ∨ k % 4 = 2 ∨ k % 4 = 3 := by omega
  case inl =>
    have e0 : (k + 4 - 0) % 4 = 0 := by omega
    have e1 : (k + 4 - 1) % 4 = 3 := by omega
    have e2 : (k + 4 - 2) % 4 = 2 := by omega
    have e3 : (k + 4 - 3) % 4 = 1 := by omega
    rw [if_pos h, e0, e1, e2, e3, bits_xor, bits_xor, bits_xor, coeff_add, coeff_add, coeff_add]
    rfl
  case inr.inl =>
    have e0 : (k + 4 - 0) % 4 = 1 := by omega
    have e1 : (k + 4 - 1) % 4 = 0 := by omega
    have e2 : (k + 4 - 2) % 4 = 3 := by omega
    have e3 : (k + 4 - 3) % 4 = 2 := by omega
    rw [if_neg (by omega), if_pos h, e0, e1, e2, e3, bits_xor, bits_xor, bits_xor, coeff_add,
      coeff_add, coeff_add]
    rfl
  case inr.inr.inl =>
    have e0 : (k + 4 - 0) % 4 = 2 := by omega
    have e1 : (k + 4 - 1) % 4 = 1 := by omega
    have e2 : (k + 4 - 2) % 4 = 0 := by omega
    have e3 : (k + 4 - 3) % 4 = 3 := by omega
    rw [if_neg (by omega), if_neg (by omega), if_pos h, e0, e1, e2, e3, bits_xor, bits_xor,
      bits_xor, coeff_add, coeff_add, coeff_add]
    rfl
  case inr.inr.inr =>
    have e0 : (k + 4 - 0) % 4 = 3 := by omega
    have e1 : (k + 4 - 1) % 4 = 2 := by omega
    have e2 : (k + 4 - 2) % 4 = 1 := by omega
    have e3 : (k + 4 - 3) % 4 = 0 := by omega
    rw [if_neg (by omega), if_neg (by omega), if_neg (by omega), e0, e1, e2, e3, bits_xor,
      bits_xor, bits_xor, coeff_add, coeff_add, coeff_add]
    rfl

/-! ## The whole product -/

lemma coeff_mul_reverse (a b : BitVec 64) (hk : k ≤ 126) :
    (bits (ZMod 2) a.reverse * bits (ZMod 2) b.reverse).coeff k =
      (bits (ZMod 2) a * bits (ZMod 2) b).coeff (126 - k) := by
  rw [bits_reverse, bits_reverse, ← reflect_mul _ _ (natDegree_bits a) (natDegree_bits b),
    coeff_reflect, revAt_le hk]

theorem clmul64Portable_spec : IsClmul clmul64Portable := by
  intro a b
  ext k
  have hdegree : 127 ≤ k → (bits (ZMod 2) a * bits (ZMod 2) b).coeff k = 0 := by
    intro hk
    apply coeff_eq_zero_of_natDegree_lt
    have := natDegree_mul_le (p := bits (ZMod 2) a) (q := bits (ZMod 2) b)
    have := natDegree_bits (R := ZMod 2) a
    have := natDegree_bits (R := ZMod 2) b
    omega
  have hlow : k < 64 → (clmul64Portable a b).getLsbD k = (bmul64 a b).getLsbD k := by
    intro hk
    simp [clmul64Portable, hk, show k < 128 by omega]
  have hhigh : 64 ≤ k → k ≤ 126 → (clmul64Portable a b).getLsbD k =
      (bmul64 a.reverse b.reverse).getLsbD (126 - k) := by
    intro hk hk'
    have hplace : 64 - 1 - (1 + (k - 64)) = 126 - k := by omega
    have hlo : (bmul64 a b).getLsbD k = false := BitVec.getLsbD_of_ge _ k hk
    simp only [clmul64Portable, BitVec.getLsbD_or, BitVec.getLsbD_shiftLeft,
      BitVec.getLsbD_setWidth, BitVec.getLsbD_ushiftRight, BitVec.getLsbD_reverse,
      BitVec.getMsbD_eq_getLsbD, hplace, hlo]
    simp [show k < 128 by omega, show ¬ k < 64 by omega, show 1 + (k - 64) < 64 by omega,
      show k - 64 < 128 by omega]
  have htop : 127 ≤ k → (clmul64Portable a b).getLsbD k = false := by
    intro hk
    have hlo : (bmul64 a b).getLsbD k = false := BitVec.getLsbD_of_ge _ k (by omega)
    simp only [clmul64Portable, BitVec.getLsbD_or, BitVec.getLsbD_shiftLeft,
      BitVec.getLsbD_setWidth, BitVec.getLsbD_ushiftRight, BitVec.getLsbD_reverse,
      BitVec.getMsbD_eq_getLsbD, hlo]
    simp [show ¬ 1 + (k - 64) < 64 by omega]
  rw [coeff_bits]
  obtain hk | hk | hk : k < 64 ∨ 64 ≤ k ∧ k ≤ 126 ∨ 127 ≤ k := by omega
  · rw [hlow hk, ← coeff_bits, coeff_bmul64 a b hk]
  · rw [hhigh hk.1 hk.2, ← coeff_bits, coeff_bmul64 _ _ (by omega),
      coeff_mul_reverse a b (by omega), Nat.sub_sub_self hk.2]
  · rw [htop hk, hdegree hk]
    rfl

theorem slowClmul_spec : IsClmul slowClmul := by
  intro a b
  have hbit : ∀ i, ((b >>> i) &&& 1#64 = 1#64) ↔ b.getLsbD i = true := by
    intro i
    rw [BitVec.and_one_eq_setWidth_ofBool_getLsbD]
    rw [BitVec.getLsbD_ushiftRight, add_zero]
    cases b.getLsbD i <;> decide
  have hshift : ∀ i ≤ 64, bits (ZMod 2) (a.setWidth 128 <<< i) = bits (ZMod 2) a * X ^ i := by
    intro i hi
    have hout : a.setWidth 128 >>> (128 - i) = 0 := by
      apply BitVec.eq_of_getLsbD_eq
      intro j _
      rw [BitVec.getLsbD_ushiftRight, BitVec.getLsbD_setWidth,
        a.getLsbD_of_ge (128 - i + j) (by omega), Bool.and_false]
      exact BitVec.getLsbD_zero.symm
    have hmul := bits_mul_X_pow (R := ZMod 2) (a.setWidth 128) (k := i) (by omega)
    simp only [hout, bits_zero, zero_mul, add_zero,
      bits_setWidth a (show 64 ≤ 128 by decide)] at hmul
    exact hmul.symm
  have hfold : ∀ n ≤ 64, bits (ZMod 2) ((List.range n).foldl
      (fun r i => if (b >>> i) &&& 1#64 = 1#64 then r ^^^ (a.setWidth 128 <<< i) else r) 0) =
        ∑ i ∈ Finset.range n, bits (ZMod 2) a * if b.getLsbD i then X ^ i else 0 := by
    intro n hn
    induction n with
    | zero => exact bits_zero
    | succ n ih =>
      rw [List.range_succ, List.foldl_append, List.foldl_cons, List.foldl_nil,
        sum_range_succ, ← ih (by omega)]
      by_cases hb : b.getLsbD n
      · rw [if_pos ((hbit n).2 hb), if_pos hb, bits_xor, hshift n (by omega)]
      · rw [if_neg fun h => hb ((hbit n).1 h), if_neg hb, mul_zero, add_zero]
  rw [slowClmul, hfold 64 (le_refl 64), ← mul_sum]
  rfl

lemma IsClmul.eq {f g : BitVec 64 → BitVec 64 → BitVec 128} (hf : IsClmul f) (hg : IsClmul g)
    (a b : BitVec 64) : f a b = g a b := by
  apply bits_injective (R := ZMod 2)
  rw [hf, hg]

end Lazaret.Ghash
