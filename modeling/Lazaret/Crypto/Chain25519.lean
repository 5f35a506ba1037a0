import Lazaret.Crypto.Fe25519
import Mathlib.Data.ZMod.Basic

/-!
# Products in a row

What is made of the field's operations, over any way to run them (`Ops`): as the code does
(`plain`), or with the documented bounds of their operands looked at first (`checked`).  Either way
every operation has the value it should (`Sound`), so all that is built of them has its value too,
and is the same.
-/

namespace Lazaret.Fe25519

open Words

open Words (fits)

def mulSmall (a : Fe) (k : ℕ) : Option Fe := do
  let c0 ← fits 128 (a.l0 * k)
  let c1 ← fits 128 (a.l1 * k)
  let c2 ← fits 128 (a.l2 * k)
  let c3 ← fits 128 (a.l3 * k)
  let c4 ← fits 128 (a.l4 * k)
  let c1 ← fits 128 (c1 + c0 >>> 51)
  let c0 := c0 &&& MASK51
  let c2 ← fits 128 (c2 + c1 >>> 51)
  let c1 := c1 &&& MASK51
  let c3 ← fits 128 (c3 + c2 >>> 51)
  let c2 := c2 &&& MASK51
  let c4 ← fits 128 (c4 + c3 >>> 51)
  let c3 := c3 &&& MASK51
  let top := (c4 >>> 51) % 2 ^ 64
  let c4 := c4 &&& MASK51
  let t ← fits 64 (top * 19)
  let r0 ← fits 64 (c0 % 2 ^ 64 + t)
  carry ⟨r0, c1 % 2 ^ 64, c2 % 2 ^ 64, c3 % 2 ^ 64, c4 % 2 ^ 64⟩

structure Ops where
  addLazy : Fe → Fe → Option Fe
  subLazy : Fe → Fe → Option Fe
  mul : Fe → Fe → Option Fe
  square : Fe → Option Fe
  mulSmall : Fe → ℕ → Option Fe
  toBytes : Fe → Option (List UInt8)

def plain : Ops where
  addLazy := addLazy
  subLazy := subLazy
  mul := mul
  square := square
  mulSmall := mulSmall
  toBytes := toBytes

instance (a : Fe) (n : ℕ) : Decidable (a.Lt n) :=
  decidable_of_iff (a.l0 < n ∧ a.l1 < n ∧ a.l2 < n ∧ a.l3 < n ∧ a.l4 < n)
    ⟨fun ⟨h0, h1, h2, h3, h4⟩ => ⟨h0, h1, h2, h3, h4⟩,
      fun ⟨h0, h1, h2, h3, h4⟩ => ⟨h0, h1, h2, h3, h4⟩⟩

/-- With no value for an operand that is not within its documented bounds. -/
def checked : Ops where
  addLazy a b := if a.Lt (2 ^ 52) ∧ b.Lt (2 ^ 52) then addLazy a b else none
  subLazy a b := if a.Lt (2 ^ 52) ∧ b.Lt (2 ^ 51 + 2 ^ 12) then subLazy a b else none
  mul a b := if a.Lt (2 ^ 53) ∧ b.Lt (2 ^ 53) then mul a b else none
  square a := if a.Lt (2 ^ 53) then square a else none
  mulSmall a k := if a.Lt (2 ^ 53) then mulSmall a k else none
  toBytes a := if a.Lt (2 ^ 53) then toBytes a else none

def el (a : Fe) : ZMod P := (val a : ZMod P)

lemma el_eq {a : Fe} {n : ℕ} (h : val a ≡ n [MOD P]) : el a = n :=
  (ZMod.natCast_eq_natCast_iff _ _ _).2 h

/-- Every operation has its value on operands within bounds, within those of the next one. -/
structure Sound (ops : Ops) : Prop where
  addLazy : ∀ {a b : Fe}, a.Lt (2 ^ 52) → b.Lt (2 ^ 52) →
    ∃ c, ops.addLazy a b = some c ∧ c.Lt (2 ^ 53) ∧ el c = el a + el b
  subLazy : ∀ {a b : Fe}, a.Lt (2 ^ 52) → b.Lt (2 ^ 51 + 2 ^ 12) →
    ∃ c, ops.subLazy a b = some c ∧ c.Lt (2 ^ 53) ∧ el c = el a - el b
  mul : ∀ {a b : Fe}, a.Lt (2 ^ 53) → b.Lt (2 ^ 53) →
    ∃ c, ops.mul a b = some c ∧ Reduced c ∧ el c = el a * el b
  square : ∀ {a : Fe}, a.Lt (2 ^ 53) →
    ∃ c, ops.square a = some c ∧ Reduced c ∧ el c = el a ^ 2
  mulSmall : ∀ {a : Fe} {k : ℕ}, a.Lt (2 ^ 53) → k ≤ 2 ^ 56 →
    ∃ c, ops.mulSmall a k = some c ∧ Reduced c ∧ el c = k * el a
  toBytes : ∀ {a : Fe}, a.Lt (2 ^ 53) →
    ops.toBytes a = some (Packed.toBytes 32 (el a).val)

def squareTimes (ops : Ops) (a : Fe) : ℕ → Option Fe
  | 0 => some a
  | k + 1 => ops.square a >>= fun r => squareTimes ops r k

def pow22501 (ops : Ops) (a : Fe) : Option (Fe × Fe) := do
  let t0 ← ops.square a
  let t1 ← squareTimes ops t0 2
  let t2 ← ops.mul a t1
  let t3 ← ops.mul t0 t2
  let t4 ← ops.square t3
  let t5 ← ops.mul t2 t4
  let t7 ← squareTimes ops t5 5 >>= fun t => ops.mul t t5
  let t9 ← squareTimes ops t7 10 >>= fun t => ops.mul t t7
  let t11 ← squareTimes ops t9 20 >>= fun t => ops.mul t t9
  let t13 ← squareTimes ops t11 10 >>= fun t => ops.mul t t7
  let t15 ← squareTimes ops t13 50 >>= fun t => ops.mul t t13
  let t17 ← squareTimes ops t15 100 >>= fun t => ops.mul t t15
  let t19 ← squareTimes ops t17 50 >>= fun t => ops.mul t t13
  some (t19, t3)

def invert (ops : Ops) (a : Fe) : Option Fe := do
  let (t19, t3) ← pow22501 ops a
  let t ← squareTimes ops t19 5
  ops.mul t t3

variable {a b : Fe}

/-! ## The operations -/

theorem mulSmall_spec {k : ℕ} (ha : a.Lt (2 ^ 53)) (hk : k ≤ 2 ^ 56) : ∃ c, mulSmall a k = some c ∧
    Limbs.Carried (2 ^ 51) (2 ^ 6) c ∧ val c ≡ k * val a [MOD P] := by
  have hlt : ∀ x, x < 2 ^ 53 → x * k < 2 ^ 109 := fun x hx =>
    calc
      x * k ≤ x * 2 ^ 56 := Nat.mul_le_mul_left x hk
      _ < 2 ^ 53 * 2 ^ 56 := mul_lt_mul_of_pos_right hx (by decide)
  have h0 := hlt _ ha.l0_lt
  have h1 := hlt _ ha.l1_lt
  have h2 := hlt _ ha.l2_lt
  have h3 := hlt _ ha.l3_lt
  have h4 := hlt _ ha.l4_lt
  have hval : k * val a = a.l0 * k + 2 ^ 51 * (a.l1 * k) + 2 ^ 102 * (a.l2 * k) +
      2 ^ 153 * (a.l3 * k) + 2 ^ 204 * (a.l4 * k) := by
    rw [val_eq]
    ring
  rw [hval]
  simp only [mulSmall]
  rw [fits_bind (by omega), fits_bind (by omega), fits_bind (by omega),
    fits_bind (by omega), fits_bind (by omega)]
  generalize a.l0 * k = c0 at *
  generalize a.l1 * k = c1 at *
  generalize a.l2 * k = c2 at *
  generalize a.l3 * k = c3 at *
  generalize a.l4 * k = c4 at *
  obtain ⟨e1, he1⟩ : ∃ e1, e1 = c1 + c0 / 2 ^ 51 := ⟨_, rfl⟩
  obtain ⟨e2, he2⟩ : ∃ e2, e2 = c2 + e1 / 2 ^ 51 := ⟨_, rfl⟩
  obtain ⟨e3, he3⟩ : ∃ e3, e3 = c3 + e2 / 2 ^ 51 := ⟨_, rfl⟩
  obtain ⟨e4, he4⟩ : ∃ e4, e4 = c4 + e3 / 2 ^ 51 := ⟨_, rfl⟩
  have hmod : ∀ n, n % 2 ^ 51 % 2 ^ 64 = n % 2 ^ 51 := fun n => by omega
  have htop : e4 / 2 ^ 51 % 2 ^ 64 = e4 / 2 ^ 51 := by omega
  obtain ⟨c, hc, hcarried, hvalue⟩ := carry_spec
    (a := ⟨c0 % 2 ^ 51 + e4 / 2 ^ 51 * 19, e1 % 2 ^ 51, e2 % 2 ^ 51, e3 % 2 ^ 51, e4 % 2 ^ 51⟩)
    (by constructor <;> dsimp only <;> omega)
  refine ⟨c, ?_, hcarried, hvalue.trans ?_⟩
  · simp only [and_mask, hmod, Nat.shiftRight_eq_div_pow]
    rw [← he1, fits_bind (by omega), ← he2, fits_bind (by omega), ← he3, fits_bind (by omega),
      ← he4, fits_bind (by omega), htop, fits_bind (by omega), fits_bind (by omega)]
    exact hc
  · -- the carry out of the last limb is a multiple of the prime
    have hsum : c0 + 2 ^ 51 * c1 + 2 ^ 102 * c2 + 2 ^ 153 * c3 + 2 ^ 204 * c4 =
        val ⟨c0 % 2 ^ 51 + e4 / 2 ^ 51 * 19, e1 % 2 ^ 51, e2 % 2 ^ 51, e3 % 2 ^ 51, e4 % 2 ^ 51⟩ +
          P * (e4 / 2 ^ 51) := by
      have hP : P = 2 ^ 255 - 19 := rfl
      rw [val_eq, hP]
      dsimp only
      omega
    rw [hsum]
    exact (Nat.add_modulus_mul_modEq_iff.2 rfl).symm

lemma plain_sound : Sound plain where
  addLazy ha hb := by
    obtain ⟨c, hc, hlt, hvalue⟩ := addLazy_spec ha hb (by decide)
    refine ⟨c, hc, hlt, ?_⟩
    rw [el, hvalue, Nat.cast_add, el, el]
  subLazy {a b} ha hb := by
    obtain ⟨c, hc, hlt, hvalue⟩ := subLazy_spec ha (withinTwoP_of_lt hb)
    refine ⟨c, hc, hlt, eq_sub_of_add_eq ?_⟩
    have hcast : ((val c + val b : ℕ) : ZMod P) = (val a + 2 * P : ℕ) := congrArg _ hvalue
    rwa [Nat.cast_add, Nat.cast_add, Nat.cast_mul, ZMod.natCast_self, mul_zero, add_zero] at hcast
  mul ha hb := by
    obtain ⟨c, hc, hreduced, hvalue⟩ := mul_spec ha hb
    refine ⟨c, hc, hreduced, ?_⟩
    rw [el_eq hvalue, Nat.cast_mul, el, el]
  square ha := by
    obtain ⟨c, hc, hreduced, hvalue⟩ := square_spec ha
    refine ⟨c, hc, hreduced, ?_⟩
    rw [el_eq hvalue, Nat.cast_mul, el, pow_two]
  mulSmall ha hk := by
    obtain ⟨c, hc, hcarried, hvalue⟩ := mulSmall_spec ha hk
    refine ⟨c, hc, hcarried.mono (by decide), ?_⟩
    rw [el_eq hvalue, Nat.cast_mul, el]
  toBytes ha := by
    rw [el, ZMod.val_natCast]
    exact toBytes_spec ha

lemma checked_sound : Sound checked where
  addLazy {a b} ha hb := by
    have h : checked.addLazy a b = plain.addLazy a b := if_pos ⟨ha, hb⟩
    rw [h]
    exact plain_sound.addLazy ha hb
  subLazy {a b} ha hb := by
    have h : checked.subLazy a b = plain.subLazy a b := if_pos ⟨ha, hb⟩
    rw [h]
    exact plain_sound.subLazy ha hb
  mul {a b} ha hb := by
    have h : checked.mul a b = plain.mul a b := if_pos ⟨ha, hb⟩
    rw [h]
    exact plain_sound.mul ha hb
  square {a} ha := by
    have h : checked.square a = plain.square a := if_pos ha
    rw [h]
    exact plain_sound.square ha
  mulSmall {a k} ha hk := by
    have h : checked.mulSmall a k = plain.mulSmall a k := if_pos ha
    rw [h]
    exact plain_sound.mulSmall ha hk
  toBytes {a} ha := by
    have h : checked.toBytes a = plain.toBytes a := if_pos ha
    rw [h]
    exact plain_sound.toBytes ha

/-! ## Powers -/

lemma Reduced.lt (h : Reduced a) : a.Lt (2 ^ 53) := Limbs.Carried.lt h (by decide)

section

variable {ops : Ops} (h : Sound ops)
include h

lemma squareTimes_spec (ha : Reduced a) (k : ℕ) :
    ∃ c, squareTimes ops a k = some c ∧ Reduced c ∧ el c = el a ^ 2 ^ k := by
  induction k generalizing a with
  | zero => exact ⟨a, rfl, ha, by rw [pow_zero, pow_one]⟩
  | succ k ih =>
    obtain ⟨b, hb, hreduced, hvalue⟩ := h.square ha.lt
    obtain ⟨c, hc, hreduced', hvalue'⟩ := ih hreduced
    refine ⟨c, ?_, hreduced', ?_⟩
    · rw [squareTimes, hb]
      exact hc
    · rw [hvalue', hvalue, ← pow_mul, ← pow_succ']

lemma squareTimes_mul {x : ZMod P} {m n : ℕ} (ha : Reduced a) (hm : el a = x ^ m) (hb : Reduced b)
    (hn : el b = x ^ n) (k : ℕ) :
    ∃ c, (squareTimes ops a k >>= fun t => ops.mul t b) = some c ∧ Reduced c ∧
      el c = x ^ (2 ^ k * m + n) := by
  obtain ⟨t, ht, hreduced, hvalue⟩ := squareTimes_spec h ha k
  obtain ⟨c, hc, hreduced', hvalue'⟩ := h.mul hreduced.lt hb.lt
  refine ⟨c, ?_, hreduced', ?_⟩
  · rw [ht]
    exact hc
  · rw [hvalue', hvalue, hm, hn, ← pow_mul, ← pow_add, mul_comm m]

lemma squareTimes_ones {x : ZMod P} {m : ℕ} (k : ℕ) (ha : Reduced a) (hm : el a = x ^ (2 ^ m - 1))
    (hb : Reduced b) (hk : el b = x ^ (2 ^ k - 1)) :
    ∃ c, (squareTimes ops a k >>= fun t => ops.mul t b) = some c ∧ Reduced c ∧
      el c = x ^ (2 ^ (m + k) - 1) := by
  have hones : 2 ^ k * (2 ^ m - 1) + (2 ^ k - 1) = 2 ^ (m + k) - 1 := by
    have := Nat.one_le_two_pow (n := k)
    have := Nat.mul_le_mul_left (2 ^ k) (Nat.one_le_two_pow (n := m))
    rw [Nat.mul_sub, Nat.mul_one, Nat.pow_add, Nat.mul_comm (2 ^ m)]
    omega
  obtain ⟨c, hc, hreduced, hvalue⟩ := squareTimes_mul h ha hm hb hk k
  exact ⟨c, hc, hreduced, hones ▸ hvalue⟩

lemma pow22501_spec (ha : a.Lt (2 ^ 53)) :
    ∃ c d, pow22501 ops a = some (c, d) ∧ Reduced c ∧ el c = el a ^ (2 ^ 250 - 1) ∧ Reduced d ∧
      el d = el a ^ 11 := by
  obtain ⟨t0, h0, hr0, hv0⟩ := h.square ha
  obtain ⟨t1, h1, hr1, hv1⟩ := squareTimes_spec h hr0 2
  obtain ⟨t2, h2, hr2, hv2⟩ := h.mul ha hr1.lt
  have hv2' : el t2 = el a ^ 9 := by
    rw [hv2, hv1, hv0]
    ring
  obtain ⟨t3, h3, hr3, hv3⟩ := h.mul hr0.lt hr2.lt
  have hv3' : el t3 = el a ^ 11 := by
    rw [hv3, hv2', hv0]
    ring
  obtain ⟨t4, h4, hr4, hv4⟩ := h.square hr3.lt
  obtain ⟨t5, h5, hr5, hv5⟩ := h.mul hr2.lt hr4.lt
  have hv5' : el t5 = el a ^ (2 ^ 5 - 1) := by
    rw [hv5, hv4, hv3', hv2']
    ring
  obtain ⟨t7, h7, hr7, hv7⟩ := squareTimes_ones h 5 hr5 hv5' hr5 hv5'
  obtain ⟨t9, h9, hr9, hv9⟩ := squareTimes_ones h 10 hr7 hv7 hr7 hv7
  obtain ⟨t11, h11, hr11, hv11⟩ := squareTimes_ones h 20 hr9 hv9 hr9 hv9
  obtain ⟨t13, h13, hr13, hv13⟩ := squareTimes_ones h 10 hr11 hv11 hr7 hv7
  obtain ⟨t15, h15, hr15, hv15⟩ := squareTimes_ones h 50 hr13 hv13 hr13 hv13
  obtain ⟨t17, h17, hr17, hv17⟩ := squareTimes_ones h 100 hr15 hv15 hr15 hv15
  obtain ⟨t19, h19, hr19, hv19⟩ := squareTimes_ones h 50 hr17 hv17 hr13 hv13
  refine ⟨t19, t3, ?_, hr19, hv19, hr3, hv3'⟩
  have hsome : ∀ {α β : Type} (x : α) (f : α → Option β), (some x >>= f) = f x := fun _ _ => rfl
  simp only [pow22501, h0, h1, h2, h3, h4, h5, h7, h9, h11, h13, h15, h17, h19, hsome]

theorem invert_spec (ha : a.Lt (2 ^ 53)) :
    ∃ c, invert ops a = some c ∧ Reduced c ∧ el c = el a ^ (P - 2) := by
  obtain ⟨t19, t3, ht, hr19, hv19, hr3, hv3⟩ := pow22501_spec h ha
  obtain ⟨c, hc, hreduced, hvalue⟩ := squareTimes_mul h hr19 hv19 hr3 hv3 5
  have hexp : 2 ^ 5 * (2 ^ 250 - 1) + 11 = P - 2 := by decide
  refine ⟨c, ?_, hreduced, hexp ▸ hvalue⟩
  rw [invert, ht]
  exact hc

end

end Lazaret.Fe25519
