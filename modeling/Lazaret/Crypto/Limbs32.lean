import Lazaret.Crypto.Poly1305
import Lazaret.Lib.FiveLimbs

/-!
# Poly1305 in five limbs of 26 bits

Numbers modulo `2^130 - 5` in five limbs, as `limbs32` and the vector code of `poly1305.rs` keep
them, and the implementation `limbs32`: the accumulator is in five words of 32 bits.  Every
operation has its value only if it does not overflow, and a carry that is cast to 32 bits only if it
fits.
-/

namespace Lazaret.Poly1305

def value26 (l : Limbs) : ℕ := l.value (2 ^ 26)

/-- The sums of products of two numbers, with `2^130` replaced by five. -/
abbrev product26 (h r : Limbs) : Limbs := h.product 5 r

abbrev carried26 (d : Limbs) : Limbs := d.carried (2 ^ 26) 5

/-- What limbs are like after a pass of carries: in 26 bits, but for a little room in the second. -/
abbrev Carried26 (l : Limbs) : Prop := l.Carried (2 ^ 26) 64

structure Clamped (r : Limbs) : Prop where
  l0_lt : r.l0 < 2 ^ 26
  l1_lt : r.l1 < 2 ^ 26
  l2_lt : r.l2 < 2 ^ 26
  l3_lt : r.l3 < 2 ^ 26
  l4_lt : r.l4 < 2 ^ 20

lemma P_add_five : P + 5 = (2 ^ 26) ^ 5 := rfl

lemma value26_eq (l : Limbs) : value26 l =
    l.l0 + 2 ^ 26 * l.l1 + 2 ^ 52 * l.l2 + 2 ^ 78 * l.l3 + 2 ^ 104 * l.l4 := by
  rw [value26, Limbs.value, ← pow_mul, ← pow_mul, ← pow_mul]

theorem product26_value (h r : Limbs) : value26 (product26 h r) ≡ value26 h * value26 r [MOD P] :=
  Limbs.product_value P_add_five h r

theorem carried26_value (d : Limbs) : value26 (carried26 d) ≡ value26 d [MOD P] :=
  Limbs.carried_value P_add_five d

lemma product26_le {h r : Limbs} {a b : ℕ} (hh : h.Le a) (hr : r.Le b) :
    (product26 h r).Le (25 * (a * b)) ∧ (product26 h r).l4 ≤ h.l0 * r.l4 + 4 * (a * b) := by
  obtain ⟨hle, hlast⟩ := Limbs.product_le (f := 5) hh hr
  exact ⟨hle.mono (by omega), hlast⟩

namespace Limbs32

open Packed (ofBytes toBytes leAt_eq)
open Words (fits complement wrappingSub)

def MASK26 : ℕ := 0x3ffffff

structure State where
  r : Limbs
  h : Limbs
  s : ℕ × ℕ × ℕ × ℕ
deriving DecidableEq

def new (key : Vector UInt8 32) : State :=
  let key := key.toList
  let r : Limbs :=
    ⟨le32 key 0 &&& 0x3ffffff,
      (le32 key 3 >>> 2) &&& 0x3ffff03,
      (le32 key 6 >>> 4) &&& 0x3ffc0ff,
      (le32 key 9 >>> 6) &&& 0x3f03fff,
      (le32 key 12 >>> 8) &&& 0x00fffff⟩
  ⟨r, ⟨0, 0, 0, 0, 0⟩, (le32 key 16, le32 key 20, le32 key 24, le32 key 28)⟩

/-- The carries of `block`, from the sums of products to the new limbs. -/
def carryPass (d : Limbs) : Option Limbs := do
  let ⟨d0, d1, d2, d3, d4⟩ := d
  let c ← fits 32 (d0 >>> 26)
  let h0 := (d0 % 2 ^ 32) &&& MASK26
  let d1 ← fits 64 (d1 + c)
  let c ← fits 32 (d1 >>> 26)
  let h1 := (d1 % 2 ^ 32) &&& MASK26
  let d2 ← fits 64 (d2 + c)
  let c ← fits 32 (d2 >>> 26)
  let h2 := (d2 % 2 ^ 32) &&& MASK26
  let d3 ← fits 64 (d3 + c)
  let c ← fits 32 (d3 >>> 26)
  let h3 := (d3 % 2 ^ 32) &&& MASK26
  let d4 ← fits 64 (d4 + c)
  let c ← fits 32 (d4 >>> 26)
  let h4 := (d4 % 2 ^ 32) &&& MASK26
  let h0 ← fits 32 (h0 + c * 5)
  let c := h0 >>> 26
  let h0 := h0 &&& MASK26
  let h1 ← fits 32 (h1 + c)
  some ⟨h0, h1, h2, h3, h4⟩

def block (st : State) (b : Block) : Option State := do
  let m := b.1.toList
  let hb := b.2.toNat <<< 24
  let h0 ← fits 32 (st.h.l0 + (le32 m 0 &&& MASK26))
  let h1 ← fits 32 (st.h.l1 + ((le32 m 3 >>> 2) &&& MASK26))
  let h2 ← fits 32 (st.h.l2 + ((le32 m 6 >>> 4) &&& MASK26))
  let h3 ← fits 32 (st.h.l3 + ((le32 m 9 >>> 6) &&& MASK26))
  let h4 ← fits 32 (st.h.l4 + (le32 m 12 >>> 8 ||| hb))
  let d ← Limbs.productIn 32 64 5 ⟨h0, h1, h2, h3, h4⟩ st.r
  let h ← carryPass d
  some { st with h := h }

def blocks (st : State) (bs : List Block) : Option State := bs.foldlM block st

/-- The limbs of `h` with every carry brought on: the first part of `finish`. -/
def carry (h : Limbs) : Option Limbs := do
  let ⟨h0, h1, h2, h3, h4⟩ := h
  let c := h1 >>> 26
  let h1 := h1 &&& MASK26
  let h2 ← fits 32 (h2 + c)
  let c := h2 >>> 26
  let h2 := h2 &&& MASK26
  let h3 ← fits 32 (h3 + c)
  let c := h3 >>> 26
  let h3 := h3 &&& MASK26
  let h4 ← fits 32 (h4 + c)
  let c := h4 >>> 26
  let h4 := h4 &&& MASK26
  let h0 ← fits 32 (h0 + c * 5)
  let c := h0 >>> 26
  let h0 := h0 &&& MASK26
  let h1 ← fits 32 (h1 + c)
  let c := h1 >>> 26
  let h1 := h1 &&& MASK26
  let h2 ← fits 32 (h2 + c)
  some ⟨h0, h1, h2, h3, h4⟩

def wrappingAdd (a b : ℕ) : ℕ := (a + b) % 2 ^ 32

/-- The limbs of `h` less the prime if that is not below zero, else of `h`: the second part. -/
def select (h : Limbs) : Limbs :=
  let ⟨h0, h1, h2, h3, h4⟩ := h
  let g0 := wrappingAdd h0 5
  let c := g0 >>> 26
  let g0 := g0 &&& MASK26
  let g1 := wrappingAdd h1 c
  let c := g1 >>> 26
  let g1 := g1 &&& MASK26
  let g2 := wrappingAdd h2 c
  let c := g2 >>> 26
  let g2 := g2 &&& MASK26
  let g3 := wrappingAdd h3 c
  let c := g3 >>> 26
  let g3 := g3 &&& MASK26
  let g4 := wrappingSub 32 (wrappingAdd h4 c) (1 <<< 26)
  let sel := wrappingSub 32 (g4 >>> 31) 1
  let nsel := complement 32 sel
  ⟨(h0 &&& nsel) ||| (g0 &&& sel), (h1 &&& nsel) ||| (g1 &&& sel), (h2 &&& nsel) ||| (g2 &&& sel),
    (h3 &&& nsel) ||| (g3 &&& sel), (h4 &&& nsel) ||| (g4 &&& sel)⟩

/-- `u32 << k` -/
def shl32 (a k : ℕ) : ℕ := (a <<< k) % 2 ^ 32

/-- The tag of limbs: the last part of `finish`. -/
def addPad (h : Limbs) (s : ℕ × ℕ × ℕ × ℕ) : Option (List UInt8) := do
  let ⟨h0, h1, h2, h3, h4⟩ := h
  let (s0, s1, s2, s3) := s
  let w0 := h0 ||| shl32 h1 26
  let w1 := h1 >>> 6 ||| shl32 h2 20
  let w2 := h2 >>> 12 ||| shl32 h3 14
  let w3 := h3 >>> 18 ||| shl32 h4 8
  let f ← fits 64 (w0 + s0)
  let t0 := f % 2 ^ 32
  let f ← fits 64 (w1 + s1 + f >>> 32)
  let t1 := f % 2 ^ 32
  let f ← fits 64 (w2 + s2 + f >>> 32)
  let t2 := f % 2 ^ 32
  let f ← fits 64 (w3 + s3 + f >>> 32)
  let t3 := f % 2 ^ 32
  some (toBytes 4 t0 ++ toBytes 4 t1 ++ toBytes 4 t2 ++ toBytes 4 t3)

def finish (st : State) : Option (List UInt8) := do
  let h ← carry st.h
  addPad (select h) st.s

/-- The number that the second half of the key stands for. -/
def State.pad (st : State) : ℕ :=
  st.s.1 + 2 ^ 32 * st.s.2.1 + 2 ^ 64 * st.s.2.2.1 + 2 ^ 96 * st.s.2.2.2

structure Inv (st : State) : Prop where
  r : Clamped st.r
  h : Carried26 st.h
  s0_lt : st.s.1 < 2 ^ 32
  s1_lt : st.s.2.1 < 2 ^ 32
  s2_lt : st.s.2.2.1 < 2 ^ 32
  s3_lt : st.s.2.2.2 < 2 ^ 32

variable {st : State}

lemma and_mask (n : ℕ) : n &&& MASK26 = n % 2 ^ 26 := Words.and_ones n 26

lemma mod_mod (n : ℕ) : n % 2 ^ 32 % 2 ^ 26 = n % 2 ^ 26 := by omega

/-! ## A block -/

def blockLimbs (b : Block) : Limbs :=
  let m := b.1.toList
  ⟨le32 m 0 &&& MASK26, (le32 m 3 >>> 2) &&& MASK26, (le32 m 6 >>> 4) &&& MASK26,
    (le32 m 9 >>> 6) &&& MASK26, le32 m 12 >>> 8 ||| b.2.toNat <<< 24⟩

lemma blockLimbs_spec (b : Block) :
    value26 (blockLimbs b) = b.value ∧ (blockLimbs b).l0 < 2 ^ 26 ∧ (blockLimbs b).l1 < 2 ^ 26 ∧
      (blockLimbs b).l2 < 2 ^ 26 ∧ (blockLimbs b).l3 < 2 ^ 26 ∧ (blockLimbs b).l4 < 2 ^ 25 := by
  have hlt := Packed.ofBytes_lt b.1.toList
  rw [Vector.length_toList] at hlt
  have hbit := b.2.toNat_le
  have htop : (blockLimbs b).l4 = ofBytes b.1.toList / 2 ^ 104 + b.2.toNat * 2 ^ 24 := by
    have h : le32 b.1.toList 12 >>> 8 = ofBytes b.1.toList / 2 ^ 104 := by
      rw [le32, leAt_eq, Nat.shiftRight_eq_div_pow]
      omega
    have hsmall : ofBytes b.1.toList / 2 ^ 104 < 2 ^ 24 := by omega
    show le32 b.1.toList 12 >>> 8 ||| b.2.toNat <<< 24 = _
    rw [h, Words.or_shift hsmall]
  have hlimb : ∀ i k, (le32 b.1.toList i >>> k) &&& MASK26 =
      ofBytes b.1.toList / 256 ^ i % 256 ^ 4 / 2 ^ k % 2 ^ 26 := by
    intro i k
    rw [and_mask, le32, leAt_eq, Nat.shiftRight_eq_div_pow]
  have h0 : (blockLimbs b).l0 = ofBytes b.1.toList % 2 ^ 26 := (hlimb 0 0).trans (by omega)
  have h1 : (blockLimbs b).l1 = ofBytes b.1.toList / 2 ^ 26 % 2 ^ 26 := (hlimb 3 2).trans (by omega)
  have h2 : (blockLimbs b).l2 = ofBytes b.1.toList / 2 ^ 52 % 2 ^ 26 := (hlimb 6 4).trans (by omega)
  have h3 : (blockLimbs b).l3 = ofBytes b.1.toList / 2 ^ 78 % 2 ^ 26 := (hlimb 9 6).trans (by omega)
  have hvalue : b.value = ofBytes b.1.toList + 2 ^ 128 * b.2.toNat := by
    rw [Block.value]
    cases b.2 <;> rfl
  rw [value26_eq, h0, h1, h2, h3, htop, hvalue]
  refine ⟨?_, ?_, ?_, ?_, ?_, ?_⟩ <;> omega

def added (h : Limbs) (b : Block) : Limbs :=
  ⟨h.l0 + (blockLimbs b).l0, h.l1 + (blockLimbs b).l1, h.l2 + (blockLimbs b).l2,
    h.l3 + (blockLimbs b).l3, h.l4 + (blockLimbs b).l4⟩

lemma added_value (h : Limbs) (b : Block) : value26 (added h b) = value26 h + b.value := by
  rw [← (blockLimbs_spec b).1]
  simp only [value26_eq, added]
  ring

/-- What a block can be added to: carried limbs, or those of a converted number. -/
structure Ready (h : Limbs) : Prop where
  l0_lt : h.l0 < 2 ^ 26
  l1_lt : h.l1 < 2 ^ 26 + 64
  l2_lt : h.l2 < 2 ^ 26
  l3_lt : h.l3 < 2 ^ 26
  l4_lt : h.l4 < 2 ^ 27

lemma carryPass_eq {d : Limbs} (h0 : d.l0 < 126 * 2 ^ 51) (h1 : d.l1 < 126 * 2 ^ 51)
    (h2 : d.l2 < 126 * 2 ^ 51) (h3 : d.l3 < 126 * 2 ^ 51) (h4 : d.l4 < 21 * 2 ^ 51) :
    carryPass d = some (carried26 d) ∧ Carried26 (carried26 d) := by
  obtain ⟨d0, d1, d2, d3, d4⟩ := d
  dsimp only at h0 h1 h2 h3 h4
  -- the limbs on the way up
  obtain ⟨e1, he1⟩ : ∃ e1, e1 = d1 + d0 / 2 ^ 26 := ⟨_, rfl⟩
  obtain ⟨e2, he2⟩ : ∃ e2, e2 = d2 + e1 / 2 ^ 26 := ⟨_, rfl⟩
  obtain ⟨e3, he3⟩ : ∃ e3, e3 = d3 + e2 / 2 ^ 26 := ⟨_, rfl⟩
  obtain ⟨e4, he4⟩ : ∃ e4, e4 = d4 + e3 / 2 ^ 26 := ⟨_, rfl⟩
  have hraised : (Limbs.mk d0 d1 d2 d3 d4).raised (2 ^ 26) = ⟨d0, e1, e2, e3, e4⟩ := by
    rw [he4, he3, he2, he1]
    rfl
  have hcarried : carried26 ⟨d0, d1, d2, d3, d4⟩ =
      ⟨(d0 % 2 ^ 26 + 5 * (e4 / 2 ^ 26)) % 2 ^ 26,
        e1 % 2 ^ 26 + (d0 % 2 ^ 26 + 5 * (e4 / 2 ^ 26)) / 2 ^ 26,
        e2 % 2 ^ 26, e3 % 2 ^ 26, e4 % 2 ^ 26⟩ := by
    rw [carried26, Limbs.carried, hraised]
  refine ⟨?_, Limbs.carried_lt (by decide) (by rw [hraised]; dsimp only; omega)⟩
  rw [hcarried]
  simp only [carryPass, and_mask, mod_mod, Nat.shiftRight_eq_div_pow]
  rw [Words.fits_bind (by omega), ← he1, Words.fits_bind (by omega), Words.fits_bind (by omega),
    ← he2, Words.fits_bind (by omega), Words.fits_bind (by omega), ← he3,
    Words.fits_bind (by omega), Words.fits_bind (by omega), ← he4, Words.fits_bind (by omega),
    Words.fits_bind (by omega), mul_comm _ 5, Words.fits_bind (by omega),
    Words.fits_bind (by omega)]

lemma block_eq {r h : Limbs} (hr : Clamped r) (hh : Ready h) (s : ℕ × ℕ × ℕ × ℕ) (b : Block) :
    block ⟨r, h, s⟩ b = some ⟨r, carried26 (product26 (added h b) r), s⟩ ∧
      Carried26 (carried26 (product26 (added h b) r)) := by
  obtain ⟨-, hm0, hm1, hm2, hm3, hm4⟩ := blockLimbs_spec b
  obtain ⟨hh0, hh1, hh2, hh3, hh4⟩ := hh
  -- the greatest limb is the last one of a converted number with a block added
  have hadded : (added h b).Le (5 * 2 ^ 25) := by
    constructor <;> simp only [added] <;> omega
  have hmul : r.Le (2 ^ 26) :=
    ⟨hr.l0_lt.le, hr.l1_lt.le, hr.l2_lt.le, hr.l3_lt.le, hr.l4_lt.le.trans (by decide)⟩
  obtain ⟨hproduct, hd4⟩ := product26_le hadded hmul
  have hin : Limbs.productIn 32 64 5 (added h b) r = some (product26 (added h b) r) :=
    Limbs.productIn_eq (fun x hx => by omega) hmul hproduct (by decide)
  obtain ⟨hd0, hd1, hd2, hd3, -⟩ := hproduct
  obtain ⟨ha0, ha1, ha2, ha3, ha4⟩ := hadded
  have hlast : (added h b).l0 * r.l4 ≤ 5 * 2 ^ 25 * 2 ^ 20 := Nat.mul_le_mul ha0 hr.l4_lt.le
  have hd4' : (product26 (added h b) r).l4 < 21 * 2 ^ 51 := by omega
  obtain ⟨hpass, hcarried⟩ := carryPass_eq (hd0.trans_lt (by decide)) (hd1.trans_lt (by decide))
    (hd2.trans_lt (by decide)) (hd3.trans_lt (by decide)) hd4'
  have h32 : 5 * 2 ^ 25 < 2 ^ 32 := by decide
  refine ⟨?_, hcarried⟩
  -- the sums with the block, the sums of products, and the carries
  refine (Words.fits_bind (ha0.trans_lt h32) _).trans ?_
  refine (Words.fits_bind (ha1.trans_lt h32) _).trans ?_
  refine (Words.fits_bind (ha2.trans_lt h32) _).trans ?_
  refine (Words.fits_bind (ha3.trans_lt h32) _).trans ?_
  refine (Words.fits_bind (ha4.trans_lt h32) _).trans ?_
  refine (congrArg (· >>= fun d => carryPass d >>= fun h => some (State.mk r h s)) hin).trans ?_
  exact congrArg (· >>= fun h => some (State.mk r h s)) hpass

theorem block_spec {r h : Limbs} (hr : Clamped r) (hh : Ready h) (s : ℕ × ℕ × ℕ × ℕ) (b : Block) :
    ∃ h', block ⟨r, h, s⟩ b = some ⟨r, h', s⟩ ∧ Carried26 h' ∧
      value26 h' ≡ (value26 h + b.value) * value26 r [MOD P] := by
  obtain ⟨hblock, hcarried⟩ := block_eq hr hh s b
  refine ⟨_, hblock, hcarried, ?_⟩
  rw [← added_value]
  exact (carried26_value _).trans (product26_value _ _)

lemma ready_of_carried {h : Limbs} (hh : Carried26 h) : Ready h :=
  ⟨hh.l0_lt, hh.l1_lt, hh.l2_lt, hh.l3_lt, hh.l4_lt.trans (by decide)⟩

/-! ## The first state -/

lemma le32_lt (bytes : List UInt8) (i : ℕ) : le32 bytes i < 2 ^ 32 := by
  rw [le32, leAt_eq]
  exact Nat.mod_lt _ (by decide)

lemma and_of_lt {m : ℕ} (h : m < 2 ^ 26) (n : ℕ) : n &&& m = n % 2 ^ 26 &&& m := by
  rw [← Nat.mod_eq_of_lt (Nat.and_lt_two_pow n h), Nat.and_mod_two_pow, Nat.mod_eq_of_lt h]

lemma clamp_split (n : ℕ) : n &&& CLAMP =
    (n % 2 ^ 26 &&& 0x3ffffff) + 2 ^ 26 * (n / 2 ^ 26 % 2 ^ 26 &&& 0x3ffff03) +
      2 ^ 52 * (n / 2 ^ 52 % 2 ^ 26 &&& 0x3ffc0ff) + 2 ^ 78 * (n / 2 ^ 78 % 2 ^ 26 &&& 0x3f03fff) +
      2 ^ 104 * (n / 2 ^ 104 &&& 0x00fffff) := by
  have h0 := Words.and_split n CLAMP 26
  have h1 := Words.and_split (n / 2 ^ 26) (CLAMP / 2 ^ 26) 26
  have h2 := Words.and_split (n / 2 ^ 52) (CLAMP / 2 ^ 52) 26
  have h3 := Words.and_split (n / 2 ^ 78) (CLAMP / 2 ^ 78) 26
  simp only [Nat.div_div_eq_div_mul, ← Nat.pow_add, Nat.reduceAdd] at h1 h2 h3
  have hc0 : CLAMP % 2 ^ 26 = 0x3ffffff := rfl
  have hc1 : CLAMP / 2 ^ 26 % 2 ^ 26 = 0x3ffff03 := rfl
  have hc2 : CLAMP / 2 ^ 52 % 2 ^ 26 = 0x3ffc0ff := rfl
  have hc3 : CLAMP / 2 ^ 78 % 2 ^ 26 = 0x3f03fff := rfl
  have hc4 : CLAMP / 2 ^ 104 = 0x00fffff := rfl
  rw [hc0] at h0
  rw [hc1] at h1
  rw [hc2] at h2
  rw [hc3, hc4] at h3
  omega

theorem new_spec (key : Vector UInt8 32) :
    Inv (new key) ∧ value26 (new key).r = r key ∧ value26 (new key).h = 0 ∧
      (new key).pad = s key := by
  have hlt := Packed.ofBytes_lt key.toList
  rw [Vector.length_toList] at hlt
  have hlimb : ∀ i k, le32 key.toList i >>> k = ofBytes key.toList / 256 ^ i % 256 ^ 4 / 2 ^ k := by
    intro i k
    rw [le32, leAt_eq, Nat.shiftRight_eq_div_pow]
  have hr : value26 (new key).r = r key := by
    obtain ⟨K, hK⟩ : ∃ K, K = ofBytes (key.toList.take 16) := ⟨_, rfl⟩
    have hKlt : K < 2 ^ 128 := by
      rw [hK, Packed.ofBytes_take]
      exact Nat.mod_lt _ (by decide)
    rw [Packed.ofBytes_take] at hK
    have h0 : le32 key.toList 0 &&& 0x3ffffff = K % 2 ^ 26 &&& 0x3ffffff := by
      rw [and_of_lt (by decide), le32, leAt_eq]
      congr 1
      omega
    have h1 : le32 key.toList 3 >>> 2 &&& 0x3ffff03 = K / 2 ^ 26 % 2 ^ 26 &&& 0x3ffff03 := by
      rw [and_of_lt (by decide), hlimb]
      congr 1
      omega
    have h2 : le32 key.toList 6 >>> 4 &&& 0x3ffc0ff = K / 2 ^ 52 % 2 ^ 26 &&& 0x3ffc0ff := by
      rw [and_of_lt (by decide), hlimb]
      congr 1
      omega
    have h3 : le32 key.toList 9 >>> 6 &&& 0x3f03fff = K / 2 ^ 78 % 2 ^ 26 &&& 0x3f03fff := by
      rw [and_of_lt (by decide), hlimb]
      congr 1
      omega
    have h4 : le32 key.toList 12 >>> 8 &&& 0x00fffff = K / 2 ^ 104 &&& 0x00fffff := by
      rw [hlimb]
      congr 1
      omega
    rw [r, Packed.ofBytes_take, ← hK, clamp_split K, ← h0, ← h1, ← h2, ← h3, ← h4]
    rfl
  have hs : (new key).pad = s key := by
    show le32 key.toList 16 + 2 ^ 32 * le32 key.toList 20 + 2 ^ 64 * le32 key.toList 24 +
      2 ^ 96 * le32 key.toList 28 = _
    simp only [s, le32, leAt_eq, Packed.ofBytes_drop]
    omega
  have hzero : Carried26 ⟨0, 0, 0, 0, 0⟩ :=
    ⟨by decide, by decide, by decide, by decide, by decide⟩
  refine ⟨⟨⟨?_, ?_, ?_, ?_, ?_⟩, hzero, le32_lt _ _, le32_lt _ _, le32_lt _ _, le32_lt _ _⟩, hr,
    rfl, hs⟩ <;> exact Nat.and_lt_two_pow _ (by decide)

/-! ## The tag -/

/-- With every carry brought on, the limbs are in 26 bits. -/
structure Full (h : Limbs) : Prop where
  l0_lt : h.l0 < 2 ^ 26
  l1_lt : h.l1 < 2 ^ 26
  l2_lt : h.l2 < 2 ^ 26
  l3_lt : h.l3 < 2 ^ 26
  l4_lt : h.l4 < 2 ^ 26

lemma carry_spec {h : Limbs} (hh : Carried26 h) :
    ∃ h', carry h = some h' ∧ Full h' ∧ value26 h' ≡ value26 h [MOD P] := by
  obtain ⟨h0, h1, h2, h3, h4⟩ := h
  obtain ⟨hh0, hh1, hh2, hh3, hh4⟩ := hh
  dsimp only at hh0 hh1 hh2 hh3 hh4
  -- the limbs on the way up from the second
  obtain ⟨e2, he2⟩ : ∃ e2, e2 = h2 + h1 / 2 ^ 26 := ⟨_, rfl⟩
  obtain ⟨e3, he3⟩ : ∃ e3, e3 = h3 + e2 / 2 ^ 26 := ⟨_, rfl⟩
  obtain ⟨e4, he4⟩ : ∃ e4, e4 = h4 + e3 / 2 ^ 26 := ⟨_, rfl⟩
  obtain ⟨f0, hf0⟩ : ∃ f0, f0 = h0 + e4 / 2 ^ 26 * 5 := ⟨_, rfl⟩
  obtain ⟨f1, hf1⟩ : ∃ f1, f1 = h1 % 2 ^ 26 + f0 / 2 ^ 26 := ⟨_, rfl⟩
  obtain ⟨f2, hf2⟩ : ∃ f2, f2 = e2 % 2 ^ 26 + f1 / 2 ^ 26 := ⟨_, rfl⟩
  have hP : P = 2 ^ 130 - 5 := rfl
  refine ⟨⟨f0 % 2 ^ 26, f1 % 2 ^ 26, f2, e3 % 2 ^ 26, e4 % 2 ^ 26⟩, ?_, ?_, ?_⟩
  · simp only [carry, and_mask, Nat.shiftRight_eq_div_pow]
    rw [← he2, Words.fits_bind (by omega), ← he3, Words.fits_bind (by omega), ← he4,
      Words.fits_bind (by omega), ← hf0, Words.fits_bind (by omega), ← hf1,
      Words.fits_bind (by omega), ← hf2, Words.fits_bind (by omega)]
  · -- a carry out of the last limb leaves nothing in the third
    have hf2 : f2 < 2 ^ 26 := by
      by_cases hc : e4 / 2 ^ 26 = 0
      · omega
      · have he3 : 2 ^ 26 ≤ e3 := by omega
        have he2 : e2 = 2 ^ 26 := by omega
        omega
    constructor <;> dsimp only <;> omega
  · have hvalue : value26 ⟨h0, h1, h2, h3, h4⟩ =
        value26 ⟨f0 % 2 ^ 26, f1 % 2 ^ 26, f2, e3 % 2 ^ 26, e4 % 2 ^ 26⟩ +
          P * (e4 / 2 ^ 26) := by
      simp only [value26_eq]
      rw [hP]
      omega
    rw [hvalue]
    exact (Nat.modEq_iff_dvd' (Nat.le_add_right _ _)).2 (by simp)

lemma select_spec {h : Limbs} (hh : Full h) : Full (select h) ∧
    value26 (select h) % 2 ^ 128 = value26 h % P % 2 ^ 128 := by
  obtain ⟨h0, h1, h2, h3, h4⟩ := h
  obtain ⟨hh0, hh1, hh2, hh3, hh4⟩ := hh
  dsimp only at hh0 hh1 hh2 hh3 hh4
  obtain ⟨g0, hg0⟩ : ∃ g0, g0 = h0 + 5 := ⟨_, rfl⟩
  obtain ⟨g1, hg1⟩ : ∃ g1, g1 = h1 + g0 / 2 ^ 26 := ⟨_, rfl⟩
  obtain ⟨g2, hg2⟩ : ∃ g2, g2 = h2 + g1 / 2 ^ 26 := ⟨_, rfl⟩
  obtain ⟨g3, hg3⟩ : ∃ g3, g3 = h3 + g2 / 2 ^ 26 := ⟨_, rfl⟩
  obtain ⟨g4, hg4⟩ : ∃ g4, g4 = h4 + g3 / 2 ^ 26 := ⟨_, rfl⟩
  have hP : P = 2 ^ 130 - 5 := rfl
  have hmod : ∀ n, n % 2 ^ 26 < 2 ^ 32 := fun n => (Nat.mod_lt n (by decide)).trans (by decide)
  have hg : value26 ⟨g0 % 2 ^ 26, g1 % 2 ^ 26, g2 % 2 ^ 26, g3 % 2 ^ 26, g4⟩ =
      value26 ⟨h0, h1, h2, h3, h4⟩ + 5 := by
    simp only [value26_eq]
    omega
  simp only [select, wrappingAdd, and_mask, Nat.shiftRight_eq_div_pow]
  rw [← hg0, Nat.mod_eq_of_lt (by omega : g0 < 2 ^ 32), ← hg1,
    Nat.mod_eq_of_lt (by omega : g1 < 2 ^ 32), ← hg2, Nat.mod_eq_of_lt (by omega : g2 < 2 ^ 32),
    ← hg3, Nat.mod_eq_of_lt (by omega : g3 < 2 ^ 32), ← hg4,
    Nat.mod_eq_of_lt (by omega : g4 < 2 ^ 32)]
  have htop : 1 <<< 26 = 2 ^ 26 := rfl
  by_cases hlt : g4 < 2 ^ 26
  · have hsel : wrappingSub 32 (wrappingSub 32 g4 (1 <<< 26) / 2 ^ 31) 1 = 0 := by
      have hg : wrappingSub 32 g4 (1 <<< 26) / 2 ^ 31 = 1 := by
        rw [htop, wrappingSub]
        omega
      rw [hg]
      rfl
    have hh : value26 ⟨h0, h1, h2, h3, h4⟩ % P = value26 ⟨h0, h1, h2, h3, h4⟩ := by
      refine Nat.mod_eq_of_lt ?_
      simp only [value26_eq] at hg ⊢
      omega
    rw [hsel, Words.select_zero (by omega), Words.select_zero (by omega),
      Words.select_zero (by omega), Words.select_zero (by omega), Words.select_zero (by omega), hh]
    exact ⟨⟨hh0, hh1, hh2, hh3, hh4⟩, rfl⟩
  · have hg4' : wrappingSub 32 g4 (1 <<< 26) = g4 - 2 ^ 26 := by
      rw [htop, wrappingSub]
      omega
    have hsel : wrappingSub 32 (wrappingSub 32 g4 (1 <<< 26) / 2 ^ 31) 1 = 2 ^ 32 - 1 := by
      have hg : wrappingSub 32 g4 (1 <<< 26) / 2 ^ 31 = 0 := by
        rw [hg4']
        omega
      rw [hg]
      rfl
    have hh : value26 ⟨h0, h1, h2, h3, h4⟩ % P = value26 ⟨h0, h1, h2, h3, h4⟩ - P := by
      simp only [value26_eq] at hg ⊢
      rw [Nat.mod_eq_sub_mod (by omega)]
      exact Nat.mod_eq_of_lt (by omega)
    rw [hsel, hg4', Words.select_ones _ (hmod g0), Words.select_ones _ (hmod g1),
      Words.select_ones _ (hmod g2), Words.select_ones _ (hmod g3),
      Words.select_ones _ (by omega), hh]
    refine ⟨by constructor <;> dsimp only <;> omega, ?_⟩
    simp only [value26_eq] at hg ⊢
    omega

lemma shl32_eq (a : ℕ) {j k : ℕ} (h : j + k = 32) : shl32 a k = (a % 2 ^ j) <<< k :=
  Words.shiftLeft_mod a h

lemma addPad_spec {h : Limbs} (hh : Full h) {s : ℕ × ℕ × ℕ × ℕ} (h0 : s.1 < 2 ^ 32)
    (h1 : s.2.1 < 2 ^ 32) (h2 : s.2.2.1 < 2 ^ 32) (h3 : s.2.2.2 < 2 ^ 32) :
    addPad h s = some (toBytes 16 ((value26 h % 2 ^ 128 +
      (s.1 + 2 ^ 32 * s.2.1 + 2 ^ 64 * s.2.2.1 + 2 ^ 96 * s.2.2.2)) % 2 ^ 128)) := by
  obtain ⟨l0, l1, l2, l3, l4⟩ := h
  obtain ⟨s0, s1, s2, s3⟩ := s
  obtain ⟨hl0, hl1, hl2, hl3, hl4⟩ := hh
  dsimp only at hl0 hl1 hl2 hl3 hl4 h0 h1 h2 h3
  have hw0 : l0 ||| shl32 l1 26 = l0 + l1 % 2 ^ 6 * 2 ^ 26 := by
    rw [shl32_eq l1 (j := 6) rfl, Words.or_shift hl0]
  have hw1 : l1 >>> 6 ||| shl32 l2 20 = l1 / 2 ^ 6 + l2 % 2 ^ 12 * 2 ^ 20 := by
    rw [shl32_eq l2 (j := 12) rfl, Nat.shiftRight_eq_div_pow, Words.or_shift (by omega)]
  have hw2 : l2 >>> 12 ||| shl32 l3 14 = l2 / 2 ^ 12 + l3 % 2 ^ 18 * 2 ^ 14 := by
    rw [shl32_eq l3 (j := 18) rfl, Nat.shiftRight_eq_div_pow, Words.or_shift (by omega)]
  have hw3 : l3 >>> 18 ||| shl32 l4 8 = l3 / 2 ^ 18 + l4 % 2 ^ 24 * 2 ^ 8 := by
    rw [shl32_eq l4 (j := 24) rfl, Nat.shiftRight_eq_div_pow, Words.or_shift (by omega)]
  obtain ⟨w0, hw0'⟩ : ∃ w0, w0 = l0 + l1 % 2 ^ 6 * 2 ^ 26 := ⟨_, rfl⟩
  obtain ⟨w1, hw1'⟩ : ∃ w1, w1 = l1 / 2 ^ 6 + l2 % 2 ^ 12 * 2 ^ 20 := ⟨_, rfl⟩
  obtain ⟨w2, hw2'⟩ : ∃ w2, w2 = l2 / 2 ^ 12 + l3 % 2 ^ 18 * 2 ^ 14 := ⟨_, rfl⟩
  obtain ⟨w3, hw3'⟩ : ∃ w3, w3 = l3 / 2 ^ 18 + l4 % 2 ^ 24 * 2 ^ 8 := ⟨_, rfl⟩
  -- the limbs in words of 32 bits
  have hwords : value26 ⟨l0, l1, l2, l3, l4⟩ % 2 ^ 128 =
      w0 + 2 ^ 32 * w1 + 2 ^ 64 * w2 + 2 ^ 96 * w3 := by
    simp only [value26_eq]
    omega
  rw [← hw0'] at hw0
  rw [← hw1'] at hw1
  rw [← hw2'] at hw2
  rw [← hw3'] at hw3
  have hlt0 : w0 < 2 ^ 32 := by omega
  have hlt1 : w1 < 2 ^ 32 := by omega
  have hlt2 : w2 < 2 ^ 32 := by omega
  have hlt3 : w3 < 2 ^ 32 := by omega
  clear hw0' hw1' hw2' hw3'
  obtain ⟨f1, hf1⟩ : ∃ f1, f1 = w1 + s1 + (w0 + s0) / 2 ^ 32 := ⟨_, rfl⟩
  obtain ⟨f2, hf2⟩ : ∃ f2, f2 = w2 + s2 + f1 / 2 ^ 32 := ⟨_, rfl⟩
  obtain ⟨f3, hf3⟩ : ∃ f3, f3 = w3 + s3 + f2 / 2 ^ 32 := ⟨_, rfl⟩
  have hsum : (w0 + 2 ^ 32 * w1 + 2 ^ 64 * w2 + 2 ^ 96 * w3 +
      (s0 + 2 ^ 32 * s1 + 2 ^ 64 * s2 + 2 ^ 96 * s3)) % 2 ^ 128 =
      (w0 + s0) % 2 ^ 32 + 256 ^ 4 * (f1 % 2 ^ 32 + 256 ^ 4 * (f2 % 2 ^ 32 +
        256 ^ 4 * (f3 % 2 ^ 32))) := by omega
  have hlow : ∀ n, n % 2 ^ 32 < 256 ^ 4 := fun n => Nat.mod_lt n (by decide)
  rw [hwords, hsum, Packed.toBytes_append (hlow _) 12, Packed.toBytes_append (hlow f1) 8,
    Packed.toBytes_append (hlow f2) 4]
  simp only [addPad, hw0, hw1, hw2, hw3]
  simp only [Nat.shiftRight_eq_div_pow]
  rw [Words.fits_bind (by omega), ← hf1, Words.fits_bind (by omega), ← hf2,
    Words.fits_bind (by omega), ← hf3, Words.fits_bind (by omega), List.append_assoc,
    List.append_assoc]

theorem finish_spec (h : Inv st) :
    finish st = some (toBytes 16 ((value26 st.h % P + st.pad) % 2 ^ 128)) := by
  obtain ⟨h', hcarry, hfull, hvalue⟩ := carry_spec h.h
  obtain ⟨hselect, hmod⟩ := select_spec hfull
  rw [finish, hcarry]
  show addPad (select h') st.s = _
  rw [addPad_spec hselect h.s0_lt h.s1_lt h.s2_lt h.s3_lt, hmod, hvalue, Nat.mod_add_mod]
  rfl

end Limbs32

end Lazaret.Poly1305
