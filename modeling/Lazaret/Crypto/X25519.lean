import Lazaret.Crypto.Chain25519

/-!
# The ladder

The ladder of `x25519.rs`.  `Spec.x25519` is what it is to compute, over any commutative ring: a
rung for each bit of the clamped scalar, on the two points or on the two exchanged.  The code keeps
an exchange waiting until the next bit says whether to undo it (`Waits`), and leaves carries out
wherever a product follows; it has its value on every scalar and coordinate (`ladder_spec`).
-/

namespace Lazaret.X25519

open Words

open Fe25519 (Fe Ops Sound Reduced P el plain checked fromBytes invert)

structure Points (K : Type) where
  x2 : K
  z2 : K
  x3 : K
  z3 : K

def Points.swap {K : Type} (p : Points K) : Points K := ⟨p.x3, p.z3, p.x2, p.z2⟩

/-! ## What is computed -/

namespace Spec

variable {K : Type} [CommRing K]

/-- A rung: twice the first point, and the sum of the two. -/
def rung (x1 : K) (p : Points K) : Points K :=
  let a := p.x2 + p.z2
  let aa := a ^ 2
  let b := p.x2 - p.z2
  let bb := b ^ 2
  let e := aa - bb
  let da := (p.x3 - p.z3) * a
  let cb := (p.x3 + p.z3) * b
  ⟨aa * bb, e * (aa + 121665 * e), (da + cb) ^ 2, x1 * (da - cb) ^ 2⟩

def step (x1 : K) (p : Points K) (bit : Bool) : Points K :=
  if bit then (rung x1 p.swap).swap else rung x1 p

/-- The points after the bits of a scalar, the highest first. -/
def points (x1 : K) (bits : List Bool) : Points K := bits.foldl (step x1) ⟨1, 0, x1, 1⟩

/-- The scalar of 32 bytes: its lowest three bits cleared, bit 254 set and no higher one. -/
def clamped (s : ℕ) : ℕ := 2 ^ 254 + 8 * (s / 8 % 2 ^ 251)

def x25519 (scalar u : ℕ) : ZMod P :=
  let p := points ((u % 2 ^ 255 : ℕ) : ZMod P)
    ((List.range 255).reverse.map (clamped scalar).testBit)
  p.x2 * p.z2 ^ (P - 2)

end Spec

/-! ## The code -/

def cswapLimb (mask a b : ℕ) : ℕ × ℕ :=
  let t := mask &&& (a ^^^ b)
  (a ^^^ t, b ^^^ t)

def cswap (swap : ℕ) (a b : Fe) : Fe × Fe :=
  let mask := Words.wrappingSub 64 0 swap
  let (a0, b0) := cswapLimb mask a.l0 b.l0
  let (a1, b1) := cswapLimb mask a.l1 b.l1
  let (a2, b2) := cswapLimb mask a.l2 b.l2
  let (a3, b3) := cswapLimb mask a.l3 b.l3
  let (a4, b4) := cswapLimb mask a.l4 b.l4
  (⟨a0, a1, a2, a3, a4⟩, ⟨b0, b1, b2, b3, b4⟩)

def clamp (scalar : Vector UInt8 32) : Vector UInt8 32 :=
  let k := scalar.set 0 (scalar[0] &&& 248)
  let k := k.set 31 (k[31] &&& 127)
  k.set 31 (k[31] ||| 64)

/-- `k_t` -/
def bit (k : Vector UInt8 32) (t : ℕ) : ℕ := (k.toList.getD (t / 8) 0).toNat >>> (t % 8) &&& 1

def exchange (swap : ℕ) (p : Points Fe) : Points Fe :=
  let (x2, x3) := cswap swap p.x2 p.x3
  let (z2, z3) := cswap swap p.z2 p.z3
  ⟨x2, z2, x3, z3⟩

def rung (ops : Ops) (x1 : Fe) (p : Points Fe) : Option (Points Fe) := do
  let a ← ops.addLazy p.x2 p.z2
  let aa ← ops.square a
  let b ← ops.subLazy p.x2 p.z2
  let bb ← ops.square b
  let e ← ops.subLazy aa bb
  let c ← ops.addLazy p.x3 p.z3
  let d ← ops.subLazy p.x3 p.z3
  let da ← ops.mul d a
  let cb ← ops.mul c b
  let x3 ← ops.addLazy da cb >>= ops.square
  let z3 ← ops.subLazy da cb >>= ops.square >>= ops.mul x1
  let x2 ← ops.mul aa bb
  let z2 ← ops.mulSmall e 121665 >>= ops.addLazy aa >>= ops.mul e
  some ⟨x2, z2, x3, z3⟩

/-- A step of the loop, on the points and the exchange that waits. -/
def step (ops : Ops) (x1 : Fe) (st : Points Fe × ℕ) (kt : ℕ) : Option (Points Fe × ℕ) := do
  let (p, swap) := st
  let p ← rung ops x1 (exchange (swap ^^^ kt) p)
  some (p, kt)

def ladder (ops : Ops) (scalar u : Vector UInt8 32) : Option (List UInt8) := do
  let k := clamp scalar
  let x1 := fromBytes u
  let (p, swap) ← ((List.range 255).reverse.map (bit k)).foldlM (step ops x1)
    (⟨Fe25519.ONE, Fe25519.ZERO, x1, Fe25519.ONE⟩, 0)
  let p := exchange swap p
  let zi ← invert ops p.z2
  let x ← ops.mul p.x2 zi
  ops.toBytes x

def x25519 (scalar u : Vector UInt8 32) : Option (List UInt8) := ladder plain scalar u

variable {a b : Fe} {p : Points Fe}

/-! ## Scalars -/

lemma ofBytes_clamp (s : Vector UInt8 32) :
    Packed.ofBytes (clamp s).toList = Spec.clamped (Packed.ofBytes s.toList) := by
  obtain ⟨first, mid, last, hmid, hs⟩ : ∃ first mid last, mid.length = 30 ∧
      s.toList = first :: (mid ++ [last]) := by
    have hlen := s.length_toList
    cases hl : s.toList with
    | nil => simp [hl] at hlen
    | cons first rest =>
      rw [hl, List.length_cons] at hlen
      have hrest : rest ≠ [] := by
        rintro rfl
        simp at hlen
      obtain ⟨mid, last, rfl⟩ := (List.eq_nil_or_concat' rest).resolve_left hrest
      rw [List.length_append, List.length_singleton] at hlen
      exact ⟨first, mid, last, by omega, rfl⟩
  have hclamp : (clamp s).toList = (first &&& 248) :: (mid ++ [last &&& 127 ||| 64]) := by
    have h0 : s[0] = first := by
      rw [← Vector.getElem_toList (h := by rw [Vector.length_toList]; decide)]
      simp only [hs, List.getElem_cons_zero]
    have h31 : s[31] = last := by
      rw [← Vector.getElem_toList (h := by rw [Vector.length_toList]; decide)]
      simp only [hs]
      rw [List.getElem_cons_succ, List.getElem_append_right hmid.le]
      simp [hmid]
    have hset : (s.set 0 (first &&& 248))[31] = last := by
      rw [Vector.getElem_set_ne _ _ (by decide), h31]
    simp only [clamp, h0, hset, Vector.getElem_set_self, Vector.toList_set, hs]
    rw [List.set_cons_zero, List.set_cons_succ, List.set_cons_succ,
      List.set_append_right _ _ (by omega), List.set_append_right _ _ (by omega)]
    simp [hmid]
  have hfirst : (first &&& 248).toNat = 8 * (first.toNat / 8) := by
    have hlt := first.toNat_lt
    rw [UInt8.toNat_and, and_split _ _ 3]
    have h31 : first.toNat / 2 ^ 3 &&& (248 : UInt8).toNat / 2 ^ 3 = first.toNat / 2 ^ 3 % 2 ^ 5 :=
      and_ones _ 5
    have h8 : first.toNat % 2 ^ 3 &&& (248 : UInt8).toNat % 2 ^ 3 = 0 := Nat.and_zero _
    rw [h31, h8]
    omega
  have hlast : (last &&& 127 ||| 64).toNat = 64 + last.toNat % 64 := by
    have h127 : last.toNat &&& (127 : UInt8).toNat = last.toNat % 2 ^ 7 := and_ones _ 7
    rw [UInt8.toNat_or, UInt8.toNat_and, h127]
    have hor : last.toNat % 2 ^ 7 ||| (64 : UInt8).toNat = last.toNat % 2 ^ 7 % 2 ^ 6 + 2 ^ 6 :=
      or_two_pow (Nat.mod_lt _ (by decide))
    rw [hor]
    omega
  have hlt := Packed.ofBytes_lt mid
  have := first.toNat_lt
  rw [hclamp, hs, Packed.ofBytes_cons, Packed.ofBytes_cons, Packed.ofBytes_append,
    Packed.ofBytes_append, Packed.ofBytes_cons, Packed.ofBytes_cons, hfirst, hlast, hmid,
    Spec.clamped]
  rw [hmid] at hlt
  have : Packed.ofBytes [] = 0 := rfl
  rw [this]
  generalize Packed.ofBytes mid = m at *
  norm_num only at *
  omega

lemma bit_eq (k : Vector UInt8 32) (t : ℕ) :
    bit k t = ((Packed.ofBytes k.toList).testBit t).toNat := by
  have hpow : 256 ^ (t / 8) = 2 ^ (8 * (t / 8)) := by rw [Nat.pow_mul]
  have ht : t % 8 + 8 * (t / 8) = t := by omega
  have hbyte : (k.toList.getD (t / 8) 0).toNat.testBit (t % 8) =
      (Packed.ofBytes k.toList).testBit t := by
    have hlt : t % 8 < 8 := Nat.mod_lt t (by decide)
    rw [Packed.toNat_getD, hpow, show 256 = 2 ^ 8 from rfl, Nat.testBit_mod_two_pow,
      Nat.testBit_div_two_pow, ht, decide_eq_true hlt, Bool.true_and]
  rw [bit, ← hbyte, Nat.toNat_testBit, Nat.and_one_is_mod, Nat.shiftRight_eq_div_pow]

/-! ## Exchanges -/

lemma cswapLimb_zero (a b : ℕ) : cswapLimb 0 a b = (a, b) := by
  simp [cswapLimb]

lemma cswapLimb_ones {a b : ℕ} (ha : a < 2 ^ 64) (hb : b < 2 ^ 64) :
    cswapLimb (2 ^ 64 - 1) a b = (b, a) := by
  have hxor : (2 ^ 64 - 1) &&& (a ^^^ b) = a ^^^ b := by
    rw [Nat.and_comm, and_all (Nat.xor_lt_two_pow ha hb)]
  rw [cswapLimb, hxor, Nat.xor_xor_cancel_left, Nat.xor_comm a b, Nat.xor_xor_cancel_left]

lemma cswap_eq (w : Bool) (ha : a.Lt (2 ^ 64)) (hb : b.Lt (2 ^ 64)) :
    cswap w.toNat a b = if w then (b, a) else (a, b) := by
  rw [cswap, wrappingSub_zero_bit (by decide)]
  cases w with
  | false => simp [cswapLimb_zero]
  | true =>
    simp only [if_true, cswapLimb_ones ha.l0_lt hb.l0_lt, cswapLimb_ones ha.l1_lt hb.l1_lt,
      cswapLimb_ones ha.l2_lt hb.l2_lt, cswapLimb_ones ha.l3_lt hb.l3_lt,
      cswapLimb_ones ha.l4_lt hb.l4_lt]

/-- Points whose every coordinate is like the output of a product. -/
structure Within (p : Points Fe) : Prop where
  x2 : Reduced p.x2
  z2 : Reduced p.z2
  x3 : Reduced p.x3
  z3 : Reduced p.z3

lemma Within.swap (h : Within p) : Within p.swap := ⟨h.x3, h.z3, h.x2, h.z2⟩

def els (p : Points Fe) : Points (ZMod P) := ⟨el p.x2, el p.z2, el p.x3, el p.z3⟩

lemma Within.swap_if (h : Within p) (w : Bool) : Within (if w then p.swap else p) := by
  cases w with
  | false => exact h
  | true => exact h.swap

lemma exchange_eq (w : Bool) (h : Within p) : exchange w.toNat p = if w then p.swap else p := by
  have hlt : ∀ {c : Fe}, Reduced c → c.Lt (2 ^ 64) := fun hc => Limbs.Carried.lt hc (by decide)
  rw [exchange, cswap_eq w (hlt h.x2) (hlt h.x3), cswap_eq w (hlt h.z2) (hlt h.z3)]
  cases w <;> rfl

/-! ## A rung -/

section

variable {ops : Ops} (h : Sound ops)
include h

lemma rung_spec {x1 : Fe} (hx1 : Reduced x1) (hp : Within p) :
    ∃ q, rung ops x1 p = some q ∧ Within q ∧ els q = Spec.rung (el x1) (els p) := by
  have hlt : ∀ {c : Fe}, Reduced c → c.Lt (2 ^ 52) := fun hc => Limbs.Carried.lt hc (by decide)
  have hle : ∀ {c : Fe}, Reduced c → c.Lt (2 ^ 51 + 2 ^ 12) :=
    fun hc => Limbs.Carried.lt hc (le_refl _)
  obtain ⟨a, ha, ha', hav⟩ := h.addLazy (hlt hp.x2) (hlt hp.z2)
  obtain ⟨aa, haa, haa', haav⟩ := h.square ha'
  obtain ⟨b, hb, hb', hbv⟩ := h.subLazy (hlt hp.x2) (hle hp.z2)
  obtain ⟨bb, hbb, hbb', hbbv⟩ := h.square hb'
  obtain ⟨e, he, he', hev⟩ := h.subLazy (hlt haa') (hle hbb')
  obtain ⟨c, hc, hc', hcv⟩ := h.addLazy (hlt hp.x3) (hlt hp.z3)
  obtain ⟨d, hd, hd', hdv⟩ := h.subLazy (hlt hp.x3) (hle hp.z3)
  obtain ⟨da, hda, hda', hdav⟩ := h.mul hd' ha'
  obtain ⟨cb, hcb, hcb', hcbv⟩ := h.mul hc' hb'
  obtain ⟨s, hs, hs', hsv⟩ := h.addLazy (hlt hda') (hlt hcb')
  obtain ⟨x3, hx3, hx3', hx3v⟩ := h.square hs'
  obtain ⟨t, ht, ht', htv⟩ := h.subLazy (hlt hda') (hle hcb')
  obtain ⟨t2, ht2, ht2', ht2v⟩ := h.square ht'
  obtain ⟨z3, hz3, hz3', hz3v⟩ := h.mul hx1.lt ht2'.lt
  obtain ⟨x2, hx2, hx2', hx2v⟩ := h.mul haa'.lt hbb'.lt
  obtain ⟨m, hm, hm', hmv⟩ := h.mulSmall (k := 121665) he' (by decide)
  obtain ⟨n, hn, hn', hnv⟩ := h.addLazy (hlt haa') (hlt hm')
  obtain ⟨z2, hz2, hz2', hz2v⟩ := h.mul he' hn'
  refine ⟨⟨x2, z2, x3, z3⟩, ?_, ⟨hx2', hz2', hx3', hz3'⟩, ?_⟩
  · have hsome : ∀ {α β : Type} (x : α) (f : α → Option β), (some x >>= f) = f x :=
      fun _ _ => rfl
    simp only [rung, ha, haa, hb, hbb, he, hc, hd, hda, hcb, hs, hx3, ht, ht2, hz3, hx2, hm, hn,
      hz2, hsome]
  · simp only [els, Spec.rung, hx2v, hz2v, hx3v, hz3v, hnv, hmv, ht2v, htv, hsv, hcbv, hdav, hdv,
      hcv, hev, hbbv, hbv, haav, hav, Nat.cast_ofNat]

end

/-! ## The loop -/

/-- The code's points, once the exchange that waits is made. -/
structure Waits (st : Points Fe × ℕ) (q : Points (ZMod P)) : Prop where
  within : Within st.1
  waits : ∃ w : Bool, st.2 = w.toNat ∧ els (if w then st.1.swap else st.1) = q

section

variable {ops : Ops} (h : Sound ops)
include h

lemma step_spec {x1 : Fe} (hx1 : Reduced x1) {st : Points Fe × ℕ} {q : Points (ZMod P)}
    (hst : Waits st q) (kt : Bool) :
    ∃ st', step ops x1 st kt.toNat = some st' ∧ Waits st' (Spec.step (el x1) q kt) := by
  obtain ⟨p, swap⟩ := st
  obtain ⟨hp, w, rfl, rfl⟩ := hst
  dsimp only at hp
  have hxor : w.toNat ^^^ kt.toNat = (w ^^ kt).toNat := by
    cases w <;> cases kt <;> rfl
  have hexchange := exchange_eq (w ^^ kt) hp
  have hwithin : Within (exchange (w ^^ kt).toNat p) := hexchange ▸ hp.swap_if _
  obtain ⟨r, hr, hwithin', hvalue⟩ := rung_spec h hx1 hwithin
  refine ⟨(r, kt.toNat), ?_, hwithin', kt, rfl, ?_⟩
  · rw [step, hxor, hr]
    rfl
  · rw [hexchange] at hvalue
    cases w <;> cases kt
    · exact hvalue
    · exact congrArg Points.swap hvalue
    · exact hvalue
    · exact congrArg Points.swap hvalue

lemma steps_spec {x1 : Fe} (hx1 : Reduced x1) (bits : List Bool) {st : Points Fe × ℕ}
    {q : Points (ZMod P)} (hst : Waits st q) :
    ∃ st', (bits.map Bool.toNat).foldlM (step ops x1) st = some st' ∧
      Waits st' (bits.foldl (Spec.step (el x1)) q) := by
  induction bits generalizing st q with
  | nil => exact ⟨st, rfl, hst⟩
  | cons b bits ih =>
    obtain ⟨st', hst', hwaits⟩ := step_spec h hx1 hst b
    obtain ⟨st'', hst'', hwaits'⟩ := ih hwaits
    refine ⟨st'', ?_, hwaits'⟩
    rw [List.map_cons, List.foldlM_cons, hst']
    exact hst''

theorem ladder_spec (scalar u : Vector UInt8 32) : ladder ops scalar u = some (Packed.toBytes 32
    (Spec.x25519 (Packed.ofBytes scalar.toList) (Packed.ofBytes u.toList)).val) := by
  obtain ⟨hx1, hx1v⟩ := Fe25519.fromBytes_spec u
  have hx1 : Reduced (fromBytes u) :=
    ⟨hx1.l0_lt, hx1.l1_lt.trans (by decide), hx1.l2_lt, hx1.l3_lt, hx1.l4_lt⟩
  have hone : Reduced Fe25519.ONE := by constructor <;> decide
  have hzero : Reduced Fe25519.ZERO := by constructor <;> decide
  have hbits : (List.range 255).reverse.map (bit (clamp scalar)) =
      ((List.range 255).reverse.map
        (Spec.clamped (Packed.ofBytes scalar.toList)).testBit).map Bool.toNat := by
    rw [List.map_map, ← ofBytes_clamp]
    exact List.map_congr_left fun t _ => bit_eq _ t
  have hstart : Waits (⟨Fe25519.ONE, Fe25519.ZERO, fromBytes u, Fe25519.ONE⟩, 0)
      ⟨1, 0, el (fromBytes u), 1⟩ := by
    refine ⟨⟨hone, hzero, hx1, hone⟩, false, rfl, ?_⟩
    have h1 : el Fe25519.ONE = 1 := Nat.cast_one
    have h0 : el Fe25519.ZERO = 0 := Nat.cast_zero
    simp only [els, h1, h0, Bool.false_eq_true, if_false]
  obtain ⟨⟨p, swap⟩, hst, hp, w, rfl, hvalue⟩ := steps_spec h hx1
    ((List.range 255).reverse.map (Spec.clamped (Packed.ofBytes scalar.toList)).testBit) hstart
  dsimp only at hp hvalue
  have hexchange := exchange_eq w hp
  have hwithin : Within (exchange w.toNat p) := hexchange ▸ hp.swap_if w
  rw [← hexchange] at hvalue
  obtain ⟨zi, hzi, hzi', hziv⟩ := Fe25519.invert_spec h hwithin.z2.lt
  obtain ⟨x, hx, hx', hxv⟩ := h.mul hwithin.x2.lt hzi'.lt
  have hel : el x = Spec.x25519 (Packed.ofBytes scalar.toList) (Packed.ofBytes u.toList) := by
    have hx1e : el (fromBytes u) = ((Packed.ofBytes u.toList % 2 ^ 255 : ℕ) : ZMod P) :=
      congrArg _ hx1v
    rw [hxv, hziv, Spec.x25519, ← hx1e, Spec.points, ← hvalue, els]
  have hbytes := h.toBytes hx'.lt
  rw [hel] at hbytes
  have hsome : ∀ {α β : Type} (x : α) (f : α → Option β), (some x >>= f) = f x :=
    fun _ _ => rfl
  simp only [ladder, hbits, hst, hsome, hzi, hx, hbytes]

end

/-! ## All of it -/

open Fe25519 (val add sub addLazy subLazy mul square mulSmall toBytes WithinTwoP)

/-- A right operand below `2^52` may be too large for a difference. -/
theorem sub_underflows :
    ¬ ∀ a b : Fe, a.Lt (2 ^ 52) → b.Lt (2 ^ 52) → (sub a b).isSome := by
  intro h
  exact absurd (h Fe25519.ZERO ⟨2 ^ 52 - 1, 0, 0, 0, 0⟩ (by decide) (by decide)) (by decide)

/-- Within its bounds no operation overflows and every one is right, and a ladder never leaves
them. -/
theorem arithmetic :
    (∀ a b : Fe, a.Lt (2 ^ 53) → b.Lt (2 ^ 53) →
      ∃ c, mul a b = some c ∧ Reduced c ∧ val c ≡ val a * val b [MOD P]) ∧
    (∀ a : Fe, a.Lt (2 ^ 53) → ∃ c, square a = some c ∧ Reduced c ∧ val c ≡ val a ^ 2 [MOD P]) ∧
    (∀ (a : Fe) (k : ℕ), a.Lt (2 ^ 53) → k ≤ 2 ^ 56 →
      ∃ c, mulSmall a k = some c ∧ Reduced c ∧ val c ≡ k * val a [MOD P]) ∧
    (∀ a b : Fe, a.Lt (2 ^ 52) → b.Lt (2 ^ 52) →
      (∃ c, add a b = some c ∧ Reduced c ∧ val c ≡ val a + val b [MOD P]) ∧
      ∃ c, addLazy a b = some c ∧ c.Lt (2 ^ 53) ∧ val c = val a + val b) ∧
    (∀ a b : Fe, a.Lt (2 ^ 52) → WithinTwoP b →
      ∃ c, sub a b = some c ∧ Reduced c ∧ val c + val b ≡ val a [MOD P]) ∧
    (∀ a b : Fe, a.Lt (2 ^ 52) → b.Lt (2 ^ 51 + 2 ^ 12) →
      ∃ c, subLazy a b = some c ∧ c.Lt (2 ^ 53) ∧ val c + val b ≡ val a [MOD P]) ∧
    (∀ a : Fe, a.Lt (2 ^ 53) →
      ∃ c, invert plain a = some c ∧ Reduced c ∧ val c ≡ val a ^ (P - 2) [MOD P]) ∧
    (∀ a : Fe, a.Lt (2 ^ 53) → ∃ bytes, toBytes a = some bytes ∧ ∀ other : List UInt8,
      other = bytes ↔ other.length = 32 ∧ Packed.ofBytes other < P ∧
        Packed.ofBytes other ≡ val a [MOD P]) ∧
    (∀ s : Vector UInt8 32, s[31] < 128 →
      toBytes (fromBytes s) = some (Packed.toBytes 32 (Packed.ofBytes s.toList % P))) ∧
    ∀ scalar u : Vector UInt8 32,
      ∃ out, x25519 scalar u = some out ∧ ladder checked scalar u = some out := by
  have hlift : ∀ {m n : ℕ}, (m : ZMod P) = n → m ≡ n [MOD P] :=
    fun h => (ZMod.natCast_eq_natCast_iff _ _ _).1 h
  refine ⟨fun a b => Fe25519.mul_spec, fun a ha => ?_, fun a k ha hk => ?_, fun a b ha hb => ⟨?_,
    Fe25519.addLazy_spec ha hb (by decide)⟩, fun a b ha hb => ?_, fun a b ha hb => ?_,
    fun a ha => ?_, fun a ha => ?_, fun s hs => ?_, fun scalar u => ⟨_,
    ladder_spec Fe25519.plain_sound scalar u, ladder_spec Fe25519.checked_sound scalar u⟩⟩
  · rw [pow_two]
    exact Fe25519.square_spec ha
  · obtain ⟨c, hc, hcarried, hvalue⟩ := Fe25519.mulSmall_spec ha hk
    exact ⟨c, hc, hcarried.mono (by decide), hvalue⟩
  · obtain ⟨c, hc, hcarried, hvalue⟩ := Fe25519.add_spec ha hb
    exact ⟨c, hc, hcarried.mono (by decide), hvalue⟩
  · obtain ⟨c, hc, hcarried, hvalue⟩ := Fe25519.sub_spec ha hb
    exact ⟨c, hc, hcarried.mono (by decide), hvalue⟩
  · obtain ⟨c, hc, hlt, hvalue⟩ := Fe25519.subLazy_spec ha (Fe25519.withinTwoP_of_lt hb)
    exact ⟨c, hc, hlt, by rw [hvalue]; exact Nat.add_mul_modulus_modEq_iff.2 rfl⟩
  · obtain ⟨c, hc, hreduced, hvalue⟩ := Fe25519.invert_spec Fe25519.plain_sound ha
    refine ⟨c, hc, hreduced, hlift ?_⟩
    rw [Nat.cast_pow]
    exact hvalue
  · refine ⟨_, Fe25519.toBytes_spec ha, fun other => ⟨?_, ?_⟩⟩
    · have hlt : val a % P < P := Nat.mod_lt _ (by decide)
      have hbytes : Packed.ofBytes (Packed.toBytes 32 (val a % P)) = val a % P :=
        Packed.ofBytes_toBytes (hlt.trans (by decide))
      rintro rfl
      exact ⟨Packed.length_toBytes _ _, hbytes.symm ▸ hlt, hbytes.symm ▸ Nat.mod_modEq _ _⟩
    · rintro ⟨hlen, hlt, hmod⟩
      have hvalue : Packed.ofBytes other = val a % P := by
        rw [← hmod, Nat.mod_eq_of_lt hlt]
      rw [← hvalue, ← hlen, Packed.toBytes_ofBytes]
  · obtain ⟨hlt, hvalue⟩ := Fe25519.fromBytes_spec s
    have htop : Packed.ofBytes s.toList < 2 ^ 255 := by
      have h31 := Packed.toNat_getD s.toList 31
      have hlt := Packed.ofBytes_lt s.toList
      have hget : s.toList.getD 31 0 = s[31] := by
        simp
      have hs : s[31].toNat < 128 := hs
      rw [hget] at h31
      rw [Vector.length_toList] at hlt
      norm_num only at *
      omega
    rw [Fe25519.toBytes_spec (hlt.mono (by decide)), hvalue, Nat.mod_eq_of_lt htop]

/-- Operands at the top of their bounds, and the bytes of the prime itself. -/
theorem arithmetic_samples :
    (∃ c, mul ⟨2 ^ 53 - 1, 0, 0, 0, 2 ^ 53 - 1⟩ ⟨1, 2, 3, 4, 2 ^ 53 - 1⟩ = some c ∧ Reduced c ∧
      val c ≡ val ⟨2 ^ 53 - 1, 0, 0, 0, 2 ^ 53 - 1⟩ * val ⟨1, 2, 3, 4, 2 ^ 53 - 1⟩ [MOD P]) ∧
    (∃ c, square ⟨1, 2, 3, 4, 2 ^ 53 - 1⟩ = some c ∧ Reduced c ∧
      val c ≡ val ⟨1, 2, 3, 4, 2 ^ 53 - 1⟩ ^ 2 [MOD P]) ∧
    (∃ c, mulSmall ⟨1, 2, 3, 4, 2 ^ 53 - 1⟩ 121665 = some c ∧ Reduced c ∧
      val c ≡ 121665 * val ⟨1, 2, 3, 4, 2 ^ 53 - 1⟩ [MOD P]) ∧
    ((∃ c, add ⟨1, 2, 3, 4, 2 ^ 52 - 1⟩ Fe25519.ONE = some c ∧ Reduced c ∧
        val c ≡ val ⟨1, 2, 3, 4, 2 ^ 52 - 1⟩ + val Fe25519.ONE [MOD P]) ∧
      ∃ c, addLazy ⟨1, 2, 3, 4, 2 ^ 52 - 1⟩ Fe25519.ONE = some c ∧ c.Lt (2 ^ 53) ∧
        val c = val ⟨1, 2, 3, 4, 2 ^ 52 - 1⟩ + val Fe25519.ONE) ∧
    (∃ c, sub Fe25519.ZERO ⟨2 ^ 52 - 38, 0, 0, 0, 0⟩ = some c ∧ Reduced c ∧
      val c + val ⟨2 ^ 52 - 38, 0, 0, 0, 0⟩ ≡ val Fe25519.ZERO [MOD P]) ∧
    (∃ c, subLazy Fe25519.ZERO Fe25519.ONE = some c ∧ c.Lt (2 ^ 53) ∧
      val c + val Fe25519.ONE ≡ val Fe25519.ZERO [MOD P]) ∧
    (∃ c, invert plain ⟨2, 0, 0, 0, 0⟩ = some c ∧ Reduced c ∧
      val c ≡ val ⟨2, 0, 0, 0, 0⟩ ^ (P - 2) [MOD P]) ∧
    (∃ bytes, toBytes ⟨2 ^ 53 - 1, 0, 0, 0, 2 ^ 53 - 1⟩ = some bytes ∧ ∀ other : List UInt8,
      other = bytes ↔ other.length = 32 ∧ Packed.ofBytes other < P ∧
        Packed.ofBytes other ≡ val ⟨2 ^ 53 - 1, 0, 0, 0, 2 ^ 53 - 1⟩ [MOD P]) ∧
    toBytes (fromBytes (((Vector.replicate 32 255).set 0 237).set 31 127)) =
      some (List.replicate 32 0) := by
  obtain ⟨hmul, hsquare, hmulSmall, hadd, hsub, hsubLazy, hinvert, htoBytes, hfromBytes, -⟩ :=
    arithmetic
  exact ⟨hmul _ _ (by decide) (by decide), hsquare _ (by decide),
    hmulSmall _ _ (by decide) (by decide), hadd _ _ (by decide) (by decide),
    hsub _ _ (by decide) (by constructor <;> decide), hsubLazy _ _ (by decide) (by decide),
    hinvert _ (by decide), htoBytes _ (by decide), (hfromBytes _ (by decide)).trans (by decide)⟩

end Lazaret.X25519
