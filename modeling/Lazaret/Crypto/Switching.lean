import Lazaret.Crypto.Limbs32
import Lazaret.Crypto.Radix64

/-!
# From one form to the other

The vector code of `poly1305.rs` takes over the accumulator of `radix64` in 26-bit limbs and gives
it back (`to26`, `from26`).  The conversions keep the number, so blocks that are absorbed in the
other form on the way change nothing (`blocksIn26_spec`), and the tag is the one of RFC 8439 in
either form and with any switch between them (`tags`).
-/

namespace Lazaret.Poly1305

open List hiding Vector
open Words
open Packed (toBytes)

def M26 : ℕ := 2 ^ 26 - 1

/-- `u64 << k` -/
def shl64 (a k : ℕ) : ℕ := (a <<< k) % 2 ^ 64

def to26 (h : ℕ × ℕ × ℕ) : Limbs :=
  let (h0, h1, h2) := h
  ⟨h0 &&& M26, (h0 >>> 26) &&& M26, (h0 >>> 52 ||| shl64 h1 12) &&& M26, (h1 >>> 14) &&& M26,
    h1 >>> 40 ||| shl64 h2 24⟩

def from26 (l : Limbs) : Option (ℕ × ℕ × ℕ) := do
  let low ← fits 128 (l.l0 + l.l1 <<< 26 + l.l2 <<< 52 + l.l3 <<< 78)
  let top := (l.l4 &&& (1 <<< 24 - 1)) <<< 104
  let t := (low + top) % 2 ^ 128
  let c := (low + top) / 2 ^ 128
  let h2 ← fits 64 (l.l4 >>> 24 + c)
  some (t % 2 ^ 64, t >>> 64, h2)

def value64 (h : ℕ × ℕ × ℕ) : ℕ := h.1 + 2 ^ 64 * h.2.1 + 2 ^ 128 * h.2.2

lemma and_m26 (n : ℕ) : n &&& M26 = n % 2 ^ 26 := and_ones n 26

theorem to26_spec {h : ℕ × ℕ × ℕ} (h0 : h.1 < 2 ^ 64) (h1 : h.2.1 < 2 ^ 64) (h2 : h.2.2 ≤ 4) :
    value26 (to26 h) = value64 h ∧ Limbs32.Ready (to26 h) := by
  obtain ⟨a, b, c⟩ := h
  dsimp only at h0 h1 h2
  have hl0 : (to26 (a, b, c)).l0 = a % 2 ^ 26 := and_m26 a
  have hl1 : (to26 (a, b, c)).l1 = a / 2 ^ 26 % 2 ^ 26 := by
    show (a >>> 26) &&& M26 = _
    rw [and_m26, Nat.shiftRight_eq_div_pow]
  have hl2 : (to26 (a, b, c)).l2 = (a / 2 ^ 52 + b % 2 ^ 52 * 2 ^ 12) % 2 ^ 26 := by
    show (a >>> 52 ||| shl64 b 12) &&& M26 = _
    have hshl : shl64 b 12 = (b % 2 ^ 52) <<< 12 := by
      rw [shl64, Nat.shiftLeft_eq, Nat.shiftLeft_eq]
      omega
    rw [and_m26, hshl, Nat.shiftRight_eq_div_pow, or_shift (by omega)]
  have hl3 : (to26 (a, b, c)).l3 = b / 2 ^ 14 % 2 ^ 26 := by
    show (b >>> 14) &&& M26 = _
    rw [and_m26, Nat.shiftRight_eq_div_pow]
  have hl4 : (to26 (a, b, c)).l4 = b / 2 ^ 40 + c * 2 ^ 24 := by
    show b >>> 40 ||| shl64 c 24 = _
    have hshl : shl64 c 24 = c <<< 24 := by
      rw [shl64, Nat.shiftLeft_eq]
      omega
    rw [hshl, Nat.shiftRight_eq_div_pow, or_shift (by omega)]
  refine ⟨?_, ⟨?_, ?_, ?_, ?_, ?_⟩⟩
  · rw [value26_eq, hl0, hl1, hl2, hl3, hl4]
    simp only [value64]
    omega
  all_goals omega

theorem from26_spec {l : Limbs} (hl : Limbs32.Ready l) (hlt : value26 l < 5 * 2 ^ 128) :
    ∃ h, from26 l = some h ∧ value64 h = value26 l ∧ h.1 < 2 ^ 64 ∧ h.2.1 < 2 ^ 64 ∧ h.2.2 ≤ 4 := by
  obtain ⟨l0, l1, l2, l3, l4⟩ := l
  obtain ⟨h0, h1, h2, h3, h4⟩ := hl
  dsimp only at h0 h1 h2 h3 h4
  simp only [value26_eq] at hlt ⊢
  have hand : l4 &&& (1 <<< 24 - 1) = l4 % 2 ^ 24 := and_ones l4 24
  obtain ⟨low, hlow⟩ : ∃ low, low = l0 + l1 * 2 ^ 26 + l2 * 2 ^ 52 + l3 * 2 ^ 78 := ⟨_, rfl⟩
  refine ⟨((low + l4 % 2 ^ 24 * 2 ^ 104) % 2 ^ 128 % 2 ^ 64,
    (low + l4 % 2 ^ 24 * 2 ^ 104) % 2 ^ 128 / 2 ^ 64,
    l4 / 2 ^ 24 + (low + l4 % 2 ^ 24 * 2 ^ 104) / 2 ^ 128), ?_, ?_, ?_, ?_, ?_⟩
  · simp only [from26, hand]
    simp only [Nat.shiftLeft_eq, Nat.shiftRight_eq_div_pow]
    rw [← hlow, fits_bind (by omega), fits_bind (by omega)]
  · simp only [value64]
    omega
  all_goals dsimp only; omega

lemma carried_value_lt {l : Limbs} (hl : Carried26 l) : value26 l < 5 * 2 ^ 128 := by
  obtain ⟨h0, h1, h2, h3, h4⟩ := hl
  rw [value26_eq]
  omega

/-! ## Blocks in the other form -/

/-- Blocks that are absorbed in limbs of 26 bits by a state in words of 64 bits. -/
def blocksIn26 (st : Radix64.State) (bs : List Block) : Option Radix64.State := do
  let st' ← Limbs32.blocks ⟨to26 (st.r.1, st.r.2, 0), to26 st.h, (0, 0, 0, 0)⟩ bs
  let h ← from26 st'.h
  some { st with h := h }

lemma clamped_to26 {r0 r1 : ℕ} (h0 : r0 < 2 ^ 60) (h1 : r1 < 2 ^ 60) :
    Clamped (to26 (r0, r1, 0)) ∧ value26 (to26 (r0, r1, 0)) = r0 + 2 ^ 64 * r1 := by
  obtain ⟨hvalue, hready⟩ := to26_spec (h := (r0, r1, 0)) (h0.trans (by decide))
    (h1.trans (by decide)) (Nat.zero_le 4)
  have hwords : value64 (r0, r1, 0) = r0 + 2 ^ 64 * r1 := add_zero _
  rw [hwords] at hvalue
  have hl1 : (to26 (r0, r1, 0)).l1 < 2 ^ 26 := by
    show (r0 >>> 26) &&& M26 < 2 ^ 26
    rw [and_m26]
    exact Nat.mod_lt _ (by decide)
  have hl4 : (to26 (r0, r1, 0)).l4 < 2 ^ 20 := by
    rw [value26_eq] at hvalue
    omega
  exact ⟨⟨hready.l0_lt, hl1, hready.l2_lt, hready.l3_lt, hl4⟩, hvalue⟩

variable {st : Radix64.State} {before : List Block}

theorem blocksIn26_spec (h : Radix64.Inv st)
    (hst : st.value ≡ polynomial st.multiplier (before.map Block.value) [MOD P]) (bs : List Block) :
    ∃ st', blocksIn26 st bs = some st' ∧ Radix64.Inv st' ∧ st'.r = st.r ∧ st'.pad = st.pad ∧
      st'.value ≡ polynomial st.multiplier ((before ++ bs).map Block.value) [MOD P] := by
  obtain ⟨hclamped, hr⟩ := clamped_to26 h.r0_lt h.r1_lt
  obtain ⟨hvalue, hready⟩ := to26_spec h.h0_lt h.h1_lt h.h2_le
  have hlt : value26 (to26 st.h) < 5 * 2 ^ 128 := by
    have h0 := h.h0_lt
    have h1 := h.h1_lt
    have h2 := h.h2_le
    rw [hvalue, value64]
    omega
  have hstep : ∀ (st' : Limbs32.State) (b : Block),
      (st'.r = to26 (st.r.1, st.r.2, 0) ∧ Limbs32.Ready st'.h ∧ value26 st'.h < 5 * 2 ^ 128) →
      ∃ st'', Limbs32.block st' b = some st'' ∧
        (st''.r = to26 (st.r.1, st.r.2, 0) ∧ Limbs32.Ready st''.h ∧ value26 st''.h < 5 * 2 ^ 128) ∧
        value26 st''.h ≡ (value26 st'.h + b.value) * st.multiplier [MOD P] := by
    rintro ⟨r, l, s⟩ b ⟨rfl, hready', -⟩
    obtain ⟨l', hblock, hcarried, hmod⟩ := Limbs32.block_spec hclamped hready' s b
    rw [hr] at hmod
    exact ⟨_, hblock, ⟨rfl, Limbs32.ready_of_carried hcarried, carried_value_lt hcarried⟩, hmod⟩
  have hfirst : value26 (Limbs32.State.mk (to26 (st.r.1, st.r.2, 0)) (to26 st.h) (0, 0, 0, 0)).h ≡
      polynomial st.multiplier (before.map Block.value) [MOD P] := by
    show value26 (to26 st.h) ≡ _ [MOD P]
    rw [hvalue]
    exact hst
  obtain ⟨st', hrun, ⟨-, hready', hlt'⟩, hvalue'⟩ := absorbs hstep ⟨rfl, hready, hlt⟩ hfirst bs
  obtain ⟨h', hfrom, hnumber, h0, h1, h2⟩ := from26_spec hready' hlt'
  refine ⟨{ st with h := h' }, ?_, ⟨h.r0_lt, h.r1_lt, h.r1_mod, h0, h1, h2, h.pad0_lt, h.pad1_lt⟩,
    rfl, rfl, ?_⟩
  · simp only [blocksIn26, Limbs32.blocks, hrun, hfrom, Option.bind_eq_bind, Option.bind_some]
  · show value64 h' ≡ _ [MOD P]
    rw [hnumber]
    exact hvalue'

/-! ## The tags -/

/-- Blocks of `radix64`, or in the other form. -/
def segment (st : Radix64.State) (bs : Bool × List Block) : Option Radix64.State :=
  if bs.1 then blocksIn26 st bs.2 else Radix64.blocks st bs.2

lemma radix64_blocks_spec (h : Radix64.Inv st)
    (hst : st.value ≡ polynomial st.multiplier (before.map Block.value) [MOD P]) (bs : List Block) :
    ∃ st', Radix64.blocks st bs = some st' ∧ Radix64.Inv st' ∧ st'.r = st.r ∧ st'.pad = st.pad ∧
      st'.value ≡ polynomial st.multiplier ((before ++ bs).map Block.value) [MOD P] := by
  have hstep : ∀ (st₁ : Radix64.State) (b : Block),
      (Radix64.Inv st₁ ∧ st₁.r = st.r ∧ st₁.pad = st.pad) →
      ∃ st₂, Radix64.block st₁ b = some st₂ ∧
        (Radix64.Inv st₂ ∧ st₂.r = st.r ∧ st₂.pad = st.pad) ∧
        st₂.value ≡ (st₁.value + b.value) * st.multiplier [MOD P] := by
    rintro st₁ b ⟨hinv, hr, hpad⟩
    obtain ⟨st₂, hblock, hinv₂, hr₂, hpad₂, hvalue₂⟩ := Radix64.block_spec hinv b
    have hmul : st₁.multiplier = st.multiplier := by
      rw [Radix64.State.multiplier, Radix64.State.multiplier, hr]
    rw [hmul] at hvalue₂
    exact ⟨st₂, hblock, ⟨hinv₂, hr₂.trans hr, hpad₂.trans hpad⟩, hvalue₂⟩
  obtain ⟨st', hrun, ⟨hinv, hr, hpad⟩, hvalue⟩ := absorbs hstep ⟨h, rfl, rfl⟩ hst bs
  exact ⟨st', hrun, hinv, hr, hpad, hvalue⟩

lemma segments_spec (h : Radix64.Inv st)
    (hst : st.value ≡ polynomial st.multiplier (before.map Block.value) [MOD P])
    (segments : List (Bool × List Block)) :
    ∃ st', segments.foldlM segment st = some st' ∧ Radix64.Inv st' ∧ st'.pad = st.pad ∧
      st'.value ≡
        polynomial st.multiplier ((before ++ segments.flatMap Prod.snd).map Block.value)
        [MOD P] := by
  induction segments generalizing st before with
  | nil => exact ⟨st, rfl, h, rfl, by rwa [flatMap_nil, append_nil]⟩
  | cons bs segments ih =>
    obtain ⟨st₁, hrun₁, hinv₁, hr₁, hpad₁, hvalue₁⟩ : ∃ st', segment st bs = some st' ∧
        Radix64.Inv st' ∧ st'.r = st.r ∧ st'.pad = st.pad ∧ st'.value ≡
          polynomial st.multiplier ((before ++ bs.2).map Block.value) [MOD P] := by
      rw [segment]
      split
      · exact blocksIn26_spec h hst bs.2
      · exact radix64_blocks_spec h hst bs.2
    have hmul : st₁.multiplier = st.multiplier := by
      rw [Radix64.State.multiplier, Radix64.State.multiplier, hr₁]
    obtain ⟨st', hrun, hinv, hpad, hvalue⟩ := ih hinv₁ (hmul ▸ hvalue₁)
    refine ⟨st', ?_, hinv, hpad.trans hpad₁, ?_⟩
    · rw [foldlM_cons, hrun₁]
      exact hrun
    · rwa [hmul, append_assoc, ← flatMap_cons] at hvalue

/-- Both implementations compute the tag of RFC 8439, with no word overflowing, whichever blocks are
absorbed in the other form on the way. -/
theorem tags :
    (∀ (key : Vector UInt8 32) (bs : List Block), ∃ st,
      Radix64.blocks (Radix64.new key) bs = some st ∧ st.h.2.2 ≤ 4 ∧
        Radix64.finish st = some (tag key bs)) ∧
    (∀ (key : Vector UInt8 32) (bs : List Block), ∃ st,
      Limbs32.blocks (Limbs32.new key) bs = some st ∧ Limbs32.finish st = some (tag key bs)) ∧
    (∀ h : ℕ × ℕ × ℕ, h.1 < 2 ^ 64 → h.2.1 < 2 ^ 64 → h.2.2 ≤ 4 → value26 (to26 h) = value64 h) ∧
    (∀ l : Limbs, Carried26 l →
      ∃ h, from26 l = some h ∧ value64 h = value26 l ∧ h.1 < 2 ^ 64 ∧ h.2.1 < 2 ^ 64 ∧ h.2.2 ≤ 4) ∧
    ∀ (key : Vector UInt8 32) (segments : List (Bool × List Block)), ∃ st,
      segments.foldlM segment (Radix64.new key) = some st ∧ st.h.2.2 ≤ 4 ∧
        Radix64.finish st = some (tag key (segments.flatMap Prod.snd)) := by
  have hswitch : ∀ (key : Vector UInt8 32) (segments : List (Bool × List Block)), ∃ st,
      segments.foldlM segment (Radix64.new key) = some st ∧ st.h.2.2 ≤ 4 ∧
        Radix64.finish st = some (tag key (segments.flatMap Prod.snd)) := by
    intro key segments
    obtain ⟨hinv, hr, hzero, hpad⟩ := Radix64.new_spec key
    have hfirst : (Radix64.new key).value ≡
        polynomial (Radix64.new key).multiplier (([] : List Block).map Block.value) [MOD P] := by
      rw [hzero]
      exact Nat.ModEq.refl 0
    obtain ⟨st, hrun, hinv', hpad', hvalue⟩ := segments_spec hinv hfirst segments
    refine ⟨st, hrun, hinv'.h2_le, ?_⟩
    rw [Radix64.finish_spec hinv', hvalue, hpad', hpad, hr, nil_append]
    rfl
  refine ⟨fun key bs => ?_, fun key bs => ?_, fun h h0 h1 h2 => (to26_spec h0 h1 h2).1,
    fun l hl => from26_spec (Limbs32.ready_of_carried hl) (carried_value_lt hl), hswitch⟩
  · obtain ⟨st, hrun, hle, hfinish⟩ := hswitch key [(false, bs)]
    rw [flatMap_singleton] at hfinish
    refine ⟨st, ?_, hle, hfinish⟩
    rw [foldlM_cons] at hrun
    exact (bind_pure (segment (Radix64.new key) (false, bs))).symm.trans hrun
  · obtain ⟨hinv, hr, hzero, hpad⟩ := Limbs32.new_spec key
    have hstep : ∀ (st : Limbs32.State) (b : Block),
        (Limbs32.Inv st ∧ st.r = (Limbs32.new key).r ∧ st.s = (Limbs32.new key).s) →
        ∃ st', Limbs32.block st b = some st' ∧
          (Limbs32.Inv st' ∧ st'.r = (Limbs32.new key).r ∧ st'.s = (Limbs32.new key).s) ∧
          value26 st'.h ≡ (value26 st.h + b.value) * r key [MOD P] := by
      rintro ⟨r', l, s'⟩ b ⟨hst, hr', hs'⟩
      obtain ⟨l', hblock, hcarried, hmod⟩ :=
        Limbs32.block_spec hst.r (Limbs32.ready_of_carried hst.h) s' b
      dsimp only at hr' hs'
      rw [hr', hr] at hmod
      exact ⟨_, hblock, ⟨⟨hst.r, hcarried, hst.s0_lt, hst.s1_lt, hst.s2_lt, hst.s3_lt⟩, hr', hs'⟩,
        hmod⟩
    have hfirst : value26 (Limbs32.new key).h ≡
        polynomial (r key) (([] : List Block).map Block.value) [MOD P] := by
      rw [hzero]
      exact Nat.ModEq.refl 0
    obtain ⟨st, hrun, ⟨hst, -, hs⟩, hvalue⟩ := absorbs hstep ⟨hinv, rfl, rfl⟩ hfirst bs
    refine ⟨st, hrun, ?_⟩
    have hpad' : st.pad = s key := by
      rw [← hpad, Limbs32.State.pad, Limbs32.State.pad, hs]
    rw [Limbs32.finish_spec hst, hvalue, hpad', nil_append]
    rfl

/-- The numbers of three small words and of five small limbs are kept. -/
theorem tags_small :
    value26 (to26 (1, 2, 3)) = value64 (1, 2, 3) ∧
      ∃ h, from26 ⟨1, 2, 3, 4, 5⟩ = some h ∧ value64 h = value26 ⟨1, 2, 3, 4, 5⟩ ∧
        h.1 < 2 ^ 64 ∧ h.2.1 < 2 ^ 64 ∧ h.2.2 ≤ 4 := by
  obtain ⟨-, -, hto, hfrom, -⟩ := tags
  exact ⟨hto (1, 2, 3) (by decide) (by decide) (by decide),
    hfrom ⟨1, 2, 3, 4, 5⟩ ⟨by decide, by decide, by decide, by decide, by decide⟩⟩

end Lazaret.Poly1305
