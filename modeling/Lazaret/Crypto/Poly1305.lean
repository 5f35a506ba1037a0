import Lazaret.Lib.Packed
import Mathlib.Data.Nat.ModEq
import Mathlib.Data.Vector.Defs

/-!
# Poly1305

What the one-time authenticator of RFC 8439 section 2.5 is: the blocks are the coefficients of a
polynomial, its value at the clamped first half of the key is taken modulo the prime `2^130 - 5`,
and the second half of the key is added to it modulo `2^128`.
-/

namespace Lazaret.Poly1305

open List hiding Vector

open Packed (ofBytes toBytes ofBytes_lt leAt)

/-- The prime `2^130 - 5`. -/
def P : ℕ := 2 ^ 130 - 5

/-- The bits of the key that the first half may have. -/
def CLAMP : ℕ := 0x0ffffffc0ffffffc0ffffffc0fffffff

/-- A block: its bytes, and whether the bit over them is set. -/
abbrev Block := Vector UInt8 16 × Bool

def Block.value (b : Block) : ℕ := ofBytes b.1.toList + if b.2 then 2 ^ 128 else 0

def r (key : Vector UInt8 32) : ℕ := ofBytes (key.toList.take 16) &&& CLAMP

def s (key : Vector UInt8 32) : ℕ := ofBytes (key.toList.drop 16)

/-- The sum of the blocks times descending powers of `r`. -/
def polynomial (r : ℕ) : List ℕ → ℕ
  | [] => 0
  | b :: bs => b * r ^ (bs.length + 1) + polynomial r bs

def tag (key : Vector UInt8 32) (blocks : List Block) : List UInt8 :=
  toBytes 16 ((polynomial (r key) (blocks.map Block.value) % P + s key) % 2 ^ 128)

example : tag (Vector.replicate 32 0xff) [(Vector.replicate 16 0xff, true)] =
    [0xfb, 0xff, 0xff, 0x17, 0xfa, 0xff, 0xff, 0x17, 0xfa, 0xff, 0xff, 0x17, 0xfa, 0xff, 0xff,
      0x17] := by
  decide

lemma polynomial_append (r : ℕ) (bs : List ℕ) (b : ℕ) :
    polynomial r (bs ++ [b]) = (polynomial r bs + b) * r := by
  induction bs with
  | nil =>
    show b * r ^ (0 + 1) + 0 = (0 + b) * r
    ring
  | cons c bs ih =>
    rw [cons_append, polynomial, ih, polynomial, length_append, length_singleton]
    ring

theorem absorbs {σ : Type} {block : σ → Block → Option σ} {Inv : σ → Prop} {value : σ → ℕ} {r : ℕ}
    (hstep : ∀ st b, Inv st →
      ∃ st', block st b = some st' ∧ Inv st' ∧ value st' ≡ (value st + b.value) * r [MOD P])
    {st : σ} (hinv : Inv st) {before : List Block}
    (hst : value st ≡ polynomial r (before.map Block.value) [MOD P]) (bs : List Block) :
    ∃ st', bs.foldlM block st = some st' ∧ Inv st' ∧
      value st' ≡ polynomial r ((before ++ bs).map Block.value) [MOD P] := by
  induction bs generalizing st before with
  | nil => exact ⟨st, rfl, hinv, by rwa [append_nil]⟩
  | cons b bs ih =>
    obtain ⟨st₁, hblock, hinv₁, hvalue₁⟩ := hstep st b hinv
    have hst₁ : value st₁ ≡ polynomial r ((before ++ [b]).map Block.value) [MOD P] := by
      rw [map_append, map_singleton, polynomial_append]
      exact hvalue₁.trans ((hst.add_right _).mul_right r)
    obtain ⟨st', hrun, hinv', hvalue'⟩ := ih hinv₁ hst₁
    refine ⟨st', ?_, hinv', ?_⟩
    · rw [foldlM_cons, hblock]
      exact hrun
    · rwa [append_assoc, singleton_append] at hvalue'

/-! ## Words of bytes -/

def le32 (bytes : List UInt8) (i : ℕ) : ℕ := leAt 4 bytes i

def le64 (bytes : List UInt8) (i : ℕ) : ℕ := leAt 8 bytes i

end Lazaret.Poly1305
