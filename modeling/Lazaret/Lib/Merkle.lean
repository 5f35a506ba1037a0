import Mathlib.Data.List.Basic
import Mathlib.Data.Nat.Log
import Mathlib.Tactic.Ring

/-!
# Merkle trees

The tree hash of a list of leaf hashes: a list of two or more is split at the largest power of
two below its length.  `nodeAt xs l i` is the hash of the perfect subtree of `2 ^ l` leaves that
starts at leaf `i * 2 ^ l`, and `perfect b f i` the same over any row of hashes `f`, `b` levels
up.  With an injective node hash, equal hashes have equal rows below them (`perfect_inj`).
-/

namespace Lazaret.Merkle

open List

variable {α : Type*}

/-- The largest power of two below `n`, for `n` at least two. -/
def splitPoint (n : ℕ) : ℕ := 2 ^ Nat.log 2 (n - 1)

lemma splitPoint_lt {n : ℕ} (h : 2 ≤ n) : splitPoint n < n := by
  have := Nat.pow_log_le_self 2 (x := n - 1) (by omega)
  rw [splitPoint]
  omega

variable {l : ℕ}

lemma splitPoint_eq {n : ℕ} (h1 : 2 ^ l < n) (h2 : n ≤ 2 ^ (l + 1)) : splitPoint n = 2 ^ l := by
  rw [splitPoint, Nat.log_eq_of_pow_le_of_lt_pow (b := 2) (m := l) (by omega) (by omega)]

/-- The tree hash of a list of leaf hashes (RFC 6962). -/
def mth (node : α → α → α) (empty : α) : List α → α
  | [] => empty
  | [a] => a
  | a :: b :: rest =>
    node (mth node empty ((a :: b :: rest).take (splitPoint (rest.length + 2))))
      (mth node empty ((a :: b :: rest).drop (splitPoint (rest.length + 2))))
termination_by xs => xs.length
decreasing_by
  · have := splitPoint_lt (n := rest.length + 2) (by omega)
    simp only [List.length_take, List.length_cons]
    omega
  · have : 0 < splitPoint (rest.length + 2) := Nat.two_pow_pos _
    simp only [List.length_drop, List.length_cons]
    omega

/-- The hash of the perfect subtree at level `l` with the number `i`. -/
def nodeAt (node : α → α → α) (empty : α) (xs : List α) (l i : ℕ) : α :=
  mth node empty ((xs.drop (i * 2 ^ l)).take (2 ^ l))

/-- The hash `b` levels above the row `f`, with the number `i`. -/
def perfect (node : α → α → α) : ℕ → (ℕ → α) → ℕ → α
  | 0, f, i => f i
  | b + 1, f, i => node (perfect node b f (2 * i)) (perfect node b f (2 * i + 1))

/-- Hashes joined from the right: the root of a tree from those of its maximal perfect subtrees,
the largest first. -/
def spine (node : α → α → α) (empty : α) : List α → α
  | [] => empty
  | [a] => a
  | a :: b :: rest => node a (spine node empty (b :: rest))

variable {node : α → α → α} {empty : α}

/-! ### The tree hash -/

@[simp] lemma mth_nil : mth node empty [] = empty := by rw [mth]

@[simp] lemma mth_singleton (a : α) : mth node empty [a] = a := by rw [mth]

variable {xs : List α}

lemma mth_split (h1 : 2 ^ l < xs.length) (h2 : xs.length ≤ 2 ^ (l + 1)) : mth node empty xs =
      node (mth node empty (xs.take (2 ^ l))) (mth node empty (xs.drop (2 ^ l))) := by
  have hpos := Nat.two_pow_pos l
  match xs, h1, h2 with
  | a :: b :: rest, h1, h2 =>
    rw [length_cons, length_cons] at h1 h2
    rw [mth, splitPoint_eq h1 h2]
  | [a], h1, _ =>
    simp only [length_singleton] at h1
    omega

/-! ### Perfect subtrees -/

variable {i : ℕ}

lemma nodeAt_zero (h : i < xs.length) : nodeAt node empty xs 0 i = xs.get ⟨i, h⟩ := by
  rw [nodeAt, pow_zero, mul_one, drop_eq_getElem_cons h]
  exact mth_singleton _

lemma nodeAt_succ (h : (i + 1) * 2 ^ (l + 1) ≤ xs.length) : nodeAt node empty xs (l + 1) i =
      node (nodeAt node empty xs l (2 * i)) (nodeAt node empty xs l (2 * i + 1)) := by
  have hpow : 2 ^ (l + 1) = 2 ^ l + 2 ^ l := by ring
  have hpos := Nat.two_pow_pos l
  have hlen : ((xs.drop (i * 2 ^ (l + 1))).take (2 ^ (l + 1))).length = 2 ^ (l + 1) := by
    rw [length_take, length_drop, min_eq_left]
    rw [add_mul, one_mul] at h
    omega
  rw [nodeAt, mth_split (l := l) (by omega) (by omega)]
  have hstart : 2 * i * 2 ^ l = i * 2 ^ (l + 1) := by ring
  have hnext : (2 * i + 1) * 2 ^ l = i * 2 ^ (l + 1) + 2 ^ l := by ring
  rw [nodeAt, nodeAt, hstart, hnext, take_take, drop_take, drop_drop]
  rw [Nat.min_eq_left (by omega), hpow, Nat.add_sub_cancel]

variable {b : ℕ}

lemma nodeAt_add {a : ℕ} (h : (i + 1) * 2 ^ (a + b) ≤ xs.length) :
    nodeAt node empty xs (a + b) i = perfect node b (nodeAt node empty xs a) i := by
  induction b generalizing i with
  | zero => rfl
  | succ b ih =>
    have hpow : 2 ^ (a + (b + 1)) = 2 * 2 ^ (a + b) := by
      rw [← add_assoc, pow_succ, mul_comm]
    have hlo : (2 * i + 1) * 2 ^ (a + b) ≤ (i + 1) * 2 ^ (a + (b + 1)) := by
      rw [hpow, ← mul_assoc]
      exact Nat.mul_le_mul_right _ (by omega)
    have hhi : (2 * i + 1 + 1) * 2 ^ (a + b) ≤ (i + 1) * 2 ^ (a + (b + 1)) := by
      rw [hpow, ← mul_assoc]
      exact Nat.mul_le_mul_right _ (by omega)
    rw [← add_assoc, nodeAt_succ (by rwa [add_assoc]), perfect, ih (hlo.trans h), ih (hhi.trans h)]

lemma nodeAt_append {ys : List α} (h : (i + 1) * 2 ^ l ≤ xs.length) :
    nodeAt node empty (xs ++ ys) l i = nodeAt node empty xs l i := by
  rw [Nat.add_mul, one_mul] at h
  have hpos := Nat.two_pow_pos l
  rw [nodeAt, nodeAt, drop_append_of_le_length (by omega), take_append_of_le_length]
  rw [length_drop]
  omega

lemma perfect_congr {f g : ℕ → α} {i' : ℕ}
    (h : ∀ j < 2 ^ b, f (i * 2 ^ b + j) = g (i' * 2 ^ b + j)) :
    perfect node b f i = perfect node b g i' := by
  induction b generalizing i i' with
  | zero => simpa [perfect] using h 0 (by simp)
  | succ b ih =>
    have hleft : perfect node b f (2 * i) = perfect node b g (2 * i') := by
      refine ih fun j hj => ?_
      have := h j (by omega)
      convert this using 2 <;> ring
    have hright : perfect node b f (2 * i + 1) = perfect node b g (2 * i' + 1) := by
      refine ih fun j hj => ?_
      have := h (2 ^ b + j) (by omega)
      rw [← add_assoc, ← add_assoc] at this
      convert this using 2 <;> ring
    rw [perfect, perfect, hleft, hright]

lemma perfect_inj (hinj : Function.Injective2 node) {f g : ℕ → α} {i' : ℕ}
    (h : perfect node b f i = perfect node b g i') :
    ∀ j < 2 ^ b, f (i * 2 ^ b + j) = g (i' * 2 ^ b + j) := by
  induction b generalizing i i' with
  | zero =>
    intro j hj
    have hj : j = 0 := by simpa using hj
    subst hj
    simpa [perfect] using h
  | succ b ih =>
    intro j hj
    obtain ⟨hl, hr⟩ := hinj h
    by_cases hlt : j < 2 ^ b
    · have := ih hl j hlt
      convert this using 2 <;> ring
    · have := ih hr (j - 2 ^ b) (by omega)
      have hj' : j = 2 ^ b + (j - 2 ^ b) := by omega
      rw [hj', ← add_assoc, ← add_assoc]
      convert this using 2 <;> ring

/-! ### Spines -/

lemma spine_inj (hinj : Function.Injective2 node) :
    ∀ {xs ys : List α}, xs.length = ys.length → spine node empty xs = spine node empty ys → xs = ys
  | [], [], _, _ => rfl
  | [a], [b], _, h => by rw [show a = b from h]
  | a :: b :: xs, c :: d :: ys, hlen, h => by
    obtain ⟨hhead, htail⟩ := hinj h
    have hlen' : (b :: xs).length = (d :: ys).length := by simpa using hlen
    rw [hhead, spine_inj hinj hlen' htail]

lemma spine_cons {a : α} (h : xs ≠ []) :
    spine node empty (a :: xs) = node a (spine node empty xs) := by
  cases xs with
  | nil => exact absurd rfl h
  | cons b xs => rfl

end Lazaret.Merkle
