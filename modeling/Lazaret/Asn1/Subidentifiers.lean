import Mathlib.Data.List.SplitBy
import Mathlib.Data.Nat.Bitwise
import Mathlib.Tactic.IntervalCases

/-!
# Subidentifiers

The numbers of an OBJECT IDENTIFIER in base 128, the highest septet first, every byte but the last
with the highest bit set.  A number that is written (`encoded`) is read as it was (`value_encoded`);
what is read is what would be written when it does not begin with a zero septet, and only then
(`encoded_value_iff`).
-/

namespace Lazaret.Asn1

open List

/-- One step of reading a number: `(acc << 7) | (b & 0x7f)`. -/
def pushSeptet (acc : ℕ) (b : UInt8) : ℕ := acc <<< 7 ||| (b &&& 0x7f).toNat

def value (bytes : List UInt8) : ℕ := bytes.foldl pushSeptet 0

/-- Bytes with the highest bit set, and a last one without. -/
def IsSubidentifier (w : List UInt8) : Prop :=
  ∃ front last, w = front ++ [last] ∧ (∀ b ∈ front, 0x80 ≤ b) ∧ last < 0x80

/-- The subidentifiers of a content: it is cut after every byte without the highest bit. -/
def subidentifiers (content : List UInt8) : List (List UInt8) :=
  content.splitBy fun b _ => 0x80 ≤ b

/-- The septets of a number, the lowest first, in an array of that many bytes. -/
def septets : ℕ → ℕ → List UInt8
  | 0, _ => []
  | k + 1, v => UInt8.ofNat (v &&& 0x7f) :: if v >>> 7 = 0 then [] else septets k (v >>> 7)

/-- The closure `push` of `oid_from_string`: the septets from the last to the first, with the
highest bit on all but that. -/
def encoded (v : ℕ) : List UInt8 :=
  ((septets 10 v).mapIdx fun i b => b ||| if 0 < i then 0x80 else 0).reverse

variable {w front : List UInt8} {b last : UInt8} {k v : ℕ}

lemma pushSeptet_eq (acc : ℕ) (b : UInt8) : pushSeptet acc b = acc * 128 + b.toNat % 128 := by
  have hand : (b &&& 0x7f).toNat = b.toNat % 128 := by
    rw [UInt8.toNat_and]
    exact Nat.and_two_pow_sub_one_eq_mod b.toNat 7
  have hlt : b.toNat % 128 < 2 ^ 7 := Nat.mod_lt _ (by decide)
  rw [pushSeptet, hand, ← Nat.shiftLeft_add_eq_or_of_lt hlt, Nat.shiftLeft_eq]

lemma and_top_iff {b : UInt8} : b &&& 0x80 ≠ 0 ↔ 0x80 ≤ b := by
  have hlt := b.toNat_lt
  have hand : (b &&& 0x80).toNat = if b.toNat / 2 ^ 7 % 2 = 1 then 2 ^ 7 else 0 := by
    rw [UInt8.toNat_and]
    show b.toNat &&& 2 ^ 7 = _
    rw [Nat.and_two_pow, Nat.testBit_eq_decide_div_mod_eq]
    by_cases h : b.toNat / 2 ^ 7 % 2 = 1
    · rw [decide_eq_true h, if_pos h]
      rfl
    · rw [decide_eq_false h, if_neg h]
      rfl
  rw [ne_eq, ← UInt8.toNat_inj, hand, UInt8.le_iff_toNat_le]
  show ¬ (if b.toNat / 2 ^ 7 % 2 = 1 then 2 ^ 7 else 0) = 0 ↔ 128 ≤ b.toNat
  split <;> omega

lemma value_append_singleton (w : List UInt8) (b : UInt8) :
    value (w ++ [b]) = value w * 128 + b.toNat % 128 := by
  rw [value, foldl_append, foldl_cons, foldl_nil, pushSeptet_eq, value]

lemma value_le_append (w w' : List UInt8) : value w ≤ value (w ++ w') := by
  induction w' using reverseRecOn with
  | nil => rw [append_nil]
  | append_singleton w' b ih =>
    rw [← append_assoc, value_append_singleton]
    omega

/-! ## Writing -/

def high (k v : ℕ) : List UInt8 := ((septets k v).map (· ||| 0x80)).reverse

lemma shift_eq (v : ℕ) : v >>> 7 = v / 128 := Nat.shiftRight_eq_div_pow v 7

lemma septets_succ (k v : ℕ) : septets (k + 1) v =
    UInt8.ofNat (v % 128) :: if v / 128 = 0 then [] else septets k (v / 128) := by
  rw [septets, shift_eq]
  exact congrArg (UInt8.ofNat · :: _) (Nat.and_two_pow_sub_one_eq_mod v 7)

lemma high_succ (k v : ℕ) : high (k + 1) v =
    (if v / 128 = 0 then [] else high k (v / 128)) ++ [UInt8.ofNat (v % 128) ||| 0x80] := by
  rw [high, septets_succ, map_cons, reverse_cons]
  split <;> rfl

lemma encoded_eq (v : ℕ) : encoded v =
    (if v / 128 = 0 then [] else high 9 (v / 128)) ++ [UInt8.ofNat (v % 128)] := by
  have hmap : ∀ l : List UInt8, (l.mapIdx fun i b => b ||| if 0 < i + 1 then 0x80 else 0) =
      l.map (· ||| 0x80) := fun l => ext_getElem (by simp) (by simp)
  have hlast : UInt8.ofNat (v % 128) ||| (if 0 < 0 then 0x80 else 0) = UInt8.ofNat (v % 128) :=
    UInt8.or_zero
  rw [encoded, septets_succ, mapIdx_cons, reverse_cons, hmap, hlast]
  split <;> rfl

lemma toNat_or_top (h : b < 0x80) : (b ||| 0x80).toNat = b.toNat + 128 := by
  have hlt : b.toNat < 2 ^ 7 := UInt8.lt_iff_toNat_lt.1 h
  rw [UInt8.toNat_or, Nat.or_comm]
  have hor := Nat.two_pow_add_eq_or_of_lt hlt 1
  rw [Nat.mul_one] at hor
  show 2 ^ 7 ||| b.toNat = _
  rw [← hor, Nat.add_comm]

lemma ofNat_mod_lt (v : ℕ) : UInt8.ofNat (v % 128) < 0x80 := by
  rw [UInt8.lt_iff_toNat_lt, UInt8.toNat_ofNat']
  show v % 128 % 2 ^ 8 < 128
  omega

lemma toNat_ofNat_mod (v : ℕ) : (UInt8.ofNat (v % 128)).toNat = v % 128 := by
  rw [UInt8.toNat_ofNat']
  omega

lemma le_high (k v : ℕ) : ∀ b ∈ high k v, 0x80 ≤ b := by
  intro b hb
  rw [high, mem_reverse, mem_map] at hb
  obtain ⟨c, hc, rfl⟩ := hb
  have hall : ∀ k v, ∀ c ∈ septets k v, c < 0x80 := by
    intro k
    induction k with
    | zero => exact fun v c hc => absurd hc not_mem_nil
    | succ k ih =>
      intro v c hc
      rw [septets_succ, mem_cons] at hc
      rcases hc with rfl | hc
      · exact ofNat_mod_lt v
      · split at hc
        · cases hc
        · exact ih _ _ hc
  rw [UInt8.le_iff_toNat_le, toNat_or_top (hall k v c hc)]
  exact Nat.le_add_left _ _

lemma value_high (h : v < 128 ^ k) : value (high k v) = v := by
  induction k generalizing v with
  | zero =>
    have hv : v = 0 := by omega
    rw [hv]
    rfl
  | succ k ih =>
    rw [high_succ, value_append_singleton, toNat_or_top (ofNat_mod_lt v), toNat_ofNat_mod]
    split
    next hv =>
      show 0 * 128 + _ = v
      omega
    next =>
      rw [ih (by rw [Nat.div_lt_iff_lt_mul (by decide), ← Nat.pow_succ]; exact h)]
      omega

theorem value_encoded (h : v < 2 ^ 64) : value (encoded v) = v := by
  rw [encoded_eq, value_append_singleton, toNat_ofNat_mod]
  split
  next hv =>
    show 0 * 128 + _ = v
    omega
  next =>
    rw [value_high (by norm_num; omega)]
    omega

lemma isSubidentifier_encoded (v : ℕ) : IsSubidentifier (encoded v) := by
  refine ⟨_, _, encoded_eq v, fun b hb => ?_, ofNat_mod_lt v⟩
  split at hb
  · cases hb
  · exact le_high _ _ b hb

/-! ## What is written -/

lemma high_value (hfront : ∀ b ∈ front, 0x80 ≤ b) (hhead : front.head? ≠ some 0x80)
    (hne : front ≠ []) (hlen : value front < 128 ^ k) :
    0 < value front ∧ high k (value front) = front := by
  induction front using reverseRecOn generalizing k with
  | nil => exact absurd rfl hne
  | append_singleton front b ih =>
    have hb : 128 ≤ b.toNat := UInt8.le_iff_toNat_le.1 (hfront b (by simp))
    have hlt := b.toNat_lt
    have hbyte : UInt8.ofNat (b.toNat % 128) ||| 0x80 = b := by
      refine UInt8.toNat_inj.1 ?_
      rw [toNat_or_top (ofNat_mod_lt _), toNat_ofNat_mod]
      omega
    rw [value_append_singleton] at hlen ⊢
    by_cases hnil : front = []
    · subst hnil
      have hb0 : b.toNat ≠ 128 := by
        intro h
        exact hhead (congrArg some (UInt8.toNat_inj.1 h))
      have hzero : value [] = 0 := rfl
      rw [hzero, zero_mul, zero_add] at hlen ⊢
      cases k with
      | zero => omega
      | succ k =>
        refine ⟨by omega, ?_⟩
        rw [high_succ, if_pos (by omega), Nat.mod_mod, hbyte]
    · have hhead' : front.head? ≠ some 0x80 := by
        rwa [head?_append_of_ne_nil _ hnil] at hhead
      cases k with
      | zero =>
        obtain ⟨hpos, -⟩ := ih (k := value front) (fun c hc => hfront c (by simp [hc])) hhead' hnil
          (Nat.lt_pow_self (by decide))
        omega
      | succ k =>
        obtain ⟨hpos, hhigh⟩ := ih (k := k) (fun c hc => hfront c (by simp [hc])) hhead' hnil
          (by rw [pow_succ] at hlen; omega)
        have hdiv : (value front * 128 + b.toNat % 128) / 128 = value front := by omega
        have hmod : (value front * 128 + b.toNat % 128) % 128 = b.toNat % 128 := by omega
        refine ⟨by omega, ?_⟩
        rw [high_succ, hdiv, hmod, if_neg hpos.ne', hhigh, hbyte]

lemma head?_high (hpos : 0 < v) (h : v < 128 ^ k) : (high k v).head? ≠ some 0x80 := by
  induction k generalizing v with
  | zero => omega
  | succ k ih =>
    rw [high_succ]
    by_cases hv : v / 128 = 0
    · rw [if_pos hv, nil_append, head?_singleton]
      intro h
      have := congrArg UInt8.toNat (Option.some.inj h)
      rw [toNat_or_top (ofNat_mod_lt v), toNat_ofNat_mod] at this
      have htop : (0x80 : UInt8).toNat = 128 := rfl
      omega
    · have hlt : v / 128 < 128 ^ k := by
        rw [Nat.div_lt_iff_lt_mul (by decide), ← Nat.pow_succ]
        exact h
      have hne : high k (v / 128) ≠ [] := by
        cases k with
        | zero => omega
        | succ k =>
          rw [high_succ]
          exact append_ne_nil_of_right_ne_nil _ (cons_ne_nil _ _)
      rw [if_neg hv, head?_append_of_ne_nil _ hne]
      exact ih (pos_of_ne_zero hv) hlt

/-- A subidentifier of a number that fits is what would be written of it when it does not begin with
a zero septet, and only then. -/
theorem encoded_value_iff (hw : IsSubidentifier w) (hlt : value w < 2 ^ 64) :
    encoded (value w) = w ↔ w.head? ≠ some 0x80 := by
  obtain ⟨front, last, rfl, hfront, hlast⟩ := hw
  have hlast' : last.toNat < 128 := UInt8.lt_iff_toNat_lt.1 hlast
  rw [value_append_singleton] at hlt ⊢
  have hdiv : (value front * 128 + last.toNat % 128) / 128 = value front := by omega
  have hmod : (value front * 128 + last.toNat % 128) % 128 = last.toNat := by omega
  have hvalue : value front < 128 ^ 9 := by
    norm_num
    omega
  rw [encoded_eq, hdiv, hmod, UInt8.ofNat_toNat]
  by_cases hnil : front = []
  · subst hnil
    refine iff_of_true (if_pos rfl ▸ rfl) fun h => ?_
    rw [nil_append, head?_singleton, Option.some_inj] at h
    exact absurd (h ▸ hlast) (by decide)
  · rw [append_left_inj, head?_append_of_ne_nil _ hnil]
    constructor
    · intro h hhead
      split at h
      · exact hnil h.symm
      next hpos => exact head?_high (pos_of_ne_zero hpos) hvalue (h.symm ▸ hhead)
    · intro hhead
      obtain ⟨hpos, hhigh⟩ := high_value hfront hhead hnil hvalue
      rw [if_neg hpos.ne', hhigh]

/-! ## One after the other -/

lemma splitBy_subidentifier (hw : IsSubidentifier w) :
    w.splitBy (fun b _ => 0x80 ≤ b) = [w] := by
  obtain ⟨front, last, rfl, hfront, -⟩ := hw
  refine splitBy_of_isChain (append_ne_nil_of_right_ne_nil _ (cons_ne_nil _ _)) ?_
  rw [isChain_append]
  refine ⟨?_, isChain_singleton _, fun b hb _ _ =>
    decide_eq_true (hfront b (mem_of_mem_getLast? hb))⟩
  refine Pairwise.isChain (pairwise_iff_getElem.2 fun i j hi _ _ => ?_)
  exact decide_eq_true (hfront _ (getElem_mem hi))

theorem subidentifiers_flatten {ws : List (List UInt8)} (h : ∀ w ∈ ws, IsSubidentifier w) :
    subidentifiers ws.flatten = ws := by
  induction ws with
  | nil => rfl
  | cons w ws ih =>
    have hw := h w mem_cons_self
    rw [flatten_cons, subidentifiers, splitBy_append, splitBy_subidentifier hw]
    · exact congrArg (w :: ·) (ih fun w' hw' => h w' (mem_cons_of_mem _ hw'))
    · obtain ⟨front, last, rfl, -, hlast⟩ := hw
      intro b hb _ _
      rw [getLast?_concat, Option.mem_some_iff] at hb
      exact decide_eq_false (hb ▸ UInt8.not_le.2 hlast)

end Lazaret.Asn1
