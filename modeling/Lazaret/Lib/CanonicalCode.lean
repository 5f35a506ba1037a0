import Mathlib.Algebra.Order.Field.Basic
import Mathlib.Data.List.Count
import Mathlib.Data.List.Induction
import Mathlib.Data.Nat.Bitwise
import Mathlib.Tactic.FieldSimp
import Mathlib.Tactic.Linarith
import Mathlib.Tactic.Ring

/-!
# Canonical codes

The canonical prefix code of a list of lengths, one for each symbol and 0 for one that has no code:
codes of a length are consecutive, in the order of their symbols, and the first code of a length
comes after all the shorter ones (`first`).  With a Kraft sum of at most one every code fits its
length (`code_lt`), and no code begins another one (`eq_of_prefix`).
-/

namespace Lazaret.CanonicalCode

open List Option

/-! ## Words of bits -/

/-- The number whose bits a word has, the most significant first. -/
def value (w : List Bool) : ℕ := w.foldl (fun n b => 2 * n + b.toNat) 0

/-- The bits of a number, the most significant first. -/
def word : ℕ → ℕ → List Bool
  | 0, _ => []
  | l + 1, n => word l (n / 2) ++ [n.testBit 0]

@[simp] lemma length_word (l n : ℕ) : (word l n).length = l := by
  induction l generalizing n with
  | zero => rfl
  | succ l ih => rw [word, length_append, ih, length_singleton]

lemma word_eq_map (l n : ℕ) : word l n = (range l).map fun i => n.testBit (l - 1 - i) := by
  induction l generalizing n with
  | zero => rfl
  | succ l ih =>
    rw [word, ih, range_succ, map_append, map_singleton, Nat.add_sub_cancel, Nat.sub_self]
    congr 1
    refine map_congr_left fun i hi => ?_
    have hi := mem_range.1 hi
    rw [Nat.testBit_div_two, show l - 1 - i + 1 = l - i by omega]

lemma value_append_singleton (w : List Bool) (b : Bool) :
    value (w ++ [b]) = 2 * value w + b.toNat := by
  rw [value, foldl_append]
  rfl

variable {n : ℕ}

lemma value_word {l : ℕ} (h : n < 2 ^ l) : value (word l n) = n := by
  induction l generalizing n with
  | zero =>
    rw [pow_zero, Nat.lt_one_iff] at h
    rw [h]
    rfl
  | succ l ih =>
    rw [word, value_append_singleton, ih (by rw [pow_succ] at h; omega), Nat.testBit_zero]
    rcases Nat.mod_two_eq_zero_or_one n with hn | hn <;> simp [hn] <;> omega

lemma word_value (w : List Bool) : word w.length (value w) = w := by
  induction w using reverseRecOn with
  | nil => rfl
  | append_singleton w b ih =>
    have hdiv : (2 * value w + b.toNat) / 2 = value w := by
      have := Bool.toNat_lt b
      omega
    have hbit : (2 * value w + b.toNat).testBit 0 = b := by
      rw [Nat.testBit_zero]
      cases b <;> simp
    rw [length_append, length_singleton, value_append_singleton, word, hdiv, hbit, ih]

lemma word_prefix_iff {l : ℕ} (h : n < 2 ^ l) (w : List Bool) :
    word l n <+: w ↔ l ≤ w.length ∧ value (w.take l) = n := by
  constructor
  · intro hpre
    have hle := hpre.length_le
    rw [length_word] at hle
    refine ⟨hle, ?_⟩
    have htake := prefix_iff_eq_take.1 hpre
    rw [length_word] at htake
    rw [← htake, value_word h]
  · rintro ⟨hle, rfl⟩
    have hword := word_value (w.take l)
    rw [length_take, min_eq_left hle] at hword
    rw [hword]
    exact take_prefix l w

variable {w : List Bool}

lemma value_take_succ {l : ℕ} (h : l < w.length) :
    value (w.take (l + 1)) = 2 * value (w.take l) + w[l].toNat := by
  rw [take_add_one, getElem?_eq_getElem h, toList_some, value_append_singleton]

variable {k : ℕ}

lemma value_take_le {l : ℕ} (h : l + k ≤ w.length) :
    value (w.take l) * 2 ^ k ≤ value (w.take (l + k)) ∧
      value (w.take (l + k)) < (value (w.take l) + 1) * 2 ^ k := by
  induction k with
  | zero => simp
  | succ k ih =>
    obtain ⟨hlow, hhigh⟩ := ih (by omega)
    rw [← add_assoc, value_take_succ (by omega), pow_succ]
    have := Bool.toNat_lt w[l + k]
    constructor
    · calc value (w.take l) * (2 ^ k * 2) = 2 * (value (w.take l) * 2 ^ k) := by ring
        _ ≤ 2 * value (w.take (l + k)) + w[l + k].toNat := by omega
    · calc 2 * value (w.take (l + k)) + w[l + k].toNat <
        2 * ((value (w.take l) + 1) * 2 ^ k) := by omega
        _ = (value (w.take l) + 1) * (2 ^ k * 2) := by ring

/-- The low bits of a number, the least significant first. -/
def bits (n l : ℕ) : List Bool := (List.range l).map n.testBit

@[simp] lemma length_bits (n l : ℕ) : (bits n l).length = l := by
  rw [bits, length_map, length_range]

lemma take_bits {l : ℕ} (h : k ≤ l) : (bits n l).take k = bits n k := by
  rw [bits, bits, ← map_take, take_range, min_eq_left h]

lemma bits_succ (n l : ℕ) : bits n (l + 1) = bits n l ++ [n.testBit l] := by
  rw [bits, bits, range_succ, map_append, map_singleton]

lemma bits_congr {m l : ℕ} (h : ∀ i < l, n.testBit i = m.testBit i) : bits n l = bits m l :=
  map_congr_left fun i hi => h i (mem_range.1 hi)

lemma bits_eq_word_iff {l c r : ℕ}
    (hr : ∀ i, r.testBit i = (decide (i < l) && c.testBit (l - 1 - i))) :
    bits n l = word l c ↔ n % 2 ^ l = r := by
  rw [bits, word_eq_map, map_inj_left]
  constructor
  · intro h
    refine Nat.eq_of_testBit_eq fun i => ?_
    rw [Nat.testBit_mod_two_pow, hr]
    by_cases hi : i < l
    · rw [h i (mem_range.2 hi)]
    · rw [decide_eq_false hi, Bool.false_and, Bool.false_and]
  · rintro rfl i hi
    have hi := mem_range.1 hi
    have hbit := hr i
    rw [Nat.testBit_mod_two_pow, decide_eq_true hi, Bool.true_and, Bool.true_and] at hbit
    exact hbit

/-! ## The code of a list of lengths -/

variable (lens : List ℕ)

def count (l : ℕ) : ℕ := if l = 0 then 0 else lens.count l

/-- The first code of a length: after all codes that are shorter. -/
def first : ℕ → ℕ
  | 0 => 0
  | l + 1 => (first l + count lens l) * 2

def used (l : ℕ) : ℕ := first lens l + count lens l

def before : ℕ → ℕ
  | 0 => 0
  | l + 1 => before l + count lens l

def Has (s l : ℕ) : Prop := lens[s]? = some l ∧ l ≠ 0

/-- How many symbols before this one have a code of that length. -/
def rank (s l : ℕ) : ℕ := (lens.take s).count l

def code (s l : ℕ) : ℕ := first lens l + rank lens s l

def codeword (s l : ℕ) : List Bool := word l (code lens s l)

def kraft : ℚ := ((lens.filter (· ≠ 0)).map fun l => (1 / 2 : ℚ) ^ l).sum

variable {lens} {s l : ℕ}

lemma used_succ (l : ℕ) : used lens (l + 1) = 2 * used lens l + count lens (l + 1) := by
  rw [used, used, first]
  ring

lemma used_mul_le (l k : ℕ) : used lens l * 2 ^ k ≤ used lens (l + k) := by
  induction k with
  | zero => simp
  | succ k ih =>
    rw [← add_assoc, used_succ, pow_succ]
    calc used lens l * (2 ^ k * 2) = 2 * (used lens l * 2 ^ k) := by ring
      _ ≤ 2 * used lens (l + k) + count lens (l + k + 1) := by omega

lemma used_mul_le_first (l k : ℕ) : used lens l * 2 ^ (k + 1) ≤ first lens (l + k + 1) := by
  rw [first]
  calc used lens l * 2 ^ (k + 1) = used lens l * 2 ^ k * 2 := by ring
    _ ≤ used lens (l + k) * 2 := Nat.mul_le_mul_right 2 (used_mul_le l k)

variable {L : ℕ}

lemma used_le (h : used lens L ≤ 2 ^ L) (hl : l ≤ L) : used lens l ≤ 2 ^ l := by
  obtain ⟨k, rfl⟩ := Nat.exists_eq_add_of_le hl
  have hle := (used_mul_le l k).trans h
  rw [pow_add] at hle
  exact Nat.le_of_mul_le_mul_right hle (Nat.two_pow_pos k)

/-! ### The Kraft sum -/

lemma count_cons (x : ℕ) (xs : List ℕ) (l : ℕ) :
    count (x :: xs) l = count xs l + if x = l ∧ l ≠ 0 then 1 else 0 := by
  rw [count, count]
  by_cases hl : l = 0
  · simp [hl]
  · rw [if_neg hl, if_neg hl, List.count_cons]
    simp [hl]

lemma used_cons (x : ℕ) (xs : List ℕ) (l : ℕ) :
    used (x :: xs) l = used xs l + if x ≠ 0 ∧ x ≤ l then 2 ^ (l - x) else 0 := by
  induction l with
  | zero =>
    rw [used, used, first, first, count, count, if_pos rfl, if_pos rfl, if_neg (by omega)]
  | succ l ih =>
    rw [used_succ, used_succ, ih, count_cons]
    by_cases hx : x = 0
    · simp [hx]
    by_cases hle : x ≤ l
    · rw [if_pos ⟨hx, hle⟩, if_neg (by omega), if_pos ⟨hx, by omega⟩, Nat.sub_add_comm hle,
        pow_succ]
      ring
    · rw [if_neg (by omega)]
      by_cases heq : x = l + 1
      · rw [if_pos ⟨heq, Nat.succ_ne_zero l⟩, if_pos ⟨hx, by omega⟩, heq, Nat.sub_self, pow_zero]
        ring
      · rw [if_neg (by omega), if_neg (by omega)]
        ring

lemma used_eq_kraft (h : ∀ l ∈ lens, l ≤ L) : (used lens L : ℚ) = 2 ^ L * kraft lens := by
  induction lens with
  | nil =>
    have hzero : ∀ l, used [] l = 0 := by
      intro l
      induction l with
      | zero => rfl
      | succ l ih => rw [used_succ, ih, count, if_neg (Nat.succ_ne_zero l)]; rfl
    rw [hzero, kraft]
    simp
  | cons x xs ih =>
    obtain ⟨hx, hxs⟩ := forall_mem_cons.1 h
    rw [used_cons, Nat.cast_add, ih hxs, kraft, kraft]
    by_cases hzero : x = 0
    · simp [hzero]
    · rw [if_pos ⟨hzero, hx⟩, filter_cons_of_pos (by simpa using hzero), map_cons,
        sum_cons, mul_add, add_comm]
      congr 1
      obtain ⟨k, rfl⟩ := Nat.exists_eq_add_of_le hx
      rw [Nat.add_sub_cancel_left, pow_add, one_div, inv_pow]
      push_cast
      field_simp

lemma kraft_le_one_iff (h : ∀ l ∈ lens, l ≤ L) : kraft lens ≤ 1 ↔ used lens L ≤ 2 ^ L := by
  have hpow : (0 : ℚ) < 2 ^ L := by positivity
  rw [← Nat.cast_le (α := ℚ), used_eq_kraft h, Nat.cast_pow, Nat.cast_ofNat,
    mul_le_iff_le_one_right hpow]

lemma kraft_eq_one_iff (h : ∀ l ∈ lens, l ≤ L) : kraft lens = 1 ↔ used lens L = 2 ^ L := by
  have hpow : (2 : ℚ) ^ L ≠ 0 := by positivity
  rw [← Nat.cast_inj (R := ℚ), used_eq_kraft h, Nat.cast_pow, Nat.cast_ofNat, mul_eq_left₀ hpow]

/-! ### Symbols and their codes -/

lemma count_of_ne_zero (h : l ≠ 0) : count lens l = lens.count l := if_neg h

lemma Has.lt (h : Has lens s l) : s < lens.length := (List.getElem?_eq_some_iff.1 h.1).1

lemma Has.mem (h : Has lens s l) : l ∈ lens := mem_of_getElem? h.1

lemma rank_succ (h : lens[s]? = some l) (k : ℕ) :
    (lens.take (s + 1)).count k = (lens.take s).count k + if l = k then 1 else 0 := by
  rw [take_add_one, h, toList_some, count_append, count_singleton]
  simp

lemma Has.rank_lt (h : Has lens s l) : rank lens s l < count lens l := by
  have hle : (lens.take (s + 1)).count l ≤ lens.count l := (take_sublist _ _).count_le l
  rw [rank_succ h.1, if_pos rfl] at hle
  rw [count_of_ne_zero h.2]
  exact hle

lemma Has.code_lt_used (h : Has lens s l) : code lens s l < used lens l :=
  Nat.add_lt_add_left h.rank_lt _

lemma Has.code_lt (h : Has lens s l) (hL : l ≤ L) (hused : used lens L ≤ 2 ^ L) :
    code lens s l < 2 ^ l :=
  h.code_lt_used.trans_le (used_le hused hL)

variable {s' : ℕ}

lemma rank_lt_rank (h : Has lens s l) (hlt : s < s') : rank lens s l < rank lens s' l := by
  have hle : (lens.take (s + 1)).count l ≤ (lens.take s').count l :=
    (take_sublist_take_left (by omega)).count_le l
  rw [rank_succ h.1, if_pos rfl] at hle
  exact hle

lemma eq_of_rank_eq (h : Has lens s l) (h' : Has lens s' l)
    (heq : rank lens s l = rank lens s' l) : s = s' := by
  rcases lt_trichotomy s s' with hlt | hlt | hlt
  · exact absurd heq (rank_lt_rank h hlt).ne
  · exact hlt
  · exact absurd heq (rank_lt_rank h' hlt).ne'

lemma exists_rank {r : ℕ} (h : r < count lens l) : ∃ s, Has lens s l ∧ rank lens s l = r := by
  have hl : l ≠ 0 := by
    rintro rfl
    exact absurd h (by simp [count])
  rw [count_of_ne_zero hl] at h
  -- the number of symbols so far goes up by one at a time, from 0 to more than `r`
  have hstep : ∀ n, r < (lens.take n).count l → ∃ s, Has lens s l ∧ rank lens s l = r := by
    intro n
    induction n with
    | zero => exact fun hlt => absurd hlt (by simp)
    | succ n ih =>
      intro hlt
      by_cases hn : r < (lens.take n).count l
      · exact ih hn
      · cases hget : lens[n]? with
        | none =>
          rw [take_add_one, hget, toList_none, append_nil] at hlt
          exact absurd hlt hn
        | some k =>
          rw [rank_succ hget] at hlt
          split at hlt
          next hk => exact ⟨n, ⟨hk ▸ hget, hl⟩, by rw [rank]; omega⟩
          · exact absurd hlt hn
  exact hstep lens.length (by rw [take_length]; exact h)

lemma before_cons (x : ℕ) (xs : List ℕ) (l : ℕ) :
    before (x :: xs) l = before xs l + if x ≠ 0 ∧ x < l then 1 else 0 := by
  induction l with
  | zero => simp [before]
  | succ l ih =>
    rw [before, before, ih, count_cons]
    by_cases hx : x = 0
    · simp [hx]
      omega
    · split_ifs <;> omega

lemma before_le (l : ℕ) : before lens l ≤ lens.length := by
  induction lens with
  | nil =>
    induction l with
    | zero => exact le_rfl
    | succ l ih => rw [before, count]; split <;> simpa using ih
  | cons x xs ih =>
    rw [before_cons, length_cons]
    split <;> omega

lemma Has.place_lt (h : Has lens s l) : before lens l + rank lens s l < lens.length := by
  have hle : before lens (l + 1) ≤ lens.length := before_le (l + 1)
  rw [before] at hle
  have := h.rank_lt
  omega

lemma before_add_le (l k : ℕ) : before lens l ≤ before lens (l + k) := by
  induction k with
  | zero => exact le_rfl
  | succ k ih => exact ih.trans (Nat.le_add_right _ _)

variable {l' : ℕ}

lemma Has.place_lt_place (h : Has lens s l) (hlt : l < l') :
    before lens l + rank lens s l < before lens l' + rank lens s' l' := by
  obtain ⟨k, rfl⟩ := Nat.exists_eq_add_of_lt hlt
  have hle : before lens (l + 1) ≤ before lens (l + 1 + k) := before_add_le (l + 1) k
  rw [add_right_comm, before] at hle
  have := h.rank_lt
  omega

lemma Has.place_inj (h : Has lens s l) (h' : Has lens s' l')
    (heq : before lens l + rank lens s l = before lens l' + rank lens s' l') : s = s' := by
  rcases lt_trichotomy l l' with hlt | rfl | hlt
  · exact absurd heq (h.place_lt_place hlt).ne
  · exact eq_of_rank_eq h h' (add_left_cancel heq)
  · exact absurd heq (h'.place_lt_place hlt).ne'

/-! ### What begins a word -/

lemma codeword_prefix_iff (h : Has lens s l) (hL : l ≤ L) (hused : used lens L ≤ 2 ^ L)
    (w : List Bool) : codeword lens s l <+: w ↔ l ≤ w.length ∧ value (w.take l) = code lens s l :=
  word_prefix_iff (h.code_lt hL hused) w

lemma value_lt_first {l : ℕ} (hlen : l + k + 1 ≤ w.length)
    (h : value (w.take l) < used lens l) : value (w.take (l + k + 1)) < first lens (l + k + 1) := by
  have hhigh := (value_take_le (w := w) (l := l) (k := k + 1) hlen).2
  calc value (w.take (l + k + 1)) < (value (w.take l) + 1) * 2 ^ (k + 1) := hhigh
    _ ≤ used lens l * 2 ^ (k + 1) := Nat.mul_le_mul_right _ h
    _ ≤ first lens (l + k + 1) := used_mul_le_first l k

theorem eq_of_prefix (h : Has lens s l) (h' : Has lens s' l')
    (hlen : l ≤ w.length) (hlen' : l' ≤ w.length) (hw : value (w.take l) = code lens s l)
    (hw' : value (w.take l') = code lens s' l') : s = s' ∧ l = l' := by
  have hlt : ∀ {s s' l l' : ℕ}, Has lens s l → l' ≤ w.length → value (w.take l) = code lens s l →
      value (w.take l') = code lens s' l' → ¬ l < l' := by
    intro s s' l l' h hlen' hw hw' hlt
    obtain ⟨k, rfl⟩ := Nat.exists_eq_add_of_lt hlt
    have hlt := value_lt_first hlen' (hw ▸ h.code_lt_used)
    rw [hw', code] at hlt
    omega
  have hl : l = l' :=
    Nat.le_antisymm (Nat.le_of_not_lt (hlt h' hlen hw' hw)) (Nat.le_of_not_lt (hlt h hlen' hw hw'))
  subst hl
  refine ⟨eq_of_rank_eq h h' ?_, rfl⟩
  have heq := hw.symm.trans hw'
  rw [code, code] at heq
  exact add_left_cancel heq

end Lazaret.CanonicalCode
