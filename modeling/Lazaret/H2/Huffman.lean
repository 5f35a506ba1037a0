import Lazaret.Lib.Outcome
import Mathlib.Data.List.GetD
import Mathlib.Tactic.IntervalCases
import Mathlib.Tactic.Ring

/-!
# The Huffman code of header strings

The code of HPACK (`http/h2/huffman.rs`), which QPACK shares.  It is canonical: the 257 code
lengths are all that is written down, and `build` works out the codes and the decoding tables.  The
encoder's output is the bits of the codes and a padding of ones (`bitsOf_encode`), and the decoder
takes the bits of one code at a time (`decodeBits_code`).
-/

namespace Lazaret.H2.Huffman

open List Outcome Option

/-- The code length of each symbol: the 256 byte values, then EOS (symbol 256). -/
@[irreducible]
def LENGTHS : List ℕ := [
  13, 23, 28, 28, 28, 28, 28, 28, 28, 24, 30, 28, 28, 30, 28, 28, 28, 28, 28, 28, 28, 28, 30, 28,
  28, 28, 28, 28, 28, 28, 28, 28, 6, 10, 10, 12, 13, 6, 8, 11, 10, 10, 8, 11, 8, 6, 6, 6, 5, 5,
  5, 6, 6, 6, 6, 6, 6, 6, 7, 8, 15, 6, 12, 10, 13, 6, 7, 7, 7, 7, 7, 7, 7, 7, 7, 7, 7, 7, 7, 7,
  7, 7, 7, 7, 7, 7, 7, 7, 8, 7, 8, 13, 19, 13, 14, 6, 15, 5, 6, 5, 6, 5, 6, 6, 6, 5, 7, 7, 6, 6,
  6, 5, 6, 7, 6, 5, 5, 6, 7, 7, 7, 7, 7, 15, 11, 14, 13, 28, 20, 22, 20, 20, 22, 22, 22, 23, 22,
  23, 23, 23, 23, 23, 24, 23, 24, 24, 22, 23, 24, 23, 23, 23, 23, 21, 22, 23, 22, 23, 23, 24, 22,
  21, 20, 22, 22, 23, 23, 21, 23, 22, 22, 24, 21, 22, 23, 23, 21, 21, 22, 21, 23, 22, 23, 23, 20,
  22, 22, 22, 23, 22, 22, 23, 26, 26, 20, 19, 22, 23, 22, 25, 26, 26, 26, 27, 27, 26, 24, 25, 19,
  21, 26, 27, 27, 26, 27, 24, 21, 21, 26, 26, 28, 27, 27, 27, 20, 24, 20, 21, 22, 21, 21, 23, 22,
  22, 25, 25, 24, 24, 26, 23, 26, 27, 26, 26, 27, 27, 27, 27, 27, 28, 27, 27, 27, 27, 27, 26, 30]

def MAX_LEN : ℕ := 30

structure Tables where
  codes : List ℕ
  /-- For each code length, the smallest code of that length. -/
  first_code : List ℕ
  /-- For each code length, how many codes have it. -/
  count : List ℕ
  /-- For each code length, where its symbols start in `sorted`. -/
  first_index : List ℕ
  /-- The symbols ordered by code length, then by value. -/
  sorted : List ℕ

def buildCount (lengths : List ℕ) : List ℕ :=
  lengths.foldl (fun count len => count.modify len (· + 1)) (List.replicate (MAX_LEN + 1) 0)

/-- The loop over the lengths from `len` on: the first code and the first index of each. -/
def buildFirst (count : List ℕ) : ℕ → ℕ → ℕ → ℕ → List (ℕ × ℕ)
  | 0, _, _, _ => []
  | n + 1, len, code, index =>
    let code := code * 2
    (code, index) ::
      buildFirst count n (len + 1) (code + count.getD len 0) (index + count.getD len 0)

/-- The loop over the symbols from `s` on: each takes the next code of its length, and its place
among the sorted ones. -/
def buildCodes (first : List (ℕ × ℕ)) : List ℕ → ℕ → List ℕ → List ℕ → List ℕ × List ℕ
  | [], _, _, sorted => ([], sorted)
  | len :: lengths, s, used, sorted =>
    let (code, index) := first.getD len (0, 0)
    let (codes, sorted) := buildCodes first lengths (s + 1) (used.modify len (· + 1))
      (sorted.set (index + used.getD len 0) s)
    ((code + used.getD len 0) :: codes, sorted)

def build : Tables :=
  let count := buildCount LENGTHS
  -- length zero, which no symbol has, comes first
  let first := (0, 0) :: buildFirst count MAX_LEN 1 0 0
  let handed := buildCodes first LENGTHS 0 (List.replicate (MAX_LEN + 1) 0) (List.replicate 257 0)
  ⟨handed.1, first.map Prod.fst, count, first.map Prod.snd, handed.2⟩

def TABLES : Tables := build

inductive Error where
  | Eos
  | Padding
  | TooLong
deriving DecidableEq

/-- How many bytes `src` takes when Huffman coded. -/
def encodedLen (src : List UInt8) : ℕ :=
  ((src.map fun b => LENGTHS.getD b.toNat 0).sum + 7) / 8

/-- The inner loop of `encode`: the whole bytes among the lowest `bits` bits of `acc`. -/
def flush (acc bits : ℕ) : List UInt8 :=
  if _h : bits ≥ 8 then UInt8.ofNat (acc >>> (bits - 8)) :: flush acc (bits - 8) else []
termination_by bits

/-- The loop of `encode`, with the `bits` bits of `acc` still to write. -/
def encodeFrom : List UInt8 → ℕ → ℕ → List UInt8
  | [], acc, bits =>
    if bits > 0 then [UInt8.ofNat (acc <<< (8 - bits) % 256 ||| 0xff >>> bits)] else []
  | b :: src, acc, bits =>
    let len := LENGTHS.getD b.toNat 0
    let acc := acc <<< len ||| TABLES.codes.getD b.toNat 0
    let bits := bits + len
    flush acc bits ++ encodeFrom src (acc &&& (1 <<< (bits % 8) - 1)) (bits % 8)

/-- The Huffman coding of `src`, padded to a whole byte with ones. -/
def encode (src : List UInt8) : List UInt8 := encodeFrom src 0 0

/-- The bits of a byte, the highest first, as the inner loop of `decode` reads them. -/
def bitsOf (byte : UInt8) : List ℕ :=
  [7, 6, 5, 4, 3, 2, 1, 0].map fun shift => byte.toNat >>> shift &&& 1

/-- The loops of `decode` over the bits that are left: `len` bits of a code are read so far, with
the value `code`, and `out` is what this call has decoded. -/
def decodeBits (limit : ℕ) : List ℕ → ℕ → ℕ → List UInt8 → Outcome Error (List UInt8)
  | [], code, len, out =>
    -- what is left is padding: at most 7 bits, all ones
    if len > 7 ∨ code ≠ 1 <<< len - 1 then .err .Padding else .ok out
  | bit :: src, code, len, out => do
    let code := code <<< 1 ||| bit
    let len := len + 1
    let n ← Outcome.orFault TABLES.count[len]?
    let first ← Outcome.orFault TABLES.first_code[len]?
    if n > 0 ∧ code ≥ first ∧ code - first < n then
      let index ← Outcome.orFault TABLES.first_index[len]?
      let symbol ← Outcome.orFault TABLES.sorted[index + (code - first)]?
      if symbol = 256 then .err .Eos
      else if out.length ≥ limit then .err .TooLong
      else decodeBits limit src 0 0 (out ++ [UInt8.ofNat symbol])
    else decodeBits limit src code len out

/-- The string that `src` codes, at most `limit` bytes. -/
def decode (src : List UInt8) (limit : ℕ) : Outcome Error (List UInt8) :=
  decodeBits limit (src.flatMap bitsOf) 0 0 []

/-! ### The tables -/

variable {i : ℕ}

lemma getD_modify (l : List ℕ) {j : ℕ} (hi : i < l.length) :
    (l.modify i (· + 1)).getD j 0 = l.getD j 0 + if i = j then 1 else 0 := by
  simp only [getD_eq_getElem?_getD, getElem?_modify]
  split_ifs with h
  · subst h
    simp [getElem?_eq_getElem hi]
  · simp

/-- The place among the sorted symbols that the `i`-th of `lengths` takes. -/
def place (first : List (ℕ × ℕ)) (used lengths : List ℕ) (i : ℕ) : ℕ :=
  let len := lengths.getD i 0
  (first.getD len (0, 0)).2 + used.getD len 0 + (lengths.take i).count len

lemma count_take_succ_cons (l : ℕ) (ls : List ℕ) (i x : ℕ) :
    ((l :: ls).take (i + 1)).count x = (ls.take i).count x + if l = x then 1 else 0 := by
  rw [take_succ_cons, count_cons]
  simp only [beq_iff_eq]

variable {len : ℕ} {used lengths : List ℕ}

lemma place_succ {first : List (ℕ × ℕ)} (hlen : len < used.length) (i : ℕ) :
    place first used (len :: lengths) (i + 1) =
      place first (used.modify len (· + 1)) lengths i := by
  simp only [place, getD_cons_succ, getD_modify used hlen, count_take_succ_cons]
  omega

lemma codes_buildCodes (first : List (ℕ × ℕ)) (s : ℕ)
    (sorted : List ℕ) (hlengths : ∀ len ∈ lengths, len < used.length) (hi : i < lengths.length) :
    (buildCodes first lengths s used sorted).1.getD i 0 =
      (first.getD (lengths.getD i 0) (0, 0)).1 + used.getD (lengths.getD i 0) 0 +
        (lengths.take i).count (lengths.getD i 0) := by
  induction lengths generalizing s used sorted i with
  | nil => exact absurd hi (by simp)
  | cons len lengths ih =>
    rw [forall_mem_cons] at hlengths
    simp only [buildCodes]
    cases i with
    | zero => simp
    | succ i =>
      simp only [getD_cons_succ]
      rw [ih _ _ (by simpa using hlengths.2) (by simpa using hi), getD_modify used hlengths.1,
        count_take_succ_cons]
      omega

variable {s : ℕ}

lemma sorted_buildCodes_of_ne {first : List (ℕ × ℕ)}
    {sorted : List ℕ} (hlengths : ∀ len ∈ lengths, len < used.length) {p : ℕ}
    (hp : ∀ i < lengths.length, place first used lengths i ≠ p) :
    (buildCodes first lengths s used sorted).2[p]? = sorted[p]? := by
  induction lengths generalizing s used sorted with
  | nil => rfl
  | cons len lengths ih =>
    rw [forall_mem_cons] at hlengths
    simp only [buildCodes]
    rw [ih (by simpa using hlengths.2) fun i hi => ?_]
    · refine getElem?_set_ne ?_
      simpa [place] using hp 0 (by simp)
    · rw [← place_succ hlengths.1]
      exact hp (i + 1) (by simpa using hi)

lemma sorted_buildCodes (first : List (ℕ × ℕ)) (s : ℕ)
    (sorted : List ℕ) (hlengths : ∀ len ∈ lengths, len < used.length)
    (hdiff : ∀ i < lengths.length, ∀ j < i,
      place first used lengths i ≠ place first used lengths j)
    (hroom : ∀ i < lengths.length, place first used lengths i < sorted.length)
    (hi : i < lengths.length) :
    (buildCodes first lengths s used sorted).2[place first used lengths i]? = some (s + i) := by
  induction lengths generalizing s used sorted i with
  | nil => exact absurd hi (by simp)
  | cons len lengths ih =>
    rw [forall_mem_cons] at hlengths
    simp only [buildCodes]
    cases i with
    | zero =>
      rw [sorted_buildCodes_of_ne (by simpa using hlengths.2) fun i hi => ?_]
      · have hlt : place first used (len :: lengths) 0 < sorted.length := hroom 0 (by simp)
        simp only [place, getD_cons_zero, take_zero, count_nil, add_zero] at hlt ⊢
        exact getElem?_set_self hlt
      · rw [← place_succ hlengths.1]
        exact hdiff (i + 1) (by simpa using hi) 0 (by omega)
    | succ i =>
      rw [place_succ hlengths.1, ih _ _ (by simpa using hlengths.2) (fun i hi j hj => ?_)
        (fun i hi => ?_) (by simpa using hi)]
      · congr 1
        omega
      · rw [← place_succ hlengths.1, ← place_succ hlengths.1]
        exact hdiff (i + 1) (by simpa using hi) (j + 1) (by omega)
      · rw [← place_succ hlengths.1, length_set]
        exact hroom (i + 1) (by simpa using hi)

/-- The first code and the first index of each length. -/
def firstTable : List (ℕ × ℕ) := (0, 0) :: buildFirst (buildCount LENGTHS) MAX_LEN 1 0 0

/-- The table of lengths and the two tables that are made of it, evaluated once for all that is read
off them below. -/
lemma tables_spec : LENGTHS.length = 257 ∧ (∀ len ∈ LENGTHS, 5 ≤ len ∧ len ≤ MAX_LEN) ∧
    buildCount LENGTHS = [0, 0, 0, 0, 0, 10, 26, 32, 6, 0, 5, 3, 2, 6, 2, 3, 0, 0, 0, 3,
      8, 13, 26, 29, 12, 4, 15, 19, 29, 0, 4] ∧
    (∀ len ≤ MAX_LEN, (buildCount LENGTHS).getD len 0 = LENGTHS.count len) := by
  decide +kernel

lemma length_LENGTHS : LENGTHS.length = 257 := tables_spec.1

lemma le_of_mem_LENGTHS : ∀ len ∈ LENGTHS, 5 ≤ len ∧ len ≤ MAX_LEN := tables_spec.2.1

lemma count_eq : buildCount LENGTHS =
    [0, 0, 0, 0, 0, 10, 26, 32, 6, 0, 5, 3, 2, 6, 2, 3, 0, 0, 0, 3,
    8, 13, 26, 29, 12, 4, 15, 19, 29, 0, 4] := tables_spec.2.2.1

lemma firstTable_eq : firstTable = [
    (0, 0), (0, 0), (0, 0), (0, 0), (0, 0), (0, 0), (20, 10), (92, 36), (248, 68), (508, 74),
    (1016, 74), (2042, 79), (4090, 82), (8184, 84), (16380, 90), (32764, 92), (65534, 95),
    (131068, 95), (262136, 95), (524272, 95), (1048550, 98), (2097116, 106), (4194258, 119),
    (8388568, 145), (16777194, 174), (33554412, 186), (67108832, 190), (134217694, 205),
    (268435426, 224), (536870910, 253), (1073741820, 253)] := by
  rw [firstTable, count_eq]
  with_unfolding_all decide

lemma TABLES_count : TABLES.count = buildCount LENGTHS := rfl

lemma TABLES_first_code : TABLES.first_code = firstTable.map Prod.fst := rfl

lemma TABLES_first_index : TABLES.first_index = firstTable.map Prod.snd := rfl

lemma TABLES_handed : (TABLES.codes, TABLES.sorted) = buildCodes firstTable LENGTHS 0
    (replicate (MAX_LEN + 1) 0) (replicate 257 0) := rfl

def countOf (len : ℕ) : ℕ := TABLES.count.getD len 0

def firstCode (len : ℕ) : ℕ := (firstTable.getD len (0, 0)).1

def firstIndex (len : ℕ) : ℕ := (firstTable.getD len (0, 0)).2

def codeOf (s : ℕ) : ℕ := TABLES.codes.getD s 0

def lengthOf (s : ℕ) : ℕ := LENGTHS.getD s 0

lemma countOf_eq_count (h : len ≤ MAX_LEN) : countOf len = LENGTHS.count len := by
  rw [countOf, TABLES_count]
  exact tables_spec.2.2.2 len h

lemma firstCode_succ (h : len < MAX_LEN) :
    firstCode (len + 1) = 2 * (firstCode len + countOf len) := by
  have hall : ∀ len < 30, (firstTable.getD (len + 1) (0, 0)).1 =
      2 * ((firstTable.getD len (0, 0)).1 + (buildCount LENGTHS).getD len 0) := by
    rw [firstTable_eq, count_eq]
    decide
  rw [firstCode, firstCode, countOf, TABLES_count]
  exact hall len h

lemma firstCode_max : firstCode MAX_LEN + countOf MAX_LEN = 2 ^ MAX_LEN := by
  have hmax : (firstTable.getD 30 (0, 0)).1 + (buildCount LENGTHS).getD 30 0 = 2 ^ 30 := by
    rw [firstTable_eq, count_eq]
    decide
  rw [firstCode, countOf, TABLES_count]
  exact hmax

lemma firstIndex_add {len' : ℕ} (h : len < len') (h' : len' ≤ MAX_LEN) :
    firstIndex len + countOf len ≤ firstIndex len' := by
  have hall : ∀ len' ≤ 30, ∀ len < len', (firstTable.getD len (0, 0)).2 +
      (buildCount LENGTHS).getD len 0 ≤ (firstTable.getD len' (0, 0)).2 := by
    rw [firstTable_eq, count_eq]
    decide
  rw [firstIndex, firstIndex, countOf, TABLES_count]
  exact hall len' h' len h

lemma firstIndex_le (h : len ≤ MAX_LEN) : firstIndex len + countOf len ≤ 257 := by
  have hall : ∀ len ≤ 30, (firstTable.getD len (0, 0)).2 + (buildCount LENGTHS).getD len 0 ≤
    257 := by
    rw [firstTable_eq, count_eq]
    decide
  rw [firstIndex, countOf, TABLES_count]
  exact hall len h

lemma lengthOf_le (hs : s < 257) : 5 ≤ lengthOf s ∧ lengthOf s ≤ MAX_LEN := by
  rw [lengthOf, getD_eq_getElem _ _ (by rwa [length_LENGTHS])]
  exact le_of_mem_LENGTHS _ (getElem_mem _)

/-- How many symbols before `s` have a code of its length. -/
def rankOf (s : ℕ) : ℕ := (LENGTHS.take s).count (lengthOf s)

lemma rankOf_lt (hs : s < 257) : rankOf s < countOf (lengthOf s) := by
  have hlt : s < LENGTHS.length := by rwa [length_LENGTHS]
  have hsplit : LENGTHS.count (lengthOf s) =
      rankOf s + (LENGTHS.drop s).count (lengthOf s) := by
    rw [rankOf, ← count_append, take_append_drop]
  have hpos : 0 < (LENGTHS.drop s).count (lengthOf s) := by
    rw [drop_eq_getElem_cons hlt, lengthOf, getD_eq_getElem _ _ hlt, count_cons_self]
    omega
  rw [countOf_eq_count (lengthOf_le hs).2]
  omega

lemma rankOf_lt_of_lt {t : ℕ} (hs : s < 257) (hlt : t < s) (hlen : lengthOf s = lengthOf t) :
    rankOf t < rankOf s := by
  have ht : t < LENGTHS.length := by
    rw [length_LENGTHS]
    omega
  have hsplit : LENGTHS.take s = LENGTHS.take t ++ (LENGTHS.take s).drop t := by
    conv_lhs => rw [← take_append_drop t (LENGTHS.take s)]
    rw [take_take, Nat.min_eq_left (by omega)]
  have hpos : 0 < ((LENGTHS.take s).drop t).count (lengthOf s) := by
    have hlt' : t < (LENGTHS.take s).length := by
      rw [length_take, length_LENGTHS]
      omega
    rw [drop_eq_getElem_cons hlt', getElem_take, hlen, lengthOf,
      getD_eq_getElem _ _ ht, count_cons_self]
    omega
  rw [rankOf, rankOf, hsplit, count_append, hlen]
  rw [hlen] at hpos
  omega

lemma getD_replicate_zero (n i : ℕ) : (replicate n 0).getD i 0 = 0 := by
  rw [getD_eq_getElem?_getD, getElem?_replicate]
  split_ifs <;> rfl

lemma place_eq (s : ℕ) :
    place firstTable (replicate (MAX_LEN + 1) 0) LENGTHS s =
      firstIndex (lengthOf s) + rankOf s := by
  simp only [place, firstIndex, rankOf, lengthOf, getD_replicate_zero, add_zero]

lemma lt_used (h : len ∈ LENGTHS) : len < (replicate (MAX_LEN + 1) 0).length := by
  rw [length_replicate]
  exact Nat.lt_succ_of_le (le_of_mem_LENGTHS len h).2

lemma codeOf_eq (hs : s < 257) : codeOf s = firstCode (lengthOf s) + rankOf s := by
  have := codes_buildCodes firstTable 0 (replicate 257 0)
    (fun _ => lt_used) (i := s) (by rwa [length_LENGTHS])
  rw [getD_replicate_zero, add_zero, ← TABLES_handed] at this
  exact this

lemma sorted_eq (hs : s < 257) : TABLES.sorted[firstIndex (lengthOf s) + rankOf s]? = some s := by
  have hfind := sorted_buildCodes firstTable 0 (replicate 257 0)
    (fun _ => lt_used) (fun i hi j hj => ?_) (fun i hi => ?_) (i := s) (by rwa [length_LENGTHS])
  · rw [place_eq, zero_add, ← TABLES_handed] at hfind
    exact hfind
  · rw [length_LENGTHS] at hi
    rw [place_eq, place_eq]
    have hi' := rankOf_lt hi
    have hj' := rankOf_lt (s := j) (by omega)
    rcases lt_trichotomy (lengthOf i) (lengthOf j) with h | h | h
    · have := firstIndex_add h (lengthOf_le (s := j) (by omega)).2
      omega
    · have := rankOf_lt_of_lt hi hj h
      rw [h]
      omega
    · have := firstIndex_add h (lengthOf_le hi).2
      omega
  · rw [length_LENGTHS] at hi
    have := firstIndex_le (lengthOf_le hi).2
    have := rankOf_lt hi
    rw [place_eq, length_replicate]
    omega

/-! ### Codes -/

variable {k : ℕ}

lemma code_bound (hk : k < len) (hlen : len ≤ MAX_LEN) :
    (firstCode k + countOf k) * 2 ^ (len - k) ≤ firstCode len := by
  induction len with
  | zero => omega
  | succ len ih =>
    rw [firstCode_succ (by omega)]
    rcases Nat.lt_succ_iff_lt_or_eq.1 hk with h | rfl
    · have hle := ih h (by omega)
      have hpow : 2 ^ (len + 1 - k) = 2 * 2 ^ (len - k) := by
        rw [show len + 1 - k = len - k + 1 by omega, pow_succ, mul_comm]
      calc (firstCode k + countOf k) * 2 ^ (len + 1 - k)
          = 2 * ((firstCode k + countOf k) * 2 ^ (len - k)) := by rw [hpow]; ring
        _ ≤ 2 * (firstCode len + countOf len) := by omega
    · rw [Nat.add_sub_cancel_left, pow_one, mul_comm]

lemma codeOf_start (hs : s < 257) (hk : k < lengthOf s) :
    firstCode k + countOf k ≤ codeOf s / 2 ^ (lengthOf s - k) := by
  rw [Nat.le_div_iff_mul_le (Nat.two_pow_pos _), codeOf_eq hs]
  exact (code_bound hk (lengthOf_le hs).2).trans (Nat.le_add_right _ _)

lemma codeOf_lt (hs : s < 257) : codeOf s < 2 ^ lengthOf s := by
  have hmax := (lengthOf_le hs).2
  have hrank := rankOf_lt hs
  rw [codeOf_eq hs]
  rcases lt_or_eq_of_le hmax with h | h
  · have hbound := code_bound h le_rfl
    have hpow : 2 ^ MAX_LEN = 2 ^ lengthOf s * 2 ^ (MAX_LEN - lengthOf s) := by
      rw [← pow_add, Nat.add_sub_cancel' hmax]
    have hle : firstCode (lengthOf s) + countOf (lengthOf s) ≤ 2 ^ lengthOf s := by
      refine Nat.le_of_mul_le_mul_right ?_ (Nat.two_pow_pos (MAX_LEN - lengthOf s))
      rw [← hpow]
      exact hbound.trans (firstCode_max ▸ Nat.le_add_right _ _)
    omega
  · rw [h] at hrank ⊢
    have := firstCode_max
    omega

/-! ### Bits -/

/-- The lowest `w` bits of `n`, the highest first. -/
def bits : ℕ → ℕ → List ℕ
  | 0, _ => []
  | w + 1, n => n / 2 ^ w % 2 :: bits w n

lemma length_bits (w n : ℕ) : (bits w n).length = w := by
  induction w with
  | zero => rfl
  | succ w ih => rw [bits, length_cons, ih]

lemma bits_add (v w n : ℕ) : bits (v + w) n = bits v (n / 2 ^ w) ++ bits w n := by
  induction v with
  | zero => simp [bits]
  | succ v ih =>
    rw [Nat.add_right_comm, bits, ih, bits, Nat.div_div_eq_div_mul, ← pow_add, Nat.add_comm w,
      cons_append]

lemma bits_mod {w v : ℕ} (h : w ≤ v) (n : ℕ) : bits w (n % 2 ^ v) = bits w n := by
  induction w with
  | zero => rfl
  | succ w ih =>
    have hpow : 2 ^ v = 2 ^ w * (2 * 2 ^ (v - w - 1)) := by
      rw [← pow_succ', ← pow_add]
      congr 1
      omega
    rw [bits, bits, ih (by omega), hpow, Nat.mod_mul_right_div_self, Nat.mod_mul_right_mod]

lemma bits_or {v w a b : ℕ} (hb : b < 2 ^ w) :
    bits (v + w) (a <<< w ||| b) = bits v a ++ bits w b := by
  have hor : a <<< w ||| b = 2 ^ w * a + b := by
    rw [Nat.two_pow_add_eq_or_of_lt hb, Nat.shiftLeft_eq, mul_comm]
  have hlow : bits w (2 ^ w * a + b) = bits w b := by
    rw [← bits_mod le_rfl, Nat.mul_add_mod, Nat.mod_eq_of_lt hb]
  rw [bits_add, hor, Nat.mul_add_div (Nat.two_pow_pos w), Nat.div_eq_of_lt hb, Nat.add_zero, hlow]

lemma bitsOf_eq (b : UInt8) : bitsOf b = bits 8 b.toNat := by
  simp [bitsOf, bits, Nat.shiftRight_eq_div_pow, Nat.and_one_is_mod]

lemma bitsOf_ofNat (n : ℕ) : bitsOf (UInt8.ofNat n) = bits 8 n := by
  rw [bitsOf_eq, UInt8.toNat_ofNat', bits_mod (v := 8) le_rfl]

lemma flatMap_flush (acc n : ℕ) :
    (flush acc n).flatMap bitsOf ++ bits (n % 8) acc = bits n acc := by
  induction n using Nat.strong_induction_on with
  | _ n ih =>
    rw [flush]
    split_ifs with h
    · have hsplit := bits_add 8 (n - 8) acc
      rw [show 8 + (n - 8) = n by omega] at hsplit
      have hrest := ih (n - 8) (by omega)
      rw [show (n - 8) % 8 = n % 8 by omega] at hrest
      rw [flatMap_cons, append_assoc, hrest, bitsOf_ofNat, Nat.shiftRight_eq_div_pow, ← hsplit]
    · rw [Nat.mod_eq_of_lt (by omega), flatMap_nil, nil_append]

def codeBits (src : List UInt8) : List ℕ :=
  src.flatMap fun b => bits (lengthOf b.toNat) (codeOf b.toNat)

lemma bits_ones (w : ℕ) : bits w (2 ^ w - 1) = replicate w 1 := by
  induction w with
  | zero => rfl
  | succ w ih =>
    have hpos := Nat.two_pow_pos w
    have hlow : (2 ^ (w + 1) - 1) % 2 ^ w = 2 ^ w - 1 := by
      rw [show 2 ^ (w + 1) - 1 = 2 ^ w + (2 ^ w - 1) by rw [pow_succ]; omega,
        Nat.add_mod_left, Nat.mod_eq_of_lt (by omega)]
    have hhigh : (2 ^ (w + 1) - 1) / 2 ^ w = 1 := by
      rw [show 2 ^ (w + 1) - 1 = 2 ^ w - 1 + 2 ^ w by rw [pow_succ]; omega,
        Nat.add_div_right _ hpos, Nat.div_eq_of_lt (by omega)]
    rw [bits, hhigh, ← bits_mod le_rfl, hlow, ih, replicate_succ]

lemma encodeFrom_cons (b : UInt8) (src : List UInt8) (acc n : ℕ) :
    encodeFrom (b :: src) acc n =
      flush (acc <<< lengthOf b.toNat ||| codeOf b.toNat) (n + lengthOf b.toNat) ++
        encodeFrom src ((acc <<< lengthOf b.toNat ||| codeOf b.toNat) &&&
          (1 <<< ((n + lengthOf b.toNat) % 8) - 1)) ((n + lengthOf b.toNat) % 8) := rfl

lemma bitsOf_encodeFrom (src : List UInt8) (acc : ℕ) {n : ℕ} (hacc : acc < 2 ^ n) (hn : n < 8) :
    ∃ pad < 8, (encodeFrom src acc n).flatMap bitsOf =
      bits n acc ++ codeBits src ++ replicate pad 1 := by
  induction src generalizing acc n with
  | nil =>
    rw [encodeFrom]
    split_ifs with h
    · have hsmall : acc <<< (8 - n) < 256 := by
        rw [Nat.shiftLeft_eq, show (256 : ℕ) = 2 ^ n * 2 ^ (8 - n) by
          rw [← pow_add, Nat.add_sub_cancel' (by omega)]
          rfl]
        exact Nat.mul_lt_mul_of_pos_right hacc (Nat.two_pow_pos _)
      have hones : 0xff >>> n = 2 ^ (8 - n) - 1 := by
        interval_cases n <;> rfl
      have hpos := Nat.two_pow_pos (8 - n)
      have hbits := bits_or (v := n) (w := 8 - n) (a := acc) (b := 2 ^ (8 - n) - 1) (by omega)
      rw [Nat.add_sub_cancel' (by omega), bits_ones] at hbits
      refine ⟨8 - n, by omega, ?_⟩
      rw [Nat.mod_eq_of_lt hsmall, hones, flatMap_singleton, bitsOf_ofNat, hbits, codeBits,
        flatMap_nil, append_nil]
    · have hzero : n = 0 := by omega
      subst hzero
      exact ⟨0, by omega, rfl⟩
  | cons b src ih =>
    have hsym : b.toNat < 257 := by
      have := b.toNat_lt
      omega
    rw [encodeFrom_cons]
    generalize hwhole : acc <<< lengthOf b.toNat ||| codeOf b.toNat = whole
    generalize htotal : n + lengthOf b.toNat = total
    have hmod : whole &&& (1 <<< (total % 8) - 1) = whole % 2 ^ (total % 8) := by
      rw [Nat.one_shiftLeft, Nat.and_two_pow_sub_one_eq_mod]
    obtain ⟨pad, hpad, hrest⟩ := ih _ (Nat.mod_lt whole (Nat.two_pow_pos (total % 8)))
      (Nat.mod_lt total (by omega))
    have hbits : bits total whole =
        bits n acc ++ bits (lengthOf b.toNat) (codeOf b.toNat) := by
      rw [← hwhole, ← htotal, bits_or (codeOf_lt hsym)]
    refine ⟨pad, hpad, ?_⟩
    rw [hmod, flatMap_append, hrest, bits_mod le_rfl, ← append_assoc,
      ← append_assoc, flatMap_flush, hbits, codeBits, codeBits, flatMap_cons]
    simp only [append_assoc]

theorem length_encode (src : List UInt8) : (encode src).length = encodedLen src := by
  have hlen : ∀ l : List UInt8, (l.flatMap bitsOf).length = 8 * l.length := by
    intro l
    induction l with
    | nil => rfl
    | cons b l ih =>
      rw [flatMap_cons, length_append, ih, bitsOf_eq, length_bits, length_cons]
      omega
  have hcode : (codeBits src).length = (src.map fun b => LENGTHS.getD b.toNat 0).sum := by
    rw [codeBits]
    induction src with
    | nil => rfl
    | cons b src ih =>
      rw [flatMap_cons, length_append, ih, length_bits, map_cons, sum_cons, lengthOf]
  obtain ⟨pad, hpad, hbits⟩ := bitsOf_encodeFrom src 0 (n := 0) (by simp) (by omega)
  have htotal := congrArg List.length hbits
  rw [hlen, length_append, length_append, length_bits, length_replicate, hcode] at htotal
  rw [encode, encodedLen]
  omega

/-! ### Decoding -/

lemma getElem?_count (h : len ≤ MAX_LEN) : TABLES.count[len]? = some (countOf len) := by
  have hlen : TABLES.count.length = 31 := by
    rw [TABLES_count, count_eq]
    rfl
  have hlt : len < TABLES.count.length := by
    rw [hlen]
    rw [MAX_LEN] at h
    omega
  rw [countOf, getD_eq_getElem _ _ hlt, getElem?_eq_getElem hlt]

lemma getElem?_firstTable (h : len ≤ MAX_LEN) :
    firstTable[len]? = some (firstCode len, firstIndex len) := by
  have hlen : firstTable.length = 31 := by
    rw [firstTable_eq]
    rfl
  have hlt : len < firstTable.length := by
    rw [hlen]
    rw [MAX_LEN] at h
    omega
  rw [firstCode, firstIndex, getD_eq_getElem _ _ hlt, getElem?_eq_getElem hlt]

variable {out : List UInt8} {limit code : ℕ} {src : List ℕ}

lemma decodeBits_past {bit : ℕ} (hbit : bit < 2) (hlen : len < MAX_LEN)
    (hpast : firstCode (len + 1) + countOf (len + 1) ≤ 2 * code + bit) :
    decodeBits limit (bit :: src) code len out =
      decodeBits limit src (2 * code + bit) (len + 1) out := by
  have hor : code <<< 1 ||| bit = 2 * code + bit := by
    rw [Nat.shiftLeft_eq, mul_comm, ← Nat.two_pow_add_eq_or_of_lt (i := 1) (by omega), pow_one]
  rw [decodeBits]
  have hle : len + 1 ≤ MAX_LEN := hlen
  simp only [hor, getElem?_count hle, TABLES_first_code, getElem?_map,
    getElem?_firstTable hle, orFault_some, ok_bind, map_some]
  rw [if_neg (by omega)]

lemma decodeBits_last {bit : ℕ}
    (hbit : bit < 2) (hs : s < 256) (hcode : 2 * code + bit = codeOf s)
    (hlimit : out.length < limit) :
    decodeBits limit (bit :: src) code (lengthOf s - 1) out =
      decodeBits limit src 0 0 (out ++ [UInt8.ofNat s]) := by
  have hor : code <<< 1 ||| bit = codeOf s := by
    rw [← hcode, Nat.shiftLeft_eq, mul_comm, ← Nat.two_pow_add_eq_or_of_lt (i := 1) (by omega),
      pow_one]
  have hrank := rankOf_lt (s := s) (by omega)
  obtain ⟨h5, h30⟩ := lengthOf_le (s := s) (by omega)
  have hlen : lengthOf s - 1 + 1 = lengthOf s := by omega
  have hindex : codeOf s - firstCode (lengthOf s) = rankOf s := by
    rw [codeOf_eq (by omega), Nat.add_sub_cancel_left]
  have hfirst : firstCode (lengthOf s) ≤ codeOf s := by
    rw [codeOf_eq (by omega)]
    exact Nat.le_add_right _ _
  rw [decodeBits]
  simp only [hor, hlen, getElem?_count h30, TABLES_first_code, TABLES_first_index,
    getElem?_map, getElem?_firstTable h30, orFault_some, ok_bind,
    map_some, hindex, sorted_eq (s := s) (by omega)]
  rw [if_pos ⟨by omega, hfirst, hrank⟩, if_neg (by omega), if_neg (by omega)]

lemma decodeBits_code {j : ℕ} (src : List ℕ) (hs : s < 256)
    (hlimit : out.length < limit) (hjk : k + (j + 1) = lengthOf s) :
    decodeBits limit (bits (j + 1) (codeOf s) ++ src) (codeOf s / 2 ^ (j + 1)) k out =
      decodeBits limit src 0 0 (out ++ [UInt8.ofNat s]) := by
  have hnext : ∀ j, 2 * (codeOf s / 2 ^ (j + 1)) + codeOf s / 2 ^ j % 2 = codeOf s / 2 ^ j := by
    intro j
    rw [pow_succ, ← Nat.div_div_eq_div_mul]
    omega
  induction j generalizing k with
  | zero =>
    rw [bits, bits, cons_append, nil_append, show k = lengthOf s - 1 by omega]
    refine decodeBits_last (Nat.mod_lt _ (by omega)) hs ?_ hlimit
    rw [hnext, pow_zero, Nat.div_one]
  | succ j ih =>
    have h30 := (lengthOf_le (s := s) (by omega)).2
    rw [bits, cons_append, decodeBits_past (Nat.mod_lt _ (by omega)) (by omega), hnext]
    · exact ih (by omega)
    · rw [hnext]
      have hstart := codeOf_start (s := s) (k := k + 1) (by omega) (by omega)
      rwa [show lengthOf s - (k + 1) = j + 1 by omega] at hstart

lemma decodeBits_codeBits (src : List UInt8) {rest : List ℕ}
    (hlimit : out.length + src.length ≤ limit) :
    decodeBits limit (codeBits src ++ rest) 0 0 out = decodeBits limit rest 0 0 (out ++ src) := by
  induction src generalizing out with
  | nil => rw [codeBits, flatMap_nil, nil_append, append_nil]
  | cons b src ih =>
    have hs : b.toNat < 256 := b.toNat_lt
    rw [length_cons] at hlimit
    have hroom : out.length < limit := by omega
    have h5 := (lengthOf_le (s := b.toNat) (by omega)).1
    have hzero : codeOf b.toNat / 2 ^ lengthOf b.toNat = 0 :=
      Nat.div_eq_of_lt (codeOf_lt (by omega))
    obtain ⟨j, hj⟩ : ∃ j, lengthOf b.toNat = j + 1 := ⟨lengthOf b.toNat - 1, by omega⟩
    have hcode := decodeBits_code (s := b.toNat) (j := j) (k := 0) (codeBits src ++ rest) hs
      hroom (by omega)
    rw [← hj, hzero] at hcode
    rw [codeBits, flatMap_cons, append_assoc, ← codeBits, hcode, UInt8.ofNat_toNat,
      ih (by rw [length_append, length_singleton]; omega), append_assoc, singleton_append]

lemma decodeBits_ones {pad : ℕ} (hk : k + pad < 8) :
    decodeBits limit (replicate pad 1) (2 ^ k - 1) k out = .ok out := by
  induction pad generalizing k with
  | zero =>
    rw [replicate_zero, decodeBits, Nat.one_shiftLeft, if_neg (by omega)]
  | succ pad ih =>
    have hpast : ∀ k < 8, firstCode k + countOf k ≤ 2 ^ k - 1 := by
      have hall : ∀ k < 8, (firstTable.getD k (0, 0)).1 + (buildCount LENGTHS).getD k 0 ≤
          2 ^ k - 1 := by
        rw [firstTable_eq, count_eq]
        decide
      intro k hk
      rw [firstCode, countOf, TABLES_count]
      exact hall k hk
    have hpos := Nat.two_pow_pos k
    have hnext : 2 * (2 ^ k - 1) + 1 = 2 ^ (k + 1) - 1 := by
      rw [pow_succ]
      omega
    rw [replicate_succ, decodeBits_past (by omega) (by rw [MAX_LEN]; omega), hnext, ih (by omega)]
    rw [hnext]
    exact hpast (k + 1) (by omega)

theorem decode_encode (src : List UInt8) (hlimit : src.length ≤ limit) :
    decode (encode src) limit = .ok src := by
  obtain ⟨pad, hpad, hbits⟩ := bitsOf_encodeFrom src 0 (n := 0) (by simp) (by omega)
  rw [decode, encode, hbits, bits, nil_append, decodeBits_codeBits src (by simpa using hlimit),
    nil_append]
  exact decodeBits_ones (k := 0) (by omega)

/-! ### Decoding never leaves the tables -/

lemma length_sorted_buildCodes (first : List (ℕ × ℕ)) (lengths : List ℕ) (s : ℕ)
    (used sorted : List ℕ) :
    (buildCodes first lengths s used sorted).2.length = sorted.length := by
  induction lengths generalizing s used sorted with
  | nil => rfl
  | cons len lengths ih =>
    simp only [buildCodes]
    rw [ih, length_set]

lemma length_sorted : TABLES.sorted.length = 257 := by
  have h := congrArg (fun t => t.2.length) TABLES_handed
  rw [length_sorted_buildCodes, length_replicate] at h
  exact h

/-- Reading bits ends in a string or an error: a start of a code is past the codes of its length,
and the longest codes leave nothing past them. -/
lemma decodeBits_ne_fault (hsrc : ∀ b ∈ src, b < 2)
    (hlen : len < MAX_LEN) (hpast : firstCode len + countOf len ≤ code)
    (hcode : code < 2 ^ len) : decodeBits limit src code len out ≠ .fault := by
  have hstart : firstCode 0 + countOf 0 ≤ 0 := by
    have h : (firstTable.getD 0 (0, 0)).1 + (buildCount LENGTHS).getD 0 0 ≤ 0 := by
      rw [firstTable_eq, count_eq]
      decide
    rwa [firstCode, countOf, TABLES_count]
  induction src generalizing code len out with
  | nil =>
    rw [decodeBits]
    split_ifs <;> simp
  | cons bit src ih =>
    obtain ⟨hbit, hsrc⟩ := forall_mem_cons.1 hsrc
    have hor : code <<< 1 ||| bit = 2 * code + bit := by
      rw [Nat.shiftLeft_eq, mul_comm, ← Nat.two_pow_add_eq_or_of_lt (i := 1) (by omega), pow_one]
    have hle : len + 1 ≤ MAX_LEN := hlen
    have hfirst := firstCode_succ hlen
    have hindex := firstIndex_le hle
    rw [decodeBits]
    simp only [hor, getElem?_count hle, TABLES_first_code, TABLES_first_index, getElem?_map,
      getElem?_firstTable hle, orFault_some, ok_bind, map_some]
    by_cases hin : countOf (len + 1) > 0 ∧ 2 * code + bit ≥ firstCode (len + 1) ∧
        2 * code + bit - firstCode (len + 1) < countOf (len + 1)
    · rw [if_pos hin]
      have hlt : firstIndex (len + 1) + (2 * code + bit - firstCode (len + 1)) <
          TABLES.sorted.length := by
        rw [length_sorted]
        omega
      rw [getElem?_eq_getElem hlt, orFault_some, ok_bind]
      split_ifs
      · simp
      · simp
      · exact ih hsrc (by rw [MAX_LEN]; omega) hstart (by simp)
    · rw [if_neg hin]
      have hmore : len + 1 < MAX_LEN := by
        rcases lt_or_eq_of_le hle with h | h
        · exact h
        · have hmax := firstCode_max
          rw [← h] at hmax
          omega
      exact ih hsrc hmore (by omega) (by omega)

lemma decode_ne_fault (src : List UInt8) (limit : ℕ) : decode src limit ≠ .fault := by
  refine decodeBits_ne_fault (fun b hb => ?_) (by rw [MAX_LEN]; omega) ?_ (by simp)
  · obtain ⟨byte, -, hb⟩ := mem_flatMap.1 hb
    obtain ⟨shift, -, rfl⟩ := mem_map.1 hb
    exact Nat.and_lt_two_pow _ (by omega : 1 < 2 ^ 1)
  · rw [firstCode, countOf, TABLES_count]
    rw [firstTable_eq, count_eq]
    decide

end Lazaret.H2.Huffman
