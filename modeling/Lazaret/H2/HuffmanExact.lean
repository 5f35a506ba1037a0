import Lazaret.H2.Huffman

/-!
# What the Huffman decoder accepts

The other half of `decode_encode`: what decodes is a coding, the one that `encode` writes
(`eq_encode_of_decode`).  The code is complete and without prefixes, so the bits read so far are the
codes of the bytes written so far and the start of one more, and what is left over is fewer than
eight ones.
-/

namespace Lazaret.H2.Huffman

open List Outcome

/-! ### The symbol of a code -/

lemma exists_rank {l : List ℕ} {x r : ℕ} (h : r < l.count x) :
    ∃ i < l.length, l.getD i 0 = x ∧ (l.take i).count x = r := by
  induction l generalizing r with
  | nil => exact absurd h (Nat.not_lt_zero r)
  | cons a l ih =>
    rw [count_cons] at h
    by_cases ha : a = x
    · subst ha
      rw [beq_self_eq_true, if_pos rfl] at h
      cases r with
      | zero => exact ⟨0, by simp, rfl, rfl⟩
      | succ r =>
        obtain ⟨i, hi, hx, hr⟩ := ih (Nat.lt_of_succ_lt_succ h)
        refine ⟨i + 1, Nat.succ_lt_succ hi, by rwa [getD_cons_succ], ?_⟩
        rw [take_succ_cons, count_cons_self, hr]
    · have hne : (a == x) = false := beq_eq_false_iff_ne.2 ha
      rw [hne, if_neg (by simp), add_zero] at h
      obtain ⟨i, hi, hx, hr⟩ := ih h
      refine ⟨i + 1, Nat.succ_lt_succ hi, by rwa [getD_cons_succ], ?_⟩
      rw [take_succ_cons, count_cons_of_ne ha, hr]

variable {len : ℕ}

lemma exists_symbol {r : ℕ} (hlen : len ≤ MAX_LEN) (hr : r < countOf len) :
    ∃ s < 257, lengthOf s = len ∧ codeOf s = firstCode len + r ∧
      TABLES.sorted[firstIndex len + r]? = some s := by
  rw [countOf_eq_count hlen] at hr
  obtain ⟨s, hs, hlength, hrank⟩ := exists_rank hr
  rw [length_LENGTHS] at hs
  have hcode := codeOf_eq hs
  have hsorted := sorted_eq hs
  rw [rankOf, show lengthOf s = len from hlength, hrank] at hcode hsorted
  exact ⟨s, hs, hlength, hcode, hsorted⟩

/-! ### What was read -/

variable {code : ℕ}

lemma bits_succ_of_lt {bit : ℕ} (hbit : bit < 2) :
    bits (len + 1) (2 * code + bit) = bits len code ++ [bit] := by
  have hor := bits_or (v := len) (w := 1) (a := code) (b := bit) (by simpa using hbit)
  have hsum : code <<< 1 ||| bit = 2 * code + bit := by
    rw [Nat.shiftLeft_eq, mul_comm, ← Nat.two_pow_add_eq_or_of_lt (i := 1) (by simpa using hbit),
      pow_one]
  rw [hsum] at hor
  rw [hor, bits, bits, pow_zero, Nat.div_one, Nat.mod_eq_of_lt hbit]

lemma length_count : TABLES.count.length = 31 := by
  rw [TABLES_count, count_eq]
  rfl

variable {s : List UInt8} {limit : ℕ} {out : List UInt8}

/-- Bits that decode are, with those of the code begun before them, the codes of what they decode to
and fewer than eight ones. -/
lemma bits_of_decodeBits {src : List ℕ} (hsrc : ∀ b ∈ src, b < 2)
    (h : decodeBits limit src code len out = .ok s) :
    ∃ t pad, s = out ++ t ∧ pad < 8 ∧
      bits len code ++ src = codeBits t ++ replicate pad 1 := by
  induction src generalizing code len out with
  | nil =>
    rw [decodeBits] at h
    split_ifs at h with hpad
    obtain rfl := Outcome.ok.inj h
    rw [not_or, not_lt, not_not, Nat.one_shiftLeft] at hpad
    refine ⟨[], len, (append_nil _).symm, by omega, ?_⟩
    rw [append_nil, hpad.2, bits_ones]
    rfl
  | cons bit src ih =>
    obtain ⟨hbit, hsrc⟩ := forall_mem_cons.1 hsrc
    have hor : code <<< 1 ||| bit = 2 * code + bit := by
      rw [Nat.shiftLeft_eq, mul_comm, ← Nat.two_pow_add_eq_or_of_lt (i := 1) (by omega), pow_one]
    rw [decodeBits] at h
    simp only [hor] at h
    obtain ⟨n, hn, h⟩ := bind_eq_ok.1 h
    have hle : len + 1 ≤ MAX_LEN := by
      have hlt := (List.getElem?_eq_some_iff.1 (orFault_eq_ok.1 hn)).1
      rw [length_count] at hlt
      rw [MAX_LEN]
      omega
    rw [getElem?_count hle, orFault_some, Outcome.ok.injEq] at hn
    simp only [TABLES_first_code, TABLES_first_index, getElem?_map, getElem?_firstTable hle,
      orFault_some, ok_bind, Option.map_some, ← hn] at h
    have hread : bits len code ++ bit :: src = bits (len + 1) (2 * code + bit) ++ src := by
      rw [bits_succ_of_lt hbit, append_assoc, singleton_append]
    rw [hread]
    by_cases hin : countOf (len + 1) > 0 ∧ 2 * code + bit ≥ firstCode (len + 1) ∧
        2 * code + bit - firstCode (len + 1) < countOf (len + 1)
    · -- a whole code: its symbol is written, and the next one begins
      rw [if_pos hin] at h
      obtain ⟨-, hfirst, hrank⟩ := hin
      obtain ⟨x, hx, hlength, hcode, hsorted⟩ := exists_symbol hle hrank
      rw [hsorted, orFault_some, ok_bind] at h
      split_ifs at h with heos hroom
      obtain ⟨t, pad, rfl, hpad, hbits⟩ := ih hsrc h
      have hbyte : (UInt8.ofNat x).toNat = x := by
        rw [UInt8.toNat_ofNat']
        exact Nat.mod_eq_of_lt (by omega)
      refine ⟨UInt8.ofNat x :: t, pad, by simp, hpad, ?_⟩
      rw [bits, nil_append] at hbits
      rw [hbits, codeBits, codeBits, flatMap_cons, hbyte, hlength, hcode,
        Nat.add_sub_cancel' hfirst, append_assoc]
    · rw [if_neg hin] at h
      exact ih hsrc h

lemma bitsOf_lt {src : List UInt8} : ∀ b ∈ src.flatMap bitsOf, b < 2 := by
  intro b hb
  obtain ⟨byte, -, hb⟩ := mem_flatMap.1 hb
  obtain ⟨shift, -, rfl⟩ := mem_map.1 hb
  exact Nat.and_lt_two_pow _ (by omega : 1 < 2 ^ 1)

/-! ### Bytes and their bits -/

lemma length_flatMap_bitsOf (l : List UInt8) : (l.flatMap bitsOf).length = 8 * l.length := by
  induction l with
  | nil => rfl
  | cons b l ih =>
    rw [flatMap_cons, length_append, ih, bitsOf_eq, length_bits, length_cons]
    omega

lemma bits_injective {w m n : ℕ} (hm : m < 2 ^ w) (hn : n < 2 ^ w) (h : bits w m = bits w n) :
    m = n := by
  induction w generalizing m n with
  | zero =>
    rw [pow_zero] at hm hn
    omega
  | succ w ih =>
    have hpos := Nat.two_pow_pos w
    rw [pow_succ] at hm hn
    rw [bits, bits, cons.injEq] at h
    have hlow : m % 2 ^ w = n % 2 ^ w := by
      refine ih (Nat.mod_lt _ hpos) (Nat.mod_lt _ hpos) ?_
      rw [bits_mod le_rfl, bits_mod le_rfl, h.2]
    have hhigh : m / 2 ^ w = n / 2 ^ w := by
      have hm' : m / 2 ^ w < 2 := Nat.div_lt_of_lt_mul hm
      have hn' : n / 2 ^ w < 2 := Nat.div_lt_of_lt_mul hn
      rw [← Nat.mod_eq_of_lt hm', ← Nat.mod_eq_of_lt hn', h.1]
    rw [← Nat.div_add_mod m (2 ^ w), hhigh, hlow, Nat.div_add_mod]

lemma bitsOf_injective : Function.Injective bitsOf := by
  intro a b h
  rw [bitsOf_eq, bitsOf_eq] at h
  exact UInt8.toNat_inj.1 (bits_injective a.toNat_lt b.toNat_lt h)

lemma flatMap_bitsOf_injective : Function.Injective fun l : List UInt8 => l.flatMap bitsOf := by
  intro l
  induction l with
  | nil =>
    intro l' h
    have hlen := congrArg List.length h
    simp only [length_flatMap_bitsOf, length_nil] at hlen
    exact (eq_nil_of_length_eq_zero (by omega)).symm
  | cons a l ih =>
    intro l' h
    cases l' with
    | nil =>
      have hlen := congrArg List.length h
      simp only [length_flatMap_bitsOf, length_nil, length_cons] at hlen
      omega
    | cons b l' =>
      have hlen : (bitsOf a).length = (bitsOf b).length := by
        rw [bitsOf_eq, bitsOf_eq, length_bits, length_bits]
      simp only [flatMap_cons] at h
      obtain ⟨hhead, htail⟩ := append_inj h hlen
      rw [bitsOf_injective hhead, ih htail]

lemma eq_encode_of_decode {b : List UInt8} (h : decode b limit = .ok s) : b = encode s := by
  obtain ⟨t, pad, hs, hpad, hbits⟩ := bits_of_decodeBits bitsOf_lt h
  rw [nil_append] at hs
  subst hs
  obtain ⟨pad', hpad', hbits'⟩ := bitsOf_encodeFrom s 0 (n := 0) (by simp) (by omega)
  rw [bits, nil_append] at hbits hbits'
  have hlen := congrArg List.length hbits
  have hlen' := congrArg List.length hbits'
  simp only [length_append, length_flatMap_bitsOf, length_replicate] at hlen hlen'
  -- both fill up the same codes to whole bytes
  have hsame : pad = pad' := by omega
  refine flatMap_bitsOf_injective ?_
  rw [encode]
  exact hbits.trans (by rw [hsame]; exact hbits'.symm)

/-! ### What is written -/

/-- What `decodeBits` has written when it stops, whatever it returns. -/
def writtenBits (limit : ℕ) : List ℕ → ℕ → ℕ → List UInt8 → List UInt8
  | [], _, _, out => out
  | bit :: src, code, len, out =>
    let code := code <<< 1 ||| bit
    let len := len + 1
    match TABLES.count[len]?, TABLES.first_code[len]? with
    | some n, some first =>
      if n > 0 ∧ code ≥ first ∧ code - first < n then
        match TABLES.first_index[len]?.bind fun index => TABLES.sorted[index + (code - first)]? with
        | some symbol =>
          if symbol = 256 ∨ out.length ≥ limit then out
          else writtenBits limit src 0 0 (out ++ [UInt8.ofNat symbol])
        | none => out
      else writtenBits limit src code len out
    | _, _ => out

/-- What `decode` has appended to its output when it returns, also when it returns an error. -/
def written (src : List UInt8) (limit : ℕ) : List UInt8 :=
  writtenBits limit (src.flatMap bitsOf) 0 0 []

lemma length_writtenBits (src : List ℕ) (code len : ℕ)
    (h : out.length ≤ limit) : (writtenBits limit src code len out).length ≤ limit := by
  induction src generalizing code len out with
  | nil => exact h
  | cons bit src ih =>
    simp only [writtenBits]
    split
    · split_ifs
      · split
        · split_ifs with hstop
          · exact h
          · rw [not_or, not_le] at hstop
            exact ih _ _ (by rw [length_append, length_singleton]; exact hstop.2)
        · exact h
      · exact ih _ _ h
    · exact h

lemma writtenBits_of_ok {src : List ℕ}
    (h : decodeBits limit src code len out = .ok s) : writtenBits limit src code len out = s := by
  induction src generalizing code len out with
  | nil =>
    rw [decodeBits] at h
    split_ifs at h
    exact Outcome.ok.inj h
  | cons bit src ih =>
    rw [decodeBits] at h
    obtain ⟨n, hn, h⟩ := bind_eq_ok.1 h
    obtain ⟨first, hfirst, h⟩ := bind_eq_ok.1 h
    rw [orFault_eq_ok] at hn hfirst
    simp only [writtenBits, hn, hfirst]
    by_cases hin : n > 0 ∧ code <<< 1 ||| bit ≥ first ∧ (code <<< 1 ||| bit) - first < n
    · rw [if_pos hin] at h ⊢
      obtain ⟨index, hindex, h⟩ := bind_eq_ok.1 h
      obtain ⟨symbol, hsymbol, h⟩ := bind_eq_ok.1 h
      rw [orFault_eq_ok] at hindex hsymbol
      simp only [hindex, Option.bind_some, hsymbol]
      split_ifs at h with heos hroom
      rw [if_neg (not_or.2 ⟨heos, hroom⟩)]
      exact ih h
    · rw [if_neg hin] at h ⊢
      exact ih h

/-- The Huffman code is decoded exactly, and decoding stays in its tables and writes no more than it
may. -/
theorem huffman_exact :
    (∀ (s : List UInt8) (limit : ℕ), s.length ≤ limit →
      decode (encode s) limit = .ok s ∧ (encode s).length = encodedLen s) ∧
    (∀ (b s : List UInt8) (limit : ℕ), decode b limit = .ok s → b = encode s) ∧
    ∀ (b : List UInt8) (limit : ℕ), decode b limit ≠ .fault ∧ (written b limit).length ≤ limit ∧
      ∀ s, decode b limit = .ok s → s = written b limit := by
  refine ⟨fun s limit hlimit => ⟨decode_encode s hlimit, length_encode s⟩,
    fun b s limit h => eq_encode_of_decode h, fun b limit => ⟨decode_ne_fault b limit, ?_, ?_⟩⟩
  · exact length_writtenBits _ 0 0 (Nat.zero_le _)
  · intro s h
    exact (writtenBits_of_ok h).symm

end Lazaret.H2.Huffman
