import Lazaret.Lib.CanonicalCode
import Lazaret.Lib.Loop
import Lazaret.Lib.Outcome

/-!
# The Huffman tables of the inflater

How `inflate.rs` builds a canonical Huffman code from the lengths of its codes (`Huff::build`), and
how a code is looked for at the start of a bit buffer: in a table indexed by the next ten bits
(`Huff::lookup`), and a bit at a time where that has nothing (`Huff::slow`).  An array is a function
on its indices, and an index outside of it panics (`get`, `put`).

`Huff::build` succeeds exactly when the Kraft sum is at most one, and then the counts, the symbols
in the order of their codes and the table of the short codes are those of the canonical code
(`Holds`).
-/

namespace Lazaret.Inflate

inductive Error
  | Corrupt (what : String)
  | Truncated
  | Checksum (what : String)
  | OutputLimit (limit : ℕ)
  | RatioLimit (ratio : ℕ)
  | Unsupported (what : String)
deriving DecidableEq

def FAST_BITS : ℕ := 10

inductive Lookup
  | Found (symbol bits : ℕ)
  | More
  | Bad
deriving DecidableEq

abbrev Table (n : ℕ) := Fin n → ℕ

section Tables

variable {n : ℕ}

def get (a : Table n) (i : ℕ) : Outcome Error ℕ := if h : i < n then .ok (a ⟨i, h⟩) else .fault

def put (a : Table n) (i x : ℕ) : Outcome Error (Table n) :=
  if h : i < n then .ok (Function.update a ⟨i, h⟩ x) else .fault

end Tables

structure Huff where
  /-- Indexed by the next bits of input: the length and the symbol, or 0. -/
  fast : Table 1024
  count : Table 16
  symbol : Table 288
  maxLen : ℕ

def Huff.new : Huff := ⟨fun _ => 0, fun _ => 0, fun _ => 0, 0⟩

/-! ## Building -/

def countLengths (lens : List ℕ) : Outcome Error (Table 16) :=
  lens.foldlM (fun count l => do put count l ((← get count l) + 1)) fun _ => 0

def longest (count : Table 16) : ℕ :=
  ((List.range' 1 15).reverse.find? fun l => count (Fin.ofNat 16 l) ≠ 0).getD 0

/-- How many words of each length are left, from the first length up to the last one. -/
def leftOver (count : Table 16) (lengths : List ℕ) : Outcome Error ℤ :=
  lengths.foldlM (fun left len => do
    let left := left * 2 - (← get count len)
    if left < 0 then .err (.Corrupt "over-subscribed Huffman code") else .ok left) 1

/-- Where the symbols of each length start, and the first code of each length. -/
structure Starts where
  offs : Table 17
  nextCode : Table 17
  code : ℕ

def starts (count : Table 16) (lengths : List ℕ) : Outcome Error Starts :=
  lengths.foldlM (fun s len => do
    let offs ← put s.offs (len + 1) ((← get s.offs len) + (← get count len))
    let code := (s.code + (← get count (len - 1))) <<< 1
    let nextCode ← put s.nextCode len code
    .ok ⟨offs, nextCode, code⟩) ⟨fun _ => 0, fun _ => 0, 0⟩

/-- The first bit of a code is the last of its bits in the buffer. -/
def reversed (c l : ℕ) : ℕ := ((BitVec.ofNat 32 c).reverse >>> (32 - l)).toNat

/-- The loop that puts an entry at every `2 ^ l`-th index. -/
def strideLoop (l entry : ℕ) : Loop (ℕ × Table 1024) (Table 1024) where
  turn p :=
    if h : p.1 < 1 <<< FAST_BITS then .inl (p.1 + 1 <<< l, Function.update p.2 ⟨p.1, h⟩ entry)
    else .inr p.2
  measure p := 1024 - p.1
  progress := by
    intro p p' h
    split at h
    next hlt =>
      obtain rfl := Sum.inl.inj h
      have hpos : 0 < 1 <<< l := by
        rw [Nat.one_shiftLeft]
        exact Nat.two_pow_pos l
      have hlt : p.1 < 1024 := hlt
      show 1024 - (p.1 + 1 <<< l) < 1024 - p.1
      omega
    · cases h

structure Filling where
  symbol : Table 288
  fast : Table 1024
  offs : Table 17
  nextCode : Table 17

def fillSymbol (f : Filling) (l sym : ℕ) : Outcome Error Filling :=
  if l ≠ 0 then do
    let o ← get f.offs l
    let symbol ← put f.symbol o sym
    let offs ← put f.offs l (o + 1)
    let c ← get f.nextCode l
    let nextCode ← put f.nextCode l (c + 1)
    if l ≤ FAST_BITS then
      let fast := (strideLoop l (l <<< 9 ||| sym)).run (reversed c l, f.fast)
      .ok ⟨symbol, fast, offs, nextCode⟩
    else .ok ⟨symbol, f.fast, offs, nextCode⟩
  else .ok f

/-- `Huff::build`: the code of the lengths, and whether it is complete. -/
def build (self : Huff) (lens : List ℕ) : Outcome Error (Bool × Huff) := do
  let counted ← countLengths lens
  let count := Function.update counted 0 0
  let left ← leftOver count (List.range' 1 15)
  let s ← starts count (List.range' 1 15)
  let f ← lens.zipIdx.foldlM (fun f p => fillSymbol f p.1 p.2)
    ⟨self.symbol, fun _ => 0, s.offs, s.nextCode⟩
  .ok (left = 0, ⟨f.fast, count, f.symbol, longest count⟩)

/-! ## Looking for a code -/

/-- The loop of `slow`, over the lengths that are left. -/
def slowFrom (self : Huff) (buf : BitVec 64) (cnt : ℕ) :
    List ℕ → (code first index : ℕ) → Outcome Error Lookup
  | [], _, _, _ => .ok .Bad
  | len :: lengths, code, first, index =>
    if len > cnt then .ok .More
    else do
      let code := code ||| (buf >>> (len - 1) &&& 1).toNat
      let c ← get self.count len
      if (code : ℤ) - c < first then
        -- a negative index panics, as one that is too large does
        let i : ℤ := index + (code - first)
        if i < 0 then .fault else .ok (.Found (← get self.symbol i.toNat) len)
      else slowFrom self buf cnt lengths (code <<< 1) ((first + c) <<< 1) (index + c)

def slow (self : Huff) (buf : BitVec 64) (cnt : ℕ) : Outcome Error Lookup :=
  slowFrom self buf cnt (List.range' 1 self.maxLen) 0 0 0

def lookup (self : Huff) (buf : BitVec 64) (cnt : ℕ) : Outcome Error Lookup := do
  let e ← get self.fast (buf &&& (1 <<< FAST_BITS - 1)).toNat
  let l := e >>> 9
  if l ≠ 0 then .ok (if l ≤ cnt then .Found (e &&& 0x1ff) l else .More)
  else slow self buf cnt

open CanonicalCode (Has used first before rank code codeword bits word value)

variable {lens : List ℕ}

/-! ## Arrays -/

section Tables

variable {n : ℕ} {a : Table n} {i x : ℕ}

lemma get_of_lt (h : i < n) : get a i = .ok (a ⟨i, h⟩) := dif_pos h

lemma put_of_lt (h : i < n) : put a i x = .ok (Function.update a ⟨i, h⟩ x) := dif_pos h

lemma update_apply (h : i < n) (j : Fin n) :
    Function.update a ⟨i, h⟩ x j = if j.val = i then x else a j := by
  rw [Function.update_apply]
  simp only [Fin.ext_iff]

end Tables

/-! ## The counts -/

lemma countLengths_eq (h : ∀ l ∈ lens, l < 16) :
    countLengths lens = .ok fun i => lens.count i.val := by
  obtain ⟨c, hc, hinv⟩ := Outcome.foldlM_inv (l := lens)
    (f := fun count l => do put count l ((← get count l) + 1))
    (fun pre (count : Table 16) => ∀ i, count i = pre.count i.val)
    (fun pre l post count hl hinv => by
      have hlt : l < 16 := h l (hl ▸ List.mem_append_right _ List.mem_cons_self)
      refine ⟨_, by rw [get_of_lt hlt, Outcome.ok_bind, put_of_lt hlt], ?_⟩
      intro i
      rw [update_apply, List.count_append, List.count_singleton, hinv, hinv]
      by_cases hi : i.val = l
      · simp [hi]
      · simp [hi, Ne.symm hi])
    (s := fun _ => 0) (fun i => by rw [List.count_nil])
  rw [countLengths, hc]
  exact congrArg Outcome.ok (funext hinv)

def counts (lens : List ℕ) : Table 16 := fun i => CanonicalCode.count lens i.val

lemma update_counts : Function.update (fun i : Fin 16 => lens.count i.val) 0 0 = counts lens := by
  ext i
  rw [Function.update_apply, counts, CanonicalCode.count]
  by_cases hi : i = 0
  · rw [if_pos hi, if_pos (by rw [hi]; rfl)]
  · rw [if_neg hi, if_neg (show ¬ i.val = 0 from fun h => hi (Fin.ext h))]

lemma get_counts {l : ℕ} (h : l < 16) : get (counts lens) l = .ok (CanonicalCode.count lens l) :=
  get_of_lt h

/-! ## What is left over -/

lemma leftOver_eq {k : ℕ} (hk : k ≤ 15) :
    leftOver (counts lens) (List.range' 1 k) =
      if used lens k ≤ 2 ^ k then .ok (2 ^ k - used lens k)
      else .err (.Corrupt "over-subscribed Huffman code") := by
  induction k with
  | zero => rw [if_pos (by simp [used, first, CanonicalCode.count])]; rfl
  | succ k ih =>
    have ih := ih (by omega)
    rw [leftOver] at ih
    rw [leftOver, List.range'_1_concat, List.foldlM_append, ih]
    have hsucc : used lens (k + 1) = 2 * used lens k + CanonicalCode.count lens (k + 1) :=
      CanonicalCode.used_succ k
    by_cases hle : used lens k ≤ 2 ^ k
    · rw [if_pos hle, Outcome.ok_bind, List.foldlM_cons, add_comm 1 k,
        get_counts (by omega), Outcome.ok_bind]
      have hleft : ((2 ^ k - used lens k : ℤ)) * 2 - CanonicalCode.count lens (k + 1) =
          2 ^ (k + 1) - used lens (k + 1) := by
        rw [hsucc, pow_succ]
        push_cast
        ring
      rw [hleft]
      by_cases hle' : used lens (k + 1) ≤ 2 ^ (k + 1)
      · have hcast : (used lens (k + 1) : ℤ) ≤ 2 ^ (k + 1) := by exact_mod_cast hle'
        rw [if_pos hle', if_neg (by omega)]
        rfl
      · have hcast : ¬ (used lens (k + 1) : ℤ) ≤ 2 ^ (k + 1) := by exact_mod_cast hle'
        rw [if_neg hle', if_pos (by omega)]
        rfl
    · -- too many words are begun already
      rw [if_neg hle, if_neg (by omega)]
      rfl

/-! ## Where the symbols start -/

lemma starts_eq {k : ℕ} (hk : k ≤ 15) :
    ∃ s, starts (counts lens) (List.range' 1 k) = .ok s ∧
      (∀ i : Fin 17, i.val ≤ k + 1 → s.offs i = before lens i.val) ∧
      (∀ i : Fin 17, i.val ≤ k → s.nextCode i = first lens i.val) ∧ s.code = first lens k := by
  induction k with
  | zero =>
    refine ⟨_, rfl, ?_, ?_, rfl⟩
    · intro i hi
      have h01 : i.val = 0 ∨ i.val = 1 := by omega
      rcases h01 with h | h <;> rw [h] <;> rfl
    · intro i hi
      rw [Nat.le_zero.1 hi]
      rfl
  | succ k ih =>
    obtain ⟨s, hs, hoffs, hnext, hcode⟩ := ih (by omega)
    rw [starts] at hs
    rw [starts, List.range'_1_concat, List.foldlM_append, hs, Outcome.ok_bind, List.foldlM_cons,
      add_comm 1 k, get_of_lt (show k + 1 < 17 by omega), Outcome.ok_bind,
      get_counts (show k + 1 < 16 by omega), Outcome.ok_bind,
      put_of_lt (show k + 1 + 1 < 17 by omega),
      Outcome.ok_bind, Nat.add_sub_cancel, get_counts (show k < 16 by omega), Outcome.ok_bind]
    dsimp only
    rw [put_of_lt (show k + 1 < 17 by omega)]
    have hfirst : (s.code + CanonicalCode.count lens k) <<< 1 = first lens (k + 1) := by
      rw [hcode, first, Nat.shiftLeft_eq, pow_one]
    refine ⟨_, rfl, ?_, ?_, hfirst⟩
    · intro i hi
      show Function.update s.offs _ _ i = _
      rw [update_apply, hoffs ⟨k + 1, _⟩ le_rfl]
      split
      next heq => rw [heq]; rfl
      next hne => exact hoffs i (by omega)
    · intro i hi
      show Function.update s.nextCode _ _ i = _
      rw [update_apply, hfirst]
      split
      next heq => rw [heq]
      next hne => exact hnext i (by omega)

/-! ## The table of the short codes -/

lemma testBit_reversed {c l : ℕ} (hl : l ≤ 32) (i : ℕ) :
    (reversed c l).testBit i = (decide (i < l) && c.testBit (l - 1 - i)) := by
  rw [reversed, BitVec.testBit_toNat, BitVec.getLsbD_ushiftRight, BitVec.getLsbD_reverse,
    BitVec.getMsbD_eq_getLsbD, BitVec.getLsbD_ofNat]
  by_cases hi : i < l
  · rw [decide_eq_true hi, decide_eq_true (show 32 - l + i < 32 by omega),
      decide_eq_true (show 32 - 1 - (32 - l + i) < 32 by omega),
      show 32 - 1 - (32 - l + i) = l - 1 - i by omega, Bool.true_and]
  · rw [decide_eq_false hi, decide_eq_false (show ¬ 32 - l + i < 32 by omega), Bool.false_and,
      Bool.false_and]

lemma bits_eq_word_iff {n c l : ℕ} (hl : l ≤ 32) : bits n l = word l c ↔ n % 2 ^ l = reversed c l :=
  CanonicalCode.bits_eq_word_iff (testBit_reversed hl)

lemma reversed_lt {c l : ℕ} (hl : l ≤ 32) : reversed c l < 2 ^ l := by
  refine Nat.lt_pow_two_of_testBit _ fun i hi => ?_
  rw [testBit_reversed hl, decide_eq_false (by omega), Bool.false_and]

lemma strideLoop_run (l entry : ℕ) (p : ℕ × Table 1024) (i : Fin 1024) :
    (strideLoop l entry).run p i =
      if p.1 ≤ i.val ∧ i.val % 2 ^ l = p.1 % 2 ^ l then entry else p.2 i := by
  refine Loop.relate (fun p (r : Table 1024) => r i = if p.1 ≤ i.val ∧
    i.val % 2 ^ l = p.1 % 2 ^ l then entry
    else p.2 i) ?_ ?_ p
  · intro p p' r hturn hr
    rw [strideLoop] at hturn
    dsimp only at hturn
    split at hturn
    next hlt =>
      obtain rfl := Sum.inl.inj hturn
      have hlt : p.1 < 1024 := hlt
      refine hr.trans ?_
      show (if p.1 + 1 <<< l ≤ i.val ∧ i.val % 2 ^ l = (p.1 + 1 <<< l) % 2 ^ l then entry
        else Function.update p.2 ⟨p.1, hlt⟩ entry i) = _
      rw [Nat.one_shiftLeft, Nat.add_mod_right, update_apply]
      by_cases hmod : i.val % 2 ^ l = p.1 % 2 ^ l
      · -- of the indices before the next turn's only this turn's leaves the same
        have hnext : p.1 + 2 ^ l ≤ i.val ∨ i.val = p.1 ↔ p.1 ≤ i.val := by
          constructor
          · omega
          · intro hle
            by_cases hfar : p.1 + 2 ^ l ≤ i.val
            · exact .inl hfar
            · have hdvd := Nat.dvd_of_mod_eq_zero (Nat.sub_mod_eq_zero_of_mod_eq hmod)
              have hzero := Nat.eq_zero_of_dvd_of_lt hdvd (by omega)
              exact .inr (by omega)
        by_cases hle : p.1 ≤ i.val
        · rw [if_pos (And.intro hle hmod)]
          rcases hnext.2 hle with hfar | heq
          · rw [if_pos (And.intro hfar hmod)]
          · rw [if_pos heq, ite_self]
        · rw [if_neg (fun h => hle (hnext.1 (.inl h.1))), if_neg (fun h => hle h.ge),
            if_neg (fun h => hle h.1)]
      · rw [if_neg (fun h => hmod h.2),
          if_neg (fun h : i.val = p.1 => hmod (congrArg (· % 2 ^ l) h)), if_neg (fun h => hmod h.2)]
    · cases hturn
  · intro p r hturn
    rw [strideLoop] at hturn
    dsimp only at hturn
    split at hturn
    · cases hturn
    next hge =>
      obtain rfl := Sum.inr.inj hturn
      have hge : ¬ p.1 < 1024 := hge
      rw [if_neg (by have := i.isLt; omega)]

lemma fill_run {c l entry : ℕ} (hl : l ≤ 32) (fast : Table 1024) (i : Fin 1024) :
    (strideLoop l entry).run (reversed c l, fast) i =
      if bits i.val l = word l c then entry else fast i := by
  rw [strideLoop_run, Nat.mod_eq_of_lt (reversed_lt hl)]
  have hiff : reversed c l ≤ i.val ∧ i.val % 2 ^ l = reversed c l ↔ bits i.val l = word l c := by
    rw [bits_eq_word_iff hl]
    exact ⟨fun h => h.2, fun h => ⟨h ▸ Nat.mod_le _ _, h⟩⟩
  exact if_congr hiff rfl rfl

/-! ## Filling -/

structure Filled (lens : List ℕ) (n : ℕ) (f : Filling) : Prop where
  offs : ∀ i : Fin 17, 0 < i.val → i.val < 16 → f.offs i = before lens i.val + rank lens n i.val
  nextCode : ∀ i : Fin 17, 0 < i.val → i.val < 16 → f.nextCode i = code lens n i.val
  symbol : ∀ s l, s < n → Has lens s l → get f.symbol (before lens l + rank lens s l) = .ok s
  found : ∀ (i : Fin 1024) (s l : ℕ), s < n → Has lens s l → l ≤ FAST_BITS →
    bits i.val l = codeword lens s l → f.fast i = l <<< 9 ||| s
  none : ∀ i : Fin 1024, (∀ s l, s < n → Has lens s l → l ≤ FAST_BITS →
    bits i.val l ≠ codeword lens s l) → f.fast i = 0

lemma eq_of_bits {s l s' l' i : ℕ} (h : Has lens s l) (h' : Has lens s' l') {L : ℕ} (hl : l ≤ L)
    (hl' : l' ≤ L) (hused : used lens L ≤ 2 ^ L) (hbits : bits i l = codeword lens s l)
    (hbits' : bits i l' = codeword lens s' l') : s = s' ∧ l = l' := by
  have hvalue : ∀ {s l}, Has lens s l → l ≤ L → bits i l = codeword lens s l →
      value ((bits i L).take l) = code lens s l := by
    intro s l h hl hbits
    rw [CanonicalCode.take_bits hl, hbits, codeword, CanonicalCode.value_word (h.code_lt hl hused)]
  refine CanonicalCode.eq_of_prefix h h' ?_ ?_ (hvalue h hl hbits) (hvalue h' hl' hbits')
  · rw [CanonicalCode.length_bits]
    exact hl
  · rw [CanonicalCode.length_bits]
    exact hl'

lemma Filled.skip {n : ℕ} {f : Filling} (hf : Filled lens n f) (hn : lens[n]? = some 0) :
    Filled lens (n + 1) f := by
  have hrank : ∀ k, 0 < k → rank lens (n + 1) k = rank lens n k := by
    intro k hk
    rw [rank, CanonicalCode.rank_succ hn, if_neg hk.ne]
    rfl
  -- the symbols that have a code are the same
  have hlt : ∀ {s l}, s < n + 1 → Has lens s l → s < n := by
    intro s l hs h
    refine lt_of_le_of_ne (by omega) ?_
    rintro rfl
    exact h.2 (Option.some.inj (h.1.symm.trans hn))
  refine ⟨?_, ?_, ?_, ?_, ?_⟩
  · intro i hi hi'
    rw [hf.offs i hi hi', hrank _ hi]
  · intro i hi hi'
    rw [hf.nextCode i hi hi', code, code, hrank _ hi]
  · exact fun s l hs h => hf.symbol s l (hlt hs h) h
  · exact fun i s l hs h => hf.found i s l (hlt hs h) h
  · exact fun i hnone => hf.none i fun s l hs h => hnone s l (by omega) h

lemma fillSymbol_spec {n l : ℕ} {f : Filling} (hf : Filled lens n f) (hn : lens[n]? = some l)
    (hl : l < 16) (hlen : lens.length ≤ 288) (hused : used lens 15 ≤ 2 ^ 15) :
    ∃ f', fillSymbol f l n = .ok f' ∧ Filled lens (n + 1) f' := by
  by_cases hzero : l = 0
  · subst hzero
    exact ⟨f, if_neg (by simp), hf.skip hn⟩
  have hnew : Has lens n l := ⟨hn, hzero⟩
  have hplace : before lens l + rank lens n l < 288 := hnew.place_lt.trans_le hlen
  have hoffs : f.offs ⟨l, by omega⟩ = before lens l + rank lens n l :=
    hf.offs ⟨l, by omega⟩ (pos_of_ne_zero hzero) hl
  have hnext : f.nextCode ⟨l, by omega⟩ = code lens n l :=
    hf.nextCode ⟨l, by omega⟩ (pos_of_ne_zero hzero) hl
  have hrank : ∀ k, rank lens (n + 1) k = rank lens n k + if l = k then 1 else 0 :=
    CanonicalCode.rank_succ hn
  have hlast : ∀ {s}, s < n + 1 → s < n ∨ s = n := by
    intro s hs
    omega
  -- the same for all lengths: the order, the place and the code of the next symbol
  have hfilled : ∀ fast, (∀ (i : Fin 1024) (s l : ℕ), s < n + 1 → Has lens s l → l ≤ FAST_BITS →
        bits i.val l = codeword lens s l → fast i = l <<< 9 ||| s) →
      (∀ i : Fin 1024, (∀ s l, s < n + 1 → Has lens s l → l ≤ FAST_BITS →
        bits i.val l ≠ codeword lens s l) → fast i = 0) →
      Filled lens (n + 1) ⟨Function.update f.symbol ⟨before lens l + rank lens n l, hplace⟩ n, fast,
        Function.update f.offs ⟨l, by omega⟩ (before lens l + rank lens n l + 1),
        Function.update f.nextCode ⟨l, by omega⟩ (code lens n l + 1)⟩ := by
    intro fast hfound hnone
    refine ⟨?_, ?_, ?_, hfound, hnone⟩
    · intro i hi hi'
      show Function.update f.offs _ _ i = _
      rw [update_apply, hrank]
      by_cases heq : i.val = l
      · rw [if_pos heq, if_pos heq.symm, heq, add_assoc]
      · rw [if_neg heq, if_neg (Ne.symm heq), hf.offs i hi hi', add_zero]
    · intro i hi hi'
      show Function.update f.nextCode _ _ i = _
      have hcode : code lens (n + 1) i.val = code lens n i.val + if l = i.val then 1 else 0 := by
        rw [code, hrank, ← add_assoc]
        rfl
      rw [update_apply, hcode]
      by_cases heq : i.val = l
      · rw [if_pos heq, if_pos heq.symm, heq]
      · rw [if_neg heq, if_neg (Ne.symm heq), hf.nextCode i hi hi', add_zero]
    · intro s k hs h
      have hk : before lens k + rank lens s k < 288 := h.place_lt.trans_le hlen
      show get (Function.update f.symbol _ _) _ = _
      rw [get_of_lt hk, update_apply]
      rcases hlast hs with hold | rfl
      · have hne : before lens k + rank lens s k ≠ before lens l + rank lens n l := fun heq =>
          hold.ne (h.place_inj hnew heq)
        have hsymbol := hf.symbol s k hold h
        rw [get_of_lt hk] at hsymbol
        rw [if_neg hne]
        exact hsymbol
      · obtain rfl : k = l := Option.some.inj (h.1.symm.trans hn)
        rw [if_pos rfl]
  rw [fillSymbol, if_pos hzero, get_of_lt (show l < 17 by omega), Outcome.ok_bind, hoffs,
    put_of_lt hplace, Outcome.ok_bind, put_of_lt (show l < 17 by omega), Outcome.ok_bind,
    get_of_lt (show l < 17 by omega), Outcome.ok_bind, hnext, put_of_lt (show l < 17 by omega),
    Outcome.ok_bind]
  by_cases hfast : l ≤ FAST_BITS
  · rw [if_pos hfast]
    refine ⟨_, rfl, hfilled _ ?_ ?_⟩
    · intro i s k hs h hk hbits
      rw [fill_run (by omega), ← codeword]
      rcases hlast hs with hold | rfl
      · rw [if_neg, hf.found i s k hold h hk hbits]
        intro hbits'
        have hk : k ≤ 15 := le_trans hk (by decide)
        exact hold.ne (eq_of_bits h hnew hk (by omega) hused hbits hbits').1
      · obtain rfl : k = l := Option.some.inj (h.1.symm.trans hn)
        rw [if_pos hbits]
    · intro i hnone
      rw [fill_run (by omega), ← codeword, if_neg (hnone n l (by omega) hnew hfast)]
      exact hf.none i fun s k hs => hnone s k (by omega)
  · rw [if_neg hfast]
    refine ⟨_, rfl, hfilled _ ?_ ?_⟩
    · intro i s k hs h hk hbits
      rcases hlast hs with hold | rfl
      · exact hf.found i s k hold h hk hbits
      · exact absurd (Option.some.inj (h.1.symm.trans hn) ▸ hk) hfast
    · exact fun i hnone => hf.none i fun s k hs => hnone s k (by omega)

lemma fill_spec (self : Table 288) {s : Starts} (hlen : lens.length ≤ 288)
    (hlens : ∀ l ∈ lens, l < 16) (hused : used lens 15 ≤ 2 ^ 15)
    (hoffs : ∀ i : Fin 17, i.val ≤ 16 → s.offs i = before lens i.val)
    (hnext : ∀ i : Fin 17, i.val ≤ 15 → s.nextCode i = first lens i.val) :
    ∃ f, lens.zipIdx.foldlM (fun f p => fillSymbol f p.1 p.2)
        ⟨self, fun _ => 0, s.offs, s.nextCode⟩ = .ok f ∧ Filled lens lens.length f := by
  have hrun := Outcome.foldlM_inv (l := lens.zipIdx) (f := fun f p => fillSymbol f p.1 p.2)
    (fun pre f => Filled lens pre.length f) ?_ (s := ⟨self, fun _ => 0, s.offs, s.nextCode⟩) ?_
  · rwa [List.length_zipIdx] at hrun
  · intro pre p post f hsplit hf
    have hp : lens.zipIdx[pre.length]? = some p := by
      rw [hsplit, List.getElem?_append_right le_rfl, Nat.sub_self, List.getElem?_cons_zero]
    rw [List.getElem?_zipIdx, Option.map_eq_some_iff] at hp
    obtain ⟨l, hl, rfl⟩ := hp
    rw [List.length_append, List.length_singleton, zero_add]
    exact fillSymbol_spec hf hl (hlens l (List.mem_of_getElem? hl)) hlen hused
  · -- no symbol yet
    have hrank : ∀ k, rank lens 0 k = 0 := by
      intro k
      rw [rank, List.take_zero, List.count_nil]
    refine ⟨?_, ?_, ?_, ?_, ?_⟩
    · intro i _ hi
      show s.offs i = _
      rw [List.length_nil, hrank, hoffs i (by omega), add_zero]
    · intro i _ hi
      show s.nextCode i = _
      rw [List.length_nil, code, hrank, hnext i (by omega), add_zero]
    · exact fun s l hs => absurd hs (Nat.not_lt_zero s)
    · exact fun i s l hs => absurd hs (Nat.not_lt_zero s)
    · exact fun i _ => rfl

/-! ## The tables -/

/-- Tables that hold the canonical code of the lengths. -/
structure Holds (lens : List ℕ) (h : Huff) : Prop where
  count : h.count = counts lens
  longest : h.maxLen = longest (counts lens)
  symbol : ∀ s l, Has lens s l → get h.symbol (before lens l + rank lens s l) = .ok s
  found : ∀ (i : Fin 1024) (s l : ℕ), Has lens s l → l ≤ FAST_BITS →
    bits i.val l = codeword lens s l → h.fast i = l <<< 9 ||| s
  none : ∀ i : Fin 1024, (∀ s l, Has lens s l → l ≤ FAST_BITS →
    bits i.val l ≠ codeword lens s l) → h.fast i = 0

theorem build_eq (self : Huff) (hlen : lens.length ≤ 288) (hlens : ∀ l ∈ lens, l < 16) :
    (used lens 15 ≤ 2 ^ 15 → ∃ h, build self lens = .ok (used lens 15 = 2 ^ 15, h) ∧ Holds lens h) ∧
      (¬ used lens 15 ≤ 2 ^ 15 →
        build self lens = .err (.Corrupt "over-subscribed Huffman code")) := by
  rw [build, countLengths_eq hlens, Outcome.ok_bind]
  dsimp only
  rw [update_counts, leftOver_eq le_rfl]
  constructor
  · intro hused
    obtain ⟨s, hs, hoffs, hnext, -⟩ := @starts_eq lens 15 le_rfl
    obtain ⟨f, hf, hfilled⟩ := fill_spec self.symbol hlen hlens hused hoffs hnext
    rw [if_pos hused, Outcome.ok_bind, hs, Outcome.ok_bind, hf, Outcome.ok_bind]
    have hcomplete : ((2 : ℤ) ^ 15 - used lens 15 = 0) ↔ used lens 15 = 2 ^ 15 := by
      omega
    rw [decide_eq_decide.2 hcomplete]
    exact ⟨_, rfl, rfl, rfl, fun s l h => hfilled.symbol s l h.lt h,
      fun i s l h => hfilled.found i s l h.lt h,
      fun i hnone => hfilled.none i fun s l _ => hnone s l⟩
  · intro hused
    rw [if_neg hused]
    rfl

end Lazaret.Inflate
