import Lazaret.Lib.Words
import Mathlib.Data.Nat.ModEq
import Mathlib.Tactic.Linarith

/-!
# The checksums of the inflater

CRC-32 eight bytes at a time, by eight tables, and Adler-32 with its sums reduced every `NMAX`
bytes.  Continued over the pieces of a text in order they give what their definitions give for the
whole: a shift register that takes one bit at a time, and two sums without bound
(`checksums_continue`).
-/

namespace Lazaret.Inflate

open BitVec List Function

open Words (fits)

/-! ### CRC-32 -/

/-- One turn of the loop that fills the first table. -/
def crcStep (c : BitVec 32) : BitVec 32 :=
  if c &&& 1#32 ≠ 0#32 then 0xEDB88320#32 ^^^ (c >>> 1) else c >>> 1

def crcTable : ℕ → BitVec 32 → BitVec 32
  | 0, i => crcStep^[8] i
  | j + 1, i =>
    let c := crcTable j i
    crcTable 0 (c &&& 0xff#32) ^^^ (c >>> 8)

/-- The loops of `crc32`: eight bytes at a time, then one at a time. -/
def crcLoop (c : BitVec 32) : List UInt8 → BitVec 32
  | d₀ :: d₁ :: d₂ :: d₃ :: d₄ :: d₅ :: d₆ :: d₇ :: data =>
    let lo := (d₃.toBitVec ++ d₂.toBitVec ++ d₁.toBitVec ++ d₀.toBitVec : BitVec 32) ^^^ c
    let hi := (d₇.toBitVec ++ d₆.toBitVec ++ d₅.toBitVec ++ d₄.toBitVec : BitVec 32)
    crcLoop (crcTable 7 (lo &&& 0xff#32) ^^^ crcTable 6 ((lo >>> 8) &&& 0xff#32) ^^^
      crcTable 5 ((lo >>> 16) &&& 0xff#32) ^^^ crcTable 4 (lo >>> 24) ^^^
      crcTable 3 (hi &&& 0xff#32) ^^^ crcTable 2 ((hi >>> 8) &&& 0xff#32) ^^^
      crcTable 1 ((hi >>> 16) &&& 0xff#32) ^^^ crcTable 0 (hi >>> 24)) data
  | data => data.foldl
    (fun c b => crcTable 0 ((c ^^^ b.toBitVec.setWidth 32) &&& 0xff#32) ^^^ (c >>> 8)) c

def crc32 (crc : BitVec 32) (data : List UInt8) : BitVec 32 := ~~~crcLoop (~~~crc) data

def shiftIn (c : BitVec 32) (bit : Bool) : BitVec 32 :=
  if c.getLsbD 0 ^^ bit then 0xEDB88320#32 ^^^ (c >>> 1) else c >>> 1

def bitsOf (b : UInt8) : List Bool := (List.range 8).map b.toBitVec.getLsbD

/-- CRC-32 by its definition: a bit at a time through the register, which starts and ends
inverted. -/
def crc32Of (data : List UInt8) : BitVec 32 :=
  ~~~(data.flatMap bitsOf).foldl shiftIn (~~~0)

variable {x y : BitVec 32}

/-- What comes back into the register when a bit leaves it. -/
def feedback (bit : Bool) : BitVec 32 := if bit then 0xEDB88320#32 else 0#32

lemma feedback_xor (a b : Bool) : feedback (a ^^ b) = feedback a ^^^ feedback b := by
  cases a <;> cases b <;> rfl

lemma shiftIn_eq (c : BitVec 32) (bit : Bool) :
    shiftIn c bit = (c >>> 1) ^^^ feedback (c.getLsbD 0 ^^ bit) := by
  rw [shiftIn, feedback]
  split
  · exact BitVec.xor_comm _ _
  · exact BitVec.xor_zero.symm

lemma crcStep_eq (x : BitVec 32) : crcStep x = (x >>> 1) ^^^ feedback (x.getLsbD 0) := by
  rw [crcStep, and_one_eq_setWidth_ofBool_getLsbD]
  cases x.getLsbD 0
  · exact BitVec.xor_zero.symm
  · exact BitVec.xor_comm _ _

lemma crcStep_xor (x y : BitVec 32) : crcStep (x ^^^ y) = crcStep x ^^^ crcStep y := by
  simp only [crcStep_eq, ushiftRight_xor_distrib, getLsbD_xor, feedback_xor]
  ac_rfl

lemma iterate_crcStep_xor (n : ℕ) (x y : BitVec 32) :
    crcStep^[n] (x ^^^ y) = crcStep^[n] x ^^^ crcStep^[n] y := by
  induction n generalizing x y with
  | zero => rfl
  | succ n ih => rw [iterate_succ_apply, crcStep_xor, ih]; rfl

lemma iterate_crcStep_shiftLeft {n : ℕ} (hx : ∀ i, 32 - n ≤ i → x.getLsbD i = false) :
    crcStep^[n] (x <<< n) = x := by
  induction n with
  | zero => exact shiftLeft_zero x
  | succ n ih =>
    have hlow : (x <<< (n + 1)).getLsbD 0 = false := by simp
    have hstep : crcStep (x <<< (n + 1)) = x <<< n := by
      rw [crcStep_eq, hlow, show feedback false = 0#32 from rfl, BitVec.xor_zero]
      refine eq_of_getLsbD_eq fun i hi => ?_
      have := hx (i - n)
      simp only [getLsbD_ushiftRight, getLsbD_shiftLeft]
      grind
    rw [iterate_succ_apply, hstep, ih fun i hi => hx i (by omega)]

lemma low_xor_high (x : BitVec 32) : (x &&& 0xff#32) ^^^ ((x >>> 8) <<< 8) = x := by
  rw [show 0xff#32 = (BitVec.allOnes 8).setWidth 32 from rfl]
  refine eq_of_getLsbD_eq fun i hi => ?_
  simp only [getLsbD_xor, getLsbD_and, getLsbD_setWidth,
    getLsbD_allOnes, getLsbD_shiftLeft, getLsbD_ushiftRight]
  by_cases h8 : i < 8
  · simp [h8, hi]
  · simp [h8, hi, Nat.add_sub_cancel' (Nat.le_of_not_lt h8)]

lemma table_step (x : BitVec 32) : crcTable 0 (x &&& 0xff#32) ^^^ (x >>> 8) = crcStep^[8] x := by
  have hhigh : crcStep^[8] ((x >>> 8) <<< 8) = x >>> 8 :=
    iterate_crcStep_shiftLeft fun i hi => by
      rw [getLsbD_ushiftRight, getLsbD_of_ge x (8 + i) (by omega)]
  rw [crcTable, ← hhigh, ← iterate_crcStep_xor, low_xor_high]

lemma crcTable_eq (j : ℕ) (i : BitVec 32) : crcTable j i = crcStep^[8 * (j + 1)] i := by
  induction j with
  | zero => rw [crcTable]
  | succ j ih =>
    rw [crcTable, table_step, ih, ← iterate_add_apply, Nat.mul_succ 8 (j + 1), Nat.add_comm 8]

lemma table_byte (k : ℕ) (x : BitVec 32) :
    crcTable k (x &&& 0xff#32) ^^^ crcStep^[8 * k] (x >>> 8) = crcStep^[8 * (k + 1)] x := by
  rw [crcTable_eq, Nat.mul_succ, iterate_add_apply, iterate_add_apply,
    ← iterate_crcStep_xor, ← table_step x, crcTable]

lemma table_word (n : ℕ) (x : BitVec 32) :
    crcTable (n + 3) (x &&& 0xff#32) ^^^ crcTable (n + 2) ((x >>> 8) &&& 0xff#32) ^^^
      crcTable (n + 1) ((x >>> 16) &&& 0xff#32) ^^^ crcTable n (x >>> 24) =
    crcStep^[8 * (n + 4)] x := by
  rw [← table_byte (n + 3), ← table_byte (n + 2), ← table_byte (n + 1), crcTable_eq n,
    ← shiftRight_add, ← shiftRight_add]
  simp only [xor_assoc]

def crcByte (c : BitVec 32) (b : UInt8) : BitVec 32 := crcStep^[8] (c ^^^ b.toBitVec.setWidth 32)

lemma crcByte_iterate {n : ℕ} (hn : n ≤ 24) (x : BitVec 32) (b : UInt8) :
    crcByte (crcStep^[n] x) b = crcStep^[8 + n] (x ^^^ (b.toBitVec.setWidth 32 <<< n)) := by
  have hbyte : crcStep^[n] (b.toBitVec.setWidth 32 <<< n) = b.toBitVec.setWidth 32 :=
    iterate_crcStep_shiftLeft fun i hi => by
      rw [getLsbD_setWidth, getLsbD_of_ge _ i (by omega), Bool.and_false]
  rw [crcByte, iterate_add_apply, iterate_crcStep_xor n, hbyte]

lemma word_eq (d₀ d₁ d₂ d₃ : UInt8) :
    (d₃.toBitVec ++ d₂.toBitVec ++ d₁.toBitVec ++ d₀.toBitVec : BitVec 32) =
      d₀.toBitVec.setWidth 32 ^^^ (d₁.toBitVec.setWidth 32 <<< 8) ^^^
        (d₂.toBitVec.setWidth 32 <<< 16) ^^^ (d₃.toBitVec.setWidth 32 <<< 24) := by
  refine eq_of_getLsbD_eq fun i hi => ?_
  simp only [getLsbD_append, getLsbD_xor, getLsbD_shiftLeft, getLsbD_setWidth]
  grind

lemma crcByte_word (c : BitVec 32) (d₀ d₁ d₂ d₃ : UInt8) :
    crcByte (crcByte (crcByte (crcByte c d₀) d₁) d₂) d₃ =
      crcStep^[32] ((d₃.toBitVec ++ d₂.toBitVec ++ d₁.toBitVec ++ d₀.toBitVec : BitVec 32) ^^^
        c) := by
  change crcByte (crcByte (crcByte (crcStep^[8] (c ^^^ d₀.toBitVec.setWidth 32)) d₁) d₂) d₃ = _
  rw [crcByte_iterate (by decide), crcByte_iterate (by decide), crcByte_iterate (by decide),
    word_eq]
  refine congrArg crcStep^[32] ?_
  rw [BitVec.xor_comm _ c]
  simp only [xor_assoc]

lemma crcLoop_eq (c : BitVec 32) (data : List UInt8) : crcLoop c data = data.foldl crcByte c := by
  fun_induction crcLoop c data with
  | case1 c d₀ d₁ d₂ d₃ d₄ d₅ d₆ d₇ data lo hi ih =>
    have hlo := table_word 4 lo
    have hhi := table_word 0 hi
    simp only [Nat.reduceAdd, Nat.reduceMul] at hlo hhi
    rw [ih]
    simp only [foldl_cons, crcByte_word]
    rw [iterate_crcStep_xor, ← iterate_add_apply, BitVec.xor_comm (crcStep^[32] _), ← hlo, ← hhi]
    simp only [xor_assoc]
  | case2 c data =>
    congr 1
    funext c b
    have hbyte : b.toBitVec.setWidth 32 >>> 8 = 0#32 := by
      refine eq_of_getLsbD_eq fun i hi => ?_
      simp
    rw [crcByte, ← table_step, ushiftRight_xor_distrib, hbyte, BitVec.xor_zero]

lemma foldl_shiftIn (c : BitVec 32) (b : UInt8) : (bitsOf b).foldl shiftIn c = crcByte c b := by
  -- after some bits the register differs from that of the whole byte by the bits to come
  have hturn : ∀ n ≤ 8, ((List.range n).map b.toBitVec.getLsbD).foldl shiftIn c ^^^
      (b.toBitVec.setWidth 32 >>> n) = crcStep^[n] (c ^^^ b.toBitVec.setWidth 32) := by
    intro n hn
    induction n with
    | zero => rfl
    | succ n ih =>
      rw [range_succ, map_append, foldl_append, iterate_succ_apply',
        ← ih (by omega), crcStep_eq, ushiftRight_xor_distrib, ← shiftRight_add]
      simp only [map_singleton, foldl_cons, foldl_nil, shiftIn_eq, getLsbD_xor,
        getLsbD_ushiftRight, getLsbD_setWidth, Nat.add_zero]
      rw [decide_eq_true (show n < 32 by omega), Bool.true_and]
      ac_rfl
  have hbyte : b.toBitVec.setWidth 32 >>> 8 = 0#32 := by
    refine eq_of_getLsbD_eq fun i hi => ?_
    simp
  rw [bitsOf, crcByte, ← hturn 8 (le_refl 8), hbyte, BitVec.xor_zero]

lemma foldl_crc32 (pieces : List (List UInt8)) (c : BitVec 32) :
    pieces.foldl crc32 (~~~c) = ~~~pieces.flatten.foldl crcByte c := by
  induction pieces generalizing c with
  | nil => rfl
  | cons p pieces ih =>
    rw [foldl_cons, flatten_cons, foldl_append, ← ih, crc32, BitVec.not_not, crcLoop_eq]

lemma crc32Of_eq (data : List UInt8) : crc32Of data = ~~~data.foldl crcByte (~~~0#32) := by
  rw [crc32Of, foldl_flatMap]
  simp only [foldl_shiftIn]
  rfl

/-! ### Adler-32 -/

def MOD : ℕ := 65521

/-- The longest run of bytes after which the sums cannot have overflowed 32 bits. -/
def NMAX : ℕ := 5552

def adlerByte (s : ℕ × ℕ) (x : UInt8) : Option (ℕ × ℕ) := do
  let a ← fits 32 (s.1 + x.toNat)
  let b ← fits 32 (s.2 + a)
  some (a, b)

def adlerReduce (s : ℕ × ℕ) : ℕ × ℕ := (s.1 % MOD, s.2 % MOD)

/-- The loop of `adler32` over the chunks of `NMAX` bytes. -/
def adlerChunks (s : ℕ × ℕ) (data : List UInt8) : Option (ℕ × ℕ) :=
  if data = [] then some s
  else do
    let s ← (data.take NMAX).foldlM adlerByte s
    adlerChunks (adlerReduce s) (data.drop NMAX)
termination_by data.length
decreasing_by
  rw [List.length_drop, NMAX]
  have := List.length_pos_iff.2 ‹data ≠ []›
  omega

/-- The Adler-32 of `data` continued from `adler`, if no sum overflows. -/
def adler32 (adler : ℕ) (data : List UInt8) : Option ℕ := do
  let (a, b) ← adlerChunks (adler &&& 0xffff, adler >>> 16) data
  some (b <<< 16 ||| a)

def adlerSums (s : ℕ × ℕ) (data : List UInt8) : ℕ × ℕ :=
  data.foldl (fun s x => (s.1 + x.toNat, s.2 + (s.1 + x.toNat))) s

def adlerOf (s : ℕ × ℕ) : ℕ := (adlerReduce s).1 + (adlerReduce s).2 * 2 ^ 16

def adler32Of (data : List UInt8) : ℕ := adlerOf (adlerSums (1, 0) data)

lemma foldlM_adlerByte {data : List UInt8} {a b : ℕ} (ha : a + 255 * data.length < 2 ^ 32)
    (hb : 2 * b + 2 * data.length * a + 255 * data.length * (data.length + 1) < 2 ^ 33) :
    data.foldlM adlerByte (a, b) = some (adlerSums (a, b) data) := by
  induction data generalizing a b with
  | nil => rfl
  | cons x data ih =>
    have hx : x.toNat < 2 ^ 8 := x.toNat_lt
    rw [length_cons] at ha hb
    generalize hn : data.length = n at *
    rw [foldlM_cons, adlerByte, Words.fits_bind (by dsimp only; omega), Words.fits_bind]
    · refine ih (by omega) ?_
      nlinarith
    · dsimp only
      nlinarith

lemma adlerSums_append (s : ℕ × ℕ) (data more : List UInt8) :
    adlerSums s (data ++ more) = adlerSums (adlerSums s data) more := foldl_append

lemma adlerReduce_adlerSums {s t : ℕ × ℕ} (h : adlerReduce s = adlerReduce t) (data : List UInt8) :
    adlerReduce (adlerSums s data) = adlerReduce (adlerSums t data) := by
  induction data generalizing s t with
  | nil => exact h
  | cons x data ih =>
    rw [adlerReduce, adlerReduce, Prod.mk.injEq] at h
    have h₁ : s.1 + x.toNat ≡ t.1 + x.toNat [MOD MOD] := Nat.ModEq.add_right _ h.1
    exact ih (Prod.ext h₁ (Nat.ModEq.add h.2 h₁))

lemma adlerReduce_idem (s : ℕ × ℕ) : adlerReduce (adlerReduce s) = adlerReduce s :=
  Prod.ext (Nat.mod_mod _ _) (Nat.mod_mod _ _)

lemma adlerChunks_eq (s : ℕ × ℕ) (data : List UInt8) :
    adlerChunks (adlerReduce s) data = some (adlerReduce (adlerSums s data)) := by
  induction hn : data.length using Nat.strong_induction_on generalizing s data with
  | _ n ih =>
    rw [adlerChunks]
    split
    · next hnil => rw [hnil]; rfl
    · next hne =>
      have hpos := length_pos_iff.2 hne
      have hlen : (data.take NMAX).length ≤ 5552 := length_take_le NMAX data
      have h₁ : (adlerReduce s).1 < 65521 := Nat.mod_lt _ (by decide)
      have h₂ : (adlerReduce s).2 < 65521 := Nat.mod_lt _ (by decide)
      have hsums := @foldlM_adlerByte (data.take NMAX) (adlerReduce s).1 (adlerReduce s).2
        (by omega) (by nlinarith)
      rw [Prod.mk.eta] at hsums
      rw [hsums, Option.bind_eq_bind, Option.bind_some,
        ih _ (by rw [length_drop, NMAX]; omega) _ _ rfl, ← adlerSums_append,
        take_append_drop, adlerReduce_adlerSums (adlerReduce_idem s)]

lemma adler32_adlerOf (s : ℕ × ℕ) (data : List UInt8) :
    adler32 (adlerOf s) data = some (adlerOf (adlerSums s data)) := by
  have hlow : ∀ t, (adlerReduce t).1 < 2 ^ 16 := fun t =>
    (Nat.mod_lt _ (by decide)).trans (by decide : MOD < 2 ^ 16)
  have ha : adlerOf s &&& 0xffff = (adlerReduce s).1 := by
    refine (Words.and_ones _ 16).trans ?_
    rw [adlerOf, Nat.add_mul_mod_self_right, Nat.mod_eq_of_lt (hlow s)]
  have hb : adlerOf s >>> 16 = (adlerReduce s).2 := by
    rw [adlerOf, Nat.shiftRight_eq_div_pow, Nat.add_mul_div_right _ _ (by decide),
      Nat.div_eq_of_lt (hlow s), Nat.zero_add]
  rw [adler32, ha, hb, Prod.mk.eta, adlerChunks_eq, Option.bind_eq_bind, Option.bind_some]
  dsimp only
  rw [Nat.or_comm, Words.or_shift (hlow _), adlerOf]

lemma foldlM_adler32 (pieces : List (List UInt8)) (s : ℕ × ℕ) :
    pieces.foldlM adler32 (adlerOf s) = some (adlerOf (adlerSums s pieces.flatten)) := by
  induction pieces generalizing s with
  | nil => rfl
  | cons p pieces ih =>
    rw [foldlM_cons, adler32_adlerOf, Option.bind_eq_bind, Option.bind_some, ih,
      flatten_cons, adlerSums_append]

/-- The checksums of the pieces of a text, each continued from the one before, are those of the
whole: CRC-32 a bit at a time, and Adler-32 with sums that have no bound. -/
theorem checksums_continue (pieces : List (List UInt8)) :
    pieces.foldl crc32 0 = crc32Of pieces.flatten ∧
      pieces.foldlM adler32 1 = some (adler32Of pieces.flatten) := by
  refine ⟨?_, foldlM_adler32 pieces (1, 0)⟩
  rw [crc32Of_eq, ← foldl_crc32]
  rfl

/-! ### Bursts of errors -/

/-- The highest bit after a turn is what came back into the register, so registers that agree above
`n` bits after it did so above one bit more. -/
lemma agree_of_shiftIn {c c' : BitVec 32} {b b' : Bool} {n : ℕ} (hn : n < 32)
    (h : ∀ i, n ≤ i → (shiftIn c b).getLsbD i = (shiftIn c' b').getLsbD i) :
    (c.getLsbD 0 ^^ b) = (c'.getLsbD 0 ^^ b') ∧ ∀ i, n + 1 ≤ i → c.getLsbD i = c'.getLsbD i := by
  have hhigh : ∀ (c : BitVec 32) b, (shiftIn c b).getLsbD 31 = (c.getLsbD 0 ^^ b) := by
    intro c b
    rw [shiftIn]
    cases c.getLsbD 0 ^^ b <;> simp
  have hin : (c.getLsbD 0 ^^ b) = (c'.getLsbD 0 ^^ b') := by
    rw [← hhigh, ← hhigh, h 31 (by omega)]
  refine ⟨hin, fun i hi => ?_⟩
  have hbit := h (i - 1) (by omega)
  rwa [shiftIn_eq, shiftIn_eq, hin, getLsbD_xor, getLsbD_xor, Bool.xor_left_inj,
    getLsbD_ushiftRight, getLsbD_ushiftRight, Nat.add_sub_cancel' (by omega)] at hbit

lemma foldl_shiftIn_injective (u : List Bool) : Injective fun c => u.foldl shiftIn c := by
  induction u with
  | nil => exact fun c c' h => h
  | cons b u ih =>
    intro c c' h
    obtain ⟨hlow, hrest⟩ := agree_of_shiftIn (n := 0) (by decide)
      fun i _ => congrArg (BitVec.getLsbD · i) (ih h)
    refine eq_of_getLsbD_eq fun i _ => ?_
    rcases i with _ | i
    · exact Bool.xor_left_inj.1 hlow
    · exact hrest _ (by omega)

lemma eq_of_foldl_shiftIn {u u' : List Bool} {c c' : BitVec 32} (hlen : u.length = u'.length)
    (hshort : u.length ≤ 32) (h : u.foldl shiftIn c = u'.foldl shiftIn c') :
    (∀ i, u.length ≤ i → c.getLsbD i = c'.getLsbD i) ∧ (c = c' → u = u') := by
  induction u generalizing u' c c' with
  | nil =>
    obtain rfl := length_eq_zero_iff.1 hlen.symm
    exact ⟨fun i _ => congrArg (BitVec.getLsbD · i) h, fun _ => rfl⟩
  | cons b u ih =>
    obtain ⟨b', u', rfl⟩ := exists_cons_of_length_eq_add_one hlen.symm
    obtain ⟨hbits, htail⟩ := ih (Nat.succ.inj hlen) (Nat.le_of_succ_le hshort) h
    obtain ⟨hin, hrest⟩ := agree_of_shiftIn hshort hbits
    refine ⟨hrest, ?_⟩
    rintro rfl
    obtain rfl := Bool.xor_right_inj.1 hin
    rw [htail rfl]

lemma crc32_eq (crc : BitVec 32) (data : List UInt8) :
    crc32 crc data = ~~~(data.flatMap bitsOf).foldl shiftIn (~~~crc) := by
  rw [crc32, crcLoop_eq, foldl_flatMap]
  simp only [foldl_shiftIn]

/-- CRC-32 tells apart texts whose bits differ in one burst of at most 32 bits, wherever it is. -/
theorem crc32_burst (crc : BitVec 32) {data data' : List UInt8}
    {before burst burst' after : List Bool} (h : data.flatMap bitsOf = before ++ burst ++ after)
    (h' : data'.flatMap bitsOf = before ++ burst' ++ after) (hlen : burst.length = burst'.length)
    (hshort : burst.length ≤ 32) : crc32 crc data = crc32 crc data' ↔ burst = burst' := by
  rw [crc32_eq, crc32_eq, h, h', BitVec.not_inj]
  simp only [foldl_append]
  constructor
  · exact fun heq => (eq_of_foldl_shiftIn hlen hshort (foldl_shiftIn_injective after heq)).2 rfl
  · rintro rfl
    rfl

theorem crc32_burst_byte : crc32 0#32 [1] ≠ crc32 0#32 [3] :=
  fun h => absurd ((@crc32_burst 0#32 [1] [3] [true] [false] [true] (replicate 6 false) rfl rfl rfl
    (by decide)).1 h) (by decide)

end Lazaret.Inflate
