import Lazaret.Crypto.Inverses
import Mathlib.FieldTheory.Finite.Basic
import Mathlib.NumberTheory.LucasPrimality
import Mathlib.Tactic.NormNum.Prime
import Mathlib.Tactic.ReduceModChar

/-!
# Powers and inverses in Montgomery form

The powers of `bignum.rs` and `ct_mod.rs`: bit by bit (`Mont.pow`), from the second bit with the
last product out of Montgomery form (`Field.powOdd`), and in windows of four bits, the table read by
its index (`Field.inv`, `Modulus.invert`) or by a scan with masks (`Modulus.powSecret`).  Each keeps
that what it has is the power by the bits of the exponent so far.
-/

namespace Lazaret.Bignum

open Multiword List Words Option

/-! ## The code -/

def Mont.pow (ctx : Mont) (base exp : List ℕ) : Option (List ℕ) :=
  (List.range (bitLen exp)).reverse.foldlM (fun r i => do
    let r ← ctx.sqr r
    if bit exp i then ctx.mul r base else some r) ctx.one

/-- `pow_odd`; an exponent that is even or less than three stops it. -/
def Field.powOdd (f : Field) (base : List ℕ) (e : ℕ) : Option (List ℕ) :=
  if e &&& 1 = 1 ∧ 3 ≤ e then do
    let bm ← f.toMont base
    let bits := 64 - leadingZeros e
    let r ← (List.range' 1 (bits - 2)).reverse.foldlM (fun r i => do
      let r ← f.sqr r
      if e >>> i &&& 1 = 1 then f.mul r bm else some r) bm
    let r ← f.sqr r
    f.mul r base
  else none

/-- The entries of a table of powers from `i` on, each the one before times `a`. -/
def extend (mul : List ℕ → List ℕ → Option (List ℕ)) (a : List ℕ) (table : List (List ℕ))
    (i : ℕ) : Option (List (List ℕ)) := do
  let x ← mul (table.getD (i - 1) []) a
  some (table ++ [x])

def fourSquares (sqr : List ℕ → Option (List ℕ)) (r : List ℕ) : Option (List ℕ) :=
  (List.range' 0 4).foldlM (fun r _ => sqr r) r

/-- A window of four bits of a public exponent; a window of zeros has no product. -/
def window (mul : List ℕ → List ℕ → Option (List ℕ)) (sqr : List ℕ → Option (List ℕ))
    (table : List (List ℕ)) (r : List ℕ) (d : ℕ) : Option (List ℕ) := do
  let r ← fourSquares sqr r
  if d ≠ 0 then mul r (table.getD d []) else some r

/-- `Field::inv`; a lowest limb less than two stops it. -/
def Field.inv (f : Field) (a : List ℕ) : Option (List ℕ) :=
  if 2 ≤ f.m.headD 0 then do
    let e := f.m.set 0 (f.m.headD 0 - 2)
    let table ← (List.range' 2 14).foldlM (extend f.mul a) [f.one, a]
    (List.range f.m.length).reverse.foldlM (fun r limb =>
      (List.range 16).reverse.foldlM (fun r nibble =>
        window f.mul f.sqr table r (e.getD limb 0 >>> (4 * nibble) &&& 15)) r) f.one
  else none

def Modulus.invert (k : Modulus) (a : List ℕ) : Option (List ℕ) := do
  let one ← k.one
  let table ← (List.range' 2 14).foldlM (extend k.mul a) [one, a]
  (List.range (16 * k.m.length)).reverse.foldlM (fun r w =>
    window k.mul k.sqr table r (k.m_minus_2.getD (w / 16) 0 >>> (4 * (w % 16)) &&& 15)) one

/-- All ones where `x` is zero. -/
def hitMask (x : ℕ) : ℕ := maskOf ((x ||| Words.wrappingSub 64 0 x) >>> 63 ^^^ 1)

def scanStep (nibble : ℕ) (sel : List ℕ) (entry : List ℕ × ℕ) : List ℕ :=
  List.zipWith (fun s x => s ||| x &&& hitMask (nibble ^^^ entry.2)) sel entry.1

/-- The entry of the table at `nibble`, by a scan of them all. -/
def scan (n : ℕ) (table : List (List ℕ)) (nibble : ℕ) : List ℕ :=
  table.zipIdx.foldl (scanStep nibble) (List.replicate n 0)

def Modulus.powSecret (k : Modulus) (base exp : List ℕ) : Option (List ℕ) := do
  let one ← k.one
  let table ← (List.range' 1 15).foldlM (extend k.mul base) [one]
  (List.range (k.m.length * 16)).reverse.foldlM (fun r i => do
    let r ← fourSquares k.sqr r
    k.mul r (scan k.m.length table (exp.getD (i / 16) 0 >>> (4 * (i % 16)) &&& 15))) one

/-! ## Bits of an exponent -/

variable {n : ℕ} {m a xs : List ℕ}

lemma getD_eq_mod (hx : Number n xs) (j : ℕ) : xs.getD j 0 = value xs / size j % 2 ^ 64 := by
  induction j generalizing xs n with
  | zero =>
    cases xs with
    | nil => rfl
    | cons x xs =>
      rw [getD_cons_zero, value_cons, size_zero, Nat.div_one, Nat.add_mul_mod_self_left,
        Nat.mod_eq_of_lt (hx.lt x mem_cons_self)]
  | succ j ih =>
    cases xs with
    | nil =>
      rw [getD_nil, value_nil, Nat.zero_div, Nat.zero_mod]
    | cons x xs =>
      obtain ⟨k, rfl⟩ : ∃ k, n = k + 1 := ⟨_, hx.length_eq.symm⟩
      obtain ⟨hx0, hx⟩ := number_cons.1 hx
      rw [getD_cons_succ, ih hx, value_cons, size_succ, ← Nat.div_div_eq_div_mul,
        Nat.add_mul_div_left _ _ (Nat.two_pow_pos 64), Nat.div_eq_of_lt hx0, Nat.zero_add]

lemma limb_bits (hx : Number n xs) {j r w : ℕ} (hw : r + w ≤ 64) :
    xs.getD j 0 >>> r % 2 ^ w = value xs / 2 ^ (64 * j + r) % 2 ^ w := by
  obtain ⟨d, hd⟩ : ∃ d, 64 = r + (w + d) := ⟨64 - r - w, by omega⟩
  have hpow : (2 ^ 64 : ℕ) = 2 ^ r * 2 ^ (w + d) := by rw [← Nat.pow_add, ← hd]
  rw [getD_eq_mod hx, Nat.shiftRight_eq_div_pow, hpow, Nat.mod_mul_right_div_self,
    Nat.mod_mod_of_dvd _ (Nat.pow_dvd_pow 2 (Nat.le_add_right w d)), Nat.div_div_eq_div_mul,
    size_eq, ← Nat.pow_add]

lemma bit_eq (hx : Number n xs) (i : ℕ) : bit xs i = (value xs / 2 ^ i % 2 == 1) := by
  have h := limb_bits hx (j := i / 64) (r := i % 64) (w := 1) (by omega)
  rw [(by omega : 64 * (i / 64) + i % 64 = i), Nat.pow_one] at h
  rw [bit, Nat.and_one_is_mod, h]

lemma nibble_eq (hx : Number n xs) (i : ℕ) :
    xs.getD (i / 16) 0 >>> (4 * (i % 16)) &&& 15 = value xs / 2 ^ (4 * i) % 16 := by
  have h := limb_bits hx (j := i / 16) (r := 4 * (i % 16)) (w := 4) (by omega)
  rw [(by omega : 64 * (i / 16) + 4 * (i % 16) = 4 * i)] at h
  exact (Nat.and_two_pow_sub_one_eq_mod _ 4).trans h

lemma value_lt_bitLen (hx : Number n xs) : value xs < 2 ^ bitLen xs := by
  have hall : ∀ k ≤ n, value (xs.take k) < 2 ^ (if trimmedFrom xs k = 0 then 0 else
      64 * trimmedFrom xs k - leadingZeros (xs.getD (trimmedFrom xs k - 1) 0)) := by
    intro k hk
    induction k with
    | zero => exact Nat.zero_lt_one
    | succ k ih =>
      have hlen : (xs.take (k + 1)).length = k + 1 := by
        rw [length_take, hx.length_eq, Nat.min_eq_left hk]
      have htake : Number (k + 1) (xs.take (k + 1)) :=
        ⟨hlen, fun y hy => hx.lt y (mem_of_mem_take hy)⟩
      obtain ⟨hlow, hvalue⟩ := htake.top
      have hget : (xs.take (k + 1)).getD k 0 = xs.getD k 0 := by
        rw [getD_eq_getElem?_getD, getD_eq_getElem?_getD,
          getElem?_take_of_lt (Nat.lt_succ_self k)]
      rw [take_take, Nat.min_eq_left (Nat.le_succ k), hget] at hvalue
      rw [take_take, Nat.min_eq_left (Nat.le_succ k)] at hlow
      by_cases h0 : xs.getD k 0 = 0
      · rw [hvalue, h0, trimmedFrom, if_pos h0]
        exact ih (Nat.le_of_succ_le hk)
      · obtain ⟨hlz, -⟩ := leadingZeros_spec h0 (hx.getD_lt k)
        rw [trimmedFrom, if_neg h0, if_neg (Nat.succ_ne_zero k), Nat.add_sub_cancel]
        have hexp : 64 * (k + 1) - leadingZeros (xs.getD k 0) =
            64 * k + ((xs.getD k 0).log2 + 1) := by
          have hlog : (xs.getD k 0).log2 < 64 := (Nat.log2_lt h0).2 (hx.getD_lt k)
          rw [leadingZeros, if_neg h0]
          omega
        rw [hexp, Nat.pow_add, ← size_eq, hvalue]
        have hlt := hlow.value_lt
        have hle := Nat.mul_le_mul_left (size k)
          (Nat.succ_le_of_lt (Nat.lt_log2_self (n := xs.getD k 0)))
        rw [Nat.mul_succ] at hle
        omega
  have h := hall n (Nat.le_refl n)
  rw [take_of_length_le hx.length_eq.le] at h
  rw [bitLen, trimmedLen, hx.length_eq]
  exact h

/-! ## Montgomery form -/

def form (n : ℕ) (m : List ℕ) (y : ℕ) : List ℕ := words n (y * size n % value m)

section

variable {mul : List ℕ → List ℕ → Option (List ℕ)} {sqr : List ℕ → Option (List ℕ)}
  (hm : IsModulus n m)

include hm

lemma exists_form (ha : Number n a) (hlt : value a < value m) : ∃ x < value m, a = form n m x := by
  obtain ⟨x, hx, hmod⟩ := Nat.exists_mul_mod_eq_of_coprime (value a)
    (Nat.coprime_comm.1 (coprime_size hm.value_odd n)) hm.value_pos.ne'
  refine ⟨x, hx, ?_⟩
  rw [form, Nat.mul_comm, hmod, Nat.mod_eq_of_lt hlt]
  exact eq_words ha rfl

lemma form_mul (hmul : IsMul n m mul) (y z : ℕ) :
    mul (form n m y) (form n m z) = some (form n m (y * z)) := by
  refine hmul.run hm (hm.lt_size (hm.mod_lt _)) (hm.mod_lt _) ?_
  calc
    y * size n % value m * (z * size n % value m) ≡ y * size n * (z * size n) [MOD value m] :=
      (Nat.mod_modEq _ _).mul (Nat.mod_modEq _ _)
    _ = y * z * size n * size n := by ring

lemma form_sqr (hsqr : IsSqr n m sqr) (y : ℕ) :
    sqr (form n m y) = some (form n m (y * y)) := by
  refine hsqr.run hm (hm.mod_lt _) ?_
  calc
    y * size n % value m * (y * size n % value m) ≡ y * size n * (y * size n) [MOD value m] :=
      (Nat.mod_modEq _ _).mul (Nat.mod_modEq _ _)
    _ = y * y * size n * size n := by ring

lemma form_out (hmul : IsMul n m mul) (y : ℕ) {z : ℕ} (hz : z < value m) :
    mul (form n m y) (words n z) = some (words n (y * z % value m)) := by
  refine hmul.run hm (hm.lt_size (hm.mod_lt _)) hz ?_
  calc
    y * size n % value m * z ≡ y * size n * z [MOD value m] := (Nat.mod_modEq _ _).mul_right z
    _ = y * z * size n := by ring

/-! ## Bit by bit -/

lemma bit_step (hmul : IsMul n m mul) (hsqr : IsSqr n m sqr) (x e i : ℕ) {b : Prop} [Decidable b]
    (hb : b ↔ e / 2 ^ i % 2 = 1) : (do
      let r ← sqr (form n m (x ^ (e / 2 ^ (i + 1))))
      if b then mul r (form n m x) else some r) = some (form n m (x ^ (e / 2 ^ i))) := by
  obtain ⟨k, hk⟩ : ∃ k, k = e / 2 ^ (i + 1) := ⟨_, rfl⟩
  have hexp : e / 2 ^ i = 2 * k + e / 2 ^ i % 2 := by
    rw [hk, Nat.pow_succ, ← Nat.div_div_eq_div_mul]
    omega
  rw [← hk, form_sqr hm hsqr, some_bind, ← pow_add, ← two_mul]
  by_cases hbit : b
  · rw [if_pos hbit, form_mul hm hmul, hexp, hb.1 hbit, pow_succ]
  · have h0 : e / 2 ^ i % 2 = 0 := by
      have := mt hb.2 hbit
      omega
    rw [if_neg hbit, hexp, h0, add_zero]

end

theorem Mont.Valid.pow (hm : IsModulus n m) {g : Mont} (hg : g.Valid n m) (x : ℕ) {l : ℕ}
    {exp : List ℕ} (hexp : Number l exp) :
    g.pow (form n m x) exp = some (form n m (x ^ value exp)) := by
  have hmul := hg.toOf.isMul hm
  have hsqr : IsSqr n m g.sqr := fun a ha haa => hmul a a ha ha haa
  have hstart : g.one = form n m (x ^ (value exp / 2 ^ bitLen exp)) := by
    rw [Nat.div_eq_of_lt (value_lt_bitLen hexp), Nat.pow_zero, form, Nat.one_mul, hg.one_eq]
  obtain ⟨r, hr, hend⟩ := foldlM_reverse_range (l := bitLen exp)
    (f := fun r i => do
      let r ← g.sqr r
      if bit exp i then g.mul r (form n m x) else some r)
    (P := fun i r => r = form n m (x ^ (value exp / 2 ^ i)))
    (fun i r _ hr => ⟨_, hr ▸ bit_step hm hmul hsqr x (value exp) i
      (by rw [bit_eq hexp, beq_iff_eq]), rfl⟩) hstart
  rw [Nat.pow_zero, Nat.div_one] at hend
  rw [Mont.pow, hr, hend]

lemma fromModulus_one : Field.fromModulus [1] = some ⟨[1], newton 1, [1], [1], false⟩ := by
  obtain ⟨f0, hf0⟩ : ∃ f0 : Field, f0 = ⟨[1], newton 1, [0], [0], false⟩ := ⟨_, rfl⟩
  have hadd : f0.add [1] [1] = [1] := by
    rw [hf0]
    decide
  have hone := Function.iterate_fixed (f := fun x => f0.add x x) hadd 64
  have hshift : shiftMod [1] [1] = some [1] := by decide
  have hnew : Field.fromModulus [1] = (do
      let r2 ← shiftMod [1] ((fun x => f0.add x x)^[64] [1])
      some { f0 with one := (fun x => f0.add x x)^[64] [1], r2 }) := by
    rw [hf0]
    rfl
  rw [hnew, hone, hshift, some_bind, hf0]

variable {f : Field}

lemma toMont_form (hm : IsModulus n m) (hN : 2 * n < 2 ^ 64)
    (hf : Field.fromModulus m = some f) {y : ℕ} (hy : y < value m) :
    f.toMont (words n y) = some (form n m y) := by
  have hof := Field.of_fromModulus hf
  have hmul := hof.isMul hm hN
  by_cases h1 : 1 < value m
  · obtain ⟨f', hf', hvalid⟩ := Field.fromModulus_spec hm h1
    rw [hf] at hf'
    cases hf'
    rw [Field.toMont, hvalid.r2_eq, toMont_run hm hmul (hm.lt_size hy)]
    rfl
  · obtain ⟨rfl, rfl⟩ := hm.eq_one h1
    rw [fromModulus_one] at hf
    cases hf
    rw [value_singleton] at hy
    have hy0 : y = 0 := by omega
    obtain ⟨x, hx, hproduct⟩ := hmul (words 1 y) [1] (number_words 1 y) ⟨rfl, by decide⟩
      (by rw [hy0]; decide)
    have hlt := hproduct.lt
    rw [value_singleton] at hlt
    rw [form, value_singleton, Nat.mod_one]
    exact hx.trans (congrArg some (eq_words hproduct.number (by omega)))

theorem Field.powOdd_spec (hm : IsModulus n m) (hN : 2 * n < 2 ^ 64)
    (hf : Field.fromModulus m = some f) {base : List ℕ} (hb : Number n base)
    (hlt : value base < value m) {e : ℕ} (hodd : e % 2 = 1) (he : 3 ≤ e) (he64 : e < 2 ^ 64) :
    f.powOdd base e = some (words n (value base ^ e % value m)) := by
  have hof := Field.of_fromModulus hf
  have hmul := hof.isMul hm hN
  have hsqr := hof.isSqr hm hN
  have hbase := toMont_form hm hN hf hlt
  rw [← eq_words hb rfl] at hbase
  obtain ⟨x, hx⟩ : ∃ x, x = value base := ⟨_, rfl⟩
  have hlog : e.log2 < 64 := (Nat.log2_lt (by omega)).2 he64
  have hlog1 : 1 ≤ e.log2 := (Nat.le_log2 (by omega)).2 (by omega)
  have hbits : 64 - leadingZeros e - 2 = e.log2 - 1 := by
    rw [leadingZeros, if_neg (by omega)]
    omega
  -- the exponent by its highest bit is one
  have hstart : form n m x = form n m (x ^ (e / 2 ^ (1 + (e.log2 - 1)))) := by
    have hhigh : e / 2 ^ e.log2 = 1 := by
      have hle := Nat.log2_self_le (by omega : e ≠ 0)
      have hlt2 := Nat.lt_log2_self (n := e)
      rw [Nat.pow_succ] at hlt2
      exact Nat.div_eq_of_lt_le (by omega) (by omega)
    rw [Nat.add_sub_cancel' hlog1, hhigh, Nat.pow_one]
  rw [← hx] at hbase hlt ⊢
  obtain ⟨r, hr, hend⟩ := foldlM_reverse_range' (s := 1) (l := e.log2 - 1)
    (f := fun r i => do
      let r ← f.sqr r
      if e >>> i &&& 1 = 1 then f.mul r (form n m x) else some r)
    (P := fun i r => r = form n m (x ^ (e / 2 ^ i)))
    (fun i r _ _ hr => ⟨_, hr ▸ bit_step hm hmul hsqr x e i
      (by rw [Nat.and_one_is_mod, Nat.shiftRight_eq_div_pow]), rfl⟩) hstart
  have hlast : e = e / 2 + e / 2 + 1 := by omega
  have hout := form_out hm hmul (x ^ (e / 2) * x ^ (e / 2)) hlt
  rw [← Nat.pow_add, ← Nat.pow_succ, Nat.succ_eq_add_one, ← hlast, hx, ← eq_words hb rfl,
    ← hx] at hout
  rw [Nat.pow_one] at hend
  rw [Field.powOdd, if_pos ⟨by rw [Nat.and_one_is_mod, hodd], he⟩, hbase, some_bind]
  simp only [hbits]
  rw [hr, some_bind, hend, form_sqr hm hsqr, some_bind, ← Nat.pow_add]
  exact hout

/-! ## Windows -/

/-- The powers up to `i`, in Montgomery form. -/
def powersTo (n : ℕ) (m : List ℕ) (x i : ℕ) : List (List ℕ) :=
  (List.range i).map fun j => form n m (x ^ j)

lemma powersTo_succ (x i : ℕ) :
    powersTo n m x (i + 1) = powersTo n m x i ++ [form n m (x ^ i)] := by
  rw [powersTo, range_succ, map_append, map_singleton]
  rfl

variable {d : ℕ}

lemma powersTo_getD {x i : ℕ} (hd : d < i) : (powersTo n m x i).getD d [] = form n m (x ^ d) := by
  rw [powersTo, getD_eq_getElem _ _ (by rwa [length_map, length_range]), getElem_map, getElem_range]

section

variable {mul : List ℕ → List ℕ → Option (List ℕ)} {sqr : List ℕ → Option (List ℕ)}
  (hm : IsModulus n m) (hmul : IsMul n m mul)

include hm hmul

lemma extend_table (x : ℕ) {s l : ℕ} (hs : 0 < s) :
    (range' s l).foldlM (extend mul (form n m x)) (powersTo n m x s) =
      some (powersTo n m x (s + l)) := by
  obtain ⟨table, htable, hend⟩ := foldlM_range' (f := extend mul (form n m x))
    (P := fun i table => table = powersTo n m x i) (s := s) (l := l)
    (fun i table hi _ h => by
      subst h
      refine ⟨_, ?_, rfl⟩
      rw [extend, powersTo_getD (by omega : i - 1 < i), form_mul hm hmul, some_bind, powersTo_succ,
        ← Nat.pow_succ, Nat.succ_eq_add_one, Nat.sub_add_cancel (by omega : 1 ≤ i)]) rfl
  rw [htable, hend]

variable (hsqr : IsSqr n m sqr)

include hsqr

omit hmul in
lemma fourSquares_form (y : ℕ) : fourSquares sqr (form n m y) = some (form n m (y ^ 16)) := by
  have hrun : fourSquares sqr (form n m y) = (do
      let r ← sqr (form n m y)
      let r ← sqr r
      let r ← sqr r
      sqr r) := by
    rw [fourSquares]
    simp only [range', foldlM_cons, foldlM_nil, Option.bind_eq_bind,
      Option.pure_def, Option.bind_fun_some]
  rw [hrun, form_sqr hm hsqr, some_bind, form_sqr hm hsqr, some_bind, form_sqr hm hsqr, some_bind,
    form_sqr hm hsqr]
  exact congrArg (fun z => some (form n m z)) (by ring)

omit hm hmul hsqr in
lemma window_exponent (e i : ℕ) :
    e / 2 ^ (4 * i) = e / 2 ^ (4 * (i + 1)) * 16 + e / 2 ^ (4 * i) % 16 := by
  have hpow : 2 ^ (4 * (i + 1)) = 2 ^ (4 * i) * 16 := Nat.pow_add 2 (4 * i) 4
  rw [hpow, ← Nat.div_div_eq_div_mul]
  omega

lemma window_form (x e i : ℕ) {d : ℕ} (hd : d = e / 2 ^ (4 * i) % 16) :
    window mul sqr (powersTo n m x 16) (form n m (x ^ (e / 2 ^ (4 * (i + 1))))) d =
      some (form n m (x ^ (e / 2 ^ (4 * i)))) := by
  have hexp := window_exponent e i
  rw [← hd] at hexp
  rw [window, fourSquares_form hm hsqr, some_bind, ← pow_mul, hexp]
  by_cases h0 : d = 0
  · rw [if_neg (not_not.2 h0), h0]
    rfl
  · rw [if_pos h0, powersTo_getD (by omega), form_mul hm hmul, ← pow_add]

end

lemma powersTo_one (x : ℕ) : powersTo n m x 1 = [form n m 1] := by
  rw [powersTo, range_one, map_singleton, pow_zero]

lemma powersTo_two (x : ℕ) : powersTo n m x 2 = [form n m 1, form n m x] := by
  rw [powersTo_succ, powersTo_one, pow_one]
  rfl

lemma form_start {e i : ℕ} (h : e < 2 ^ i) (x : ℕ) : form n m 1 = form n m (x ^ (e / 2 ^ i)) := by
  rw [Nat.div_eq_of_lt h, Nat.pow_zero]

theorem Field.Valid.inv (hm : IsModulus n m) (hN : 2 * n < 2 ^ 64)
    (hf : f.Valid n m) (h2 : 2 ≤ m.headD 0) (x : ℕ) :
    f.inv (form n m x) = some (form n m (x ^ (value m - 2))) := by
  have hmul := hf.toOf.isMul hm hN
  have hsqr := hf.toOf.isSqr hm hN
  obtain ⟨e, he⟩ : ∃ e, e = m.set 0 (m.headD 0 - 2) := ⟨_, rfl⟩
  have hexp : Number n e ∧ value e = value m - 2 := by
    rw [he]
    cases m with
    | nil => exact absurd h2 (by decide)
    | cons y ys =>
      obtain ⟨k, rfl⟩ : ∃ k, n = k + 1 := ⟨_, hm.number.length_eq.symm⟩
      obtain ⟨hy, hys⟩ := number_cons.1 hm.number
      rw [headD_cons] at h2 ⊢
      rw [set_cons_zero, value_cons, value_cons]
      exact ⟨number_cons.2 ⟨by omega, hys⟩, by omega⟩
  obtain ⟨henum, hevalue⟩ := hexp
  have hone : f.one = form n m 1 := by
    rw [hf.one_eq, form, one_mul]
  have hlt := henum.value_lt
  rw [size_eq] at hlt
  obtain ⟨r, hr, hend⟩ := foldlM_reverse_range (l := n)
    (f := fun r limb => (range 16).reverse.foldlM (fun r nibble =>
      window f.mul f.sqr (powersTo n m x 16) r (e.getD limb 0 >>> (4 * nibble) &&& 15)) r)
    (P := fun limb r => r = form n m (x ^ (value e / 2 ^ (4 * (16 * limb)))))
    (fun limb r _ hr => by
      refine foldlM_reverse_range
        (P := fun nibble r => r = form n m (x ^ (value e / 2 ^ (4 * (16 * limb + nibble)))))
        (fun nibble r hi hr => ?_) hr
      subst hr
      refine ⟨_, window_form hm hmul hsqr x (value e) (16 * limb + nibble) ?_, rfl⟩
      have h := limb_bits henum (j := limb) (r := 4 * nibble) (w := 4) (by omega)
      rw [(by omega : 64 * limb + 4 * nibble = 4 * (16 * limb + nibble))] at h
      exact (Nat.and_two_pow_sub_one_eq_mod _ 4).trans h)
    (form_start (by rwa [(by omega : 4 * (16 * n) = 64 * n)]) x)
  rw [Nat.pow_zero, Nat.div_one, hevalue] at hend
  rw [Field.inv, hf.m_eq, if_pos h2, hone, ← powersTo_two,
    extend_table hm hmul x (s := 2) (l := 14) (by decide), some_bind, hm.number.length_eq, ← he]
  rw [hr, hend]

variable {k : Modulus}

theorem Modulus.Valid.invert (hm : IsModulus n m) (h1 : 1 < value m) (hN : 2 * n < 2 ^ 64)
    (hk : k.Valid n m) (x : ℕ) :
    k.invert (form n m x) = some (form n m (x ^ (value m - 2))) := by
  have hmul := hk.toOf.isMul hm hN
  have hsqr := hk.toOf.isSqr hm hN
  have hone : k.one = some (form n m 1) := by
    rw [hk.one_run hm hN, form, one_mul]
  have hvalue : value k.m_minus_2 = value m - 2 := by
    rw [hk.m_minus_2_eq h1, value_words (hm.lt_size (by omega))]
  have hnumber : Number n k.m_minus_2 := hk.m_minus_2_eq h1 ▸ number_words n _
  have hlt := hnumber.value_lt
  rw [size_eq] at hlt
  obtain ⟨r, hr, hend⟩ := foldlM_reverse_range (l := 16 * n)
    (f := fun r w => window k.mul k.sqr (powersTo n m x 16) r
      (k.m_minus_2.getD (w / 16) 0 >>> (4 * (w % 16)) &&& 15))
    (P := fun w r => r = form n m (x ^ (value k.m_minus_2 / 2 ^ (4 * w))))
    (fun w r _ hr => ⟨_, hr ▸ window_form hm hmul hsqr x _ w (nibble_eq hnumber w), rfl⟩)
    (form_start (by rwa [(by omega : 4 * (16 * n) = 64 * n)]) x)
  rw [Nat.mul_zero, Nat.pow_zero, Nat.div_one, hvalue] at hend
  rw [Modulus.invert, hone, some_bind, ← powersTo_two,
    extend_table hm hmul x (s := 2) (l := 14) (by decide), some_bind, hk.m_eq, hm.number.length_eq]
  rw [hr, hend]

/-! ## The scan of the table -/

lemma hitMask_zero : hitMask 0 = 2 ^ 64 - 1 := by decide

lemma hitMask_of_ne {x : ℕ} (h0 : x ≠ 0) (hx : x < 2 ^ 64) : hitMask x = 0 := by
  have hneg : Words.wrappingSub 64 0 x = 2 ^ 64 - x := by
    rw [Words.wrappingSub, Nat.zero_add, Nat.mod_eq_of_lt (by omega)]
  have hlt : x ||| (2 ^ 64 - x) < 2 ^ 64 := Nat.or_lt_two_pow hx (by omega)
  have hleft : x ≤ x ||| (2 ^ 64 - x) := Nat.left_le_or
  have hright : 2 ^ 64 - x ≤ x ||| (2 ^ 64 - x) := Nat.right_le_or
  have hbit : (x ||| (2 ^ 64 - x)) >>> 63 = 1 := by
    rw [Nat.shiftRight_eq_div_pow]
    omega
  rw [hitMask, hneg, hbit]
  decide

lemma scanStep_hit {entry : List ℕ} (h : Number n entry) :
    scanStep d (replicate n 0) (entry, d) = entry := by
  have hmask : hitMask (d ^^^ d) = 2 ^ 64 - 1 := by rw [Nat.xor_self, hitMask_zero]
  simp only [scanStep, hmask]
  obtain ⟨hlen, hlt⟩ := h
  subst hlen
  induction entry with
  | nil => rfl
  | cons y ys ih =>
    rw [length_cons, replicate_succ, zipWith_cons_cons, Nat.zero_or,
      and_all (hlt y mem_cons_self),
      ih fun z hz => hlt z (mem_cons_of_mem y hz)]

lemma scanStep_miss {j : ℕ} (hne : d ≠ j) (hd : d < 2 ^ 64) (hj : j < 2 ^ 64)
    {sel entry : List ℕ} (hlen : sel.length = entry.length) : scanStep d sel (entry, j) = sel := by
  have hmask : hitMask (d ^^^ j) = 0 :=
    hitMask_of_ne (fun h => hne (Nat.xor_eq_zero_iff.1 h)) (Nat.xor_lt_two_pow hd hj)
  simp only [scanStep, hmask]
  induction sel generalizing entry with
  | nil => rfl
  | cons y ys ih =>
    cases entry with
    | nil => exact absurd hlen (Nat.succ_ne_zero _)
    | cons z zs =>
      rw [zipWith_cons_cons, Nat.and_zero, Nat.or_zero, ih (Nat.succ.inj hlen)]

variable {table : List (List ℕ)}

lemma scan_after {s : ℕ} (ht : ∀ y ∈ table, Number n y) (hs : d < s)
    (hlt : s + table.length < 2 ^ 64) {sel : List ℕ} (hsel : sel.length = n) :
    (table.zipIdx s).foldl (scanStep d) sel = sel := by
  induction table generalizing s with
  | nil => rfl
  | cons y ys ih =>
    rw [length_cons] at hlt
    rw [zipIdx_cons, foldl_cons, scanStep_miss (by omega) (by omega) (by omega)
      (hsel.trans (ht y mem_cons_self).length_eq.symm)]
    exact ih (fun z hz => ht z (mem_cons_of_mem y hz)) (by omega) (by omega)

lemma scan_from {s : ℕ} (ht : ∀ y ∈ table, Number n y) (hs : s ≤ d)
    (hd : d < s + table.length) (hlt : s + table.length < 2 ^ 64) :
    (table.zipIdx s).foldl (scanStep d) (replicate n 0) = table.getD (d - s) [] := by
  induction table generalizing s with
  | nil => exact absurd hd (by rw [length_nil]; omega)
  | cons y ys ih =>
    have hy := ht y mem_cons_self
    have hys : ∀ z ∈ ys, Number n z := fun z hz => ht z (mem_cons_of_mem y hz)
    rw [length_cons] at hd hlt
    rw [zipIdx_cons, foldl_cons]
    by_cases heq : d = s
    · subst heq
      rw [scanStep_hit hy, scan_after hys (Nat.lt_succ_self d) (by omega) hy.length_eq,
        Nat.sub_self, getD_cons_zero]
    · rw [scanStep_miss heq (by omega) (by omega)
        (length_replicate.trans hy.length_eq.symm), ih hys (by omega) (by omega) (by omega),
        (by omega : d - s = d - (s + 1) + 1), getD_cons_succ]

theorem scan_eq (ht : ∀ y ∈ table, Number n y)
    (hd : d < table.length) (hlt : table.length < 2 ^ 64) :
    scan n table d = table.getD d [] := by
  have h := scan_from ht (Nat.zero_le d) (by omega) (by omega : 0 + table.length < 2 ^ 64)
  rwa [Nat.sub_zero] at h

lemma powersTo_number (x i : ℕ) : ∀ y ∈ powersTo n m x i, Number n y := by
  intro y hy
  obtain ⟨j, -, rfl⟩ := mem_map.1 hy
  exact number_words n _

theorem Modulus.Valid.powSecret (hm : IsModulus n m) (hN : 2 * n < 2 ^ 64)
    (hk : k.Valid n m) (x : ℕ) {exp : List ℕ} (hexp : Number n exp) :
    k.powSecret (form n m x) exp = some (form n m (x ^ value exp)) := by
  have hmul := hk.toOf.isMul hm hN
  have hsqr := hk.toOf.isSqr hm hN
  have hone : k.one = some (form n m 1) := by
    rw [hk.one_run hm hN, form, one_mul]
  have hlt := hexp.value_lt
  rw [size_eq] at hlt
  obtain ⟨r, hr, hend⟩ := foldlM_reverse_range (l := n * 16)
    (f := fun r i => do
      let r ← fourSquares k.sqr r
      k.mul r (scan n (powersTo n m x 16) (exp.getD (i / 16) 0 >>> (4 * (i % 16)) &&& 15)))
    (P := fun i r => r = form n m (x ^ (value exp / 2 ^ (4 * i))))
    (fun i r _ hr => by
      subst hr
      refine ⟨_, ?_, rfl⟩
      have hlen : (powersTo n m x 16).length = 16 := by
        rw [powersTo, length_map, length_range]
      have hd : value exp / 2 ^ (4 * i) % 16 < 16 := Nat.mod_lt _ (by decide)
      rw [fourSquares_form hm hsqr, some_bind, nibble_eq hexp, scan_eq (powersTo_number x 16)
        (by rwa [hlen]) (by rw [hlen]; decide), powersTo_getD hd, form_mul hm hmul, ← pow_mul,
        ← pow_add, ← window_exponent])
    (form_start (by rwa [(by omega : 4 * (n * 16) = 64 * n)]) x)
  rw [Nat.mul_zero, Nat.pow_zero, Nat.div_one] at hend
  rw [Modulus.powSecret, hone, some_bind, ← powersTo_one,
    extend_table hm hmul x (s := 1) (l := 15) (by decide), some_bind, hk.m_eq, hm.number.length_eq]
  rw [hend] at hr
  exact hr

/-! ## Fermat's inverse and Euclid's -/

lemma IsInverse.eq {M A : ℕ} {r r' : List ℕ} (h : IsInverse n M A r) (h' : IsInverse n M A r') :
    r = r' := by
  by_cases hgcd : Nat.gcd A M = 1
  · obtain ⟨x, hx, rfl, hinv⟩ := h.1 hgcd
    obtain ⟨y, hy, rfl, hinv'⟩ := h'.1 hgcd
    have hmod : x ≡ y [MOD M] :=
      Nat.ModEq.cancel_left_of_coprime (Nat.gcd_comm A M ▸ hgcd) (hinv.trans hinv'.symm)
    rw [Nat.ModEq.eq_of_lt_of_lt hmod hx hy]
  · rw [h.2 hgcd, h'.2 hgcd]

lemma fermat_isInverse {M A : ℕ} (hM : M.Prime) (h2 : 2 < M) (hA : A < M) :
    IsInverse n M A (words n (A ^ (M - 2) % M)) := by
  constructor
  · intro hgcd
    refine ⟨A ^ (M - 2) % M, Nat.mod_lt _ hM.pos, rfl, ?_⟩
    calc
      A * (A ^ (M - 2) % M) ≡ A * A ^ (M - 2) [MOD M] := (Nat.mod_modEq _ _).mul_left A
      _ = A ^ (M - 1) := by
        rw [← pow_succ']
        exact congrArg _ (by omega)
      _ ≡ 1 [MOD M] := by
        have := Nat.ModEq.pow_totient hgcd
        rwa [Nat.totient_prime hM] at this
  · intro hgcd
    have hdvd : M ∣ A := by
      by_contra hdvd
      exact hgcd (Nat.gcd_comm A M ▸ (Nat.Prime.coprime_iff_not_dvd hM).2 hdvd)
    rw [Nat.eq_zero_of_dvd_of_lt hdvd hA, Nat.zero_pow (by omega), Nat.zero_mod]

lemma fermat_run (hm : IsModulus n m) (h1 : 1 < value m)
    {mul : List ℕ → List ℕ → Option (List ℕ)} {inv : List ℕ → Option (List ℕ)}
    (hmul : IsMul n m mul) (hinv : ∀ x, inv (form n m x) = some (form n m (x ^ (value m - 2))))
    (ha : Number n a) : (do
      let x ← mul a (words n (size n ^ 2 % value m))
      let y ← inv x
      mul y (small n 1)) = some (words n (value a ^ (value m - 2) % value m)) := by
  have hto := toMont_run hm hmul ha.value_lt
  rw [← eq_words ha rfl] at hto
  rw [hto, some_bind]
  change (inv (form n m (value a)) >>= _) = _
  rw [hinv, some_bind]
  exact fromMont_run hm hmul h1 (hm.lt_size (hm.mod_lt _)) (Nat.mod_modEq _ _)

lemma Modulus.valid_of (hm : IsModulus n m) (hN : 2 * n < 2 ^ 64)
    (h : Modulus.new m = some k ∨ Modulus.newSecret m = some k) : k.Valid n m := by
  obtain h | h := h
  · by_cases h1 : 1 < value m
    · obtain ⟨k', hk', hvalid⟩ := Modulus.new_spec hm h1
      rw [h] at hk'
      cases hk'
      exact hvalid
    · -- modulo one there is no modulus less two
      obtain ⟨rfl, rfl⟩ := hm.eq_one h1
      have hborrow : chain sbbFlags [1] (small 1 2) 0 = ([2 ^ 64 - 1], 1) := by decide
      simp only [Modulus.new, length_singleton, hborrow] at h
      rw [if_pos ⟨hm.odd, hm.top⟩] at h
      obtain ⟨_, -, h⟩ := bind_eq_some_iff.1 h
      obtain ⟨_, -, h⟩ := bind_eq_some_iff.1 h
      obtain ⟨_, -, h⟩ := bind_eq_some_iff.1 h
      obtain ⟨_, -, h⟩ := bind_eq_some_iff.1 h
      obtain ⟨_, -, h⟩ := bind_eq_some_iff.1 h
      cases h
  · obtain ⟨k', hk', hvalid⟩ := Modulus.newSecret_spec hm hN
    rw [h] at hk'
    cases hk'
    exact hvalid

/-- Inverses and powers, for the contexts that are made for a modulus; Fermat's inverse in a field
needs a lowest limb that two can be taken from. -/
theorem inverses (hm : IsModulus n m) (hN : 8 * n < 2 ^ 63) {f : Field} {g : Mont} {k : Modulus}
    (hf : Field.fromModulus m = some f) (hg : Mont.new m = some g)
    (hk : Modulus.new m = some k ∨ Modulus.newSecret m = some k) :
    (∀ a, Number n a → value a < value m → ∃ r, IsInverse n (value m) (value a) r ∧
      (∀ fuel, value a + value m < fuel → f.invVartime fuel a = some r) ∧
      ((value m).Prime → m.headD 0 ≠ 1 →
        (do let x ← f.toMont a; let y ← f.inv x; f.fromMont y) = some r) ∧
      ((value m).Prime → (do let x ← k.toMont a; let y ← k.invert x; k.fromMont y) = some r)) ∧
    (∀ base e, Number n base → value base < value m → e % 2 = 1 → 3 ≤ e → e < 2 ^ 64 →
      f.powOdd base e = some (words n (value base ^ e % value m))) ∧
    (∀ base, Number n base → value base < value m → ∃ x < value m, base = form n m x) ∧
    (∀ x l exp, Number l exp → g.pow (form n m x) exp = some (form n m (x ^ value exp))) ∧
    ∀ x exp, Number n exp → k.powSecret (form n m x) exp = some (form n m (x ^ value exp)) ∧
      k.powSecret (form n m x) exp = g.pow (form n m x) exp := by
  have h2N : 2 * n < 2 ^ 64 := by omega
  have hof := Field.of_fromModulus hf
  have hkv := Modulus.valid_of hm h2N hk
  obtain ⟨g', hg', hgv⟩ := Mont.new_spec hm
  rw [hg] at hg'
  cases hg'
  refine ⟨fun a ha hlt => ?_, fun base e hb hlt hodd he he64 =>
    Field.powOdd_spec hm h2N hf hb hlt hodd he he64, fun base hb hlt => exists_form hm hb hlt,
    fun x l exp hexp => hgv.pow hm x hexp, fun x exp hexp => ?_⟩
  · obtain ⟨r, -, hr⟩ := invVartime_spec hm hof ha hlt (Nat.lt_succ_self _)
    refine ⟨r, hr, fun fuel hfuel => ?_, fun hprime hlow => ?_, fun hprime => ?_⟩
    · obtain ⟨r', hrun, hr'⟩ := invVartime_spec hm hof ha hlt hfuel
      rw [hrun, hr'.eq hr]
    · have hodd := hm.value_odd
      have h1 := hprime.one_lt
      have hfermat := fermat_isInverse (n := n) hprime (by omega) hlt
      obtain ⟨f', hf', hfv⟩ := Field.fromModulus_spec hm h1
      rw [hf] at hf'
      cases hf'
      have hlow2 : 2 ≤ m.headD 0 := by
        have := hm.odd
        omega
      have hrun := fermat_run hm h1 (hof.isMul hm h2N) (hfv.inv hm h2N hlow2) ha
      rw [hfermat.eq hr] at hrun
      simp only [Field.toMont, Field.fromMont, hfv.r2_eq, hof.m_eq, hm.number.length_eq]
      exact hrun
    · have hodd := hm.value_odd
      have h1 := hprime.one_lt
      have hfermat := fermat_isInverse (n := n) hprime (by omega) hlt
      have hrun := fermat_run hm h1 (hkv.toOf.isMul hm h2N) (hkv.invert hm h1 h2N) ha
      rw [hfermat.eq hr] at hrun
      simp only [Modulus.toMont, Modulus.fromMont, hkv.r2_eq, hkv.m_eq, hm.number.length_eq]
      exact hrun
  · have hpow := hkv.powSecret hm h2N x hexp
    exact ⟨hpow, hpow.trans (hgv.pow hm x hexp).symm⟩

/-! ## A lowest limb of one -/

lemma prime_low_limb_one : Nat.Prime (25 * 2 ^ 64 + 1) := by
  refine lucas_primality _ 3 ?_ fun q hq hdvd => ?_
  · norm_num
    reduce_mod_char
  · have hcases : q = 2 ∨ q = 5 := by
      rw [Nat.add_sub_cancel] at hdvd
      obtain h | h := (Nat.Prime.dvd_mul hq).1 hdvd
      · right
        exact (Nat.prime_dvd_prime_iff_eq hq (by norm_num)).1 (hq.dvd_of_dvd_pow (n := 2) h)
      · left
        exact (Nat.prime_dvd_prime_iff_eq hq (by norm_num)).1 (hq.dvd_of_dvd_pow h)
    obtain rfl | rfl := hcases
    · norm_num
      reduce_mod_char
      decide
    · norm_num
      reduce_mod_char
      decide

lemma isModulus_low_limb_one : IsModulus 2 [1, 25] := ⟨⟨rfl, by decide⟩, rfl, by decide⟩

lemma value_low_limb_one : value [1, 25] = 25 * 2 ^ 64 + 1 := by decide

/-- Modulo a prime whose lowest limb is one `Field::inv` has no value, while two has an inverse. -/
theorem inv_underflows : ∃ f, Field.fromModulus [1, 25] = some f ∧ (value [1, 25]).Prime ∧
    IsModulus 2 [1, 25] ∧ (∀ x, f.inv x = none) ∧
    ∃ fuel r, f.invVartime fuel [2, 0] = some r ∧
      ¬ (do let x ← f.toMont [2, 0]; let y ← f.inv x; f.fromMont y) = some r := by
  have hm := isModulus_low_limb_one
  obtain ⟨f, hf, hvalid⟩ := Field.fromModulus_spec hm (by decide)
  have hnone : ∀ x, f.inv x = none := by
    intro x
    rw [Field.inv, hvalid.m_eq]
    rfl
  obtain ⟨r, hr, -⟩ := invVartime_spec hm hvalid.toOf (a := [2, 0]) ⟨rfl, by decide⟩ (by decide)
    (Nat.lt_succ_self _)
  refine ⟨f, hf, ?_, hm, hnone, _, r, hr, fun h => ?_⟩
  · rw [value_low_limb_one]
    exact prime_low_limb_one
  · obtain ⟨x, -, h⟩ := bind_eq_some_iff.1 h
    rw [hnone] at h
    cases h

/-- Modulo the prime of P-256, the inverse of two. -/
theorem inverses_P256 : ∃ f, Field.fromModulus P256 = some f ∧
    ∃ r, IsInverse 4 (value P256) (value [2, 0, 0, 0]) r ∧
      ∀ fuel, value [2, 0, 0, 0] + value P256 < fuel → f.invVartime fuel [2, 0, 0, 0] = some r := by
  have hm : IsModulus 4 P256 := ⟨number_P256, by decide, by decide⟩
  obtain ⟨f, hf, -⟩ := Field.fromModulus_spec hm (by decide)
  obtain ⟨g, hg, -⟩ := Mont.new_spec hm
  obtain ⟨k, hk, -⟩ := Modulus.new_spec hm (by decide)
  obtain ⟨r, hr, hrun, -⟩ :=
    (inverses hm (by decide) hf hg (.inl hk)).1 [2, 0, 0, 0] ⟨rfl, by decide⟩ (by decide)
  exact ⟨f, hf, r, hr, hrun⟩

end Lazaret.Bignum
