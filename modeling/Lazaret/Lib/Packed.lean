import Mathlib.Data.Nat.Digits.Defs

/-!
# Packed records

Numbers packed one after the other into bytes, each in its width and lowest byte first
(`unpack_pack`), tables whose entries are all of one size (`drop_flatMap`), and pieces stored one
after the other, found again by where each begins and how long it is (`slice_of_mem_spans`).
-/

namespace Lazaret.Packed

open List

/-! ## Numbers -/

def toBytes : ℕ → ℕ → List UInt8
  | 0, _ => []
  | w + 1, n => UInt8.ofNat (n % 256) :: toBytes w (n / 256)

def ofBytes (bytes : List UInt8) : ℕ := Nat.ofDigits 256 (bytes.map UInt8.toNat)

@[simp] lemma length_toBytes (w n : ℕ) : (toBytes w n).length = w := by
  induction w generalizing n with
  | zero => rfl
  | succ w ih => rw [toBytes, length_cons, ih]

lemma ofBytes_toBytes {w n : ℕ} (h : n < 256 ^ w) : ofBytes (toBytes w n) = n := by
  induction w generalizing n with
  | zero =>
    rw [pow_zero, Nat.lt_one_iff] at h
    subst h
    rfl
  | succ w ih =>
    have hdiv : n / 256 < 256 ^ w := by
      rw [pow_succ] at h
      omega
    have hrest : ofBytes (toBytes w (n / 256)) = n / 256 := ih hdiv
    have hbyte : (UInt8.ofNat (n % 256)).toNat = n % 256 := by
      rw [UInt8.toNat_ofNat']
      omega
    rw [ofBytes] at hrest ⊢
    rw [toBytes, map_cons, Nat.ofDigits_cons, hrest, hbyte]
    omega

lemma ofBytes_cons (b : UInt8) (bytes : List UInt8) :
    ofBytes (b :: bytes) = b.toNat + 256 * ofBytes bytes := by
  rw [ofBytes, map_cons, Nat.ofDigits_cons, ofBytes]

lemma ofBytes_append (bs cs : List UInt8) :
    ofBytes (bs ++ cs) = ofBytes bs + 256 ^ bs.length * ofBytes cs := by
  rw [ofBytes, map_append, Nat.ofDigits_append, length_map, ofBytes, ofBytes]

lemma ofBytes_lt (bytes : List UInt8) : ofBytes bytes < 256 ^ bytes.length := by
  induction bytes with
  | nil => exact one_pos
  | cons b bytes ih =>
    rw [ofBytes_cons, length_cons, pow_succ]
    have := b.toNat_lt
    omega

lemma ofBytes_drop (bytes : List UInt8) (i : ℕ) :
    ofBytes (bytes.drop i) = ofBytes bytes / 256 ^ i := by
  induction i generalizing bytes with
  | zero => rw [drop_zero, Nat.pow_zero, Nat.div_one]
  | succ i ih =>
    cases bytes with
    | nil =>
      rw [drop_nil]
      exact (Nat.zero_div _).symm
    | cons b bytes =>
      have hb := b.toNat_lt
      rw [drop_succ_cons, ih, ofBytes_cons, Nat.pow_succ', ← Nat.div_div_eq_div_mul]
      congr 1
      omega

lemma ofBytes_take (bytes : List UInt8) (i : ℕ) :
    ofBytes (bytes.take i) = ofBytes bytes % 256 ^ i := by
  induction i generalizing bytes with
  | zero =>
    rw [take_zero, Nat.pow_zero, Nat.mod_one]
    rfl
  | succ i ih =>
    cases bytes with
    | nil =>
      rw [take_nil]
      exact (Nat.zero_mod _).symm
    | cons b bytes =>
      have hb : (b.toNat + 256 * ofBytes bytes) % 256 = b.toNat := by
        have := b.toNat_lt
        omega
      have hdiv : (b.toNat + 256 * ofBytes bytes) / 256 = ofBytes bytes := by
        omega
      rw [take_succ_cons, ofBytes_cons, ih, ofBytes_cons, Nat.pow_succ', Nat.mod_mul, hb, hdiv]

lemma toNat_getD (bytes : List UInt8) (i : ℕ) :
    (bytes.getD i 0).toNat = ofBytes bytes / 256 ^ i % 256 := by
  rw [← ofBytes_drop, getD_eq_getElem?_getD, ← add_zero i, ← List.getElem?_drop]
  cases bytes.drop (i + 0) with
  | nil => rfl
  | cons b rest =>
    rw [ofBytes_cons, Nat.add_mul_mod_self_left, Nat.mod_eq_of_lt b.toNat_lt]
    rfl

lemma toBytes_ofBytes (bytes : List UInt8) : toBytes bytes.length (ofBytes bytes) = bytes := by
  induction bytes with
  | nil => rfl
  | cons b bytes ih =>
    have hb := b.toNat_lt
    have hmod : ofBytes (b :: bytes) % 256 = b.toNat := by
      rw [ofBytes_cons]
      omega
    have hdiv : ofBytes (b :: bytes) / 256 = ofBytes bytes := by
      rw [ofBytes_cons]
      omega
    rw [length_cons, toBytes, hmod, hdiv, ih, UInt8.ofNat_toNat]

/-- `from_le_bytes` of the `n` bytes from a place on. -/
def leAt (n : ℕ) (bytes : List UInt8) (i : ℕ) : ℕ := ofBytes ((bytes.drop i).take n)

lemma leAt_eq (n : ℕ) (bytes : List UInt8) (i : ℕ) :
    leAt n bytes i = ofBytes bytes / 256 ^ i % 256 ^ n := by
  rw [leAt, ofBytes_take, ofBytes_drop]

lemma toBytes_add (v w n : ℕ) : toBytes (v + w) n = toBytes v n ++ toBytes w (n / 256 ^ v) := by
  induction v generalizing n with
  | zero => rw [Nat.zero_add, Nat.pow_zero, Nat.div_one, toBytes, nil_append]
  | succ v ih =>
    rw [Nat.succ_add, toBytes, ih, toBytes, cons_append, Nat.div_div_eq_div_mul, ← pow_succ']

lemma toBytes_mod (w n : ℕ) : toBytes w (n % 256 ^ w) = toBytes w n := by
  induction w generalizing n with
  | zero => rfl
  | succ w ih =>
    have hmod : n % 256 ^ (w + 1) % 256 = n % 256 := Nat.mod_mod_of_dvd n (Dvd.intro_left _ rfl)
    have hdiv : n % 256 ^ (w + 1) / 256 = n / 256 % 256 ^ w := by
      rw [Nat.pow_succ', Nat.mod_mul_right_div_self]
    rw [toBytes, hmod, hdiv, ih, toBytes]

lemma toBytes_append {v a : ℕ} (ha : a < 256 ^ v) (w b : ℕ) :
    toBytes (v + w) (a + 256 ^ v * b) = toBytes v a ++ toBytes w b := by
  have hmod : (a + 256 ^ v * b) % 256 ^ v = a := by
    rw [Nat.add_mul_mod_self_left, Nat.mod_eq_of_lt ha]
  have hdiv : (a + 256 ^ v * b) / 256 ^ v = b := by
    rw [Nat.add_mul_div_left _ _ (Nat.pow_pos (by decide)), Nat.div_eq_of_lt ha, Nat.zero_add]
  rw [toBytes_add, hdiv, ← toBytes_mod v, hmod]

/-! ## Records of numbers -/

/-- `struct.pack` of widths and numbers: none when a number does not fit. -/
def pack (fields : List (ℕ × ℕ)) : Option (List UInt8) :=
  if ∀ f ∈ fields, f.2 < 256 ^ f.1 then some (fields.flatMap fun f => toBytes f.1 f.2) else none

def unpack : List ℕ → List UInt8 → List ℕ
  | [], _ => []
  | w :: widths, bytes => ofBytes (bytes.take w) :: unpack widths (bytes.drop w)

variable {fields : List (ℕ × ℕ)} {bytes : List UInt8}

lemma pack_eq_some : pack fields = some bytes ↔
    (∀ f ∈ fields, f.2 < 256 ^ f.1) ∧ fields.flatMap (fun f => toBytes f.1 f.2) = bytes := by
  rw [pack]
  split <;> simp_all

lemma length_of_pack (h : pack fields = some bytes) :
    bytes.length = (fields.map Prod.fst).sum := by
  rw [← (pack_eq_some.1 h).2, length_flatMap]
  congr 1
  apply map_congr_left
  intro f _
  exact length_toBytes f.1 f.2

theorem unpack_pack (h : pack fields = some bytes) (rest : List UInt8) :
    unpack (fields.map Prod.fst) (bytes ++ rest) = fields.map Prod.snd := by
  obtain ⟨hfits, rfl⟩ := pack_eq_some.1 h
  clear h
  induction fields with
  | nil => rfl
  | cons f fields ih =>
    have hlen : (toBytes f.1 f.2).length = f.1 := length_toBytes f.1 f.2
    rw [map_cons, map_cons, flatMap_cons, append_assoc, unpack]
    rw [take_left' hlen, drop_left' hlen]
    rw [ofBytes_toBytes (hfits f mem_cons_self)]
    rw [ih fun g hg => hfits g (mem_cons_of_mem f hg)]

/-! ## Tables -/

variable {α : Type*}

lemma length_flatMap {f : α → List UInt8} {w : ℕ} {xs : List α} (h : ∀ x ∈ xs, (f x).length = w) :
    (xs.flatMap f).length = w * xs.length := by
  induction xs with
  | nil => rfl
  | cons x xs ih =>
    rw [flatMap_cons, length_append, h x mem_cons_self,
      ih fun y hy => h y (mem_cons_of_mem x hy), length_cons]
    ring

lemma drop_flatMap {f : α → List UInt8} {w : ℕ} {xs : List α} (h : ∀ x ∈ xs, (f x).length = w)
    (i : ℕ) : (xs.flatMap f).drop (i * w) = (xs.drop i).flatMap f := by
  induction xs generalizing i with
  | nil => simp
  | cons x xs ih =>
    cases i with
    | zero => simp
    | succ i =>
      have hlen : (f x).length = w := h x mem_cons_self
      rw [flatMap_cons, drop_succ_cons,
        ← ih (fun y hy => h y (mem_cons_of_mem x hy)) i, add_mul, one_mul,
        add_comm (i * w) w, ← drop_drop, drop_left' hlen]

/-! ## Pieces -/

/-- Pieces stored one after the other, each with where it begins. -/
def spans : ℕ → List (List α) → List (ℕ × List α)
  | _, [] => []
  | pos, d :: ds => (pos, d) :: spans (pos + d.length) ds

lemma spans_append (pos : ℕ) (ds es : List (List α)) :
    spans pos (ds ++ es) = spans pos ds ++ spans (pos + ds.flatten.length) es := by
  induction ds generalizing pos with
  | nil => simp [spans]
  | cons d ds ih =>
    rw [cons_append, spans, ih, spans, cons_append, flatten_cons, length_append, add_assoc]

theorem slice_of_mem_spans {before : List α} {ds : List (List α)} {off : ℕ} {d : List α}
    (h : (off, d) ∈ spans before.length ds) :
    ((before ++ ds.flatten).drop off).take d.length = d ∧
      off + d.length ≤ (before ++ ds.flatten).length := by
  induction ds generalizing before with
  | nil => simp [spans] at h
  | cons e ds ih =>
    rw [spans, mem_cons] at h
    rw [flatten_cons]
    obtain hhere | hlater := h
    · rw [Prod.mk.injEq] at hhere
      obtain ⟨rfl, rfl⟩ := hhere
      rw [drop_left, take_left]
      simp
    · rw [← length_append] at hlater
      rw [← append_assoc]
      exact ih hlater

end Lazaret.Packed
