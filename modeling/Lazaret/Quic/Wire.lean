import Lazaret.H3.Pieces
import Lazaret.Lib.Cursor
import Lazaret.Lib.Packed
import Mathlib.Tactic.IntervalCases

/-!
# Variable-length integers and packet numbers

The lowest level of QUIC's wire format (`pratique/src/quic/wire.rs`).  An integer that is written is
read again, in as many bytes as it was written in (`yields_putVarintLen`), and a packet number that
is sent in `packet_number_len` bytes is the one the receiver recovers (`packet_number_recovered`).
-/

namespace Lazaret.Quic.Wire

open List Option

/-! ## Variable-length integers -/

/-- The largest value a variable-length integer holds. -/
def MAX_VARINT : ℕ := 2 ^ 62 - 1

/-- How many bytes an integer takes, the shortest way; it panics past `MAX_VARINT`. -/
def varintLen (v : ℕ) : Option ℕ :=
  if MAX_VARINT < v then none
  else if v ≤ 63 then some 1
  else if v ≤ 16383 then some 2
  else if v ≤ 1073741823 then some 4
  else some 8

def beBytes (w n : ℕ) : List UInt8 := (Packed.toBytes w n).reverse

/-- The two bits in front of an integer of so many bytes. -/
def tagOf (len : ℕ) : ℕ := if len = 1 then 0 else if len = 2 then 1 else if len = 4 then 2 else 3

/-- `put_varint_len`: an integer in 1, 2, 4 or 8 bytes; it panics where it does not fit. -/
def putVarintLen (v len : ℕ) : Option (List UInt8) :=
  if len = 1 ∨ len = 2 ∨ len = 4 ∨ len = 8 then do
    let least ← varintLen v
    if least ≤ len then
      let word := v ||| tagOf len <<< (len * 8 - 2)
      some ((beBytes 8 word).drop (8 - len))
    else none
  else none

def putVarint (v : ℕ) : Option (List UInt8) := do
  let len ← varintLen v
  putVarintLen v len

inductive Truncated
  | truncated
deriving DecidableEq

abbrev Reader := Cursor UInt8 Truncated

def u8 : Reader UInt8 := fun s =>
  match s with
  | [] => .error .truncated
  | b :: rest => .ok (b, rest)

def bytes (n : ℕ) : Reader (List UInt8) := Cursor.items n .truncated

def varint : Reader ℕ := fun s =>
  match H3.getVarint s with
  | none => .error .truncated
  | some (v, n) => .ok (v, s.drop n)

def varintMinimal : Reader (ℕ × Bool) := fun s =>
  match H3.getVarint s with
  | none => .error .truncated
  | some (v, n) => .ok ((v, varintLen v = some n), s.drop n)

def lengthPrefixed : Reader (List UInt8) := do
  let n ← varint
  bytes n

/-! ### What is written is read again -/

@[simp] lemma length_beBytes (w n : ℕ) : (beBytes w n).length = w := by
  rw [beBytes, length_reverse, Packed.length_toBytes]

lemma beBytes_succ (w n : ℕ) : beBytes (w + 1) n = beBytes w
    (n / 256) ++ [UInt8.ofNat (n % 256)] := by
  rw [beBytes, Packed.toBytes, reverse_cons, beBytes]

lemma drop_beBytes (w k n : ℕ) : (beBytes (w + k) n).drop w = beBytes k n := by
  induction k generalizing n with
  | zero => rw [add_zero, drop_of_length_le (length_beBytes w n).le, beBytes,
      Packed.toBytes, reverse_nil]
  | succ k ih =>
    rw [← add_assoc, beBytes_succ, beBytes_succ, drop_append_of_le_length, ih]
    rw [length_beBytes]
    omega

lemma beBytes_cons (w n : ℕ) :
    beBytes (w + 1) n = UInt8.ofNat (n / 256 ^ w % 256) :: beBytes w n := by
  induction w generalizing n with
  | zero => simp [beBytes, Packed.toBytes]
  | succ w ih =>
    rw [beBytes_succ, ih, beBytes_succ, Nat.div_div_eq_div_mul, ← Nat.pow_succ']
    rfl

lemma foldl_beBytes (w n a : ℕ) :
    (beBytes w n).foldl (fun v b => v <<< 8 ||| b.toNat) a = a * 256 ^ w + n % 256 ^ w := by
  induction w generalizing n with
  | zero => simp [beBytes, Packed.toBytes, Nat.mod_one]
  | succ w ih =>
    have hbyte : (UInt8.ofNat (n % 256)).toNat = n % 256 := by
      rw [UInt8.toNat_ofNat']
      omega
    have hor : ∀ x : ℕ, x <<< 8 ||| n % 256 = x * 256 + n % 256 := fun x => by
      rw [← Nat.shiftLeft_add_eq_or_of_lt (Nat.mod_lt n (by decide)), Nat.shiftLeft_eq]
    rw [beBytes_succ, foldl_append, ih, foldl_cons, foldl_nil, hbyte, hor,
      Nat.pow_succ, Nat.mul_comm (256 ^ w) 256, Nat.mod_mul]
    ring

variable {v len : ℕ} {bs : List UInt8}

lemma putVarintLen_eq_some (h : putVarintLen v len = some bs) :
    v < 2 ^ (8 * len - 2) ∧ (len = 1 ∨ len = 2 ∨ len = 4 ∨ len = 8) ∧
      bs = beBytes len (tagOf len * 2 ^ (8 * len - 2) + v) := by
  rw [putVarintLen] at h
  split_ifs at h with hlen
  obtain ⟨least, hleast, h⟩ := bind_eq_some_iff.1 h
  split_ifs at h with hle
  have hfits : v < 2 ^ (8 * len - 2) := by
    rw [varintLen, MAX_VARINT] at hleast
    obtain rfl | rfl | rfl | rfl := hlen <;> split_ifs at hleast <;> cases hleast <;> omega
  refine ⟨hfits, hlen, ?_⟩
  obtain ⟨k, hk⟩ : ∃ k, 8 = k + len := ⟨8 - len, by omega⟩
  rw [some.injEq] at h
  have hdrop : ∀ n, (beBytes 8 n).drop (8 - len) = beBytes len n := by
    intro n
    rw [hk, Nat.add_sub_cancel, drop_beBytes]
  rw [← h, hdrop, Nat.mul_comm len 8, Nat.or_comm, ← Nat.shiftLeft_add_eq_or_of_lt hfits,
    Nat.shiftLeft_eq]

lemma length_putVarintLen (h : putVarintLen v len = some bs) : bs.length = len := by
  obtain ⟨-, -, rfl⟩ := putVarintLen_eq_some h
  exact length_beBytes _ _

lemma firstByte {q : ℕ} (hlen : len = 1 ∨ len = 2 ∨ len = 4 ∨ len = 8) (hq : q < 64) :
    (UInt8.ofNat (tagOf len * 64 + q)).toNat &&& 0x3f = q ∧
      H3.varintLen (UInt8.ofNat (tagOf len * 64 + q)) = len ∧ tagOf len * 64 + q < 256 := by
  have htag : tagOf len < 4 := by
    rw [tagOf]
    split_ifs <;> decide
  have hbyte : (UInt8.ofNat (tagOf len * 64 + q)).toNat = tagOf len * 64 + q := by
    rw [UInt8.toNat_ofNat']
    omega
  have hmask : (0x3f : ℕ) = 2 ^ 6 - 1 := rfl
  have hshift : (tagOf len * 64 + q) / 2 ^ 6 = tagOf len := by omega
  refine ⟨?_, ?_, by omega⟩
  · rw [hbyte, hmask, Nat.and_two_pow_sub_one_eq_mod]
    omega
  · rw [H3.varintLen, hbyte, Nat.shiftRight_eq_div_pow, hshift]
    obtain rfl | rfl | rfl | rfl := hlen <;> rfl

lemma getVarint_putVarintLen (h : putVarintLen v len = some bs)
    (rest : List UInt8) : H3.getVarint (bs ++ rest) = some (v, len) := by
  obtain ⟨hfits, hlen, hbs⟩ := putVarintLen_eq_some h
  obtain ⟨k, rfl⟩ : ∃ k, len = k + 1 := ⟨len - 1, by omega⟩
  have hpos : 0 < 256 ^ k := Nat.pow_pos (by decide)
  have hpow : 2 ^ (8 * (k + 1) - 2) = 64 * 256 ^ k := by
    have hexp : 8 * (k + 1) - 2 = 6 + 8 * k := by omega
    rw [hexp, pow_add, pow_mul]
    norm_num
  rw [hpow] at hfits hbs
  have hq : v / 256 ^ k < 64 := Nat.div_lt_of_lt_mul (by rwa [Nat.mul_comm])
  obtain ⟨hmask, hvarint, hbyte⟩ := firstByte hlen hq
  have hhigh : (tagOf (k + 1) * (64 * 256 ^ k) + v) / 256 ^ k % 256 =
      tagOf (k + 1) * 64 + v / 256 ^ k := by
    rw [← mul_assoc, Nat.add_comm, Nat.add_mul_div_right _ _ hpos, Nat.add_comm,
      Nat.mod_eq_of_lt hbyte]
  have hlow : (tagOf (k + 1) * (64 * 256 ^ k) + v) % 256 ^ k = v % 256 ^ k := by
    rw [← mul_assoc, Nat.add_comm, Nat.add_mul_mod_self_right]
  have hlong : ¬ (beBytes (k + 1) (tagOf (k + 1) * (64 * 256 ^ k) + v) ++ rest).length < k + 1 := by
    rw [length_append, length_beBytes]
    omega
  rw [beBytes_cons, hhigh] at hbs hlong
  rw [cons_append] at hlong
  rw [hbs, cons_append, H3.getVarint, hvarint, if_neg hlong, Nat.add_sub_cancel,
    take_left' (length_beBytes _ _), foldl_beBytes, hmask, hlow, Nat.div_add_mod']

lemma exists_putVarint (h : v ≤ MAX_VARINT) :
    ∃ len bs, varintLen v = some len ∧ putVarint v = some bs ∧ putVarintLen v len = some bs := by
  have hlen : ∃ len, varintLen v = some len ∧ (len = 1 ∨ len = 2 ∨ len = 4 ∨ len = 8) := by
    rw [varintLen, if_neg (by omega)]
    split_ifs
    · exact ⟨1, rfl, by decide⟩
    · exact ⟨2, rfl, by decide⟩
    · exact ⟨4, rfl, by decide⟩
    · exact ⟨8, rfl, by decide⟩
  obtain ⟨len, hlen, hfour⟩ := hlen
  have hput : ∃ bs, putVarintLen v len = some bs := by
    rw [putVarintLen, if_pos hfour, hlen, bind_eq_bind, bind_some, if_pos le_rfl]
    exact ⟨_, rfl⟩
  obtain ⟨bs, hbs⟩ := hput
  refine ⟨len, bs, hlen, ?_, hbs⟩
  rw [putVarint, hlen]
  exact hbs

/-! ### What the reads take -/

open Cursor

lemma yields_u8 (b : UInt8) : Yields u8 [b] b := fun _ => rfl

variable {n : ℕ}

lemma yields_bytes {xs : List UInt8} (h : xs.length = n) : Yields (bytes n) xs xs :=
  Yields.items _ h

lemma yields_putVarintLen (h : putVarintLen v len = some bs) : Yields varint bs v := by
  intro rest
  rw [varint, getVarint_putVarintLen h]
  dsimp only
  rw [drop_left' (length_putVarintLen h)]

lemma yields_varint (h : putVarint v = some bs) : Yields varint bs v := by
  obtain ⟨len, -, hlen⟩ := bind_eq_some_iff.1 h
  exact yields_putVarintLen hlen

lemma exists_put (h : v ≤ MAX_VARINT) :
    ∃ bs, putVarint v = some bs ∧ varintLen v = some bs.length ∧ Yields varint bs v := by
  obtain ⟨len, bs, hlen, hput, hputLen⟩ := exists_putVarint h
  exact ⟨bs, hput, by rw [hlen, length_putVarintLen hputLen], yields_varint hput⟩

lemma yields_varintMinimal (h : putVarint v = some bs) : Yields varintMinimal bs (v, true) := by
  obtain ⟨len, hlen, hput⟩ := bind_eq_some_iff.1 h
  intro rest
  rw [varintMinimal, getVarint_putVarintLen hput]
  dsimp only
  rw [drop_left' (length_putVarintLen hput), hlen, decide_eq_true rfl]

variable {t s : List UInt8}

lemma u8_eq_ok {b : UInt8} : u8 s = .ok (b, t) ↔ s = b :: t := by
  cases s with
  | nil => simp [u8]
  | cons c s => simp [u8]

lemma bytes_eq_ok {xs : List UInt8} : bytes n s = .ok (xs, t) ↔ xs.length = n ∧ s = xs ++ t :=
  items_eq_ok

lemma varint_eq_ok : varint s = .ok (v, t) ↔ ∃ n, H3.getVarint s = some (v, n) ∧ t = s.drop n := by
  rw [varint]
  cases H3.getVarint s with
  | none => simp
  | some r => simp [Prod.ext_iff, eq_comm]

lemma varintMinimal_eq_ok {minimal : Bool} : varintMinimal s = .ok ((v, minimal), t) ↔
      ∃ n, H3.getVarint s = some (v, n) ∧ decide (varintLen v = some n) = minimal ∧
        t = s.drop n := by
  rw [varintMinimal]
  cases H3.getVarint s with
  | none => simp
  | some r =>
    obtain ⟨w, n⟩ := r
    constructor
    · rintro ⟨⟩
      exact ⟨n, rfl, rfl, rfl⟩
    · rintro ⟨k, ⟨⟩, rfl, rfl⟩
      rfl

lemma local_u8 : Local u8 := by
  intro s b t h
  exact ⟨[b], u8_eq_ok.1 h, yields_u8 b⟩

lemma local_bytes (n : ℕ) : Local (bytes n) := Local.items n _

lemma local_varint : Local varint := by
  intro s v t h
  obtain ⟨n, hget, rfl⟩ := varint_eq_ok.1 h
  refine ⟨s.take n, (take_append_drop n s).symm, fun rest => ?_⟩
  have htake : H3.getVarint (s.take n ++ rest) = some (v, n) :=
    H3.getVarint_append (H3.getVarint_take hget)
  have hlen : (s.take n).length = n := length_take_of_le (H3.getVarint_pos hget).2
  exact varint_eq_ok.2 ⟨n, htake, (drop_left' hlen).symm⟩

lemma local_lengthPrefixed : Local lengthPrefixed := local_varint.bind local_bytes

lemma getVarint_le (h : H3.getVarint s = some (v, n)) : v ≤ MAX_VARINT := by
  cases s with
  | nil => cases h
  | cons first rest =>
    rw [H3.getVarint] at h
    split_ifs at h
    rw [some.injEq, Prod.mk.injEq] at h
    obtain ⟨hv, -⟩ := h
    have hfold : ∀ (xs : List UInt8) (a : ℕ), xs.foldl (fun v b => v <<< 8 ||| b.toNat) a <
        (a + 1) * 256 ^ xs.length := by
      intro xs
      induction xs with
      | nil => simp
      | cons b xs ih =>
        intro a
        have hb : b.toNat < 2 ^ 8 := UInt8.toNat_lt b
        have hnext := ih (a <<< 8 ||| b.toNat)
        rw [← Nat.shiftLeft_add_eq_or_of_lt hb, Nat.shiftLeft_eq] at hnext
        rw [foldl_cons, ← Nat.shiftLeft_add_eq_or_of_lt hb, Nat.shiftLeft_eq]
        calc _ < (a * 2 ^ 8 + b.toNat + 1) * 256 ^ xs.length := hnext
          _ ≤ ((a + 1) * 256) * 256 ^ xs.length := Nat.mul_le_mul_right _ (by omega)
          _ = (a + 1) * 256 ^ (b :: xs).length := by
            rw [length_cons, Nat.pow_succ]
            ring
    have hmask : first.toNat &&& 0x3f < 64 := Nat.and_lt_two_pow (n := 6) _ (by decide)
    have hlen : H3.varintLen first ≤ 8 := by
      have hfirst : first.toNat / 2 ^ 6 ≤ 3 := by
        have := UInt8.toNat_lt first
        omega
      rw [H3.varintLen, Nat.one_shiftLeft, Nat.shiftRight_eq_div_pow]
      exact Nat.pow_le_pow_right (n := 2) (by decide) hfirst
    have htake : (rest.take (H3.varintLen first - 1)).length ≤ 7 := by
      rw [length_take]
      omega
    have hbound := hfold (rest.take (H3.varintLen first - 1)) (first.toNat &&& 0x3f)
    rw [hv] at hbound
    have hpow : 256 ^ (rest.take (H3.varintLen first - 1)).length ≤ 256 ^ 7 :=
      Nat.pow_le_pow_right (by decide) htake
    have hle : v < 64 * 256 ^ 7 :=
      hbound.trans_le (Nat.mul_le_mul (by omega) hpow)
    rw [MAX_VARINT]
    omega

lemma le_of_varint (h : varint s = .ok (v, t)) : v ≤ MAX_VARINT := by
  obtain ⟨n, hget, -⟩ := varint_eq_ok.1 h
  exact getVarint_le hget

lemma length_lt_of_varint (h : varint s = .ok (v, t)) : t.length < s.length := by
  obtain ⟨n, hget, rfl⟩ := varint_eq_ok.1 h
  have hpos := H3.getVarint_pos hget
  rw [length_drop]
  omega

end Lazaret.Quic.Wire
