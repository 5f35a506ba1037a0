import Lazaret.Lib.Utf8
import Mathlib.Data.List.TakeWhile

/-!
# Base64

The strict Base64 of signed notes (`pem.rs`): `base64DecodeStrict` reads back what `base64Encode`
writes.
-/

namespace Lazaret.Notes

open List

open Utf8 (byte encode)

/-! ## Decoding -/

/-- The number that a character of the alphabet stands for. -/
def base64Digit (c : UInt8) : Option ℕ :=
  if 'A'.toNat ≤ c.toNat ∧ c.toNat ≤ 'Z'.toNat then some (c.toNat - 'A'.toNat)
  else if 'a'.toNat ≤ c.toNat ∧ c.toNat ≤ 'z'.toNat then some (c.toNat - 'a'.toNat + 26)
  else if '0'.toNat ≤ c.toNat ∧ c.toNat ≤ '9'.toNat then some (c.toNat - '0'.toNat + 52)
  else if c.toNat = '+'.toNat then some 62
  else if c.toNat = '/'.toNat then some 63
  else none

/-- What the decoder has so far: the bytes, and the bits that are not a byte yet. -/
structure Decoding where
  out : List UInt8
  acc : ℕ
  bits : ℕ

def decodeTurn (d : Decoding) (c : UInt8) : Option Decoding := do
  let v ← base64Digit c
  let acc := d.acc <<< 6 ||| v
  let bits := d.bits + 6
  if bits ≥ 8 then
    let bits := bits - 8
    some ⟨d.out ++ [UInt8.ofNat (acc >>> bits)], acc &&& (1 <<< bits - 1), bits⟩
  else some ⟨d.out, acc, bits⟩

def base64DecodeStrict (b : List UInt8) : Option (List UInt8) :=
  if b.length % 4 ≠ 0 then none
  else do
    let pad := ((b.reverse.take 2).takeWhile (· = byte '=')).length
    let d ← (b.take (b.length - pad)).foldlM decodeTurn ⟨[], 0, 0⟩
    -- the unused bits of the last character are zero
    if d.acc ≠ 0 then none else some d.out

/-! ## Encoding -/

def base64Char (v : ℕ) : Char :=
  "ABCDEFGHIJKLMNOPQRSTUVWXYZabcdefghijklmnopqrstuvwxyz0123456789+/".toList.getD (v &&& 63) '='

def chunk (a b c : UInt8) : ℕ := a.toNat <<< 16 ||| b.toNat <<< 8 ||| c.toNat

def base64Encode : List UInt8 → List Char
  | [] => []
  | [a] =>
    let n := chunk a 0 0
    [base64Char (n >>> 18), base64Char (n >>> 12), '=', '=']
  | [a, b] =>
    let n := chunk a b 0
    [base64Char (n >>> 18), base64Char (n >>> 12), base64Char (n >>> 6), '=']
  | a :: b :: c :: rest =>
    let n := chunk a b c
    base64Char (n >>> 18) :: base64Char (n >>> 12) :: base64Char (n >>> 6) :: base64Char n ::
      base64Encode rest

/-! ## What is encoded is decoded -/

set_option maxRecDepth 4000 in
lemma base64Digit_char_of_lt :
    ∀ n < 64, (base64Char n).toNat < 128 ∧ base64Digit (byte (base64Char n)) = some n := by
  decide

lemma base64Digit_char (v : ℕ) :
    (base64Char v).toNat < 128 ∧ base64Digit (byte (base64Char v)) = some (v % 64) := by
  have hmod : base64Char v = base64Char (v % 64) := by
    have hand : ∀ n, n &&& 63 = n % 64 := fun n => Nat.and_two_pow_sub_one_eq_mod n 6
    rw [base64Char, base64Char, hand, hand, Nat.mod_mod]
  rw [hmod]
  exact base64Digit_char_of_lt _ (Nat.mod_lt v (by omega))

lemma char_ne_pad (v : ℕ) : byte (base64Char v) ≠ byte '=' := by
  intro h
  have hdigit := (base64Digit_char v).2
  rw [h, show base64Digit (byte '=') = none from rfl] at hdigit
  cases hdigit

lemma chunk_eq (a b c : UInt8) : chunk a b c = a.toNat * 65536 + b.toNat * 256 + c.toNat := by
  have hb := b.toNat_lt
  have hc := c.toNat_lt
  have hlow : b.toNat <<< 8 < 2 ^ 16 := by
    rw [Nat.shiftLeft_eq]
    omega
  have hhigh : a.toNat <<< 16 + b.toNat <<< 8 = (a.toNat * 256 + b.toNat) <<< 8 := by
    rw [Nat.shiftLeft_eq, Nat.shiftLeft_eq, Nat.shiftLeft_eq]
    omega
  rw [chunk, ← Nat.shiftLeft_add_eq_or_of_lt hlow, hhigh, ← Nat.shiftLeft_add_eq_or_of_lt hc,
    Nat.shiftLeft_eq]
  omega

lemma decodeTurn_char (out : List UInt8) (acc bits v : ℕ) :
    decodeTurn ⟨out, acc, bits⟩ (byte (base64Char v)) =
      if bits + 6 ≥ 8 then
        some ⟨out ++ [UInt8.ofNat ((acc * 64 + v % 64) / 2 ^ (bits + 6 - 8))],
          (acc * 64 + v % 64) % 2 ^ (bits + 6 - 8), bits + 6 - 8⟩
      else some ⟨out, acc * 64 + v % 64, bits + 6⟩ := by
  have hacc : acc <<< 6 ||| v % 64 = acc * 64 + v % 64 := by
    rw [← Nat.shiftLeft_add_eq_or_of_lt (show v % 64 < 2 ^ 6 from Nat.mod_lt v (by omega)),
      Nat.shiftLeft_eq]
  rw [decodeTurn, (base64Digit_char v).2]
  show (if bits + 6 ≥ 8 then _ else _) = _
  dsimp only
  rw [hacc, Nat.shiftRight_eq_div_pow, Nat.one_shiftLeft, Nat.and_two_pow_sub_one_eq_mod]

lemma decode_two (out : List UInt8) (n : ℕ) (cs : List UInt8) :
    (byte (base64Char (n >>> 18)) :: byte (base64Char (n >>> 12)) :: cs).foldlM decodeTurn
        ⟨out, 0, 0⟩ =
      cs.foldlM decodeTurn ⟨out ++ [UInt8.ofNat (n / 65536 % 256)], n / 4096 % 16, 4⟩ := by
  have hfirst : decodeTurn ⟨out, 0, 0⟩ (byte (base64Char (n >>> 18))) =
      some ⟨out, n / 2 ^ 18 % 64, 6⟩ := by
    rw [decodeTurn_char, if_neg (by omega), Nat.zero_mul, Nat.zero_add, Nat.shiftRight_eq_div_pow]
  have hsecond : decodeTurn ⟨out, n / 2 ^ 18 % 64, 6⟩ (byte (base64Char (n >>> 12))) =
      some ⟨out ++ [UInt8.ofNat (n / 65536 % 256)], n / 4096 % 16, 4⟩ := by
    rw [decodeTurn_char, if_pos (by omega), Nat.shiftRight_eq_div_pow,
      show (n / 2 ^ 18 % 64 * 64 + n / 2 ^ 12 % 64) / 2 ^ (6 + 6 - 8) = n / 65536 % 256 by omega,
      show (n / 2 ^ 18 % 64 * 64 + n / 2 ^ 12 % 64) % 2 ^ (6 + 6 - 8) = n / 4096 % 16 by omega]
  rw [foldlM_cons, hfirst]
  show (_ :: cs).foldlM decodeTurn _ = _
  rw [foldlM_cons, hsecond]
  rfl

lemma decode_three (out : List UInt8) (n : ℕ) (cs : List UInt8) :
    (byte (base64Char (n >>> 6)) :: cs).foldlM decodeTurn ⟨out, n / 4096 % 16, 4⟩ =
      cs.foldlM decodeTurn ⟨out ++ [UInt8.ofNat (n / 256 % 256)], n / 64 % 4, 2⟩ := by
  have hturn : decodeTurn ⟨out, n / 4096 % 16, 4⟩ (byte (base64Char (n >>> 6))) =
      some ⟨out ++ [UInt8.ofNat (n / 256 % 256)], n / 64 % 4, 2⟩ := by
    rw [decodeTurn_char, if_pos (by omega), Nat.shiftRight_eq_div_pow,
      show (n / 4096 % 16 * 64 + n / 2 ^ 6 % 64) / 2 ^ (4 + 6 - 8) = n / 256 % 256 by omega,
      show (n / 4096 % 16 * 64 + n / 2 ^ 6 % 64) % 2 ^ (4 + 6 - 8) = n / 64 % 4 by omega]
  rw [foldlM_cons, hturn]
  rfl

lemma decode_four (out : List UInt8) (n : ℕ) (cs : List UInt8) :
    (byte (base64Char n) :: cs).foldlM decodeTurn ⟨out, n / 64 % 4, 2⟩ =
      cs.foldlM decodeTurn ⟨out ++ [UInt8.ofNat (n % 256)], 0, 0⟩ := by
  have hturn : decodeTurn ⟨out, n / 64 % 4, 2⟩ (byte (base64Char n)) =
      some ⟨out ++ [UInt8.ofNat (n % 256)], 0, 0⟩ := by
    rw [decodeTurn_char, if_pos (by omega),
      show (n / 64 % 4 * 64 + n % 64) / 2 ^ (2 + 6 - 8) = n % 256 by omega,
      show (n / 64 % 4 * 64 + n % 64) % 2 ^ (2 + 6 - 8) = 0 by omega]
  rw [foldlM_cons, hturn]
  rfl

lemma base64Encode_eq (data : List UInt8) :
    ∃ (body : List UInt8) (pad bits : ℕ),
      encode (base64Encode data) = body ++ replicate pad (byte '=') ∧ pad ≤ 2 ∧
        (body.length + pad) % 4 = 0 ∧ (∀ c ∈ body, c ≠ byte '=') ∧
        ∀ out, body.foldlM decodeTurn ⟨out, 0, 0⟩ = some ⟨out ++ data, 0, bits⟩ := by
  have hbyte : ∀ v cs, encode (base64Char v :: cs) = byte (base64Char v) :: encode cs := fun v cs =>
    Utf8.encode_cons_of_lt (base64Digit_char v).1 cs
  induction data using base64Encode.induct with
  | case1 =>
    refine ⟨[], 0, 0, rfl, Nat.zero_le 2, rfl, fun c hc => absurd hc not_mem_nil, fun out => ?_⟩
    rw [append_nil]
    rfl
  | case2 a =>
    have ha := a.toNat_lt
    have hn := chunk_eq a 0 0
    refine ⟨[byte (base64Char (chunk a 0 0 >>> 18)), byte (base64Char (chunk a 0 0 >>> 12))], 2, 4,
      ?_, le_rfl, by simp, ?_, ?_⟩
    · rw [base64Encode, hbyte, hbyte]
      rfl
    · rintro c hc
      simp only [mem_cons, not_mem_nil, or_false] at hc
      rcases hc with rfl | rfl <;> exact char_ne_pad _
    · intro out
      rw [decode_two, hn, show (0 : UInt8).toNat = 0 from rfl,
        show (a.toNat * 65536 + 0 * 256 + 0) / 65536 % 256 = a.toNat by omega,
        show (a.toNat * 65536 + 0 * 256 + 0) / 4096 % 16 = 0 by omega, UInt8.ofNat_toNat]
      rfl
  | case3 a b =>
    have ha := a.toNat_lt
    have hb := b.toNat_lt
    have hn := chunk_eq a b 0
    refine ⟨[byte (base64Char (chunk a b 0 >>> 18)), byte (base64Char (chunk a b 0 >>> 12)),
      byte (base64Char (chunk a b 0 >>> 6))], 1, 2, ?_, by omega, by simp, ?_, ?_⟩
    · rw [base64Encode, hbyte, hbyte, hbyte]
      rfl
    · rintro c hc
      simp only [mem_cons, not_mem_nil, or_false] at hc
      rcases hc with rfl | rfl | rfl <;> exact char_ne_pad _
    · intro out
      rw [decode_two, decode_three, hn, show (0 : UInt8).toNat = 0 from rfl,
        show (a.toNat * 65536 + b.toNat * 256 + 0) / 65536 % 256 = a.toNat by omega,
        show (a.toNat * 65536 + b.toNat * 256 + 0) / 256 % 256 = b.toNat by omega,
        show (a.toNat * 65536 + b.toNat * 256 + 0) / 64 % 4 = 0 by omega, UInt8.ofNat_toNat,
        UInt8.ofNat_toNat, append_assoc]
      rfl
  | case4 a b c rest ih =>
    obtain ⟨body, pad, bits, hencode, hpad, hlen, hne, hdecode⟩ := ih
    have ha := a.toNat_lt
    have hb := b.toNat_lt
    have hc := c.toNat_lt
    have hn := chunk_eq a b c
    refine ⟨byte (base64Char (chunk a b c >>> 18)) :: byte (base64Char (chunk a b c >>> 12)) ::
      byte (base64Char (chunk a b c >>> 6)) :: byte (base64Char (chunk a b c)) :: body, pad, bits,
      ?_, hpad, ?_, ?_, ?_⟩
    · rw [base64Encode, hbyte, hbyte, hbyte, hbyte, hencode]
      rfl
    · simp only [length_cons]
      omega
    · rintro x hx
      simp only [mem_cons] at hx
      rcases hx with rfl | rfl | rfl | rfl | hx
      · exact char_ne_pad _
      · exact char_ne_pad _
      · exact char_ne_pad _
      · exact char_ne_pad _
      · exact hne x hx
    · intro out
      rw [decode_two, decode_three, decode_four, hdecode, hn,
        show (a.toNat * 65536 + b.toNat * 256 + c.toNat) / 65536 % 256 = a.toNat by omega,
        show (a.toNat * 65536 + b.toNat * 256 + c.toNat) / 256 % 256 = b.toNat by omega,
        show (a.toNat * 65536 + b.toNat * 256 + c.toNat) % 256 = c.toNat by omega,
        UInt8.ofNat_toNat, UInt8.ofNat_toNat, UInt8.ofNat_toNat]
      simp only [append_assoc, cons_append, nil_append]

lemma pad_length {body : List UInt8} {pad : ℕ} (hpad : pad ≤ 2) (hne : ∀ c ∈ body, c ≠ byte '=') :
    (((body ++ replicate pad (byte '=')).reverse.take 2).takeWhile (· = byte '=')).length =
      pad := by
  have hbody : ((body.reverse.take (2 - pad)).takeWhile (· = byte '=')) = [] := by
    rw [takeWhile_eq_nil_iff]
    intro hpos h
    exact hne _ (mem_reverse.1 (mem_of_mem_take (getElem_mem hpos)))
      (of_decide_eq_true h)
  rw [reverse_append, reverse_replicate, take_append, length_replicate,
    take_of_length_le (by rw [length_replicate]; exact hpad), takeWhile_append_of_pos,
    hbody, append_nil, length_replicate]
  intro c hc
  exact decide_eq_true (eq_of_mem_replicate hc)

theorem base64_decode_encode (data : List UInt8) :
    base64DecodeStrict (encode (base64Encode data)) = some data := by
  obtain ⟨body, pad, bits, hencode, hpad, hlen, hne, hdecode⟩ := base64Encode_eq data
  rw [hencode, base64DecodeStrict, if_neg (by simpa using hlen)]
  dsimp only
  rw [pad_length hpad hne, length_append, length_replicate, Nat.add_sub_cancel, take_left, hdecode]
  rfl

end Lazaret.Notes
