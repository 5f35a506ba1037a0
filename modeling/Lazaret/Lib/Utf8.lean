import Mathlib.Data.String.Basic

/-!
# Texts and their bytes

A text is the list of its characters, and `Utf8.encode` its bytes.  `Utf8.decode` reads them back,
of a list of bytes that is such an encoding (`decode_eq_some`).  A character below 128 is the byte
of its number, and the bytes of any other character are 128 or more, so bytes below 128 can be
looked for without decoding (`takeWhile_encode`).
-/

namespace Lazaret.Utf8

open List Option

def encode (cs : List Char) : List UInt8 := cs.flatMap String.utf8EncodeChar

def decode (bytes : List UInt8) : Option (List Char) :=
  bytes.toByteArray.utf8Decode?.map Array.toList

variable {cs cs' : List Char} {c : Char} {bytes : List UInt8}

lemma toByteArray_encode (cs : List Char) : (encode cs).toByteArray = cs.utf8Encode := rfl

@[simp] lemma encode_nil : encode [] = [] := rfl

@[simp] lemma encode_append (cs cs' : List Char) : encode (cs ++ cs') = encode cs ++ encode cs' :=
  flatMap_append

lemma encode_cons (c : Char) (cs : List Char) : encode (c :: cs) = encode [c] ++ encode cs :=
  encode_append [c] cs

@[simp] lemma decode_encode (cs : List Char) : decode (encode cs) = some cs := by
  rw [decode, toByteArray_encode, List.utf8Decode?_utf8Encode, map_some]

lemma decode_eq_some : decode bytes = some cs ↔ bytes = encode cs := by
  constructor
  · intro h
    obtain ⟨a, ha, rfl⟩ := map_eq_some_iff.1 h
    have hsome : bytes.toByteArray.utf8Decode?.isSome := by rw [ha, isSome_some]
    obtain ⟨m, hm⟩ := ByteArray.isSome_utf8Decode?_iff.1 hsome
    have hbytes : bytes = encode m := toByteArray_inj.1 hm
    rw [hbytes, toByteArray_encode, List.utf8Decode?_utf8Encode, some.injEq] at ha
    rw [← ha]
    exact hbytes
  · rintro rfl
    exact decode_encode cs

lemma encode_injective : Function.Injective encode := by
  intro cs cs' h
  have hdecode := decode_encode cs
  rw [h, decode_encode, some.injEq] at hdecode
  exact hdecode.symm

@[simp] lemma encode_eq_nil : encode cs = [] ↔ cs = [] := by
  rw [← encode_nil]
  exact encode_injective.eq_iff

/-! ### Characters below 128 -/

def byte (c : Char) : UInt8 := UInt8.ofNat c.toNat

lemma encode_singleton_of_lt (h : c.toNat < 128) : encode [c] = [byte c] := by
  have hle : c.val.toNat ≤ 127 := Nat.le_of_lt_succ h
  simp only [encode, flatMap_cons, flatMap_nil, append_nil, String.utf8EncodeChar, if_pos hle]
  rfl

lemma encode_cons_of_lt (h : c.toNat < 128) (cs : List Char) :
    encode (c :: cs) = byte c :: encode cs := by
  rw [encode_cons, encode_singleton_of_lt h, singleton_append]

lemma encode_append_cons (h : c.toNat < 128) (cs cs' : List Char) (t : List UInt8) :
    encode (cs ++ c :: cs') ++ t = encode cs ++ byte c :: (encode cs' ++ t) := by
  rw [encode_append, encode_cons_of_lt h, append_assoc, cons_append]

lemma toNat_byte (h : c.toNat < 128) : (byte c).toNat = c.toNat := by
  rw [byte, UInt8.toNat_ofNat', Nat.mod_eq_of_lt (by omega)]

lemma toNat_ofNat {n : ℕ} (h : n.isValidChar) : (Char.ofNat n).toNat = n := by
  rw [Char.ofNat, dif_pos h]
  rfl

lemma exists_byte_eq {b : UInt8} (h : b.toNat < 128) : ∃ c : Char, c.toNat < 128 ∧ byte c = b := by
  have hnat : (Char.ofNat b.toNat).toNat = b.toNat := toNat_ofNat (.inl (by omega))
  refine ⟨Char.ofNat b.toNat, by omega, ?_⟩
  rw [← UInt8.toNat_inj, toNat_byte (by omega), hnat]

lemma exists_encode_of_lt {bs : List UInt8} (h : ∀ b ∈ bs, b.toNat < 128) :
    ∃ cs, encode cs = bs ∧ ∀ c ∈ cs, c.toNat < 128 ∧ byte c ∈ bs := by
  induction bs with
  | nil => exact ⟨[], rfl, fun c hc => absurd hc not_mem_nil⟩
  | cons b bs ih =>
    obtain ⟨cs, hcs, hall⟩ := ih fun b' hb' => h b' (mem_cons_of_mem _ hb')
    obtain ⟨c, hlt, hbyte⟩ := exists_byte_eq (h b mem_cons_self)
    refine ⟨c :: cs, ?_, ?_⟩
    · rw [encode_cons_of_lt hlt, hbyte, hcs]
    · intro c' hc'
      rcases mem_cons.1 hc' with rfl | hc
      · exact ⟨hlt, hbyte ▸ mem_cons_self⟩
      · exact ⟨(hall c' hc).1, mem_cons_of_mem _ (hall c' hc).2⟩

lemma le_of_mem_encode (h : 128 ≤ c.toNat) {b : UInt8} (hb : b ∈ encode [c]) : 128 ≤ b.toNat := by
  have hval : ¬ c.val.toNat ≤ 127 := by
    have : c.val.toNat = c.toNat := rfl
    omega
  simp only [encode, flatMap_cons, flatMap_nil, append_nil, String.utf8EncodeChar,
    if_neg hval] at hb
  split at hb
  · simp only [mem_cons, not_mem_nil, or_false] at hb
    rcases hb with rfl | rfl <;> rw [UInt8.toNat_ofNat'] <;> omega
  split at hb
  · simp only [mem_cons, not_mem_nil, or_false] at hb
    rcases hb with rfl | rfl | rfl <;> rw [UInt8.toNat_ofNat'] <;> omega
  · simp only [mem_cons, not_mem_nil, or_false] at hb
    rcases hb with rfl | rfl | rfl | rfl <;> rw [UInt8.toNat_ofNat'] <;> omega

/-- A run of bytes can be taken off the front of a text without decoding it, when the predicate
tells bytes below 128 as it tells their characters, and holds of the others. -/
lemma takeWhile_encode {p : UInt8 → Bool} {q : Char → Bool}
    (hlow : ∀ c : Char, c.toNat < 128 → p (byte c) = q c)
    (hp : ∀ b : UInt8, 128 ≤ b.toNat → p b = true) (hq : ∀ c : Char, 128 ≤ c.toNat → q c = true)
    (cs : List Char) : (encode cs).takeWhile p = encode (cs.takeWhile q) := by
  induction cs with
  | nil => rfl
  | cons c cs ih =>
    by_cases hc : c.toNat < 128
    · rw [encode_cons_of_lt hc, takeWhile_cons, takeWhile_cons, hlow c hc, ih]
      split
      · rw [encode_cons_of_lt hc]
      · rfl
    · have hle := Nat.le_of_not_lt hc
      rw [encode_cons, takeWhile_append_of_pos fun b hb => hp b (le_of_mem_encode hle hb),
        takeWhile_cons, if_pos (hq c hle), encode_cons c (cs.takeWhile q), ih]

/-! ### Broken texts -/

/-- How much of bytes that begin with no character is one broken character: what could be the
beginning of one, or the first byte. -/
def brokenLen : List UInt8 → ℕ
  | b :: b₁ :: rest =>
    let inside (b : UInt8) : Bool := 0x80 ≤ b && b < 0xc0
    let three : Bool := (b == 0xe0 && 0xa0 ≤ b₁ && b₁ < 0xc0) ||
      (b == 0xed && 0x80 ≤ b₁ && b₁ < 0xa0) || (0xe1 ≤ b && b < 0xf0 && b != 0xed && inside b₁)
    let four : Bool := (b == 0xf0 && 0x90 ≤ b₁ && b₁ < 0xc0) ||
      (b == 0xf4 && 0x80 ≤ b₁ && b₁ < 0x90) || (0xf1 ≤ b && b < 0xf4 && inside b₁)
    if three then 2
    else if four then if rest.head?.any inside then 3 else 2
    else 1
  | _ => 1

/-- Bytes as a text, after so many that were read, with U+FFFD for what is broken. -/
def lossyAfter : ℕ → List UInt8 → List Char
  | _, [] => []
  | read + 1, _ :: bytes => lossyAfter read bytes
  | 0, b :: bytes =>
    match (b :: bytes).toByteArray.utf8DecodeChar? 0 with
    | some c => c :: lossyAfter (c.utf8Size - 1) bytes
    | none => '\ufffd' :: lossyAfter (brokenLen (b :: bytes) - 1) bytes

def lossy (bytes : List UInt8) : List Char := lossyAfter 0 bytes

end Lazaret.Utf8
