import Lazaret.Json.Reader
import Mathlib.Data.List.TakeWhile

/-!
# What the reader takes for a number

The scanners of a number, each against its part of the grammar: what is read is a word of it, and a
word of it is read, before anything that does not go on with the number.
-/

namespace Lazaret.Json

open List Outcome Language Utf8

open Utf8 (byte encode)

/-- A read that takes a text of the value it returns. -/
def Sound {α : Type} (read : List UInt8 → Outcome Failure (α × List UInt8))
    (texts : α → Language Char) : Prop :=
  ∀ s a t, read s = .ok (a, t) → ∃ w ∈ texts a, s = encode w ++ t

/-- A read that takes every text of a value, before whatever may follow it. -/
def Complete {α : Type} (read : List UInt8 → Outcome Failure (α × List UInt8))
    (texts : α → Language Char) (follows : List UInt8 → Prop) : Prop :=
  ∀ a w t, w ∈ texts a → follows t → read (encode w ++ t) = .ok (a, t)

/-! ## The byte that is next -/

lemma next_cons (p : UInt8 → Bool) (b : UInt8) (s : List UInt8) : next p (b :: s) = p b := rfl

variable {p : UInt8 → Bool} {s : List UInt8}

lemma next_eq_true (h : next p s = true) : ∃ b t, s = b :: t ∧ p b = true := by
  cases s with
  | nil => exact absurd h (by simp [next])
  | cons b t => exact ⟨b, t, rfl, h⟩

lemma dropWhile_of_next (h : next p s = false) : s.dropWhile p = s := by
  cases s with
  | nil => rfl
  | cons b t => rw [dropWhile_cons, if_neg (by rw [next_cons] at h; simp [h])]

variable {t : List UInt8} {w : List Char}

lemma dropWhile_append (hw : ∀ b ∈ encode w, p b = true) (ht : next p t = false) :
    (encode w ++ t).dropWhile p = t := by
  rw [dropWhile_append_of_pos hw, dropWhile_of_next ht]

/-! ## Digits -/

lemma toNat_lt_of_isDigit {c : Char} (h : c.isDigit = true) : c.toNat < 128 :=
  (Char.isDigit_iff_toNat.1 h).2.trans_lt (by decide)

lemma isDigit_byte {c : Char} (h : c.toNat < 128) : isDigit (byte c) = c.isDigit := by
  rw [Bool.eq_iff_iff, Char.isDigit_iff_toNat, isDigit, decide_eq_true_iff,
    UInt8.le_iff_toNat_le, UInt8.le_iff_toNat_le, toNat_byte h]
  rfl

lemma isDigit_of_mem_encode (h : ∀ c ∈ w, c.isDigit = true) : ∀ b ∈ encode w, isDigit b = true := by
  induction w with
  | nil => exact fun b hb => absurd hb not_mem_nil
  | cons c w ih =>
    have hc := h c mem_cons_self
    have hlt := toNat_lt_of_isDigit hc
    rw [encode_cons_of_lt hlt, forall_mem_cons, isDigit_byte hlt]
    exact ⟨hc, ih fun d hd => h d (mem_cons_of_mem _ hd)⟩

lemma digits_sound (h : digits s = .ok t) : ∃ w ∈ Grammar.digits, s = encode w ++ t := by
  rw [digits] at h
  split at h
  next hnext =>
    obtain rfl := Outcome.ok.inj h
    have hall : ∀ b ∈ s.takeWhile isDigit, isDigit b = true := fun b hb => mem_takeWhile_imp hb
    have hlt : ∀ b ∈ s.takeWhile isDigit, b.toNat < 128 := by
      intro b hb
      have hdigit := hall b hb
      rw [isDigit, decide_eq_true_iff, UInt8.le_iff_toNat_le, UInt8.le_iff_toNat_le] at hdigit
      exact hdigit.2.trans_lt (by decide)
    obtain ⟨w, hw, hchars⟩ := exists_encode_of_lt hlt
    refine ⟨w, ⟨?_, ?_⟩, ?_⟩
    · rintro rfl
      obtain ⟨b, u, rfl, hb⟩ := next_eq_true hnext
      rw [takeWhile_cons, if_pos hb] at hw
      exact absurd hw.symm (cons_ne_nil _ _)
    · intro c hc
      rw [← isDigit_byte (hchars c hc).1]
      exact hall _ (hchars c hc).2
    · rw [hw, takeWhile_append_dropWhile]
  · cases h

lemma digits_head (hw : w ∈ Grammar.digits) (t : List UInt8) :
    next isDigit (encode w ++ t) = true := by
  cases w with
  | nil => exact absurd rfl hw.1
  | cons c w =>
    have hc := hw.2 c mem_cons_self
    rw [encode_cons_of_lt (toNat_lt_of_isDigit hc), cons_append, next_cons,
      isDigit_byte (toNat_lt_of_isDigit hc), hc]

lemma digits_complete (hw : w ∈ Grammar.digits)
    (ht : next isDigit t = false) : digits (encode w ++ t) = .ok t := by
  rw [digits, if_pos (digits_head hw t), dropWhile_append (isDigit_of_mem_encode hw.2) ht]

/-! ## The parts of a number -/

lemma natural_sound (h : natural s = .ok t) : ∃ w ∈ Grammar.natural, s = encode w ++ t := by
  rw [natural] at h
  split at h
  next hzero =>
    split at h
    · cases h
    · obtain ⟨b, u, rfl, hb⟩ := next_eq_true hzero
      obtain rfl := Outcome.ok.inj h
      rw [of_decide_eq_true hb]
      exact ⟨['0'], .inl rfl, rfl⟩
  next hzero =>
    obtain ⟨w, hw, rfl⟩ := digits_sound h
    refine ⟨w, .inr ⟨hw, ?_⟩, rfl⟩
    intro hhead
    obtain ⟨u, rfl⟩ : ∃ u, w = '0' :: u := by
      cases w with
      | nil => exact absurd hhead (by simp)
      | cons c u => exact ⟨u, by rw [Option.some.inj hhead]⟩
    exact hzero rfl

lemma natural_complete (hw : w ∈ Grammar.natural)
    (ht : next isDigit t = false) : natural (encode w ++ t) = .ok t := by
  rcases hw with rfl | ⟨hw, hhead⟩
  · show natural (byte '0' :: t) = .ok t
    rw [natural, if_pos (show next (· = byte '0') (byte '0' :: t) = true from rfl), tail_cons,
      if_neg (by rw [ht]; decide)]
  · have hzero : ¬ next (· = byte '0') (encode w ++ t) = true := by
      cases w with
      | nil => exact absurd rfl hw.1
      | cons c w =>
        have hlt := toNat_lt_of_isDigit (hw.2 c mem_cons_self)
        rw [encode_cons_of_lt hlt, cons_append, next_cons, decide_eq_true_iff]
        intro heq
        have hnat := congrArg UInt8.toNat heq
        rw [toNat_byte hlt, toNat_byte (by decide)] at hnat
        exact hhead (congrArg some (Char.toNat_inj.1 hnat))
    rw [natural, if_neg hzero]
    exact digits_complete hw ht

lemma natural_head (hw : w ∈ Grammar.natural) (t : List UInt8) :
    next isDigit (encode w ++ t) = true := by
  rcases hw with rfl | ⟨hw, -⟩
  · rfl
  · exact digits_head hw t

variable {l : Language Char}

lemma afterSign_sound (isSign : UInt8 → Bool)
    (hsign : ∀ b, isSign b = true → ∃ w ∈ l, encode w = [b]) (s : List UInt8) :
    ∃ w ∈ Grammar.maybe l, s = encode w ++ afterSign isSign s := by
  rw [afterSign]
  split
  next hnext =>
    obtain ⟨b, t, rfl, hb⟩ := next_eq_true hnext
    obtain ⟨w, hw, hbytes⟩ := hsign b hb
    exact ⟨w, .inr hw, by rw [hbytes]; rfl⟩
  · exact ⟨[], .inl rfl, rfl⟩

lemma afterSign_complete {isSign : UInt8 → Bool}
    (hsign : ∀ w ∈ l, ∃ b, encode w = [b] ∧ isSign b = true)
    (hw : w ∈ Grammar.maybe l) (ht : next isSign t = false) :
    afterSign isSign (encode w ++ t) = t := by
  rcases hw with rfl | hw
  · rw [encode_nil, nil_append, afterSign, if_neg (by rw [ht]; decide)]
  · obtain ⟨b, hbytes, hb⟩ := hsign w hw
    rw [hbytes, singleton_append, afterSign, if_pos (by rw [next_cons, hb]), tail_cons]

lemma next_of_isDigit (hp : ∀ b, isDigit b = true → p b = false)
    (h : next isDigit s = true) : next p s = false := by
  obtain ⟨b, t, rfl, hb⟩ := next_eq_true h
  exact hp b hb

lemma isDigit_ne {b c : UInt8} (h : isDigit b = true) (hc : isDigit c = false) : b ≠ c := by
  rintro rfl
  rw [h] at hc
  cases hc

lemma fractionPart_sound (h : fractionPart s = .ok t) :
    ∃ w ∈ Grammar.maybe Grammar.fraction, s = encode w ++ t := by
  rw [fractionPart] at h
  split at h
  next hnext =>
    obtain ⟨b, u, rfl, hb⟩ := next_eq_true hnext
    obtain ⟨w, hw, hu⟩ := digits_sound h
    rw [tail_cons] at hu
    rw [of_decide_eq_true hb, hu]
    exact ⟨'.' :: w, .inr (mem_mul.2 ⟨['.'], rfl, w, hw, rfl⟩), rfl⟩
  · obtain rfl := Outcome.ok.inj h
    exact ⟨[], .inl rfl, rfl⟩

lemma fractionPart_complete (hw : w ∈ Grammar.maybe Grammar.fraction) (ht : next isDigit t = false)
    (hdot : next (· = byte '.') t = false) : fractionPart (encode w ++ t) = .ok t := by
  rcases hw with rfl | hw
  · rw [encode_nil, nil_append, fractionPart, if_neg (by rw [hdot]; decide)]
  · obtain ⟨_, rfl, u, hu, rfl⟩ := mem_mul.1 hw
    show fractionPart (byte '.' :: (encode u ++ t)) = .ok t
    rw [fractionPart,
      if_pos (show next (· = byte '.') (byte '.' :: (encode u ++ t)) = true from rfl)]
    exact digits_complete hu ht

lemma exponentPart_sound (h : exponentPart s = .ok t) :
    ∃ w ∈ Grammar.maybe Grammar.exponent, s = encode w ++ t := by
  rw [exponentPart] at h
  split at h
  next hnext =>
    obtain ⟨b, u, rfl, hb⟩ := next_eq_true hnext
    rw [tail_cons] at h
    obtain ⟨e, he, hbytes⟩ : ∃ e ∈ ({['e'], ['E']} : Language Char), encode e = [b] := by
      rcases of_decide_eq_true hb with rfl | rfl
      · exact ⟨['e'], .inl rfl, rfl⟩
      · exact ⟨['E'], .inr rfl, rfl⟩
    obtain ⟨sign, hsign, hu⟩ := afterSign_sound (fun b => b = byte '+' ∨ b = byte '-')
      (l := {['+'], ['-']}) (fun b hb => by
        rcases of_decide_eq_true hb with rfl | rfl
        · exact ⟨['+'], .inl rfl, rfl⟩
        · exact ⟨['-'], .inr rfl, rfl⟩) u
    obtain ⟨w, hw, hafter⟩ := digits_sound h
    refine ⟨e ++ (sign ++ w), .inr (mem_mul.2 ⟨e, he, sign ++ w,
      mem_mul.2 ⟨sign, hsign, w, hw, rfl⟩, rfl⟩), ?_⟩
    rw [encode_append, encode_append, hbytes, append_assoc, append_assoc, ← hafter, ← hu]
    rfl
  · obtain rfl := Outcome.ok.inj h
    exact ⟨[], .inl rfl, rfl⟩

lemma exponentPart_complete (hw : w ∈ Grammar.maybe Grammar.exponent) (ht : next isDigit t = false)
    (he : next (fun b => b = byte 'e' ∨ b = byte 'E') t = false) :
    exponentPart (encode w ++ t) = .ok t := by
  rcases hw with rfl | hw
  · rw [encode_nil, nil_append, exponentPart, if_neg (by rw [he]; decide)]
  · obtain ⟨e, hmark, u, hu, rfl⟩ := mem_mul.1 hw
    obtain ⟨sign, hsign, ds, hds, rfl⟩ := mem_mul.1 hu
    obtain ⟨b, hbytes, hb⟩ : ∃ b, encode e = [b] ∧ (b = byte 'e' ∨ b = byte 'E') := by
      rcases hmark with rfl | rfl
      · exact ⟨_, rfl, .inl rfl⟩
      · exact ⟨_, rfl, .inr rfl⟩
    have hafter : afterSign (fun b => b = byte '+' ∨ b = byte '-')
        (encode sign ++ (encode ds ++ t)) = encode ds ++ t := by
      refine afterSign_complete (l := {['+'], ['-']}) ?_ hsign
        (next_of_isDigit ?_ (digits_head hds t))
      · rintro w (rfl | rfl)
        · exact ⟨_, rfl, rfl⟩
        · exact ⟨_, rfl, rfl⟩
      · intro b hb
        rw [decide_eq_false_iff_not, not_or]
        exact ⟨isDigit_ne hb (by decide), isDigit_ne hb (by decide)⟩
    rw [encode_append, encode_append, hbytes, append_assoc, append_assoc, singleton_append,
      exponentPart, if_pos (by rw [next_cons, decide_eq_true_iff]; exact hb), tail_cons, hafter]
    exact digits_complete hds ht

/-! ## Numbers -/

lemma number_sound : Sound number Value.texts := by
  intro s v t h
  simp only [number, bind_eq_ok] at h
  obtain ⟨a, ha, b, hb, c, hc, h⟩ := h
  split at h
  · cases h
  obtain ⟨text, htext, h⟩ := bind_eq_ok.1 h
  obtain ⟨rfl, rfl⟩ := Prod.mk.inj (Outcome.ok.inj h)
  obtain ⟨sign, hsign, hs⟩ := afterSign_sound (· = byte '-') (l := {['-']})
    (fun b hb => ⟨['-'], rfl, by rw [of_decide_eq_true hb]; rfl⟩) s
  obtain ⟨n, hn, ha⟩ := natural_sound ha
  obtain ⟨f, hf, hb⟩ := fractionPart_sound hb
  obtain ⟨e, he, hc⟩ := exponentPart_sound hc
  have hall : s = encode ((sign ++ n) ++ (f ++ e)) ++ c := by
    conv_lhs => rw [hs, ha, hb, hc]
    simp only [encode_append, append_assoc]
  refine ⟨(sign ++ n) ++ (f ++ e), ⟨?_, ?_⟩, hall⟩
  · exact mem_mul.2 ⟨sign ++ n, mem_mul.2 ⟨sign, hsign, n, hn, rfl⟩, f ++ e,
      mem_mul.2 ⟨f, hf, e, he, rfl⟩, rfl⟩
  · -- the text is the slice up to where the number ends
    rw [hall, length_append, Nat.add_sub_cancel, take_left, slice, orFault_eq_ok,
      decode_encode] at htext
    rw [String.toList_ofList, Option.some.inj htext]

lemma eq_number {v : Value} (h : number s = .ok (v, t)) : ∃ n, v = .number n := by
  simp only [number, bind_eq_ok] at h
  obtain ⟨a, ha, b, hb, c, hc, h⟩ := h
  split at h
  · cases h
  · obtain ⟨text, -, h⟩ := bind_eq_ok.1 h
    exact ⟨_, (Prod.mk.inj (Outcome.ok.inj h)).1.symm⟩

def NumberEnds (t : List UInt8) : Prop := next isNumberByte t = false

lemma NumberEnds.next (h : NumberEnds t)
    (hp : ∀ b, p b = true → isNumberByte b = true) : next p t = false := by
  cases t with
  | nil => rfl
  | cons b t =>
    rw [next_cons]
    by_contra hb
    rw [Bool.not_eq_false] at hb
    rw [NumberEnds, next_cons, hp b hb] at h
    cases h

lemma next_part (hl : ∀ w ∈ l, ∃ b u, encode w = b :: u ∧ p b = false) (hw : w ∈ Grammar.maybe l)
    (ht : next p t = false) : next p (encode w ++ t) = false := by
  rcases hw with rfl | hw
  · exact ht
  · obtain ⟨b, u, hbytes, hb⟩ := hl w hw
    rw [hbytes, cons_append, next_cons, hb]

lemma exponent_bytes (hw : w ∈ Grammar.exponent) :
    ∃ b u, encode w = b :: u ∧ (b = byte 'e' ∨ b = byte 'E') := by
  obtain ⟨e, hmark, u, -, rfl⟩ := mem_mul.1 hw
  rcases hmark with rfl | rfl
  · exact ⟨byte 'e', encode u, rfl, .inl rfl⟩
  · exact ⟨byte 'E', encode u, rfl, .inr rfl⟩

lemma number_complete {n : Number} (hw : w ∈ Value.texts (.number n)) (ht : NumberEnds t) :
    number (encode w ++ t) = .ok (.number n, t) := by
  obtain ⟨hw, htext⟩ := hw
  obtain ⟨i, hi, fe, hfe, rfl⟩ := mem_mul.1 hw
  obtain ⟨sign, hsign, ds, hds, rfl⟩ := mem_mul.1 hi
  obtain ⟨f, hf, e, he, rfl⟩ := mem_mul.1 hfe
  have hdigit : next isDigit t = false := ht.next fun b hb => by
    rw [isNumberByte, decide_eq_true_iff]
    exact .inl hb
  -- nothing that begins a part goes on with the part before it
  have hafterExponent : next isDigit (encode e ++ t) = false :=
    next_part (fun w hw => by
      obtain ⟨b, u, hbytes, rfl | rfl⟩ := exponent_bytes hw
      · exact ⟨_, u, hbytes, by decide⟩
      · exact ⟨_, u, hbytes, by decide⟩) he hdigit
  have hdot : next (· = byte '.') (encode e ++ t) = false :=
    next_part (fun w hw => by
      obtain ⟨b, u, hbytes, rfl | rfl⟩ := exponent_bytes hw
      · exact ⟨_, u, hbytes, by decide⟩
      · exact ⟨_, u, hbytes, by decide⟩) he
      (ht.next fun b hb => by rw [of_decide_eq_true hb]; decide)
  have hafterFraction : next isDigit (encode f ++ (encode e ++ t)) = false :=
    next_part (fun w hw => by
      obtain ⟨_, rfl, u, -, rfl⟩ := mem_mul.1 hw
      exact ⟨byte '.', encode u, rfl, by decide⟩) hf hafterExponent
  have hexp : next (fun b => b = byte 'e' ∨ b = byte 'E') t = false := ht.next fun b hb => by
    rcases of_decide_eq_true hb with rfl | rfl <;> decide
  have hminus : next (· = byte '-') (encode ds ++ (encode f ++ (encode e ++ t))) = false :=
    next_of_isDigit (fun b hb => decide_eq_false (isDigit_ne hb (by decide))) (natural_head hds _)
  have hslice : slice (encode (sign ++ ds ++ (f ++ e))) = .ok n.text.toList := by
    rw [slice, decode_encode, htext]
    rfl
  have hsign' : afterSign (· = byte '-')
      (encode sign ++ (encode ds ++ (encode f ++ (encode e ++ t)))) =
        encode ds ++ (encode f ++ (encode e ++ t)) :=
    afterSign_complete (l := {['-']}) (fun w hw => by
      obtain rfl : w = ['-'] := hw
      exact ⟨_, rfl, rfl⟩) hsign hminus
  have hrest : (encode (sign ++ ds ++ (f ++ e)) ++ t).take
      ((encode (sign ++ ds ++ (f ++ e)) ++ t).length - t.length) =
        encode (sign ++ ds ++ (f ++ e)) := by
    rw [length_append, Nat.add_sub_cancel, take_left]
  have happend : encode (sign ++ ds ++ (f ++ e)) ++ t =
      encode sign ++ (encode ds ++ (encode f ++ (encode e ++ t))) := by
    simp only [encode_append, append_assoc]
  rw [number, happend, hsign', natural_complete hds hafterFraction, ok_bind,
    fractionPart_complete hf hafterExponent hdot, ok_bind, exponentPart_complete he hdigit hexp,
    ok_bind, if_neg (by rw [ht]; decide), ← happend, hrest, hslice, ok_bind, String.ofList_toList]

end Lazaret.Json
