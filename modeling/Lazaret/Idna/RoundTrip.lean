import Lazaret.Idna.Decoder

/-!
# Punycode both ways

What is encoded is decoded again, where the numbers that the decoder gets to have 32 bits, and what
is decoded is encoded again, to the digits in lower case (`punycode_round_trip`).  The encoder only
writes distances, so it does not see that such a number is too large: that takes more than 3855
characters (`fits_of_length`).
-/

namespace Lazaret.Idna

open List Outcome

open Insertions (Insertion Position build Ordered Behind)

variable {s e ascii rest : Text} {p : Position} {xs : List (Insertion Char)} {bias : ℕ}

/-! ## The delimiter -/

lemma digitChar_spec {d : ℕ} (h : d < 36) : isAscii (digitChar d) = true ∧ digitChar d ≠ '-' := by
  have hall : ∀ d < 36, isAscii (digitChar d) = true ∧ digitChar d ≠ '-' := by decide
  exact hall d h

lemma mem_spell {c : Char} (h : c ∈ spell p bias xs) : ∃ d < 36, c = digitChar d := by
  induction xs generalizing p bias with
  | nil => cases h
  | cons x xs ih =>
    rcases mem_append.1 h with h | h
    · exact digitValue_of_mem_digits h
    · exact ih h

lemma spell_spec {c : Char} (h : c ∈ spell p bias xs) : isAscii c = true ∧ c ≠ '-' := by
  obtain ⟨d, hd, rfl⟩ := mem_spell h
  exact digitChar_spec hd

lemma splitDelimiter_front (h : '-' ∉ rest) :
    splitDelimiter (front ascii ++ rest) = (ascii, rest) := by
  cases ascii with
  | nil =>
    have hfind : rfind ['-'] (front [] ++ rest) = none := rfind_of_not_mem h
    rw [splitDelimiter, hfind]
    rfl
  | cons c cs =>
    have hfront : front (c :: cs) ++ rest = (c :: cs) ++ '-' :: rest := append_assoc _ _ _
    have hfind := rfind_append_cons (s := c :: cs) h
    rw [hfront, splitDelimiter, hfind, length_cons]
    dsimp only
    rw [show cs.length + 1 = (c :: cs).length from rfl, take_left,
      show cs.length + 2 = (c :: cs).length + 1 from rfl, drop_length_add_append]
    rfl

lemma front_splitDelimiter (e : Text) :
    front (splitDelimiter e).1 ++ (splitDelimiter e).2 = e := by
  rw [splitDelimiter]
  split
  next at_ hfind =>
    obtain ⟨hsplit, -⟩ := eq_of_rfind hfind
    have hpos : (e.take (at_ + 1)).length > 0 := by
      have hlen : at_ + 1 ≤ e.length := by
        by_contra hlong
        have hpre := ((rfind_eq_some (cons_ne_nil _ _)).1 hfind).1
        exact not_prefix_drop (cons_ne_nil _ _) (by omega) hpre
      rw [length_take_of_le hlen]
      exact Nat.succ_pos _
    conv_rhs => rw [hsplit]
    show front _ ++ e.drop (at_ + 2) = _
    rw [front, if_pos hpos, append_assoc]
    rfl
  · rfl

/-- The digits after the last delimiter in lower case. -/
def lowerDigits (e : Text) : Text :=
  e.take (e.length - (splitDelimiter e).2.length) ++ lower (splitDelimiter e).2

lemma lowerDigits_eq (e : Text) :
    lowerDigits e = front (splitDelimiter e).1 ++ lower (splitDelimiter e).2 := by
  have htake : ∀ a b : Text, (a ++ b).take ((a ++ b).length - b.length) = a := by
    intro a b
    rw [length_append, Nat.add_sub_cancel, take_left]
  have hfront := htake (front (splitDelimiter e).1) (splitDelimiter e).2
  rw [front_splitDelimiter] at hfront
  rw [lowerDigits, hfront]

/-! ## Insertions of a text -/

lemma filter_lt_code_points : s.filter (Char.toNat · < INITIAL_N + (CODE_POINTS - INITIAL_N)) = s :=
  filter_eq_self.2 fun c _ => decide_eq_true (toNat_lt c)

lemma ordered_insertionsFrom :
    Ordered Char.toNat (start (s.filter isAscii).length) (insertionsFrom INITIAL_N s) :=
  Insertions.ordered_insertions le_rfl (fun _ => rfl) rfl

lemma build_insertionsFrom : build (insertionsFrom INITIAL_N s) (s.filter isAscii) = s := by
  have hbuild : build (insertionsFrom INITIAL_N s) (s.filter (Char.toNat · < INITIAL_N)) =
      s.filter (Char.toNat · < INITIAL_N + (CODE_POINTS - INITIAL_N)) :=
    Insertions.build_insertions
  rwa [filter_lt_code_points] at hbuild

lemma length_insertionsFrom :
    (s.filter isAscii).length + (insertionsFrom INITIAL_N s).length = s.length := by
  have hlen := Insertions.length_build (ordered_insertionsFrom (s := s)) rfl
  rw [build_insertionsFrom] at hlen
  exact hlen.symm

lemma all_isAscii_lt (h : ∀ c ∈ ascii, isAscii c = true) : ∀ c ∈ ascii, c.toNat < INITIAL_N :=
  fun c hc => of_decide_eq_true (h c hc)

lemma insertionsFrom_build (hascii : ∀ c ∈ ascii, isAscii c = true)
    (hord : Ordered Char.toNat (start ascii.length) xs)
    (hkeys : ∀ x ∈ xs, INITIAL_N ≤ x.item.toNat) :
    (build xs ascii).filter isAscii = ascii ∧ insertionsFrom INITIAL_N (build xs ascii) = xs := by
  have hlt := all_isAscii_lt hascii
  have hbehind : Behind Char.toNat (start ascii.length) ascii :=
    ⟨rfl, fun c hc => (hlt c hc).le, fun c hc => hlt c hc⟩
  constructor
  · rw [Insertions.filter_build, filter_eq_self.2 hascii]
    intro x hx
    exact decide_eq_false (not_lt.2 (hkeys x hx))
  · rw [insertionsFrom, Insertions.insertions_build hbehind hord
      (show INITIAL_N ≤ INITIAL_N from le_rfl),
      Insertions.insertions_of_forall (fun c hc => .inl (hlt c hc)), nil_append]
    exact fun x _ => toNat_lt x.item

/-! ## How large the numbers get -/

lemma fits_of_length (hord : Ordered Char.toNat p xs) (hn : INITIAL_N ≤ p.n)
    (hlen : p.h + xs.length ≤ 3855) : Fits p xs := by
  induction xs generalizing p with
  | nil => trivial
  | cons x xs ih =>
    obtain ⟨hkey, hplace, -, hrest⟩ := hord
    rw [length_cons] at hlen
    have hchar := toNat_lt x.item
    refine ⟨?_, ih hrest (hn.trans hkey) (by show p.h + 1 + xs.length ≤ _; omega)⟩
    rw [CODE_POINTS] at hchar
    rw [INITIAL_N] at hn
    calc number p x ≤ 1113983 * (p.h + 1) + p.h :=
          Nat.add_le_add (Nat.mul_le_mul_right _ (by omega)) hplace
      _ < 2 ^ 32 := by omega

/-! ## Both ways -/

lemma isAscii_of_mem_front {c : Char} (hascii : ∀ c ∈ ascii, isAscii c = true)
    (h : c ∈ front ascii) : isAscii c = true := by
  rw [front] at h
  split at h
  · rcases mem_append.1 h with h | h
    · exact hascii c h
    · rw [mem_singleton.1 h]
      decide
  · exact hascii c h

theorem punycodeDecode_of_encode (h : punycodeEncode s = some e) :
    (Fits (start (s.filter isAscii).length) (insertionsFrom INITIAL_N s) →
        punycodeDecode e = .ok s) ∧
      (¬ Fits (start (s.filter isAscii).length) (insertionsFrom INITIAL_N s) →
        punycodeDecode e = .err ()) := by
  obtain ⟨hlen, -, rfl⟩ := punycodeEncode_eq_some.1 h
  have hhyphen : '-' ∉
      spell (start (s.filter isAscii).length) INITIAL_BIAS (insertionsFrom INITIAL_N s) :=
    fun hmem => (spell_spec hmem).2 rfl
  have hascii : ∀ c ∈ s.filter isAscii, isAscii c = true := fun c hc => (mem_filter.1 hc).2
  have hloop := decodeLoop_spell (ordered_insertionsFrom (s := s)) (Nat.zero_le _)
    rfl (by show _ +
      _ < _; rw [show (start (s.filter isAscii).length).h = (s.filter isAscii).length from rfl,
      length_insertionsFrom]; exact hlen) le_rfl (show INITIAL_BIAS ≤ 202 by decide)
  rw [punycodeDecode, Outcome.require, if_pos, ok_bind]
  · dsimp only
    rw [splitDelimiter_front hhyphen]
    rw [build_insertionsFrom] at hloop
    exact hloop
  · rw [all_eq_true]
    intro c hc
    rcases mem_append.1 hc with hc | hc
    · exact isAscii_of_mem_front hascii hc
    · exact (spell_spec hc).1

theorem punycodeEncode_of_decode (h : punycodeDecode e = .ok s) (hlen : s.length < 2 ^ 32) :
    punycodeEncode s = some (lowerDigits e) := by
  obtain ⟨_, hall, h⟩ := bind_eq_ok.1 h
  obtain ⟨xs, hord, hspell, rfl, hfits, hkeys, -⟩ := decodeLoop_eq_ok _ h
  dsimp only at hspell hfits hord hlen ⊢
  rw [require_eq_ok, all_eq_true] at hall
  have hascii : ∀ c ∈ (splitDelimiter e).1, isAscii c = true := by
    intro c hc
    refine hall c ?_
    rw [← front_splitDelimiter e]
    refine mem_append_left _ ?_
    rw [front]
    split
    · exact mem_append_left _ hc
    · exact hc
  obtain ⟨hfilter, hins⟩ := insertionsFrom_build hascii hord hkeys
  refine punycodeEncode_eq_some.2 ⟨hlen, ?_, ?_⟩
  · rw [hfilter, hins]
    exact hfits.gaps
  · rw [hfilter, hins, lowerDigits_eq, hspell]
    rfl

/-- Punycode both ways: what is encoded is decoded again exactly if the numbers that the decoder
gets to have 32 bits, as they do among 3855 characters; what is decoded is encoded again; and the
loops end. -/
theorem punycode_round_trip :
    (∀ s e, punycodeEncode s = some e →
      (punycodeDecode e = .ok s ↔
        Fits (start (s.filter isAscii).length) (insertionsFrom INITIAL_N s)) ∧
      (punycodeDecode e = .ok s ∨ punycodeDecode e = .err ()) ∧
      (s.length ≤ 3855 → punycodeDecode e = .ok s)) ∧
    (∀ e s, punycodeDecode e = .ok s → s.length < 2 ^ 32 →
      punycodeEncode s = some (lowerDigits e)) ∧
    (∀ input basic, WellFounded fun p' p => (encodeLoop input basic).turn p = .inl p') ∧
    WellFounded fun d' d => decodeLoop.turn d = .inl d' := by
  refine ⟨?_, fun e s => punycodeEncode_of_decode, fun input basic => Loop.wellFounded _,
    Loop.wellFounded _⟩
  intro s e h
  obtain ⟨hfits, hnot⟩ := punycodeDecode_of_encode h
  refine ⟨⟨fun hok => ?_, hfits⟩, ?_, fun hlen => hfits ?_⟩
  · by_contra hover
    rw [hnot hover] at hok
    cases hok
  · by_cases hall : Fits (start (s.filter isAscii).length) (insertionsFrom INITIAL_N s)
    · exact .inl (hfits hall)
    · exact .inr (hnot hall)
  · refine fits_of_length ordered_insertionsFrom le_rfl ?_
    rw [← length_insertionsFrom] at hlen
    exact hlen

/-- A text of 4096 characters that is encoded, and not decoded again: the number at its last
insertion is `2 ^ 32`. -/
theorem encoded_not_decoded :
    ∃ e, punycodeEncode (Char.ofNat 0x100080 :: (List.replicate 4094 'a' ++ [Char.ofNat 0x80])) =
      some e ∧ punycodeDecode e = .err () := by
  have hfirst : (Char.ofNat 0x80).toNat = 0x80 := by decide
  have hsecond : (Char.ofNat 0x100080).toNat = 0x100080 := by decide
  obtain ⟨ascii, hascii⟩ : ∃ ascii, ascii = replicate 4094 'a' := ⟨_, rfl⟩
  rw [← hascii]
  have hall : ∀ c ∈ ascii, isAscii c = true := by
    intro c hc
    rw [hascii] at hc
    rw [eq_of_mem_replicate hc]
    decide
  have hlen : ascii.length = 4094 := by rw [hascii, length_replicate]
  -- the text is these two insertions
  obtain ⟨x, hx⟩ : ∃ x : Insertion Char, x = ⟨Char.ofNat 0x80, 4094⟩ := ⟨_, rfl⟩
  obtain ⟨y, hy⟩ : ∃ y : Insertion Char, y = ⟨Char.ofNat 0x100080, 0⟩ := ⟨_, rfl⟩
  have hmake : build [x, y] ascii = Char.ofNat 0x100080 :: (ascii ++ [Char.ofNat 0x80]) := by
    have hinsert := Insertions.insertIdx_length_append ascii [] (Char.ofNat 0x80)
    rw [append_nil, hlen] at hinsert
    rw [build, build, build, hx, hy, hinsert, insertIdx_zero]
  have hord : Ordered Char.toNat (start ascii.length) [x, y] := by
    simp [Ordered, start, Position.next, hx, hy, hfirst, hsecond, hlen, INITIAL_N]
  have hkeys : ∀ z ∈ [x, y], INITIAL_N ≤ z.item.toNat := by
    simp [hx, hy, hfirst, hsecond, INITIAL_N]
  obtain ⟨hfilter, hins⟩ := insertionsFrom_build hall hord hkeys
  have hgaps : Gaps (start ascii.length) [x, y] := by
    simp [Gaps, gap, number, start, Position.next, hx, hy, hfirst, hsecond, hlen, INITIAL_N]
  have hover : ¬ Fits (start ascii.length) [x, y] := by
    simp [Fits, number, start, Position.next, hx, hy, hfirst, hsecond, hlen, INITIAL_N]
  rw [← hmake]
  have hlength : (build [x, y] ascii).length = 4096 := by
    rw [Insertions.length_build hord rfl, hlen]
    rfl
  have hencode := (punycodeEncode_eq_some (s := build [x, y] ascii)).2
    ⟨by rw [hlength]; omega, by rw [hfilter, hins]; exact hgaps, rfl⟩
  refine ⟨_, hencode, (punycodeDecode_of_encode hencode).2 ?_⟩
  rw [hfilter, hins]
  exact hover

end Lazaret.Idna
