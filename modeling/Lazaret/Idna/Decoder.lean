import Lazaret.Idna.Encoder

/-!
# What the decoder reads

`punycodeDecode` makes the insertions that digits spell, where the number it gets to at each has 32
bits (`decodeLoop_spell`); and whatever it reads are insertions in digits (`decodeLoop_eq_ok`).
-/

namespace Lazaret.Idna

open List Outcome Option

open Insertions (Insertion Position scan insertions build Ordered)

variable {p : Position} {x : Insertion Char} {xs : List (Insertion Char)} {out s : Text} {bias : ℕ}

/-- The number that the decoder gets to has 32 bits at every insertion. -/
def Fits : Position → List (Insertion Char) → Prop
  | _, [] => True
  | p, x :: xs => number p x < 2 ^ 32 ∧ Fits (p.next Char.toNat x) xs

lemma Fits.gaps (h : Fits p xs) : Gaps p xs := by
  induction xs generalizing p with
  | nil => trivial
  | cons x xs ih => exact ⟨(Nat.sub_le _ _).trans_lt h.1, ih h.2⟩

/-! ## One number -/

lemma le_number (hord : Ordered Char.toNat p (x :: xs)) (hpi : p.i ≤ p.h) : p.i ≤ number p x := by
  obtain ⟨hn, -, hi, -⟩ := hord
  rcases hn.lt_or_eq with hlt | heq
  · calc p.i ≤ 1 * (p.h + 1) := by omega
      _ ≤ (x.item.toNat - p.n) * (p.h + 1) := Nat.mul_le_mul_right _ (by omega)
      _ ≤ number p x := Nat.le_add_right _ _
  · exact (hi heq.symm).trans (Nat.le_add_left _ _)

lemma number_div_mod (hplace : x.place ≤ p.h) :
    number p x / (p.h + 1) = x.item.toNat - p.n ∧ number p x % (p.h + 1) = x.place := by
  rw [number, add_comm]
  constructor
  · rw [Nat.add_mul_div_right _ _ (Nat.succ_pos _), Nat.div_eq_of_lt (by omega), Nat.zero_add]
  · rw [Nat.add_mul_mod_self_right, Nat.mod_eq_of_lt (by omega)]

lemma fromU32_toNat (c : Char) : fromU32 c.toNat = some c := by
  rw [fromU32, if_pos (show c.toNat.isValidChar from c.valid), Char.ofNat_toNat]

lemma fromU32_eq_some {n : ℕ} {c : Char} (h : fromU32 n = some c) : c.toNat = n := by
  rw [fromU32] at h
  split at h
  next hvalid =>
    obtain rfl := some.inj h
    rw [Char.ofNat, dif_pos hvalid]
    rfl
  · cases h

lemma nextBias_le (hgap : gap p x < 2 ^ 32) (hpi : p.i ≤ p.h) : nextBias p x ≤ 202 := by
  refine adapt_le hgap fun hfirst => ?_
  have := of_decide_eq_false hfirst
  omega

lemma insertNext_spell (hord : Ordered Char.toNat p (x :: xs)) (hpi : p.i ≤ p.h)
    (hout : out.length = p.h) (hlen : p.h + 1 < 2 ^ 32) (hn : INITIAL_N ≤ p.n)
    (hbias : bias ≤ 202) :
    insertNext ⟨out, p.n, p.i, bias, spell p bias (x :: xs)⟩ =
      if number p x < 2 ^ 32 then
        .ok ⟨out.insertIdx x.place x.item, x.item.toNat, x.place + 1, nextBias p x,
          spell (p.next Char.toNat x) (nextBias p x) xs⟩
      else .err () := by
  have hle := le_number hord hpi
  obtain ⟨hkey, hplace, -, -⟩ := hord
  obtain ⟨hdiv, hmod⟩ := number_div_mod hplace
  have hchar := toNat_lt x.item
  have hsum : p.i + gap p x * 1 = number p x := by
    rw [gap]
    omega
  have hread : readNumber bias (spell p bias (x :: xs)) p.i 1 BASE =
      if number p x < 2 ^ 32 then
        some (number p x, spell (p.next Char.toNat x) (nextBias p x) xs)
      else none := by
    rw [← hsum]
    exact readNumber_digits (j := 0) hbias (gap p x) le_rfl _
  rw [insertNext, hread]
  by_cases hfits : number p x < 2 ^ 32
  · rw [if_pos hfits, if_pos hfits]
    dsimp only
    rw [okOr_some, ok_bind, hout, tryFrom, if_pos (by omega), okOr_some,
      ok_bind, checkedAdd, if_pos hlen, orFault_some, ok_bind]
    dsimp only
    rw [hdiv, hmod, checkedAdd, Nat.add_sub_cancel' hkey,
      if_pos (by rw [CODE_POINTS] at hchar; omega), okOr_some, ok_bind, Outcome.require,
      if_pos (by omega), ok_bind, fromU32_toNat, okOr_some, ok_bind]
    rfl
  · rw [if_neg hfits, if_neg hfits]
    rfl

/-! ## All numbers -/

lemma decodeLoop_turn (d : Decoding) :
    decodeLoop.turn d =
      if d.bytes = [] then .inr (.ok d.out)
      else
        match insertNext d with
        | .ok d' => .inl d'
        | .err e => .inr (.err e)
        | .fault => .inr .fault :=
  rfl

theorem decodeLoop_spell (hord : Ordered Char.toNat p xs) (hpi : p.i ≤ p.h)
    (hout : out.length = p.h)
    (hlen : p.h + xs.length < 2 ^ 32) (hn : INITIAL_N ≤ p.n) (hbias : bias ≤ 202) :
    (Fits p xs → decodeLoop.run ⟨out, p.n, p.i, bias, spell p bias xs⟩ = .ok (build xs out)) ∧
      (¬ Fits p xs → decodeLoop.run ⟨out, p.n, p.i, bias, spell p bias xs⟩ = .err ()) := by
  induction xs generalizing p out bias with
  | nil =>
    have hturn : decodeLoop.turn ⟨out, p.n, p.i, bias, []⟩ = .inr (.ok out) := by
      rw [decodeLoop_turn, if_pos rfl]
    exact ⟨fun _ => Loop.run_of_done hturn, fun h => absurd trivial h⟩
  | cons x xs ih =>
    rw [length_cons] at hlen
    have hnext := insertNext_spell hord hpi hout (by omega) hn hbias
    have hne : spell p bias (x :: xs) ≠ [] := fun h =>
      digits_ne_nil bias BASE (gap p x) (append_eq_nil_iff.1 h).1
    have hturn := decodeLoop_turn ⟨out, p.n, p.i, bias, spell p bias (x :: xs)⟩
    rw [if_neg hne, hnext] at hturn
    by_cases hfits : number p x < 2 ^ 32
    · rw [if_pos hfits] at hturn
      have hbias' := nextBias_le ((Nat.sub_le _ _).trans_lt hfits) hpi
      have hrest := @ih (p.next Char.toNat x) (out.insertIdx x.place x.item) (nextBias p x)
        hord.2.2.2 (Nat.succ_le_succ hord.2.1)
        (by rw [length_insertIdx_of_le_length (hord.2.1.trans hout.ge), hout]; rfl)
        (by show p.h + 1 + xs.length < _; omega) (hn.trans hord.1) hbias'
      rw [Loop.run_of_next hturn]
      exact ⟨fun h => hrest.1 h.2, fun h => hrest.2 fun hfits' => h ⟨hfits, hfits'⟩⟩
    · rw [if_neg hfits] at hturn
      exact ⟨fun h => absurd h.1 hfits, fun _ => Loop.run_of_done hturn⟩

def position (d : Decoding) : Position := ⟨d.n, d.i, d.out.length⟩

lemma insertNext_eq_ok {d d' : Decoding} (h : insertNext d = .ok d') :
    ∃ (x : Insertion Char) (digits' : Text), d.n ≤ x.item.toNat ∧ x.place ≤ d.out.length ∧
      (x.item.toNat = d.n → d.i ≤ x.place) ∧ number (position d) x < 2 ^ 32 ∧
      INITIAL_N ≤ x.item.toNat ∧ d.out.length + 1 < 2 ^ 32 ∧ d.bytes = digits' ++ d'.bytes ∧
      lower digits' = digits d.bias BASE (gap (position d) x) ∧
      d'.out = d.out.insertIdx x.place x.item ∧ position d' = (position d).next Char.toNat x ∧
      d'.bias = nextBias (position d) x := by
  obtain ⟨r, hr, h⟩ := bind_eq_ok.1 h
  obtain ⟨count, hcount, h⟩ := bind_eq_ok.1 h
  obtain ⟨len, hlen, h⟩ := bind_eq_ok.1 h
  obtain ⟨n, hn, h⟩ := bind_eq_ok.1 h
  obtain ⟨_, hinit, h⟩ := bind_eq_ok.1 h
  obtain ⟨c, hc, h⟩ := bind_eq_ok.1 h
  obtain rfl := Outcome.ok.inj h
  obtain ⟨q, front, hq, hlt, hbytes, hfront⟩ := digits_of_readNumber (okOr_eq_ok.1 hr)
  rw [okOr_eq_ok, tryFrom, ite_none_right_eq_some, some.injEq] at hcount
  obtain ⟨-, rfl⟩ := hcount
  rw [orFault_eq_ok, checkedAdd, ite_none_right_eq_some, some.injEq] at hlen
  obtain ⟨hlen, rfl⟩ := hlen
  rw [okOr_eq_ok, checkedAdd, ite_none_right_eq_some, some.injEq] at hn
  obtain ⟨-, rfl⟩ := hn
  rw [require_eq_ok] at hinit
  rw [okOr_eq_ok] at hc
  have hchar := fromU32_eq_some hc
  have hplace : r.1 % (d.out.length + 1) < d.out.length + 1 := Nat.mod_lt _ (Nat.succ_pos _)
  have hnumber : number (position d) ⟨c, r.1 % (d.out.length + 1)⟩ = r.1 := by
    show (c.toNat - d.n) * (d.out.length + 1) + r.1 % (d.out.length + 1) = r.1
    rw [hchar, Nat.add_sub_cancel_left]
    exact Nat.div_add_mod' _ _
  have hgap : gap (position d) ⟨c, r.1 % (d.out.length + 1)⟩ = q := by
    rw [gap, hnumber, hq]
    show d.i + q * 1 - d.i = q
    omega
  refine ⟨⟨c, r.1 % (d.out.length + 1)⟩, front, hchar ▸ Nat.le_add_right _ _,
    Nat.le_of_lt_succ hplace,
    ?_, by rw [hnumber]; exact hlt, ?_, hlen, hbytes, hgap ▸ hfront, rfl, ?_, ?_⟩
  · intro heq
    have heq : c.toNat = d.n := heq
    have hzero : r.1 / (d.out.length + 1) = 0 := by omega
    have hsmall := Nat.lt_of_div_eq_zero (Nat.succ_pos _) hzero
    show d.i ≤ r.1 % (d.out.length + 1)
    rw [Nat.mod_eq_of_lt hsmall]
    omega
  · show INITIAL_N ≤ c.toNat
    omega
  · show (⟨_, _, (d.out.insertIdx _ c).length⟩ : Position) = ⟨c.toNat, _, d.out.length + 1⟩
    rw [length_insertIdx_of_le_length (by omega), hchar]
  · show adapt (r.1 - d.i) (d.out.length + 1) (d.i = 0) = _
    rw [nextBias, gap, hnumber]
    rfl

theorem decodeLoop_eq_ok (d : Decoding) (h : decodeLoop.run d = .ok s) :
    ∃ xs, Ordered Char.toNat (position d) xs ∧ lower d.bytes = spell (position d) d.bias xs ∧
      s = build xs d.out ∧ Fits (position d) xs ∧ (∀ x ∈ xs, INITIAL_N ≤ x.item.toNat) ∧
      (xs ≠ [] → s.length < 2 ^ 32) := by
  refine Loop.relate (l := decodeLoop)
    (fun d r => r = .ok s → ∃ xs, Ordered Char.toNat (position d) xs ∧
    lower d.bytes = spell (position d) d.bias xs ∧ s = build xs d.out ∧ Fits (position d) xs ∧
    (∀ x ∈ xs, INITIAL_N ≤ x.item.toNat) ∧ (xs ≠ [] → s.length < 2 ^ 32)) ?_ ?_ d h
  · rintro d d' r hturn hrest rfl
    rw [decodeLoop_turn] at hturn
    split at hturn
    · cases hturn
    · split at hturn
      next d₁ hnext =>
        obtain rfl := Sum.inl.inj hturn
        obtain ⟨x, digits', hn, hplace, hi, hnum, hinit, hlen, hbytes, hdigits, hout, hcursor,
          hbias⟩ :=
          insertNext_eq_ok hnext
        obtain ⟨xs, hord, hspell, rfl, hfits, hkeys, hlast⟩ := hrest rfl
        rw [hcursor] at hord hfits
        rw [hcursor, hbias] at hspell
        refine ⟨x :: xs, ⟨hn, hplace, hi, hord⟩, ?_, ?_, ⟨hnum, hfits⟩,
          forall_mem_cons.2 ⟨hinit, hkeys⟩, fun _ => ?_⟩
        · rw [hbytes, lower, map_append, spell]
          exact congrArg₂ (· ++ ·) hdigits hspell
        · rw [hout]
          rfl
        · cases xs with
          | nil =>
            show (d₁.out).length < 2 ^ 32
            rw [hout, length_insertIdx_of_le_length hplace]
            exact hlen
          | cons y ys => exact hlast (cons_ne_nil y ys)
      · cases hturn
      · cases hturn
  · rintro d r hturn rfl
    rw [decodeLoop_turn] at hturn
    split at hturn
    next hbytes =>
      obtain rfl := Outcome.ok.inj (Sum.inr.inj hturn)
      exact ⟨[], trivial, by rw [hbytes]; rfl, rfl, trivial,
        fun x hx => absurd hx not_mem_nil, fun h => absurd rfl h⟩
    · split at hturn
      · cases hturn
      · cases hturn
      · cases hturn

end Lazaret.Idna
