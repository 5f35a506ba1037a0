import Lazaret.Json.Values

/-!
# Decimal numbers

The value of a text of digits (`decimal`) and the digits of a number (`Nat.toDigits`) are inverse,
but for leading zeros.
-/

namespace Lazaret.Json

open List

lemma digitChar_sub {c : Char} (h : c.isDigit = true) :
    c.toNat - '0'.toNat < 10 ∧ Nat.digitChar (c.toNat - '0'.toNat) = c := by
  obtain ⟨hlow, hhigh⟩ := Char.isDigit_iff_toNat.1 h
  have hlt : c.toNat - '0'.toNat < 10 := by
    simp only [Char.reduceToNat] at hlow hhigh ⊢
    omega
  have hall : ∀ n < 10, Nat.digitChar n = Char.ofNat ('0'.toNat + n) := by decide
  refine ⟨hlt, ?_⟩
  rw [hall _ hlt, Nat.add_sub_cancel' hlow, Char.ofNat_toNat]

lemma decimal_append (w : List Char) (c : Char) :
    decimal (w ++ [c]) = decimal w * 10 + (c.toNat - '0'.toNat) := by
  rw [decimal, foldl_append]
  rfl

lemma toDigits_decimal {w : List Char} (hw : w ∈ Grammar.digits) (hhead : w.head? ≠ some '0') :
    Nat.toDigits 10 (decimal w) = w ∧ 0 < decimal w := by
  obtain ⟨hne, hdigits⟩ := hw
  induction w using reverseRecOn with
  | nil => exact absurd rfl hne
  | append_singleton w c ih =>
    have hc := hdigits c (mem_append_right _ (mem_singleton_self c))
    obtain ⟨hlt, hchar⟩ := digitChar_sub hc
    rw [decimal_append]
    by_cases hw : w = []
    · subst hw
      have hzero : c.toNat - '0'.toNat ≠ 0 := by
        intro hzero
        rw [hzero] at hchar
        exact hhead (by rw [← hchar]; rfl)
      rw [show decimal [] = 0 from rfl, Nat.zero_mul, Nat.zero_add,
        Nat.toDigits_of_lt_base hlt, hchar]
      exact ⟨rfl, pos_of_ne_zero hzero⟩
    · have hhead' : w.head? ≠ some '0' := by
        rw [head?_append_of_ne_nil _ hw] at hhead
        exact hhead
      obtain ⟨hdig, hpos⟩ := ih hhead' hw fun d hd => hdigits d (mem_append_left _ hd)
      have hdiv : (decimal w * 10 + (c.toNat - '0'.toNat)) / 10 = decimal w := by omega
      have hmod : (decimal w * 10 + (c.toNat - '0'.toNat)) % 10 = c.toNat - '0'.toNat := by omega
      refine ⟨?_, by omega⟩
      rw [Nat.toDigits_of_base_le (by decide) (by omega), hdiv, hmod, hdig, hchar]

lemma toDigits_natural {w : List Char} (hw : w ∈ Grammar.natural) :
    Nat.toDigits 10 (decimal w) = w := by
  rcases hw with rfl | ⟨hw, hhead⟩
  · rfl
  · exact (toDigits_decimal hw hhead).1

lemma decimal_toDigits (n : ℕ) : decimal (Nat.toDigits 10 n) = n := by
  have hfold : ∀ (cs : List Char) (m : ℕ),
      cs.foldl (fun n c => n * 10 + (c.toNat - '0'.toNat)) m = Nat.ofDigitChars 10 cs m := by
    intro cs
    induction cs with
    | nil => exact fun m => Nat.ofDigitChars_nil.symm
    | cons c cs ih =>
      intro m
      rw [foldl_cons, ih, Nat.ofDigitChars_cons, Nat.mul_comm]
  rw [decimal, hfold]
  exact Nat.ofDigitChars_ten_toDigits

lemma toDigits_mem (n : ℕ) : Nat.toDigits 10 n ∈ Grammar.digits :=
  ⟨Nat.toDigits_ne_nil, fun _ hc => Nat.isDigit_of_mem_toDigits (by decide) (by decide) hc⟩

lemma head?_toDigits {n : ℕ} (hpos : 0 < n) : (Nat.toDigits 10 n).head? ≠ some '0' := by
  have hall : ∀ n < 10, 0 < n → [Nat.digitChar n].head? ≠ some '0' := by decide
  induction n using Nat.strongRecOn with
  | ind n ih =>
    by_cases hlt : n < 10
    · rw [Nat.toDigits_of_lt_base hlt]
      exact hall n hlt hpos
    · rw [Nat.toDigits_of_base_le (by decide) (Nat.not_lt.1 hlt),
        head?_append_of_ne_nil _ Nat.toDigits_ne_nil]
      exact ih (n / 10) (Nat.div_lt_self hpos (by decide)) (by omega)

lemma toDigits_eq_iff {w : List Char} (hw : w ∈ Grammar.digits) :
    Nat.toDigits 10 (decimal w) = w ↔ w ∈ Grammar.natural := by
  refine ⟨fun h => ?_, toDigits_natural⟩
  by_cases hzero : decimal w = 0
  · left
    rw [← h, hzero]
    rfl
  · exact .inr ⟨hw, h ▸ head?_toDigits (pos_of_ne_zero hzero)⟩

lemma parseU64_eq_some {w : List Char} {n : ℕ} :
    parseU64 (String.ofList w) = some n ↔
      n < 2 ^ 64 ∧ ∃ ds ∈ Grammar.digits, decimal ds = n ∧ (w = ds ∨ w = '+' :: ds) := by
  have hread : ∀ ds : List Char, (if ds ≠ [] ∧ ds.all Char.isDigit ∧ decimal ds < 2 ^ 64 then
      some (decimal ds) else none) = some n ↔ n < 2 ^ 64 ∧ ds ∈ Grammar.digits ∧
      decimal ds = n := by
    intro ds
    rw [Option.ite_none_right_eq_some, Option.some_inj, all_eq_true]
    exact ⟨fun ⟨⟨hne, hall, hlt⟩, h⟩ => ⟨h ▸ hlt, ⟨hne, hall⟩, h⟩,
      fun ⟨hlt, ⟨hne, hall⟩, h⟩ => ⟨⟨hne, hall, h ▸ hlt⟩, h⟩⟩
  have hplus : ∀ ds : List Char, '+' :: ds ∉ Grammar.digits := fun ds h =>
    absurd (h.2 _ mem_cons_self) (by decide)
  simp only [parseU64, String.toList_ofList]
  split
  next ds =>
    rw [hread]
    refine and_congr_right fun _ => ⟨fun h => ⟨ds, h.1, h.2, .inr rfl⟩, ?_⟩
    rintro ⟨ds', hds', hn, h | h⟩
    · exact absurd (h ▸ hds') (hplus ds)
    · rw [(cons.inj h).2]
      exact ⟨hds', hn⟩
  next hne =>
    rw [hread]
    refine and_congr_right fun _ => ⟨fun h => ⟨w, h.1, h.2, .inl rfl⟩, ?_⟩
    rintro ⟨ds', hds', hn, h | h⟩
    · rw [h]
      exact ⟨hds', hn⟩
    · exact absurd h (hne ds')

end Lazaret.Json
