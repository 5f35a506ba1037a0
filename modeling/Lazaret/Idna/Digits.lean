import Lazaret.Idna.Punycode
import Mathlib.Tactic.Ring

/-!
# Numbers in digits

What the encoder writes of a number and what the decoder reads back (`readNumber_digits`), and the
digits of whatever the decoder reads (`digits_of_readNumber`).  The weight of a digit never
overflows before the number does, as the bias is at most 202 (`adapt_le`).
-/

namespace Lazaret.Idna

open List Option

/-! ## Digits -/

variable {d : ℕ}

lemma digitValue_digitChar (h : d < 36) : digitValue (digitChar d) = some d := by
  have hall : ∀ d < 36, digitValue (digitChar d) = some d := by decide
  exact hall d h

def lower (s : Text) : Text := s.map Char.toLower

variable {c : Char}

lemma digitValue_lt (h : digitValue c = some d) : d < 36 ∧ c.toNat < 128 := by
  rw [digitValue] at h
  split at h
  next hc =>
    have h1 : 'a'.toNat ≤ c.toNat := hc.1
    have h2 : c.toNat ≤ 'z'.toNat := hc.2
    rw [some.injEq] at h
    simp only [Char.reduceToNat] at h1 h2 h
    omega
  split at h
  next hc =>
    have h1 : 'A'.toNat ≤ c.toNat := hc.1
    have h2 : c.toNat ≤ 'Z'.toNat := hc.2
    rw [some.injEq] at h
    simp only [Char.reduceToNat] at h1 h2 h
    omega
  split at h
  next hc =>
    have h1 : '0'.toNat ≤ c.toNat := hc.1
    have h2 : c.toNat ≤ '9'.toNat := hc.2
    rw [some.injEq] at h
    simp only [Char.reduceToNat] at h1 h2 h
    omega
  · cases h

lemma toLower_of_digitValue (h : digitValue c = some d) : c.toLower = digitChar d := by
  have hall : ∀ n < 128, (digitValue (Char.ofNat n)).all
      (fun d => (Char.ofNat n).toLower = digitChar d) = true := by
    decide
  have hc := hall _ (digitValue_lt h).2
  rw [Char.ofNat_toNat, h, all_some] at hc
  exact of_decide_eq_true hc

variable {bias : ℕ}

lemma digitValue_of_mem_digits {k q : ℕ} (h : c ∈ digits bias k q) : ∃ d < 36, c = digitChar d := by
  induction q using Nat.strongRecOn generalizing k with
  | ind q ih =>
    have hpos := threshold_pos k bias
    have hle := threshold_le k bias
    rw [digits] at h
    split at h
    next hlt =>
      rw [mem_singleton] at h
      exact ⟨q, by omega, h⟩
    next hge =>
      rcases mem_cons.1 h with rfl | h
      · have hmod : (q - threshold k bias) % (BASE - threshold k bias) < BASE - threshold k bias :=
          Nat.mod_lt _ (by rw [BASE]; omega)
        rw [BASE] at hmod
        exact ⟨_, by rw [BASE]; omega, rfl⟩
      · exact ih _ ((Nat.div_le_self _ _).trans_lt (by omega)) h

lemma digits_ne_nil (bias k q : ℕ) : digits bias k q ≠ [] := by
  rw [digits]
  split
  · exact cons_ne_nil _ _
  · exact cons_ne_nil _ _

/-! ## The bias -/

lemma adaptLoop_le {delta : ℕ} (k r : ℕ) (h : delta ≤ 62 * 35 ^ r - 1) :
    (adaptLoop delta k).2 + 36 * (adaptLoop delta k).1 / ((adaptLoop delta k).1 + 38) ≤
      k + 36 * r + 22 := by
  induction r generalizing delta k with
  | zero =>
    rw [adaptLoop, if_neg (by simp [BASE, T_MIN, T_MAX]; omega)]
    have hdiv : 36 * delta / (delta + 38) ≤ 22 := by
      rw [Nat.div_le_iff_le_mul_add_pred (by omega)]
      omega
    show k + 36 * delta / (delta + 38) ≤ _
    omega
  | succ r ih =>
    rw [adaptLoop]
    split
    next hgt =>
      have hdiv : delta / 35 ≤ 62 * 35 ^ r - 1 := by
        rw [pow_succ] at h
        omega
      have := ih (k + 36) hdiv
      show (adaptLoop (delta / 35) (k + 36)).2 + _ ≤ _
      exact this.trans (by omega)
    next hle =>
      have hle : ¬ 455 < delta := hle
      have hdiv : 36 * delta / (delta + 38) ≤ 33 := by
        rw [Nat.div_le_iff_le_mul_add_pred (by omega)]
        omega
      show k + 36 * delta / (delta + 38) ≤ _
      omega

lemma adapt_le {delta points : ℕ} {first : Bool} (hdelta : delta < 2 ^ 32)
    (hpoints : first = false → 2 ≤ points) : adapt delta points first ≤ 202 := by
  have hd : delta / (if first then DAMP else 2) + delta / (if first then DAMP else 2) / points ≤
      62 * 35 ^ 5 - 1 := by
    cases first with
    | true =>
      show delta / 700 + delta / 700 / points ≤ _
      have hle := Nat.div_le_self (delta / 700) points
      omega
    | false =>
      show delta / 2 + delta / 2 / points ≤ _
      have hle : delta / 2 / points ≤ delta / 2 / 2 :=
        Nat.div_le_div_left (hpoints rfl) (by omega)
      omega
  have hloop := adaptLoop_le 0 5 hd
  exact hloop.trans (by omega)

/-! ## Reading a number -/

variable {w : ℕ}

lemma weight_lt {j digit : ℕ} (hbias : bias ≤ 202) (hw : w ≤ 35 ^ j)
    (hdigit : threshold (36 * (j + 1)) bias ≤ digit) (hlt : digit * w < 2 ^ 32) :
    w * (BASE - threshold (36 * (j + 1)) bias) < 2 ^ 32 := by
  have hle := threshold_le (36 * (j + 1)) bias
  have hpos := threshold_pos (36 * (j + 1)) bias
  rw [BASE]
  by_cases hbig : 18 ≤ threshold (36 * (j + 1)) bias
  · calc w * (36 - threshold (36 * (j + 1)) bias) ≤ w * digit := Nat.mul_le_mul_left w (by omega)
      _ = digit * w := mul_comm w digit
      _ < 2 ^ 32 := hlt
  · -- the threshold is small for the first digits only
    have hj : j ≤ 5 := by
      unfold threshold T_MIN T_MAX at hbig
      split at hbig
      · omega
      · split at hbig <;> omega
    calc w * (36 - threshold (36 * (j + 1)) bias) ≤ 35 ^ j * 35 :=
          Nat.mul_le_mul hw (by omega)
      _ = 35 ^ (j + 1) := (pow_succ 35 j).symm
      _ ≤ 35 ^ 6 := Nat.pow_le_pow_right (by omega) (by omega)
      _ < 2 ^ 32 := by decide

variable {i : ℕ}

lemma checkedMul_add : (checkedMul d w).bind (checkedAdd i) =
      if i + d * w < 2 ^ 32 then some (i + d * w) else none := by
  rw [checkedMul]
  split
  · rfl
  next hge => rw [if_neg (by omega)]; rfl

lemma readNumber_cons (h : digitValue c = some d) (cs : Text) (i w k : ℕ) :
    readNumber bias (c :: cs) i w k =
      if i + d * w < 2 ^ 32 then
        if d < threshold k bias then some (i + d * w, cs)
        else (checkedMul w (BASE - threshold k bias)).bind fun w' =>
          readNumber bias cs (i + d * w) w' (k + BASE)
      else none := by
  have hcons : readNumber bias (c :: cs) i w k =
      ((checkedMul d w).bind (checkedAdd i)).bind fun i =>
        if d < threshold k bias then some (i, cs)
        else (checkedMul w (BASE - threshold k bias)).bind fun w' =>
          readNumber bias cs i w' (k + BASE) := by
    rw [readNumber, h]
    exact (bind_assoc _ _ _).symm
  rw [hcons, checkedMul_add]
  split
  · rfl
  · rfl

lemma digit_add (q t w : ℕ) (h : t ≤ q) :
    (t + (q - t) % (36 - t)) * w + (q - t) / (36 - t) * (w * (36 - t)) = q * w := by
  have hdiv := Nat.mod_add_div (q - t) (36 - t)
  calc (t + (q - t) % (36 - t)) * w + (q - t) / (36 - t) * (w * (36 - t))
      = (t + ((q - t) % (36 - t) + (36 - t) * ((q - t) / (36 - t)))) * w := by ring
    _ = q * w := by rw [hdiv, Nat.add_sub_cancel' h]

theorem readNumber_digits (hbias : bias ≤ 202) (q : ℕ) {j : ℕ} (hw : w ≤ 35 ^ j) (rest : Text) :
    readNumber bias (digits bias (36 * (j + 1)) q ++ rest) i w (36 * (j + 1)) =
      if i + q * w < 2 ^ 32 then some (i + q * w, rest) else none := by
  induction q using Nat.strongRecOn generalizing i w j with
  | ind q ih =>
    have hpos := threshold_pos (36 * (j + 1)) bias
    have hle := threshold_le (36 * (j + 1)) bias
    rw [digits]
    split
    next hlt =>
      rw [singleton_append, readNumber_cons (digitValue_digitChar (by omega)), if_pos hlt]
    next hge =>
      have hge := Nat.le_of_not_lt hge
      have hmod : (q - threshold (36 * (j + 1)) bias) % (36 - threshold (36 * (j + 1)) bias) <
          36 - threshold (36 * (j + 1)) bias := Nat.mod_lt _ (by omega)
      have hsum := digit_add q (threshold (36 * (j + 1)) bias) w hge
      rw [BASE]
      obtain ⟨digit, hdigit⟩ : ∃ digit, digit = threshold (36 * (j + 1)) bias +
        (q - threshold (36 * (j + 1)) bias) % (36 - threshold (36 * (j + 1)) bias) := ⟨_, rfl⟩
      rw [← hdigit] at hsum ⊢
      rw [cons_append, readNumber_cons (digitValue_digitChar (by omega))]
      by_cases hfits : i + digit * w < 2 ^ 32
      · have hd : threshold (36 * (j + 1)) bias ≤ digit := by omega
        have hweight := weight_lt hbias hw hd (by omega)
        have hw' : w * (36 - threshold (36 * (j + 1)) bias) ≤ 35 ^ (j + 1) := by
          rw [pow_succ]
          exact Nat.mul_le_mul hw (by omega)
        rw [if_pos hfits, if_neg (by omega), checkedMul, if_pos hweight, bind_some]
        refine (ih _ ((Nat.div_le_self _ _).trans_lt (by omega)) hw').trans ?_
        rw [add_assoc, hsum]
      · rw [if_neg hfits, if_neg (by omega)]

theorem digits_of_readNumber {cs : Text} {k : ℕ} {r : ℕ × Text}
    (h : readNumber bias cs i w k = some r) :
    ∃ q front, r.1 = i + q * w ∧ r.1 < 2 ^ 32 ∧ cs = front ++ r.2 ∧ lower front =
      digits bias k q := by
  induction cs generalizing i w k with
  | nil => cases h
  | cons c cs ih =>
    cases hdigit : digitValue c with
    | none =>
      rw [readNumber, hdigit] at h
      cases h
    | some d =>
      have hchar := toLower_of_digitValue hdigit
      rw [readNumber_cons hdigit] at h
      split at h
      next hfits =>
        split at h
        next hlt =>
          obtain rfl := some.inj h
          refine ⟨d, [c], rfl, hfits, rfl, ?_⟩
          rw [digits, if_pos hlt, lower, map_singleton, hchar]
        next hge =>
          have hd := (digitValue_lt hdigit).1
          have hpos := threshold_pos k bias
          have hle := threshold_le k bias
          obtain ⟨w', hw', h⟩ := bind_eq_some_iff.1 h
          rw [checkedMul, ite_none_right_eq_some, some.injEq] at hw'
          obtain ⟨-, rfl⟩ := hw'
          obtain ⟨q, front, hr, hlt, rfl, hfront⟩ := ih h
          have hmod : (d + q * (36 - threshold k bias) - threshold k bias) %
              (36 - threshold k bias) = d - threshold k bias := by
            rw [show d + q * (36 - threshold k bias) - threshold k bias =
              d - threshold k bias + q * (36 - threshold k bias) by omega,
              Nat.add_mul_mod_self_right, Nat.mod_eq_of_lt (by omega)]
          have hdiv : (d + q * (36 - threshold k bias) - threshold k bias) /
              (36 - threshold k bias) = q := by
            rw [show d + q * (36 - threshold k bias) - threshold k bias =
              d - threshold k bias + q * (36 - threshold k bias) by omega,
              Nat.add_mul_div_right _ _ (by omega), Nat.div_eq_of_lt (by omega), Nat.zero_add]
          refine ⟨d + q * (36 - threshold k bias), c :: front, ?_, hlt, rfl, ?_⟩
          · rw [hr, BASE]
            ring
          · rw [digits, if_neg (by omega), BASE, hmod, hdiv,
              show threshold k bias + (d - threshold k bias) = d by omega, lower, map_cons, hchar]
            exact congrArg _ hfront
      · cases h

end Lazaret.Idna
