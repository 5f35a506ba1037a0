import Lazaret.Lib.Multiword

/-!
# Long division for the Montgomery constants

`shift_mod` of `bignum.rs`: the remainder of `x R` modulo `m`, by Knuth's algorithm D.  The
estimated limb of the quotient is right or one too large (`estimate_spec`), so the multiple taken
away is added back at most once (`divStep_spec`).
-/

namespace Lazaret.Bignum

open Multiword List Words
open Words (fits adc)

/-! ## The code -/

def leadingZeros (x : ℕ) : ℕ := if x = 0 then 64 else 63 - x.log2

/-- The estimate and what it leaves, lowered while the next limb shows it too large; an estimate of
zero is never too large. -/
def correct (v1 v2 u2 : ℕ) : ℕ → ℕ → Option ℕ
  | 0, _ => some 0
  | q + 1, rhat =>
    if rhat >>> 64 = 0 then do
      let p ← fits 128 ((q + 1) * v2)
      if rhat <<< 64 ||| u2 < p then do
        let rhat ← fits 128 (rhat + v1)
        correct v1 v2 u2 q rhat
      else some (q + 1)
    else some (q + 1)

/-- A limb of the quotient, estimated: `w` are the limbs below the highest one, `u0`. -/
def estimate (v w : List ℕ) (u0 : ℕ) : Option ℕ :=
  let n := v.length
  let v1 := v.getD (n - 1) 0
  let u1 := w.getD (n - 1) 0
  let num := u0 <<< 64 ||| u1
  let (qhat, rhat) := if u0 = v1 then (2 ^ 64 - 1, u1 + v1) else (num / v1, num % v1)
  if 2 ≤ n then correct v1 (v.getD (n - 2) 0) (w.getD (n - 2) 0) qhat rhat else some qhat

/-- A limb of the quotient: its multiple taken away, and added back if that went below zero. -/
def divStep (v w : List ℕ) (u0 : ℕ) : Option (List ℕ × ℕ) := do
  let qhat ← estimate v w u0
  let (w, carry, borrow) ← mulSub (qhat % 2 ^ 64) w v 0 0
  let (top, borrow) := sbbFlags u0 carry borrow
  if borrow != 0 then
    let (w, carry) := chain adcFlags w v 0
    some (w, (top + carry) % 2 ^ 64)
  else some (w, top)

/-- The same on `u[j..=j + N]`. -/
def shiftModStep (v u : List ℕ) (j : ℕ) : Option (List ℕ) := do
  let n := v.length
  let (w, top) ← divStep v ((u.drop j).take n) (u.getD (j + n) 0)
  some (u.take j ++ w ++ top :: u.drop (j + n + 1))

def shiftMod (m x : List ℕ) : Option (List ℕ) := do
  let n := m.length
  let d := leadingZeros (m.getD (n - 1) 0)
  let (v, _) := shiftLeft d m 0
  let (x, carry) := shiftLeft d x 0
  let u ← (List.range n).reverse.foldlM (shiftModStep v) (List.replicate n 0 ++ x ++ [carry])
  some (shiftRight d (u.getD n 0) (u.take n))

/-! ## The estimate -/

variable {n : ℕ} {v w : List ℕ} {u0 : ℕ}

/-- Lowered while it is too large, the estimate is not below the quotient: `T` is what is divided,
`V` the divisor. -/
lemma correct_spec {v1 v2 u u2 T V q rhat : ℕ} (hv1 : v1 < 2 ^ 64) (hv2 : v2 < 2 ^ 64)
    (hu2 : u2 < 2 ^ 64) (hq : q < 2 ^ 64) (hrhat : rhat < 2 ^ 65) (hsum : q * v1 + rhat = u)
    (hlarge : ∀ k, u * 2 ^ 64 + u2 < k * (v1 * 2 ^ 64 + v2) → T < k * V) (hT : T < (q + 1) * V) :
    ∃ q', correct v1 v2 u2 q rhat = some q' ∧ q' ≤ q ∧ T < (q' + 1) * V ∧
      q' * (v1 * 2 ^ 64 + v2) ≤ u * 2 ^ 64 + u2 := by
  induction q generalizing rhat with
  | zero => exact ⟨0, rfl, Nat.le_refl 0, hT, by rw [Nat.zero_mul]; exact Nat.zero_le _⟩
  | succ q ih =>
    have hmul : (q + 1) * v2 ≤ (2 ^ 64 - 1) * (2 ^ 64 - 1) :=
      Nat.mul_le_mul (Nat.le_sub_one_of_lt hq) (Nat.le_sub_one_of_lt hv2)
    have hexpand : (q + 1) * (v1 * 2 ^ 64 + v2) + rhat * 2 ^ 64 = u * 2 ^ 64 + (q + 1) * v2 := by
      rw [← hsum]
      ring
    have hor : rhat <<< 64 ||| u2 = rhat * 2 ^ 64 + u2 := by
      rw [Nat.or_comm, or_shift hu2, Nat.add_comm]
    rw [correct, Nat.shiftRight_eq_div_pow, hor]
    by_cases hsmall : rhat / 2 ^ 64 = 0
    · rw [if_pos hsmall, fits_bind (by omega)]
      by_cases htoo : rhat * 2 ^ 64 + u2 < (q + 1) * v2
      · rw [if_pos htoo, fits_bind (by omega)]
        have hnext : q * v1 + (rhat + v1) = u := by
          rw [← hsum]
          ring
        have hbelow : T < (q + 1) * V := by
          have hsucc : u * 2 ^ 64 + u2 + rhat * 2 ^ 64 <
              (q + 1) * (v1 * 2 ^ 64 + v2) + rhat * 2 ^ 64 := by
            rw [hexpand, add_assoc, add_comm u2]
            exact Nat.add_lt_add_left htoo _
          exact hlarge (q + 1) (lt_of_add_lt_add_right hsucc)
        obtain ⟨q', hq', hle, hT', hfit⟩ := ih (by omega) (by omega) hnext hbelow
        exact ⟨q', hq', Nat.le_succ_of_le hle, hT', hfit⟩
      · rw [if_neg htoo]
        exact ⟨q + 1, rfl, le_refl _, hT, by omega⟩
    · rw [if_neg hsmall]
      exact ⟨q + 1, rfl, le_refl _, hT, by omega⟩

lemma estimate_first {v1 u0 u1 T V S : ℕ} (hv1 : 0 < v1) (hu1 : u1 < 2 ^ 64) (hu0 : u0 ≤ v1)
    (hv1lt : v1 < 2 ^ 64) (hV : v1 * S ≤ V) (hT : T < (u0 * 2 ^ 64 + u1 + 1) * S)
    (hTV : T < 2 ^ 64 * V) :
    ∃ q rhat, (if u0 = v1 then (2 ^ 64 - 1, u1 + v1)
        else ((u0 <<< 64 ||| u1) / v1, (u0 <<< 64 ||| u1) % v1)) = (q, rhat) ∧
      q < 2 ^ 64 ∧ rhat < 2 ^ 65 ∧ q * v1 + rhat = u0 * 2 ^ 64 + u1 ∧ T < (q + 1) * V := by
  by_cases heq : u0 = v1
  · rw [if_pos heq]
    refine ⟨_, _, rfl, by decide, by omega, ?_, ?_⟩
    · rw [heq]
      omega
    · rwa [Nat.sub_add_cancel (Nat.one_le_two_pow)]
  · have hor : u0 <<< 64 ||| u1 = u0 * 2 ^ 64 + u1 := by
      rw [Nat.or_comm, or_shift hu1, Nat.add_comm]
    rw [if_neg heq, hor]
    obtain ⟨u, hu⟩ : ∃ u, u = u0 * 2 ^ 64 + u1 := ⟨_, rfl⟩
    rw [← hu] at hT ⊢
    have hmod := Nat.mod_lt u hv1
    refine ⟨u / v1, u % v1, rfl, Nat.div_lt_of_lt_mul ?_, by omega, Nat.div_add_mod' u v1, ?_⟩
    · omega
    · have hsucc : u + 1 ≤ (u / v1 + 1) * v1 := Nat.mul_comm v1 _ ▸ Nat.lt_mul_div_succ u hv1
      calc
        T < (u + 1) * S := hT
        _ ≤ (u / v1 + 1) * v1 * S := Nat.mul_le_mul_right S hsucc
        _ = (u / v1 + 1) * (v1 * S) := Nat.mul_assoc _ _ _
        _ ≤ (u / v1 + 1) * V := Nat.mul_le_mul_left _ hV

theorem estimate_spec (hv : Number (n + 1) v) (hw : Number (n + 1) w) (htop : v.getD n 0 ≠ 0)
    (hlt : value w + size (n + 1) * u0 < 2 ^ 64 * value v) :
    ∃ q < 2 ^ 64, estimate v w u0 = some q ∧ value w + size (n + 1) * u0 < (q + 1) * value v ∧
      q * value v ≤ value w + size (n + 1) * u0 + value v := by
  obtain ⟨T, hT⟩ : ∃ T, T = value w + size (n + 1) * u0 := ⟨_, rfl⟩
  obtain ⟨V, hV⟩ : ∃ V, V = value v := ⟨_, rfl⟩
  obtain ⟨v1, hv1⟩ : ∃ v1, v1 = v.getD n 0 := ⟨_, rfl⟩
  obtain ⟨u1, hu1⟩ : ∃ u1, u1 = w.getD n 0 := ⟨_, rfl⟩
  obtain ⟨hvlow, hvtop⟩ := hv.top
  obtain ⟨hwlow, hwtop⟩ := hw.top
  have hvlt := hvlow.value_lt
  have hwlt := hwlow.value_lt
  have hv1lt : v1 < 2 ^ 64 := hv1 ▸ hv.getD_lt n
  have hu1lt : u1 < 2 ^ 64 := hu1 ▸ hw.getD_lt n
  rw [← hv1] at htop hvtop
  rw [← hu1] at hwtop
  rw [← hT, ← hV] at hlt ⊢
  rw [← hV] at hvtop
  rw [hwtop, size_succ] at hT
  have hu0 : u0 ≤ v1 := by
    have h : 2 ^ 64 * size n * u0 < 2 ^ 64 * size n * (v1 + 1) := by
      rw [hvtop] at hlt
      rw [Nat.mul_add, Nat.mul_assoc _ (size n), Nat.mul_assoc _ (size n)]
      rw [Nat.mul_assoc] at hT
      omega
    exact Nat.le_of_lt_succ (Nat.lt_of_mul_lt_mul_left h)
  obtain ⟨q, rhat, hfirst, hq, hrhat, hsum, hqV⟩ := estimate_first (S := size n)
    (Nat.pos_of_ne_zero htop) hu1lt hu0 hv1lt
    (by rw [hvtop, Nat.mul_comm]; exact Nat.le_add_left _ _)
    (by rw [hT]; linarith) hlt
  rw [estimate, hv.length_eq, Nat.add_sub_cancel, ← hv1, ← hu1, hfirst]
  cases n with
  | zero =>
    refine ⟨q, hq, rfl, hqV, ?_⟩
    rw [take_zero, value_nil, size_zero] at hvtop hT
    have hVv1 : V = v1 := by omega
    rw [hVv1]
    omega
  | succ n =>
    obtain ⟨hvlow', hvtop'⟩ := hvlow.top
    obtain ⟨hwlow', hwtop'⟩ := hwlow.top
    have hvlt' := hvlow'.value_lt
    have hwlt' := hwlow'.value_lt
    have hv2 : (v.take (n + 1)).getD n 0 = v.getD n 0 := by
      rw [getD_eq_getElem?_getD, getD_eq_getElem?_getD,
        getElem?_take_of_lt (Nat.lt_succ_self n)]
    have hu2 : (w.take (n + 1)).getD n 0 = w.getD n 0 := by
      rw [getD_eq_getElem?_getD, getD_eq_getElem?_getD,
        getElem?_take_of_lt (Nat.lt_succ_self n)]
    rw [hv2] at hvtop'
    rw [hu2] at hwtop'
    obtain ⟨v2, hv2'⟩ : ∃ v2, v2 = v.getD n 0 := ⟨_, rfl⟩
    obtain ⟨u2, hu2'⟩ : ∃ u2, u2 = w.getD n 0 := ⟨_, rfl⟩
    have hv2lt : v2 < 2 ^ 64 := hv2' ▸ hv.getD_lt n
    have hu2lt : u2 < 2 ^ 64 := hu2' ▸ hw.getD_lt n
    rw [← hv2'] at hvtop'
    rw [← hu2'] at hwtop'
    -- the three highest limbs of what is divided and the two highest of the divisor
    have hVeq : V = (v1 * 2 ^ 64 + v2) * size n + value ((v.take (n + 1)).take n) := by
      rw [hvtop, hvtop', size_succ]
      ring
    have hTeq : T = ((u0 * 2 ^ 64 + u1) * 2 ^ 64 + u2) * size n +
        value ((w.take (n + 1)).take n) := by
      rw [hT, hwtop', size_succ]
      ring
    have hlarge : ∀ k, (u0 * 2 ^ 64 + u1) * 2 ^ 64 + u2 < k * (v1 * 2 ^ 64 + v2) → T < k * V := by
      intro k hk
      calc
        T < ((u0 * 2 ^ 64 + u1) * 2 ^ 64 + u2 + 1) * size n := by
          rw [hTeq, Nat.succ_mul]
          exact Nat.add_lt_add_left hwlt' _
        _ ≤ k * (v1 * 2 ^ 64 + v2) * size n := Nat.mul_le_mul_right _ hk
        _ ≤ k * V := by
          rw [Nat.mul_assoc, hVeq]
          exact Nat.mul_le_mul_left k (Nat.le_add_right _ _)
    obtain ⟨q', hq', hle, hTq', hfit⟩ :=
      correct_spec hv1lt hv2lt hu2lt hq hrhat hsum hlarge hqV
    refine ⟨q', hle.trans_lt hq, ?_, hTq', ?_⟩
    · rw [hv2', hu2'] at hq'
      exact (if_pos (Nat.le_add_left 2 n)).trans hq'
    · have hone : 2 ^ 64 * size n ≤ V := by
        rw [hVeq]
        have := Nat.mul_le_mul_right (2 ^ 64 * size n) (Nat.one_le_iff_ne_zero.2 htop)
        linarith [Nat.zero_le (v2 * size n)]
      have hrest : q' * value ((v.take (n + 1)).take n) ≤ 2 ^ 64 * size n :=
        Nat.mul_le_mul (hle.trans hq.le) hvlt'.le
      calc
        q' * V = q' * (v1 * 2 ^ 64 + v2) * size n + q' * value ((v.take (n + 1)).take n) := by
          rw [hVeq]
          ring
        _ ≤ ((u0 * 2 ^ 64 + u1) * 2 ^ 64 + u2) * size n + V :=
          Nat.add_le_add (Nat.mul_le_mul_right _ hfit) (hrest.trans hone)
        _ ≤ T + V := by
          rw [hTeq]
          exact Nat.add_le_add_right (Nat.le_add_right _ _) V

/-! ## A limb of the quotient -/

lemma divStep_eq {q carry borrow : ℕ} {ds : List ℕ} (hestimate : estimate v w u0 = some q)
    (hq : q < 2 ^ 64) (hrun : mulSub q w v 0 0 = some (ds, carry, borrow)) : divStep v w u0 =
      if (sbbFlags u0 carry borrow).2 != 0 then
        some ((chain adcFlags ds v 0).1,
          ((sbbFlags u0 carry borrow).1 + (chain adcFlags ds v 0).2) % 2 ^ 64)
      else some (ds, (sbbFlags u0 carry borrow).1) := by
  have hmod : mulSub (q % 2 ^ 64) w v 0 0 = some (ds, carry, borrow) := by
    rw [Nat.mod_eq_of_lt hq, hrun]
  simp only [divStep, hestimate, Option.bind_eq_bind, Option.bind_some, hmod]

lemma top_eq {S x k c r : ℕ} (h : x + S * k = S * c + r) (hx : x < S) (hr : r < S) :
    k = c ∧ x = r := by
  have hk : (x + S * k) / S = k := by
    rw [Nat.add_mul_div_left _ _ (by omega), Nat.div_eq_of_lt hx, Nat.zero_add]
  have hc : (S * c + r) / S = c := by
    rw [Nat.add_comm, Nat.add_mul_div_left _ _ (by omega), Nat.div_eq_of_lt hr, Nat.zero_add]
  have hkc : k = c := by rw [← hk, ← hc, h]
  subst hkc
  exact ⟨rfl, by omega⟩

lemma sub_eq_mod {T q V : ℕ} (hle : q * V ≤ T) (hlt : T < q * V + V) : T - q * V = T % V := by
  have hmod : (T - V * q) % V = T % V := Nat.sub_mul_mod (by rwa [Nat.mul_comm])
  rw [← hmod, Nat.mul_comm, Nat.mod_eq_of_lt (by rw [Nat.mul_comm]; omega)]

theorem divStep_spec (hv : Number (n + 1) v) (hw : Number (n + 1) w) (hu0 : u0 < 2 ^ 64)
    (htop : v.getD n 0 ≠ 0) (hlt : value w + size (n + 1) * u0 < 2 ^ 64 * value v) :
    ∃ r, divStep v w u0 = some (r, 0) ∧ Number (n + 1) r ∧
      value r = (value w + size (n + 1) * u0) % value v := by
  obtain ⟨q, hq, hestimate, hlow, hhigh⟩ := estimate_spec hv hw htop hlt
  obtain ⟨ds, carry, borrow, hrun, hds, hcarry, hborrow, hvalue⟩ :=
    mulSub_spec hw hv hq (show 0 < 2 ^ 64 from Nat.two_pow_pos 64) (Nat.zero_le 1)
  obtain ⟨hb, hword⟩ := sbbFlags_spec hu0 hcarry hborrow
  have htoplt := sbbFlags_fst_lt u0 carry borrow
  rw [divStep_eq hestimate hq hrun]
  obtain ⟨⟨top, b⟩, hflags⟩ : ∃ r, r = sbbFlags u0 carry borrow := ⟨_, rfl⟩
  rw [← hflags] at hb hword htoplt ⊢
  dsimp only at hb hword htoplt ⊢
  obtain ⟨T, hT⟩ : ∃ T, T = value w + size (n + 1) * u0 := ⟨_, rfl⟩
  obtain ⟨S, hS⟩ : ∃ S, S = size (n + 1) := ⟨_, rfl⟩
  rw [← hT] at hlow hhigh ⊢
  have hdslt := hds.value_lt
  have hvlt := hv.value_lt
  rw [← hS] at hT hvalue hdslt hvlt
  have hall : value ds + S * top + q * value v = T + S * 2 ^ 64 * b := by
    rw [hT]
    linear_combination hvalue + S * hword
  rw [Nat.succ_mul] at hlow
  interval_cases b
  · rw [if_neg (by decide)]
    obtain ⟨rfl, hr⟩ := top_eq (S := S) (x := value ds) (k := top) (c := 0)
      (r := T - q * value v) (by omega) hdslt (by omega)
    refine ⟨ds, rfl, hds, ?_⟩
    rw [hr, sub_eq_mod (by omega) hlow]
  · rw [if_pos (by decide)]
    obtain ⟨hc, hsum⟩ := chain_adc hds hv (Nat.zero_le 1)
    have hes := chain_number adc_fst_lt hds hv 0
    rw [chain_congr adcFlags_eq (fun ha hb hc => (adc_spec ha hb hc).1) hds hv (Nat.zero_le 1)]
    obtain ⟨⟨es, c⟩, hchain⟩ : ∃ r, r = chain adc ds v 0 := ⟨_, rfl⟩
    rw [← hchain] at hc hsum hes ⊢
    dsimp only at hc hsum hes ⊢
    have heslt := hes.value_lt
    rw [← hS] at hsum heslt
    have htopS : S * top + S ≤ S * 2 ^ 64 := Nat.mul_le_mul_left S htoplt
    -- one less is the quotient
    obtain ⟨q, rfl⟩ : ∃ k, q = k + 1 := by
      cases q with
      | zero => omega
      | succ k => exact ⟨k, rfl⟩
    rw [Nat.succ_mul] at hall hhigh hlow
    obtain ⟨htc, hr⟩ := top_eq (S := S) (x := value es) (k := top + c) (c := 2 ^ 64)
      (r := T - q * value v) (by rw [Nat.mul_add]; omega) heslt (by omega)
    refine ⟨es, ?_, hes, ?_⟩
    · rw [htc, Nat.mod_self]
    · rw [hr, sub_eq_mod (by omega) (by omega)]

/-! ## The division -/

variable {m x : List ℕ}

/-- What is left after the limbs of the quotient down to `j`: below the divisor, with zeros above
and below. -/
structure Left (n : ℕ) (v : List ℕ) (X j : ℕ) (u : List ℕ) : Prop where
  lt : X < value v
  eq : ∃ w, Number n w ∧ value w = X ∧
    u = List.replicate j 0 ++ w ++ List.replicate (n + 1 - j) 0

lemma shiftModStep_eq {p z : List ℕ} {t j : ℕ} (hp : p.length = j) (hw : w.length = v.length) :
    shiftModStep v (p ++ (w ++ t :: z)) j =
      (divStep v w t).map fun r => p ++ r.1 ++ r.2 :: z := by
  subst hp
  have hdrop : (p ++ (w ++ t :: z)).drop p.length = w ++ t :: z := drop_left
  have htake : (w ++ t :: z).take v.length = w := hw ▸ take_left
  have hget : (p ++ (w ++ t :: z)).getD (p.length + v.length) 0 = t := by
    rw [getD_append_right _ _ _ _ (Nat.le_add_right _ _), Nat.add_sub_cancel_left, ← hw,
      getD_append_right _ _ _ _ (Nat.le_refl _), Nat.sub_self, getD_cons_zero]
  have hrest : (p ++ (w ++ t :: z)).drop (p.length + v.length + 1) = z := by
    rw [add_assoc, ← drop_drop, hdrop, ← hw, ← drop_drop, drop_left, drop_succ_cons, drop_zero]
  rw [shiftModStep, hdrop, htake, hget, hrest, take_left]
  cases divStep v w t <;> rfl

lemma Left.step {X j : ℕ} {u : List ℕ} (hv : Number (n + 1) v) (htop : v.getD n 0 ≠ 0)
    (hj : j < n + 1) (h : Left (n + 1) v X (j + 1) u) :
    ∃ u', shiftModStep v u j = some u' ∧ Left (n + 1) v (2 ^ 64 * X % value v) j u' := by
  obtain ⟨hlt, w, hw, rfl, rfl⟩ := h
  obtain ⟨hlow, htopw⟩ := hw.top
  obtain ⟨t, ht⟩ : ∃ t, t = w.getD n 0 := ⟨_, rfl⟩
  rw [← ht] at htopw
  have hn : n < w.length := hw.length_eq.symm ▸ Nat.lt_succ_self n
  have hsplit : w.take n ++ [t] = w := by
    rw [ht, getD_eq_getElem _ _ hn, take_append_getElem hn, take_of_length_le hw.length_eq.le]
  have hzero : Number (n + 1) (0 :: w.take n) := number_cons.2 ⟨Nat.two_pow_pos 64, hlow⟩
  have hvalue : value (0 :: w.take n) + size (n + 1) * t = 2 ^ 64 * value w := by
    rw [value_cons, htopw, size_succ]
    ring
  obtain ⟨r, hr, hnumber, hrvalue⟩ := divStep_spec hv hzero (ht ▸ hw.getD_lt n) htop
    (hvalue ▸ Nat.mul_lt_mul_of_pos_left hlt (Nat.two_pow_pos 64))
  have hu : replicate (j + 1) 0 ++ w ++ replicate (n + 1 + 1 - (j + 1)) 0 =
      replicate j 0 ++ ((0 :: w.take n) ++ t :: replicate (n + 1 - j) 0) := by
    rw [replicate_succ', ← hsplit, Nat.add_sub_add_right]
    simp only [append_assoc, cons_append, nil_append, take_left' hlow.length_eq]
  rw [hu, shiftModStep_eq length_replicate (hzero.length_eq.trans hv.length_eq.symm), hr]
  refine ⟨_, rfl, Nat.mod_lt _ (Nat.zero_lt_of_lt hlt), r, hnumber, by rw [hrvalue, hvalue], ?_⟩
  rw [Nat.succ_sub (by omega : j ≤ n + 1)]
  rfl

lemma leadingZeros_spec {x : ℕ} (h0 : x ≠ 0) (hx : x < 2 ^ 64) :
    leadingZeros x < 64 ∧ (x + 1) * 2 ^ leadingZeros x ≤ 2 ^ 64 := by
  rw [leadingZeros, if_neg h0]
  have hlog : x.log2 < 64 := (Nat.log2_lt h0).2 hx
  refine ⟨by omega, ?_⟩
  calc
    (x + 1) * 2 ^ (63 - x.log2) ≤ 2 ^ (x.log2 + 1) * 2 ^ (63 - x.log2) :=
      Nat.mul_le_mul_right _ Nat.lt_log2_self
    _ = 2 ^ 64 := by
      rw [← pow_add]
      exact congrArg _ (by omega)

lemma shiftLeft_leading (hm : Number (n + 1) m) (htop : m.getD n 0 ≠ 0) (hx : Number (n + 1) x)
    (hle : value x ≤ value m) :
    Number (n + 1) (shiftLeft (leadingZeros (m.getD n 0)) x 0).1 ∧
      (shiftLeft (leadingZeros (m.getD n 0)) x 0).2 = 0 ∧
      value (shiftLeft (leadingZeros (m.getD n 0)) x 0).1 =
        value x * 2 ^ leadingZeros (m.getD n 0) := by
  obtain ⟨hd, hfits⟩ := leadingZeros_spec htop (hm.getD_lt n)
  generalize leadingZeros (m.getD n 0) = d at *
  obtain ⟨hnumber, -, hvalue⟩ := shiftLeft_spec hd hx (show 0 < 2 ^ d from Nat.two_pow_pos d)
  obtain ⟨hlow, hmvalue⟩ := hm.top
  have hlt : value x * 2 ^ d < size (n + 1) := by
    calc
      value x * 2 ^ d < (m.getD n 0 + 1) * size n * 2 ^ d := by
        refine Nat.mul_lt_mul_of_pos_right (hle.trans_lt ?_) (Nat.two_pow_pos d)
        rw [hmvalue, Nat.succ_mul, Nat.mul_comm (size n)]
        have := hlow.value_lt
        omega
      _ = (m.getD n 0 + 1) * 2 ^ d * size n := mul_right_comm _ _ _
      _ ≤ 2 ^ 64 * size n := Nat.mul_le_mul_right _ hfits
      _ = size (n + 1) := (size_succ n).symm
  obtain ⟨hcarry, hsame⟩ := top_eq (c := 0) (r := value x * 2 ^ d)
    (by rw [hvalue, mul_zero, zero_add, add_zero]) hnumber.value_lt hlt
  exact ⟨hnumber, hcarry, hsame⟩

lemma normalized_top {d : ℕ} (hm : Number (n + 1) m) (htop : m.getD n 0 ≠ 0)
    (hv : Number (n + 1) v) (hvvalue : value v = value m * 2 ^ d) : v.getD n 0 ≠ 0 := by
  intro h0
  obtain ⟨hlow, hvalue⟩ := hv.top
  obtain ⟨-, hmvalue⟩ := hm.top
  have h1 := Nat.mul_le_mul_left (size n) (Nat.one_le_iff_ne_zero.2 htop)
  have h2 := Nat.mul_le_mul_left (value m) (Nat.one_le_two_pow (n := d))
  have h3 := hlow.value_lt
  rw [h0] at hvalue
  omega

theorem shiftMod_spec (hm : Number (n + 1) m) (htop : m.getD n 0 ≠ 0) (hx : Number (n + 1) x)
    (hlt : value x < value m) : ∃ r, shiftMod m x = some r ∧ Number (n + 1) r ∧
      value r = value x * size (n + 1) % value m := by
  obtain ⟨hd, -⟩ := leadingZeros_spec htop (hm.getD_lt n)
  obtain ⟨hv, -, hvvalue⟩ := shiftLeft_leading hm htop hm (Nat.le_refl _)
  obtain ⟨hy, hcarry, hyvalue⟩ := shiftLeft_leading hm htop hx hlt.le
  rw [shiftMod, hm.length_eq, Nat.add_sub_cancel]
  generalize leadingZeros (m.getD n 0) = d at *
  obtain ⟨⟨v, c⟩, hshift⟩ : ∃ r, r = shiftLeft d m 0 := ⟨_, rfl⟩
  obtain ⟨⟨y, c'⟩, hshift'⟩ : ∃ r, r = shiftLeft d x 0 := ⟨_, rfl⟩
  rw [← hshift] at hv hvvalue ⊢
  rw [← hshift'] at hy hyvalue hcarry ⊢
  dsimp only at hv hvvalue hy hyvalue hcarry ⊢
  subst hcarry
  have hvtop := normalized_top hm htop hv hvvalue
  have hylt : value y < value v := by
    rw [hyvalue, hvvalue]
    exact Nat.mul_lt_mul_of_pos_right hlt (Nat.two_pow_pos d)
  have hstart : Left (n + 1) v (value y * size (n + 1 - (n + 1)) % value v) (n + 1)
      (replicate (n + 1) 0 ++ y ++ [0]) := by
    rw [Nat.sub_self, size_zero, Nat.mul_one, Nat.mod_eq_of_lt hylt]
    refine ⟨hylt, y, hy, rfl, ?_⟩
    rw [Nat.add_sub_cancel_left]
    rfl
  obtain ⟨u, hu, hend⟩ := foldlM_reverse_range (f := shiftModStep v)
    (P := fun j u => Left (n + 1) v (value y * size (n + 1 - j) % value v) j u)
    (fun j u hj h => by
      obtain ⟨u', hu', h'⟩ := h.step hv hvtop hj
      refine ⟨u', hu', ?_⟩
      rw [Nat.mul_mod_mod, ← Nat.mul_assoc, Nat.mul_comm (2 ^ 64), Nat.mul_assoc, ← size_succ] at h'
      rwa [(by omega : n + 1 - j = n + 1 - (j + 1) + 1)])
    hstart
  obtain ⟨-, w, hw, hwvalue, rfl⟩ := hend
  rw [hu]
  refine ⟨_, rfl, ?_⟩
  rw [replicate_zero, nil_append, take_left' hw.length_eq,
    getD_append_right _ _ _ _ hw.length_eq.le, hw.length_eq, Nat.sub_self, Nat.sub_zero,
    replicate_succ, getD_cons_zero]
  obtain ⟨hr, hrvalue⟩ := shiftRight_spec hd hw
  refine ⟨hr, ?_⟩
  rw [hrvalue, hwvalue, hyvalue, hvvalue, Nat.sub_zero, Nat.mul_right_comm,
    Nat.mul_mod_mul_right, Nat.mul_div_cancel _ (Nat.two_pow_pos d)]

end Lazaret.Bignum
