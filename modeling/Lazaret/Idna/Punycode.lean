import Lazaret.Lib.LastIndex
import Lazaret.Lib.Loop
import Lazaret.Lib.Outcome
import Mathlib.Algebra.Group.Nat.Defs
import Mathlib.Data.List.InsertIdx

/-!
# Punycode

`punycode_encode` and `punycode_decode` of `idna.rs`.  Numbers are natural numbers, with the checks
of 32 bits where the source makes them; a sum that is not checked and overflows panics (`fault`).
The two loops are `Loop`s, with what makes them end.
-/

namespace Lazaret.Idna

open List Option

abbrev Text := List Char

def BASE : ℕ := 36
def T_MIN : ℕ := 1
def T_MAX : ℕ := 26
def SKEW : ℕ := 38
def DAMP : ℕ := 700
def INITIAL_BIAS : ℕ := 72
def INITIAL_N : ℕ := 128

/-! ## 32 bits -/

def checkedAdd (a b : ℕ) : Option ℕ := if a + b < 2 ^ 32 then some (a + b) else none

def checkedMul (a b : ℕ) : Option ℕ := if a * b < 2 ^ 32 then some (a * b) else none

def tryFrom (a : ℕ) : Option ℕ := if a < 2 ^ 32 then some a else none

def fromU32 (n : ℕ) : Option Char := if n.isValidChar then some (Char.ofNat n) else none

def isAscii (c : Char) : Bool := c.toNat < 128

/-! ## The bias -/

/-- The loop of `adapt`: what is left of `delta`, and `k`. -/
def adaptLoop (delta k : ℕ) : ℕ × ℕ :=
  if (BASE - T_MIN) * T_MAX / 2 < delta then adaptLoop (delta / (BASE - T_MIN)) (k + BASE)
  else (delta, k)
termination_by delta
decreasing_by exact Nat.div_lt_self (Nat.zero_lt_of_lt ‹_›) (by decide)

def adapt (delta points : ℕ) (first : Bool) : ℕ :=
  let d := delta / (if first then DAMP else 2)
  let r := adaptLoop (d + d / points) 0
  r.2 + (BASE - T_MIN + 1) * r.1 / (r.1 + SKEW)

def threshold (k bias : ℕ) : ℕ :=
  if k ≤ bias then T_MIN else if k ≥ bias + T_MAX then T_MAX else k - bias

lemma threshold_pos (k bias : ℕ) : 1 ≤ threshold k bias := by
  unfold threshold T_MIN T_MAX
  split
  · omega
  · split <;> omega

lemma threshold_le (k bias : ℕ) : threshold k bias ≤ 26 := by
  unfold threshold T_MIN T_MAX
  split
  · omega
  · split <;> omega

/-! ## Digits -/

def digitChar (d : ℕ) : Char :=
  if d < 26 then Char.ofNat ('a'.toNat + d) else Char.ofNat ('0'.toNat + (d - 26))

def digitValue (c : Char) : Option ℕ :=
  if 'a' ≤ c ∧ c ≤ 'z' then some (c.toNat - 'a'.toNat)
  else if 'A' ≤ c ∧ c ≤ 'Z' then some (c.toNat - 'A'.toNat)
  else if '0' ≤ c ∧ c ≤ '9' then some (c.toNat - '0'.toNat + 26)
  else none

/-- The inner loop of the encoder: the digits of a number. -/
def digits (bias k q : ℕ) : Text :=
  let t := threshold k bias
  if q < t then [digitChar q]
  else digitChar (t + (q - t) % (BASE - t)) :: digits bias (k + BASE) ((q - t) / (BASE - t))
termination_by q
decreasing_by
  have hpos := threshold_pos k bias
  exact (Nat.div_le_self _ _).trans_lt (by omega)

/-- The inner loop of the decoder: the number that is read, and the rest. -/
def readNumber (bias : ℕ) : Text → (i w k : ℕ) → Option (ℕ × Text)
  | [], _, _, _ => none
  | c :: cs, i, w, k => do
    let digit ← digitValue c
    let i ← checkedAdd i (← checkedMul digit w)
    if digit < threshold k bias then some (i, cs)
    else readNumber bias cs i (← checkedMul w (BASE - threshold k bias)) (k + BASE)

/-! ## Encoding -/

structure Encoding where
  out : Text
  delta : ℕ
  bias : ℕ
  handled : ℕ

/-- A character that was handled before is one more place. -/
def countBelow (n delta : ℕ) (c : Char) : Option ℕ :=
  if c.toNat < n then checkedAdd delta 1 else some delta

def encodeChar (basic n : ℕ) (e : Encoding) (c : Char) : Option Encoding := do
  let delta ← countBelow n e.delta c
  if c.toNat = n then
    some ⟨e.out ++ digits e.bias BASE delta, 0, adapt delta (e.handled + 1) (e.handled = basic),
      e.handled + 1⟩
  else some { e with delta := delta }

def encodePass (input : Text) (basic : ℕ) (p : ℕ × Encoding) : Option (ℕ × Encoding) := do
  let m ← ((input.map Char.toNat).filter (p.1 ≤ ·)).min?
  let delta ← checkedAdd p.2.delta (← checkedMul (m - p.1) (p.2.handled + 1))
  let e ← input.foldlM (encodeChar basic m) { p.2 with delta := delta }
  let delta ← checkedAdd e.delta 1
  let n ← checkedAdd m 1
  some (n, { e with delta := delta })

lemma encodeChar_handled {basic n : ℕ} {e e' : Encoding} {c : Char}
    (h : encodeChar basic n e c = some e') :
    e'.handled = e.handled + if c.toNat = n then 1 else 0 := by
  obtain ⟨delta, -, h⟩ := bind_eq_some_iff.1 h
  split at h
  next hc => rw [← some.inj h, if_pos hc]
  next hc => rw [← some.inj h, if_neg hc]; rfl

lemma foldlM_handled {basic n : ℕ} {cs : Text} {e e' : Encoding}
    (h : cs.foldlM (encodeChar basic n) e = some e') :
    e'.handled = e.handled + (cs.map Char.toNat).count n := by
  induction cs generalizing e with
  | nil => rw [← some.inj h]; rfl
  | cons c cs ih =>
    rw [foldlM_cons] at h
    obtain ⟨e₁, h₁, h⟩ := bind_eq_some_iff.1 h
    rw [ih h, encodeChar_handled h₁, map_cons, count_cons, Nat.add_assoc, Nat.add_comm]
    simp only [beq_iff_eq]
    omega

lemma encodePass_handled {input : Text} {basic : ℕ} {p p' : ℕ × Encoding}
    (h : encodePass input basic p = some p') : p.2.handled < p'.2.handled := by
  obtain ⟨m, hm, h⟩ := bind_eq_some_iff.1 h
  obtain ⟨_, -, h⟩ := bind_eq_some_iff.1 h
  obtain ⟨delta, -, h⟩ := bind_eq_some_iff.1 h
  obtain ⟨e, he, h⟩ := bind_eq_some_iff.1 h
  obtain ⟨_, -, h⟩ := bind_eq_some_iff.1 h
  obtain ⟨_, -, h⟩ := bind_eq_some_iff.1 h
  obtain rfl := some.inj h
  have hmem : m ∈ input.map Char.toNat :=
    (mem_filter.1 (List.min?_mem hm)).1
  have hcount := count_pos_iff.2 hmem
  have hhandled := foldlM_handled he
  show p.2.handled < e.handled
  dsimp only at hhandled
  omega

def encodeLoop (input : Text) (basic : ℕ) : Loop (ℕ × Encoding) (Option Text) where
  turn p :=
    if p.2.handled < input.length then
      match encodePass input basic p with
      | some p' => .inl p'
      | none => .inr none
    else .inr (some p.2.out)
  measure p := input.length - p.2.handled
  progress := by
    intro p p' h
    split at h
    next hlt =>
      split at h
      next p₁ hpass =>
        obtain rfl := Sum.inl.inj h
        have := encodePass_handled hpass
        omega
      · cases h
    · cases h

def punycodeEncode (input : Text) : Option Text := do
  let ascii := input.filter isAscii
  let basic := ascii.length % 2 ^ 32
  let out := if basic > 0 then ascii ++ ['-'] else ascii
  let _total ← tryFrom input.length
  (encodeLoop input basic).run (INITIAL_N, ⟨out, 0, INITIAL_BIAS, basic⟩)

/-! ## Decoding -/

structure Decoding where
  out : Text
  n : ℕ
  i : ℕ
  bias : ℕ
  bytes : Text

/-- The next number, and the character that it inserts. -/
def insertNext (d : Decoding) : Outcome Unit Decoding := do
  let r ← Outcome.okOr (readNumber d.bias d.bytes d.i 1 BASE) ()
  let count ← Outcome.okOr (tryFrom d.out.length) ()
  -- this sum is not checked
  let len ← Outcome.orFault (checkedAdd count 1)
  let n ← Outcome.okOr (checkedAdd d.n (r.1 / len)) ()
  Outcome.require (¬ n < INITIAL_N) ()
  let c ← Outcome.okOr (fromU32 n) ()
  .ok ⟨d.out.insertIdx (r.1 % len) c, n, r.1 % len + 1, adapt (r.1 - d.i) len (d.i = 0), r.2⟩

lemma readNumber_length {bias : ℕ} {cs : Text} {i w k : ℕ} {r : ℕ × Text}
    (h : readNumber bias cs i w k = some r) : r.2.length < cs.length := by
  induction cs generalizing i w k with
  | nil => cases h
  | cons c cs ih =>
    obtain ⟨digit, -, h⟩ := bind_eq_some_iff.1 h
    obtain ⟨_, -, h⟩ := bind_eq_some_iff.1 h
    obtain ⟨i', -, h⟩ := bind_eq_some_iff.1 h
    split at h
    · rw [← some.inj h]
      exact Nat.lt_succ_self _
    · obtain ⟨w', -, h⟩ := bind_eq_some_iff.1 h
      exact (ih h).trans (Nat.lt_succ_self _)

def decodeLoop : Loop Decoding (Outcome Unit Text) where
  turn d :=
    if d.bytes = [] then .inr (.ok d.out)
    else
      match insertNext d with
      | .ok d' => .inl d'
      | .err e => .inr (.err e)
      | .fault => .inr .fault
  measure d := d.bytes.length
  progress := by
    intro d d' h
    split at h
    · cases h
    · split at h
      next d₁ hnext =>
        obtain rfl := Sum.inl.inj h
        obtain ⟨r, hr, hnext⟩ := Outcome.bind_eq_ok.1 hnext
        obtain ⟨_, -, hnext⟩ := Outcome.bind_eq_ok.1 hnext
        obtain ⟨_, -, hnext⟩ := Outcome.bind_eq_ok.1 hnext
        obtain ⟨_, -, hnext⟩ := Outcome.bind_eq_ok.1 hnext
        obtain ⟨_, -, hnext⟩ := Outcome.bind_eq_ok.1 hnext
        obtain ⟨_, -, hnext⟩ := Outcome.bind_eq_ok.1 hnext
        obtain rfl := Outcome.ok.inj hnext
        exact readNumber_length (Outcome.okOr_eq_ok.1 hr)
      · cases h
      · cases h

/-- The ASCII part, up to the last delimiter, and the digits after it.  One at the very start is not
a delimiter. -/
def splitDelimiter (input : Text) : Text × Text :=
  match rfind ['-'] input with
  | some (at_ + 1) => (input.take (at_ + 1), input.drop (at_ + 2))
  | _ => ([], input)

def punycodeDecode (input : Text) : Outcome Unit Text := do
  Outcome.require (input.all isAscii = true) ()
  let p := splitDelimiter input
  decodeLoop.run ⟨p.1, INITIAL_N, 0, INITIAL_BIAS, p.2⟩

end Lazaret.Idna
