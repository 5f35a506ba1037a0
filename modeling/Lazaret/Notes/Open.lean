import Lazaret.Http1.Text
import Lazaret.Lib.Firsts
import Lazaret.Lib.LastIndex
import Lazaret.Lib.Outcome
import Lazaret.Notes.Base64
import Mathlib.Data.Vector.Basic

/-!
# Keys and signed notes

Verifier keys as `note.rs` reads and writes them: `<name>+<hash>+<key>`, the hash a part of the
SHA-256 of name and key, which is a parameter here.  `note::open` takes the text before the last
blank line of a message, and the signature lines after it, each looked up among the known keys.
`verify` stands for the verification of one signature.
-/

namespace Lazaret.Notes

open List

open Utf8 (byte encode)

abbrev Text := List Char

/-! ## Errors and notes -/

structure Signature where
  name : Text
  hash : UInt32
  base64 : Text
deriving DecidableEq

structure Note where
  text : Text
  signatures : List Signature
  unverified : List Signature
deriving DecidableEq

inductive Error
  | MalformedNote
  | BadVerifierKey (what : String)
  | InvalidSignature (name : Text) (hash : UInt32)
  | AmbiguousKey (name : Text) (hash : UInt32)
  | Unverified (note : Note)
deriving DecidableEq

/-! ## Keys -/

def ALG_ED25519 : UInt8 := 1

inductive Key
  | Ed25519 (publicKey : List.Vector UInt8 32)
  | EcdsaP256 (point : List.Vector UInt8 65)
deriving DecidableEq

/-- A public key that can verify the signatures of one signer. -/
structure Verifier where
  name : Text
  hash : UInt32
  key : Key
deriving DecidableEq

def validName (name : Text) : Bool :=
  !name.isEmpty && !name.contains '+' && !name.any Http1.isWhitespace

def fromBeBytes (b0 b1 b2 b3 : UInt8) : UInt32 :=
  UInt32.ofNat (((b0.toNat * 256 + b1.toNat) * 256 + b2.toNat) * 256 + b3.toNat)

/-- `split_once`: what is before the first such character, and what is after it. -/
def splitOnce (c : Char) (s : Text) : Option (Text × Text) :=
  if c ∈ s then some (s.takeWhile (· ≠ c), (s.dropWhile (· ≠ c)).tail) else none

def hexValue (c : Char) : Option ℕ :=
  if '0' ≤ c ∧ c ≤ '9' then some (c.toNat - '0'.toNat)
  else if 'a' ≤ c ∧ c ≤ 'f' then some (c.toNat - 'a'.toNat + 10)
  else if 'A' ≤ c ∧ c ≤ 'F' then some (c.toNat - 'A'.toNat + 10)
  else none

/-- `u32::from_str_radix` of hexadecimal digits. -/
def fromHex (s : Text) : Option UInt32 := do
  let n ← s.foldlM (fun n c => do
    let d ← hexValue c
    if n * 16 + d < 2 ^ 32 then some (n * 16 + d) else none) 0
  some (UInt32.ofNat n)

/-- `{:08x}` -/
def hex8 (n : UInt32) : Text :=
  (List.range 8).map fun i => Nat.digitChar (n.toNat / 16 ^ (7 - i) % 16)

section Keys

-- SHA-256
variable (sha256 : List UInt8 → List.Vector UInt8 32)

def keyHash (name : Text) (key : List UInt8) : UInt32 :=
  let d := sha256 (encode name ++ [byte '\n'] ++ key)
  fromBeBytes (d.get 0) (d.get 1) (d.get 2) (d.get 3)

def badId : Error := .BadVerifierKey "malformed verifier id"

def fromKey (vkey : Text) : Except Error Verifier := do
  let p := (splitOnce '+' vkey).getD (vkey, [])
  let q := (splitOnce '+' p.2).getD (p.2, [])
  refuse (q.1.length ≠ 8 ∨ (q.1.all fun c => (hexValue c).isSome) = false ∨
    validName p.1 = false) badId
  match fromHex q.1, base64DecodeStrict (encode q.2) with
  | some hash, some (alg :: publicKey) => do
    refuse (hash ≠ keyHash sha256 p.1 (alg :: publicKey))
      (.BadVerifierKey "key hash does not match the name and key")
    if alg = ALG_ED25519 then
      if h : publicKey.length = 32 then .ok ⟨p.1, hash, .Ed25519 ⟨publicKey, h⟩⟩ else .error badId
    else .error (.BadVerifierKey "unknown key algorithm")
  | _, _ => .error badId

def ed25519 (name : Text) (publicKey : List.Vector UInt8 32) : Except Error Verifier := do
  refuse (validName name = false) badId
  .ok ⟨name, keyHash sha256 name (ALG_ED25519 :: publicKey.toList), .Ed25519 publicKey⟩

end Keys

def keyString (v : Verifier) : Option Text :=
  match v.key with
  | .Ed25519 publicKey =>
    some (v.name ++ '+' :: (hex8 v.hash ++ '+' :: base64Encode (ALG_ED25519 :: publicKey.toList)))
  | .EcdsaP256 _ => none

/-! ## Splitting -/

lemma splitOnce_append {c : Char} {s t : Text} (h : c ∉ s) :
    splitOnce c (s ++ c :: t) = some (s, t) := by
  have hall : ∀ x ∈ s, decide (x ≠ c) = true := by
    intro x hx
    exact decide_eq_true fun heq => h (heq ▸ hx)
  rw [splitOnce, if_pos (mem_append_right s mem_cons_self), takeWhile_append_of_pos hall,
    dropWhile_append_of_pos hall, takeWhile_cons_of_neg (by simp),
    dropWhile_cons_of_neg (by simp), append_nil, tail_cons]

/-! ## Hexadecimal digits -/

lemma hexValue_digitChar {d : ℕ} (h : d < 16) :
    hexValue (Nat.digitChar d) = some d ∧ Nat.digitChar d ≠ '+' := by
  have hall : ∀ d < 16, hexValue (Nat.digitChar d) = some d ∧ Nat.digitChar d ≠ '+' := by decide
  exact hall d h

lemma hexValue_hex8 (n : UInt32) : ∀ c ∈ hex8 n, (hexValue c).isSome ∧ c ≠ '+' := by
  intro c hc
  obtain ⟨i, -, rfl⟩ := mem_map.1 hc
  obtain ⟨hvalue, hne⟩ := hexValue_digitChar (Nat.mod_lt (n.toNat / 16 ^ (7 - i)) (by omega))
  rw [hvalue]
  exact ⟨rfl, hne⟩

lemma fromHex_hex8 (n : UInt32) : fromHex (hex8 n) = some n := by
  have hn := n.toNat_lt
  have hstep : ∀ k ≤ 8, ((range k).map fun i => Nat.digitChar (n.toNat / 16 ^ (7 - i) % 16)).foldlM
      (fun n c => do
        let d ← hexValue c
        if n * 16 + d < 2 ^ 32 then some (n * 16 + d) else none)
          0 = some (n.toNat / 16 ^ (8 - k)) := by
    intro k hk
    induction k with
    | zero =>
      rw [show n.toNat / 16 ^ (8 - 0) = 0 from Nat.div_eq_of_lt (by omega)]
      rfl
    | succ k ih =>
      have hdigit := (hexValue_digitChar (Nat.mod_lt (n.toNat / 16 ^ (7 - k)) (by omega))).1
      have hnext : n.toNat / 16 ^ (8 - k) * 16 + n.toNat / 16 ^ (7 - k) % 16 =
          n.toNat / 16 ^ (8 - (k + 1)) := by
        rw [show 8 - k = 7 - k + 1 by omega, pow_succ, ← Nat.div_div_eq_div_mul,
          show 8 - (k + 1) = 7 - k by omega]
        omega
      have hlt : n.toNat / 16 ^ (8 - (k + 1)) < 2 ^ 32 := (Nat.div_le_self _ _).trans_lt hn
      rw [range_succ, map_append, foldlM_append, ih (by omega), map_singleton]
      show (do
        let m ← (do
          let d ← hexValue (Nat.digitChar (n.toNat / 16 ^ (7 - k) % 16))
          if n.toNat / 16 ^ (8 - k) * 16 + d < 2 ^ 32 then
            some (n.toNat / 16 ^ (8 - k) * 16 + d)
          else none)
        some m) = _
      rw [hdigit, Option.bind_eq_bind, Option.bind_some, hnext, if_pos hlt]
      rfl
  rw [fromHex, hex8, hstep 8 le_rfl, Option.bind_eq_bind, Option.bind_some, Nat.sub_self, pow_zero,
    Nat.div_one, UInt32.ofNat_toNat]

/-! ## A key is read back -/

section Keys

variable {sha256 : List UInt8 → List.Vector UInt8 32}

/-- What a key is that was made from a name and an Ed25519 key. -/
def Made (sha256 : List UInt8 → List.Vector UInt8 32) (v : Verifier) : Prop :=
  validName v.name = true ∧ ∃ publicKey : List.Vector UInt8 32, v.key = .Ed25519 publicKey ∧
    v.hash = keyHash sha256 v.name (ALG_ED25519 :: publicKey.toList)

lemma ed25519_made {name : Text} {publicKey : List.Vector UInt8 32} {v : Verifier}
    (h : ed25519 sha256 name publicKey = .ok v) : Made sha256 v := by
  obtain ⟨_, hname, h⟩ := except_bind_eq_ok.1 h
  obtain rfl := Except.ok.inj h
  exact ⟨Bool.eq_true_of_not_eq_false (refuse_eq_ok.1 hname), publicKey, rfl, rfl⟩

lemma fromKey_made {vkey : Text} {v : Verifier} (h : fromKey sha256 vkey = .ok v) :
    Made sha256 v := by
  obtain ⟨_, hid, h⟩ := except_bind_eq_ok.1 h
  have hname := refuse_eq_ok.1 hid
  split at h
  next hash alg publicKey _ _ =>
    obtain ⟨_, hhash, h⟩ := except_bind_eq_ok.1 h
    have hhash := not_not.1 (refuse_eq_ok.1 hhash)
    split at h
    next halg =>
      split at h
      next hlen =>
        obtain rfl := Except.ok.inj h
        refine ⟨?_, ⟨publicKey, hlen⟩, rfl, halg ▸ hhash⟩
        exact Bool.eq_true_of_not_eq_false fun hfalse => hname (.inr (.inr hfalse))
      · cases h
    · cases h
  · cases h

theorem from_key_key_string {v : Verifier} (h : Made sha256 v) :
    ∃ s, keyString v = some s ∧ fromKey sha256 s = .ok v := by
  obtain ⟨name, hash, key⟩ := v
  obtain ⟨hname, publicKey, hkey, hhash⟩ := h
  obtain rfl : key = .Ed25519 publicKey := hkey
  refine ⟨_, rfl, ?_⟩
  have hplus : '+' ∉ name := by
    intro hmem
    have hcontains : name.contains '+' = true := contains_iff_mem.2 hmem
    have hname : (!name.isEmpty && !name.contains '+' && !name.any Http1.isWhitespace) =
      true := hname
    rw [hcontains, Bool.not_true, Bool.and_false, Bool.false_and] at hname
    cases hname
  have hplus16 : '+' ∉ hex8 hash := fun hmem => (hexValue_hex8 hash _ hmem).2 rfl
  rw [fromKey]
  dsimp only
  rw [splitOnce_append hplus, Option.getD_some, splitOnce_append hplus16, Option.getD_some,
    refuse_bind_of_not, fromHex_hex8, base64_decode_encode]
  · dsimp only
    rw [refuse_bind_of_not (not_not.2 hhash), if_pos rfl]
    exact dif_pos publicKey.2
  · rw [not_or, not_or]
    refine ⟨not_not.2 ?_, ?_, ?_⟩
    · rw [hex8, length_map, length_range]
    · rw [Bool.not_eq_false, all_eq_true]
      exact fun c hc => (hexValue_hex8 hash c hc).1
    · rw [Bool.not_eq_false]
      exact hname

end Keys

def MAX_SIGNATURES : ℕ := 100

def SIG_PREFIX : Text := ['—', ' ']

/-- `ok_or(Error::MalformedNote)` -/
def found {α : Type} (x : Option α) : Except Error α :=
  match x with
  | some a => .ok a
  | none => .error .MalformedNote

/-! ## Signature lines -/

structure Line where
  line : Text
  signature : Signature
  raw : List UInt8
deriving DecidableEq

def parseLine (line : Text) : Except Error Line := do
  let line ← found (SIG_PREFIX.isPrefixOf? line)
  let p := (splitOnce ' ' line).getD (line, [])
  match base64DecodeStrict (encode p.2) with
  | some (b0 :: b1 :: b2 :: b3 :: b4 :: raw) =>
    if validName p.1 = false ∨ p.2 = [] then .error .MalformedNote
    else .ok ⟨line, ⟨p.1, fromBeBytes b0 b1 b2 b3, p.2⟩, b4 :: raw⟩
  | _ => .error .MalformedNote

def Signature.key (s : Signature) : Text × UInt32 := (s.name, s.hash)

def Verifier.id (v : Verifier) : Text × UInt32 := (v.name, v.hash)

/-- The known verifiers with the name and the key hash of a line. -/
def matching (known : List Verifier) (s : Signature) : List Verifier :=
  known.filter fun v => v.id = s.key

structure Reading where
  signatures : List Signature
  unverified : List Signature
  seen : List (Text × UInt32)
  seenUnverified : List Text
  count : ℕ
deriving DecidableEq

section Open

variable (verify : Verifier → List UInt8 → List UInt8 → Bool) (known : List Verifier) (text : Text)

local instance : LawfulBEq Text := inferInstance

def readLine (r : Reading) (line : Text) : Except Error Reading := do
  let l ← parseLine line
  let count := r.count + 1
  refuse (count > MAX_SIGNATURES) Error.MalformedNote
  match matching known l.signature with
  | [] =>
    if l.line ∈ r.seenUnverified then .ok { r with count := count }
    else
      .ok { r with
        seenUnverified := r.seenUnverified ++ [l.line]
        unverified := r.unverified ++ [l.signature]
        count := count }
  | [v] =>
    if l.signature.key ∈ r.seen then .ok { r with count := count }
    else if verify v (encode text) l.raw = false then
      .error (.InvalidSignature l.signature.name l.signature.hash)
    else
      .ok { r with
        seen := r.seen ++ [l.signature.key]
        signatures := r.signatures ++ [l.signature]
        count := count }
  | _ :: _ :: _ => .error (.AmbiguousKey l.signature.name l.signature.hash)

def readLines (sigs : Text) (r : Reading) : Except Error Reading :=
  if sigs = [] then .ok r
  else
    match _h : splitOnce '\n' sigs with
    | none => .error .MalformedNote
    | some p => do
      let r ← readLine verify known text r p.1
      readLines p.2 r
termination_by sigs.length
decreasing_by
  rw [splitOnce] at _h
  split at _h
  next hmem =>
    obtain rfl := Option.some.inj _h
    have hlen : (sigs.dropWhile (· ≠ '\n')).length ≤ sigs.length := List.length_dropWhile_le _ _
    have hpos : 0 < sigs.length := List.length_pos_of_mem hmem
    rw [List.length_tail]
    omega
  · cases _h

def noteOpen (msg : List UInt8) (known : List Verifier) : Except Error Note := do
  let all ← found (Utf8.decode msg)
  refuse ((all.any fun c => c < ' ' && c ≠ '\n') = true) Error.MalformedNote
  -- the signature block follows the last blank line
  let split ← found (rfind ['\n', '\n'] all)
  let text := all.take (split + 1)
  let sigs := all.drop (split + 2)
  refuse (sigs = [] ∨ sigs.getLast? ≠ some '\n') Error.MalformedNote
  let r ← readLines verify known text sigs ⟨[], [], [], [], 0⟩
  if r.signatures = [] then .error (.Unverified ⟨text, r.signatures, r.unverified⟩)
  else .ok ⟨text, r.signatures, r.unverified⟩

end Open

end Lazaret.Notes
