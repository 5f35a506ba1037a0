import Lazaret.Lib.BTreeMap
import Lazaret.Lib.Outcome
import Lazaret.Tuf.Json

/-!
# Reading signed metadata

What every kind of metadata of The Update Framework is read with (`tuf.rs`), up to the check that as
many distinct keys of a role as its threshold signed (`verify_role`).  The strict JSON reader, the
key formats with the signature checks and the digests are parameters (`Prims`).
-/

namespace Lazaret.Tuf

open Json (Value)

inductive Error
  | Json (e : Json.Error)
  | Malformed (m : String)
  | Unsupported (m : String)
  | Signature (role : String) (verified threshold : ℕ)
  | Version (role : String) (expected got : ℕ)
  | Rollback (m : String)
  | Expired (role : String) (expires : ℤ)
  | LengthOrHash (m : String)
  | NotFound (p : String)
  | State (m : String)
  | Fetch (m : String)
deriving DecidableEq

def malformed {α : Type} (path what : String) : Except Error α :=
  .error (.Malformed s!"{path}: {what}")

inductive HashAlg
  | Sha256
  | Sha384
  | Sha512
deriving DecidableEq

/-- What the metadata is read and checked with: the strict JSON reader (`json::parse`), the key a
key type, a scheme and a text make, with its identity (`material`), the signature check of such a
key, the digests, and Rust's `{:?}` of a text. -/
structure Prims (M : Type) where
  json : List UInt8 → Except Json.Error Value
  material : String → String → String → Option (M × List UInt8)
  verify : M → List UInt8 → List UInt8 → Bool
  digest : HashAlg → List UInt8 → List UInt8
  debug : String → String

def utf8 (s : String) : List UInt8 := s.toUTF8.data.toList

def hex (data : List UInt8) : String :=
  let digit (n : ℕ) : Char := "0123456789abcdef".toList.getD n '0'
  String.ofList (data.flatMap fun b => [digit (b.toNat / 16), digit (b.toNat % 16)])

def isHexDigit (b : UInt8) : Bool :=
  (48 ≤ b ∧ b ≤ 57) ∨ (97 ≤ b ∧ b ≤ 102) ∨ (65 ≤ b ∧ b ≤ 70)

def unhex : List UInt8 → List UInt8
  | a :: b :: rest => UInt8.ofNat (value a * 16 + value b) :: unhex rest
  | _ => []
where
  value (b : UInt8) : ℕ :=
    if b ≤ 57 then b.toNat - 48 else if 97 ≤ b then b.toNat - 87 else b.toNat - 55

/-! ## Canonical JSON -/

def writeString (s : String) : List UInt8 :=
  [34] ++ (utf8 s).flatMap (fun b => if b = 34 ∨ b = 92 then [92, b] else [b]) ++ [34]

/-- Takes the first error of a list of results, or all of the values. -/
def sequence {α : Type} : List (Except Error α) → Except Error (List α)
  | [] => .ok []
  | x :: xs => do
    let a ← x
    let as ← sequence xs
    .ok (a :: as)

mutual

/-- `write_canonical`: no white space, members sorted by name, integers in decimal. -/
def canonicalJson : Value → Except Error (List UInt8)
  | .null => .ok (utf8 "null")
  | .bool true => .ok (utf8 "true")
  | .bool false => .ok (utf8 "false")
  | .number n =>
    if n.isInteger then .ok (utf8 (if n.text = "-0" then "0" else n.text))
    else .error (.Malformed
      s!"the number {n.text} is not an integer, which canonical JSON cannot write")
  | .string s => .ok (writeString s)
  | .array a => do
    let items ← sequence (canonicalItems a)
    .ok ([91] ++ List.intercalate [44] items ++ [93])
  | .object o => do
    let sorted := (canonicalMembers o).insertionSort fun a b => a.1 ≤ b.1
    let members ← sequence (sorted.map fun m => m.2.map (writeString m.1 ++ [58] ++ ·))
    .ok ([123] ++ List.intercalate [44] members ++ [125])

def canonicalItems : List Value → List (Except Error (List UInt8))
  | [] => []
  | v :: vs => canonicalJson v :: canonicalItems vs

/-- What the value of each member of an object is written as. -/
def canonicalMembers : List (String × Value) → List (String × Except Error (List UInt8))
  | [] => []
  | (n, v) :: ms => (n, canonicalJson v) :: canonicalMembers ms

end

/-! ## Fields -/

def text (v : Value) (name path : String) : Except Error String :=
  match v.get name with
  | some (.string s) => .ok s
  | some _ => malformed s!"{path}.{name}" "not a string"
  | none => malformed s!"{path}.{name}" "missing"

def object (v : Value) (name path : String) : Except Error Json.Object :=
  match v.get name with
  | some (.object o) => .ok o
  | some _ => malformed s!"{path}.{name}" "not an object"
  | none => malformed s!"{path}.{name}" "missing"

def array (v : Value) (name path : String) : Except Error (List Value) :=
  match v.get name with
  | some (.array a) => .ok a
  | some _ => malformed s!"{path}.{name}" "not an array"
  | none => malformed s!"{path}.{name}" "missing"

/-- `integer`: a JSON integer (not a string of digits), at least `min`. -/
def integer (v : Value) (name path : String) (min : ℕ) : Except Error ℕ :=
  match v.get name with
  | some (.number n) =>
    match n.asU64 with
    | some x => if min ≤ x then .ok x
        else malformed s!"{path}.{name}" s!"not an integer of at least {min}"
    | none => malformed s!"{path}.{name}" s!"not an integer of at least {min}"
  | some _ => malformed s!"{path}.{name}" "not a number"
  | none => malformed s!"{path}.{name}" "missing"

def strings (v : Value) (path : String) : Except Error (List String) :=
  match v.asArray with
  | none => malformed path "not an array"
  | some a => a.zipIdx.mapM fun (s, i) =>
    match s.asStr with
    | some s => .ok s
    | none => malformed s!"{path}[{i}]" "not a string"

/-- `asn1::days_from_civil`: the days from 1970-01-01 to a date. -/
def daysFromCivil (y m d : ℤ) : ℤ :=
  let y := if m ≤ 2 then y - 1 else y
  let era := (if 0 ≤ y then y else y - 399).tdiv 400
  let yoe := y - era * 400
  let mp := (m + 9).tmod 12
  let doy := (153 * mp + 2).tdiv 5 + d - 1
  let doe := yoe * 365 + yoe.tdiv 4 - yoe.tdiv 100 + doy
  era * 146097 + doe - 719468

def isDigit (b : UInt8) : Bool := 48 ≤ b ∧ b ≤ 57

/-- The number that `n` digits make from a place on. -/
def digitsAt (b : List UInt8) (start n : ℕ) : Option ℤ :=
  let part := (b.drop start).take n
  if part.length = n ∧ part.all isDigit then
    some (part.foldl (fun a c => a * 10 + (c.toNat - 48 : ℤ)) 0)
  else none

/-- The offset of a zone, in seconds: `Z`, or `+hh:mm` or `-hh:mm`. -/
def zoneAt (b : List UInt8) (i : ℕ) : Option ℤ :=
  let rest := b.drop i
  if rest = [90] then some 0
  else if rest.length = 6 ∧ (rest[0]? = some 43 ∨ rest[0]? = some 45) ∧ rest[3]? = some 58 then do
    let h ← digitsAt b (i + 1) 2
    let m ← digitsAt b (i + 4) 2
    if h > 23 ∨ m > 59 then none
    else
      let o := h * 3600 + m * 60
      some (if rest[0]? = some 45 then -o else o)
  else none

/-- `parse_rfc3339`: the whole seconds since 1970-01-01 UTC and the nanoseconds of the fraction. -/
def parseRfc3339 (s : String) : Option (ℤ × ℤ) :=
  let b := utf8 s
  if b.length < 20 ∨ b[4]? ≠ some 45 ∨ b[7]? ≠ some 45 ∨ b[10]? ≠ some 84 ∨ b[13]? ≠ some 58 ∨
      b[16]? ≠ some 58 then none
  else do
    let year ← digitsAt b 0 4
    let month ← digitsAt b 5 2
    let day ← digitsAt b 8 2
    let hour ← digitsAt b 11 2
    let minute ← digitsAt b 14 2
    let second ← digitsAt b 17 2
    if year < 1 ∨ ¬ (1 ≤ month ∧ month ≤ 12) ∨ day < 1 ∨ hour > 23 ∨ minute > 59 ∨
        second > 59 then none
    else
      let leap := year % 4 = 0 ∧ (year % 100 ≠ 0 ∨ year % 400 = 0)
      let daysInMonth := if month = 2 then (if leap then 29 else 28)
        else if month = 4 ∨ month = 6 ∨ month = 9 ∨ month = 11 then 30 else 31
      if day > daysInMonth then none
      else do
        let (nanos, stop) ← if b[19]? = some 46 then
            let n := ((b.drop 20).takeWhile isDigit).length
            if n = 0 ∨ n > 9 then none
            else (digitsAt b 20 n).map fun x => (x * 10 ^ (9 - n), 20 + n)
          else some (0, 19)
        let offset ← zoneAt b stop
        some (daysFromCivil year month day * 86400 + hour * 3600 + minute * 60 + second - offset,
          nanos)

def expires (v : Value) (path : String) : Except Error ℤ := do
  let s ← text v "expires" path
  let b := utf8 s
  if b.length ≠ 20 ∨ b[19]? ≠ some 90 then
    malformed s!"{path}.expires" "not of the form YYYY-MM-DDTHH:MM:SSZ"
  else match parseRfc3339 s with
    | some (t, 0) => .ok t
    | _ => malformed s!"{path}.expires" "not a date and time"

structure Common where
  spec_version : String
  version : ℕ
  /-- When it expires, Unix seconds: it is expired from that second on. -/
  expires : ℤ
deriving DecidableEq

/-! ## The envelope -/

/-- Metadata as it arrived: the `signed` value, its canonical bytes, and the signatures by key
id. -/
structure Envelope where
  signed : Value
  payload : List UInt8
  signatures : List (String × List UInt8)

/-- The keys a role may sign with, and how many must. -/
structure RoleKeys where
  keyids : List String
  threshold : ℕ
deriving DecidableEq

/-- `role_keys`: no key id twice, and a threshold of at least 1. -/
def roleKeys (v : Value) (path : String) : Except Error RoleKeys := do
  let keyids ← strings ((v.get "keyids").getD .null) s!"{path}.keyids"
  match (keyids.zipIdx.find? fun (k, i) => k ∈ keyids.take i) with
  | some (k, _) => malformed s!"{path}.keyids" s!"{k} twice"
  | none => .ok ⟨keyids, ← integer v "threshold" path 1⟩

/-- The loop over the signatures: hexadecimal, and none by a key id that signed before. -/
def signatures : List (Value × ℕ) → List (String × List UInt8) →
    Except Error (List (String × List UInt8))
  | [], sigs => .ok sigs
  | (s, i) :: rest, sigs => do
    let path := s!"$.signatures[{i}]"
    if s.asObject.isNone then malformed path "not an object"
    else
      let keyid ← text s "keyid" path
      let sig ← text s "sig" path
      if (utf8 sig).length % 2 ≠ 0 ∨ ¬ (utf8 sig).all isHexDigit then
        malformed s!"{path}.sig" "not hex"
      else if sigs.any fun e => e.1 = keyid then
        malformed path s!"a second signature by key id {keyid}"
      else signatures rest (sigs ++ [(keyid, unhex (utf8 sig))])

variable {M : Type} (P : Prims M)

/-- `common`: the fields every kind of metadata has, of metadata of that kind. -/
def common (signed : Value) (kind : String) : Except Error Common := do
  let path := "signed"
  if signed.asObject.isNone then malformed path "not an object"
  else
    let t ← text signed "_type" path
    if t ≠ kind then malformed s!"{path}._type" s!"is {P.debug t}, expected {P.debug kind}"
    else
      let spec_version ← text signed "spec_version" path
      let parts := spec_version.toList.splitOn '.'
      if ¬ (2 ≤ parts.length ∧ parts.length ≤ 3) ∨
          ¬ parts.all (fun p => p ≠ [] ∧ p.all Char.isDigit) then
        malformed s!"{path}.spec_version" s!"{P.debug spec_version} is not a version"
      else if parts.head? ≠ some ['1'] then
        .error (.Unsupported s!"specification version {spec_version}")
      else
        let version ← integer signed "version" path 1
        .ok ⟨spec_version, version, ← expires signed path⟩

/-- `envelope`: reads the bytes of a metadata file. -/
def envelope (bytes : List UInt8) : Except Error Envelope := do
  let doc ← (P.json bytes).mapError .Json
  if doc.asObject.isNone then malformed "$" "not an object"
  else match doc.get "signed" with
    | none => malformed "$.signed" "missing"
    | some signed => do
      let sigs ← signatures (← array doc "signatures" "$").zipIdx []
      .ok ⟨signed, ← canonicalJson signed, sigs⟩

/-! ## Keys -/

/-- A public key of TUF metadata: `keytype` and `scheme` as written, and the key with what tells it
apart from other keys whatever ids it goes by; none for a key that is not verified with. -/
structure Key (M : Type) where
  keytype : String
  scheme : String
  material : Option (M × List UInt8)

namespace Key

def parse (v : Value) (path : String) : Except Error (Key M) := do
  let keytype ← text v "keytype" path
  let scheme ← text v "scheme" path
  match (v.get "keyval").filter fun k => k.asObject.isSome with
  | none => malformed path "no keyval object"
  | some keyval =>
    let pub := (keyval.get "public").bind Value.asStr
    .ok ⟨keytype, scheme, pub.bind (P.material keytype scheme)⟩

def identity (k : Key M) : Option (List UInt8) := k.material.map Prod.snd

/-- Whether a signature of a message is one by the key: never for a key without material. -/
def verify (k : Key M) (message signature : List UInt8) : Bool :=
  match k.material with
  | some (m, _) => P.verify m message signature
  | none => false

variable {P}

end Key

def keys (o : Json.Object) (path : String) : Except Error (BTreeMap String (Key M)) := do
  let ks ← o.mapM fun (id, k) => do .ok (id, ← Key.parse P k s!"{path}.{id}")
  .ok (ks.foldl (fun m e => m.insert e.1 e.2) BTreeMap.empty)

/-- The identity of the key with that id, if it signed (it has one: `Key.identity_of_verify`). -/
def goodKey (keys : BTreeMap String (Key M)) (env : Envelope) (keyid : String) :
    Option (List UInt8) :=
  (keys.get keyid).bind fun key =>
    (env.signatures.find? fun e => e.1 = keyid).bind fun sig =>
      if key.verify P env.payload sig.2 then key.identity else none

/-- The identity of a key that signed is listed once. -/
def listed (good : List (List UInt8)) : Option (List UInt8) → List (List UInt8)
  | some id => if good.any (· = id) then good else good ++ [id]
  | none => good

/-- The loop of `verify_role`: the identities of the keys that signed, each once. -/
def goodKeys (keys : BTreeMap String (Key M)) (env : Envelope) :
    List String → List (List UInt8) → List (List UInt8)
  | [], good => good
  | keyid :: rest, good => goodKeys keys env rest (listed good (goodKey P keys env keyid))

/-- `verify_role`: checks that distinct keys of the role, as many as its threshold, signed. -/
def verifyRole (name : String) (keys : BTreeMap String (Key M)) (role : RoleKeys)
    (env : Envelope) : Except Error Unit :=
  let good := goodKeys P keys env role.keyids []
  if good.length < role.threshold then .error (.Signature name good.length role.threshold)
  else .ok ()

end Lazaret.Tuf
