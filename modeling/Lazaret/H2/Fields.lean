import Lazaret.H2.Frame

/-!
# Header lists of requests and responses

The header list a request is sent with, and the checks and the taking apart of the header list of a
response and of its trailers (the last part of `http/h2/connection.rs`).  A string of the source is
its UTF-8 bytes.
-/

namespace Lazaret.H2

open Hpack (Field FieldRef)

abbrev Fields := List (Bytes × Bytes)

/-! ### Strings -/

def isAsciiLowercase (b : UInt8) : Bool := 97 ≤ b && b ≤ 122

def isAsciiUppercase (b : UInt8) : Bool := 65 ≤ b && b ≤ 90

def isAsciiDigit (b : UInt8) : Bool := 48 ≤ b && b ≤ 57

def toAsciiLowercase (s : Bytes) : Bytes := s.map fun b => if isAsciiUppercase b then b + 32 else b

def eqIgnoreAsciiCase (s t : Bytes) : Bool := toAsciiLowercase s = toAsciiLowercase t

def isContinuation (b : UInt8) : Bool := 0x80 ≤ b && b ≤ 0xbf

/-- The second byte of a character of three or four bytes, by the first. -/
def isSecond (first b : UInt8) : Bool :=
  if first = 0xe0 then 0xa0 ≤ b && b ≤ 0xbf
  else if first = 0xed then 0x80 ≤ b && b ≤ 0x9f
  else if first = 0xf0 then 0x90 ≤ b && b ≤ 0xbf
  else if first = 0xf4 then 0x80 ≤ b && b ≤ 0x8f
  else isContinuation b

/-- The length of the character that starts with `first`, or of what is wrong in its place, and
which of the two it is. -/
def utf8Char (first : UInt8) (rest : Bytes) : ℕ × Bool :=
  if first < 0x80 then (1, true)
  else if 0xc2 ≤ first && first ≤ 0xdf then
    if isContinuation (rest.getD 0 0) then (2, true) else (1, false)
  else if 0xe0 ≤ first && first ≤ 0xef then
    if !isSecond first (rest.getD 0 0) then (1, false)
    else if !isContinuation (rest.getD 1 0) then (2, false)
    else (3, true)
  else if 0xf0 ≤ first && first ≤ 0xf4 then
    if !isSecond first (rest.getD 0 0) then (1, false)
    else if !isContinuation (rest.getD 1 0) then (2, false)
    else if !isContinuation (rest.getD 2 0) then (3, false)
    else (4, true)
  else (1, false)

/-- `String::from_utf8_lossy`: what is no UTF-8 becomes U+FFFD. -/
def fromUtf8Lossy : Bytes → Bytes
  | [] => []
  | first :: rest =>
    let (n, valid) := utf8Char first rest
    (if valid then (first :: rest).take n else [0xef, 0xbf, 0xbd]) ++
      fromUtf8Lossy (rest.drop (n - 1))
termination_by s => s.length
decreasing_by
  rw [List.length_drop, List.length_cons]
  omega

/-- A string without the bytes at its ends that `p` holds of. -/
def trimMatches (p : UInt8 → Bool) (s : Bytes) : Bytes :=
  (s.dropWhile p).reverse.dropWhile p |>.reverse

/-- The characters that `str::trim` takes away, as UTF-8. -/
def WHITESPACE : List Bytes := [[0x09], [0x0a], [0x0b], [0x0c], [0x0d], [0x20], [0xc2, 0x85],
  [0xc2, 0xa0], [0xe1, 0x9a, 0x80], [0xe2, 0x80, 0x80], [0xe2, 0x80, 0x81], [0xe2, 0x80, 0x82],
  [0xe2, 0x80, 0x83], [0xe2, 0x80, 0x84], [0xe2, 0x80, 0x85], [0xe2, 0x80, 0x86],
  [0xe2, 0x80, 0x87], [0xe2, 0x80, 0x88], [0xe2, 0x80, 0x89], [0xe2, 0x80, 0x8a],
  [0xe2, 0x80, 0xa8], [0xe2, 0x80, 0xa9], [0xe2, 0x80, 0xaf], [0xe2, 0x81, 0x9f],
  [0xe3, 0x80, 0x80]]

/-- A string without the characters of `ws` it starts with; at most `n` of them. -/
def trimStart (ws : List Bytes) : ℕ → Bytes → Bytes
  | 0, s => s
  | n + 1, s =>
    match ws.find? (·.isPrefixOf s) with
    | some w => trimStart ws n (s.drop w.length)
    | none => s

def trim (s : Bytes) : Bytes :=
  let s := trimStart WHITESPACE s.length s
  (trimStart (WHITESPACE.map List.reverse) s.length s.reverse).reverse

/-! ### Requests -/

def CONNECTION_SPECIFIC : List Bytes :=
  ["connection", "keep-alive", "proxy-connection", "transfer-encoding", "upgrade"].map asBytes

def SENSITIVE : List Bytes := ["authorization", "cookie", "proxy-authorization"].map asBytes

/-- The characters of a token besides letters and digits. -/
def TOKEN_MARKS : Bytes := asBytes "!#$%&'*+-.^_" ++ [96] ++ asBytes "|~"

def isNameByte (b : UInt8) : Bool := isAsciiLowercase b || isAsciiDigit b || TOKEN_MARKS.contains b

def validName (name : Bytes) : Bool := !name.isEmpty && name.all isNameByte

def validValue (value : Bytes) : Bool := !value.any fun b => b == 0 || b == 13 || b == 10

def isTokenByte (b : UInt8) : Bool := isNameByte b || isAsciiUppercase b

structure Request where
  method : Bytes
  scheme : Bytes
  /-- What `Host` would have been. -/
  authority : Bytes
  path : Bytes
  headers : Fields
  /-- Names of the fields whose values are secrets, besides those of `SENSITIVE`. -/
  secret : List Bytes
deriving DecidableEq

/-- Why a request cannot be sent as HTTP/2; the source writes each as a sentence. -/
inductive Invalid where
  /-- An empty or damaged method, scheme, path or authority. -/
  | Pseudo
  | Method (method : Bytes)
  | Name (name : Bytes)
  /-- The value of this header has a NUL, CR or LF. -/
  | Value (name : Bytes)
  /-- The header list is this large, and the server takes so much. -/
  | ListSize (size max : ℕ)
deriving DecidableEq

def lowerNames (headers : Fields) : Fields := headers.map fun f => (toAsciiLowercase f.1, f.2)

/-- The loop of `request_fields` over the fields that are not pseudo-headers. -/
def requestFieldsFrom (secret : List Bytes) : Fields → Except Invalid (List FieldRef)
  | [] => .ok []
  | (name, value) :: fields =>
    if !validName name then .error (.Name name)
    else if !validValue value then .error (.Value name)
    else do
      let rest ← requestFieldsFrom secret fields
      -- the authority says what `host` did
      if CONNECTION_SPECIFIC.contains name || name == asBytes "host" ||
          (name == asBytes "te" && !eqIgnoreAsciiCase (trim value) (asBytes "trailers")) then
        .ok rest
      else .ok (⟨name, value, SENSITIVE.contains name || secret.contains name⟩ :: rest)

/-- The header list of a request: the pseudo-headers, then the other fields without the
connection-specific ones. -/
def requestFields (r : Request) (lowered : Fields) : Except Invalid (List FieldRef) :=
  let list : List FieldRef := [⟨asBytes ":method", r.method, false⟩,
    ⟨asBytes ":scheme", r.scheme, false⟩, ⟨asBytes ":authority", r.authority, false⟩,
    ⟨asBytes ":path", r.path, false⟩]
  if r.method.isEmpty || r.path.isEmpty || r.authority.isEmpty || r.scheme.isEmpty ||
      !list.all fun f => validValue f.value then .error .Pseudo
  else if !r.method.all isTokenByte then .error (.Method r.method)
  else do
    let fields ← requestFieldsFrom r.secret lowered
    .ok (list ++ fields)

/-! ### Responses -/

def parseStatus (value : Bytes) : Except String ℕ :=
  match value with
  | [a, b, c] =>
    if value.all isAsciiDigit then
      let code := (a.toNat - 48) * 100 + (b.toNat - 48) * 10 + (c.toNat - 48)
      if code < 100 then .error ":status is below 100" else .ok code
    else .error ":status is not three digits"
  | _ => .error ":status is not three digits"

/-- The number of a Content-Length, which has 64 bits. -/
def parseLength (value : Bytes) : Except String ℕ :=
  if value.isEmpty || !value.all isAsciiDigit then .error "a Content-Length that is not a number"
  else
    let n := value.foldl (fun n b => n * 10 + (b.toNat - 48)) 0
    if n ≥ 2 ^ 64 then .error "a Content-Length that is too large" else .ok n

/-- A regular field of a response: the name lower case and a token, and not connection-specific;
the value without NUL, CR or LF, and without the spaces around it. -/
def regularField (f : Field) : Except String (Bytes × Bytes) :=
  if !f.name.all isNameByte || f.name.isEmpty then
    .error "a header field name that is not lower case token characters"
  else if CONNECTION_SPECIFIC.contains f.name then
    .error "a connection-specific header field in a response"
  else if !validValue f.value then .error "a header field value with a NUL, CR or LF"
  else .ok (f.name, trimMatches (fun b => b == 32 || b == 9) (fromUtf8Lossy f.value))

/-- What `parse_response` has of a response. -/
structure Parsed where
  status : Option ℕ
  seen_regular : Bool
  headers : Fields
  length : Option ℕ
deriving DecidableEq

def fieldLength (length : Option ℕ) (name value : Bytes) : Except String (Option ℕ) :=
  if name = asBytes "content-length" then do
    let n ← parseLength value
    if length.isSome && length != some n then .error "Content-Length twice, with different values"
    else .ok (some n)
  else .ok length

/-- One turn of the loop of `parse_response`. -/
def parseField (p : Parsed) (f : Field) : Except String Parsed :=
  if f.name.head? = some 58 then
    if p.seen_regular then .error "a pseudo-header after a regular header field"
    else if f.name ≠ asBytes ":status" then .error "a pseudo-header that a response may not have"
    else if p.status.isSome then .error "more than one :status"
    else do
      let status ← parseStatus f.value
      .ok { p with status := some status }
  else do
    let (name, value) ← regularField f
    let length ← fieldLength p.length name value
    .ok { p with seen_regular := true, headers := p.headers ++ [(name, value)], length := length }

/-- Checks and takes apart the header list of a response: the status, the fields, and the
Content-Length if there is one. -/
def parseResponse (fields : List Field) : Except String (ℕ × Fields × Option ℕ) := do
  let p ← fields.foldlM parseField ⟨none, false, [], none⟩
  match p.status with
  | some code => .ok (code, p.headers, p.length)
  | none => .error "a response without :status"

/-- Checks and takes apart a trailer section: no pseudo-headers. -/
def parseTrailers (fields : List Field) : Except String Fields :=
  fields.mapM fun f =>
    if f.name.head? = some 58 then .error "a pseudo-header in trailers" else regularField f

end Lazaret.H2
