import Lazaret.Lib.Domain
import Lazaret.X509.Certificate
import Mathlib.Data.List.DropRight

/-!
# Matching names

A host against the patterns of a subjectAltName (`dns_pattern_matches`, `matches_hostname`), and the
names of every certificate below a CA against its constraints (`check_name_constraints`), all of
`x509.rs`.  A pattern may begin with a wildcard label and a constraint with a dot, and a constraint
is applied to the pattern itself.
-/

namespace Lazaret.X509

/-! ## Addresses -/

def digit (radix : ℕ) (c : Char) : Option ℕ :=
  let v :=
    if '0' ≤ c ∧ c ≤ '9' then c.toNat - '0'.toNat
    else if 'a' ≤ c ∧ c ≤ 'f' then c.toNat - 'a'.toNat + 10
    else if 'A' ≤ c ∧ c ≤ 'F' then c.toNat - 'A'.toNat + 10
    else radix
  if v < radix then some v else none

/-- `read_number`: the digits at the start, at least one, at most `maxDigits`, below `bound`; a
number written with a leading zero only where that is allowed. -/
def readNumber (radix maxDigits bound : ℕ) (zeroPrefix : Bool) (s : Text) : Option (ℕ × Text) :=
  let digits := s.takeWhile fun c => (digit radix c).isSome
  let value := (digits.filterMap (digit radix)).foldl (fun n d => n * radix + d) 0
  if digits = [] ∨ maxDigits < digits.length ∨ bound ≤ value then none
  else if digits.head? = some '0' ∧ 1 < digits.length ∧ zeroPrefix = false then none
  else some (value, s.drop digits.length)

/-- `read_given_char`. -/
def readChar (c : Char) : Text → Option Text
  | a :: s => if a = c then some s else none
  | [] => none

/-- `read_separator`: the separator comes before every part but the first. -/
def readSeparator (c : Char) (index : ℕ) (s : Text) : Option Text :=
  if 0 < index then readChar c s else some s

def readIpv4 (s : Text) : Option (List UInt8 × Text) := do
  let (a, s) ← readNumber 10 3 256 false s
  let (b, s) ← (readChar '.' s).bind (readNumber 10 3 256 false)
  let (c, s) ← (readChar '.' s).bind (readNumber 10 3 256 false)
  let (d, s) ← (readChar '.' s).bind (readNumber 10 3 256 false)
  pure ([a, b, c, d].map UInt8.ofNat, s)

def groupBytes (g : ℕ) : List UInt8 := [UInt8.ofNat (g / 256), UInt8.ofNat (g % 256)]

/-- `read_groups`: at most `left` more groups after `index` of them, the last two of which may be
written as an IPv4 address; their bytes, and whether they ended in such an address. -/
def readGroups : ℕ → ℕ → Text → List UInt8 × Bool × Text
  | 0, _, s => ([], false, s)
  | left + 1, index, s =>
    match if 0 < left then (readSeparator ':' index s).bind readIpv4 else none with
    | some (octets, rest) => (octets, true, rest)
    | none =>
      match (readSeparator ':' index s).bind (readNumber 16 4 65536 true) with
      | some (g, rest) =>
        let (bytes, v4, rest) := readGroups left (index + 1) rest
        (groupBytes g ++ bytes, v4, rest)
      | none => ([], false, s)

/-- `read_ipv6_addr`: eight groups, or fewer around a `::`. -/
def readIpv6 (s : Text) : Option (List UInt8 × Text) :=
  let (head, v4, rest) := readGroups 8 0 s
  if head.length = 16 then some (head, rest)
  else if v4 then none
  else do
    let rest ← (readChar ':' rest).bind (readChar ':')
    let (tail, _, rest) := readGroups (8 - (head.length / 2 + 1)) 0 rest
    pure (head ++ List.replicate (16 - head.length - tail.length) 0 ++ tail, rest)

def whole (x : Option (List UInt8 × Text)) : Option (List UInt8) :=
  match x with
  | some (octets, []) => some octets
  | _ => none

def parseIp (s : Text) : Option (List UInt8) :=
  whole ((readIpv4 s).or (readIpv6 s))

/-! ## Host names -/

/-- `without_trailing_dot`: a name without the one dot that writes it as fully qualified. -/
def withoutTrailingDot (host : Text) : Text :=
  if host.getLast? = some '.' then host.dropLast else host

def normalizeHost (host : Text) : Text := lowercase (withoutTrailingDot host)

/-- What comes before the first dot of a name, and what comes after it. -/
def splitLabel (host : Text) : Text × Option Text :=
  (host.takeWhile (· ≠ '.'), (host.dropWhile (· ≠ '.')).tail?)

/-- `strip_prefix` of a wildcard label. -/
def wildcardBase : Text → Option Text
  | '*' :: '.' :: base => some base
  | _ => none

/-- The wildcard arm of `dns_pattern_matches`: the wildcard is the whole left-most label and stands
for one label. -/
def wildcardMatches (base host : Text) : Bool :=
  if '*' ∈ base ∨ '.' ∉ base then false
  else match splitLabel host with
    | (first, some rest) => first ≠ [] ∧ eqIgnoreCase rest base
    | (_, none) => false

def dnsPatternMatches (pattern host : Text) : Bool :=
  let pattern := withoutTrailingDot pattern
  if pattern = [] ∨ host = [] ∨ isAscii pattern = false ∨ isAscii host = false then false
  else if '*' ∉ pattern then eqIgnoreCase pattern host
  else match wildcardBase pattern with
    | none => false
    | some base => wildcardMatches base host

def Certificate.matchesHostname (c : Certificate) (host : Text) : Bool :=
  match parseIp host with
  | some octets => c.ipAddrs.any (· = octets)
  | none => c.dnsNames.any fun p => dnsPatternMatches p (normalizeHost host)

/-! ## One constraint and one name -/

def dnsConstraintMatches (constraint host : Text) : Bool :=
  match constraint with
  | [] => true
  | '.' :: suffix => '.' :: suffix <:+ host
  | c :: rest => host = c :: rest ∨ '.' :: c :: rest <:+ host

/-- `rsplit_once`: what comes before the last such character, and what comes after it. -/
def rsplitOnce (c : Char) (s : Text) : Option (Text × Text) :=
  let after := s.rtakeWhile (· ≠ c)
  if c ∈ s then some (s.take (s.length - after.length - 1), after) else none

/-- A domain with a leading dot covers what ends in it, another one itself, in any case. -/
def domainMatches (constraint domain : Text) : Bool :=
  if constraint.head? = some '.' then
    constraint.length < domain.length ∧
      eqIgnoreCase (domain.drop (domain.length - constraint.length)) constraint
  else eqIgnoreCase domain constraint

def uriHostMatches (constraint host : Text) : Bool :=
  constraint = [] ∨ domainMatches constraint host

/-- What follows the `://` of a URI. -/
def afterScheme : Text → Option Text
  | ':' :: '/' :: '/' :: rest => some rest
  | _ :: rest => afterScheme rest
  | [] => none

/-- `uri_host`: the host name in the authority of a URI. -/
def uriHost (uri : Text) : Option Text := do
  let rest ← afterScheme uri
  let authority := rest.takeWhile fun c => c ≠ '/' ∧ c ≠ '?' ∧ c ≠ '#'
  let authority := ((rsplitOnce '@' authority).map Prod.snd).getD authority
  let host := authority.takeWhile (· ≠ ':')
  if authority.head? = some '[' ∨ host = [] ∨ (parseIp host).isSome then none else some host

/-- `email_constraint_matches`, for a mailbox taken apart. -/
def mailboxMatches (constraint localPart domain : Text) : Bool :=
  match rsplitOnce '@' constraint with
  | some (cLocal, cDomain) => localPart = cLocal ∧ eqIgnoreCase domain cDomain
  | none => domainMatches constraint domain

/-- `email_constraint_matches`: the dot at the end of the domain of a mailbox does not count. -/
def emailConstraintMatches (constraint mailbox : Text) : Bool :=
  constraint = [] ∨
    (rsplitOnce '@' mailbox).any fun e => mailboxMatches constraint e.1 (withoutTrailingDot e.2)

/-- `ip_constraint_matches`: an address and a mask of the same length. -/
def ipConstraintMatches (constraint ip : List UInt8) : Bool :=
  constraint.length = ip.length * 2 ∧
    (ip.zip ((constraint.take ip.length).zip (constraint.drop ip.length))).all
      fun e => e.1 &&& e.2.2 = e.2.1 &&& e.2.2

/-- `constraint_covers`: whether a name is within a constraint, or `none` if the constraint is about
another kind of name. -/
def constraintCovers (c : Constraint) (name : GeneralName) : Option Bool :=
  match c, name with
  | .Dns c, .Dns n => some (dnsConstraintMatches c (withoutTrailingDot n))
  | .Email c, .Email n => some (emailConstraintMatches c n)
  | .Uri c, .Uri n =>
    some (c = [] ∨ (uriHost n).any fun h => uriHostMatches c (withoutTrailingDot h))
  | .Ip c, .Ip n => some (ipConstraintMatches c n)
  | _, _ => none

/-! ## The constraints of a CA -/

variable (P : Prims)

def nameLabel (name : GeneralName) : String :=
  match name with
  | .Dns n => s!"DNS name {P.debug n}"
  | .Email n => s!"e-mail address {P.debug n}"
  | .Uri n => s!"URI {P.debug n}"
  | .Ip b => if b.length = 4 ∨ b.length = 16 then s!"IP address {P.ipText b}" else "IP address"
  | _ => "name"

/-- `check_one_name`: no constraint of its kind that is not supported, none that excludes it, and
one that permits it if any of its kind does. -/
def checkOneName (ca : Certificate) (nc : NameConstraints) (name : GeneralName) :
    Except Error Unit :=
  if nc.constraints.any fun c => c = .Unsupported name.tag then
    pathErr ca s!"{nameLabel P name} is under a name constraint of a kind that is not supported, in"
  else if nc.excluded.any fun c => constraintCovers c name = some true then
    pathErr ca s!"{nameLabel P name} is excluded by a name constraint of"
  else if (nc.permitted.any fun c => (constraintCovers c name).isSome) ∧
      ¬ nc.permitted.any fun c => constraintCovers c name = some true then
    pathErr ca s!"{nameLabel P name} is not permitted by name constraints of"
  else .ok ()

/-- A name that was left out is under no constraint of its kind. -/
def checkDropped (ca : Certificate) (nc : NameConstraints) (kind : UInt8) : Except Error Unit :=
  if nc.constraints.any fun c => c.kind = kind then
    pathErr ca "a name that cannot be read is under a name constraint of its kind, in"
  else .ok ()

/-- Whether a constraint is about e-mail addresses. -/
def Constraint.isEmail : Constraint → Bool
  | Email _ => true
  | _ => false

/-- The names of one certificate: those of its subjectAltName, the ones left out, and the e-mail
addresses of its subject. -/
def checkNames (ca : Certificate) (nc : NameConstraints) (cert : Certificate) :
    Except Error Unit := do
  cert.san.forM (checkOneName P ca nc)
  cert.droppedSan.forM (checkDropped ca nc)
  if nc.constraints.any Constraint.isEmail then
    cert.subjectEmailAddresses.forM fun mail => checkOneName P ca nc (.Email mail)

def checkNameConstraints (ca : Certificate) (nc : NameConstraints) (below : List Certificate) :
    Except Error Unit :=
  if nc.constraints.any fun c => c.kind = 0xa4 then
    pathErr ca "directoryName name constraints are not supported, in"
  else below.forM (checkNames P ca nc)

end Lazaret.X509
