import Lazaret.Lib.Outcome
import Mathlib.Data.String.Basic

/-!
# Certificates as they are read

What a certificate says (`x509.rs`), after its DER was taken apart.  A text of ASCII characters is
the list of its characters.  The names that a host is matched against (`dnsNames`, `ipAddrs`) and
those that constraints are applied to (`san`) are two lists that the reading of the extension keeps
together, which `AltNames` carries.
-/

namespace Lazaret.X509

inductive Error
  | Asn1 (what : String)
  | Certificate (what : String)
deriving DecidableEq

abbrev Text := List Char

def isAscii (s : Text) : Bool := s.all fun c => c.toNat < 128

def lowercase (s : Text) : Text := s.map Char.toLower

lemma toLower_idem (c : Char) : c.toLower.toLower = c.toLower := by
  unfold Char.toLower
  split
  · rename_i h
    have hlow : 65 ≤ c.toNat := by simpa using UInt32.le_iff_toNat_le.1 h.1
    have hhigh : c.toNat ≤ 90 := by simpa using UInt32.le_iff_toNat_le.1 h.2
    -- the result is past the upper-case letters
    refine dif_neg fun h' => ?_
    have hle : (c.toNat + 32) % 4294967296 ≤ 90 := by
      simpa using UInt32.le_iff_toNat_le.1 h'.2
    omega
  · rfl

lemma lowercase_idem (s : Text) : lowercase (lowercase s) = lowercase s := by
  simp only [lowercase, List.map_map]
  exact List.map_congr_left fun c _ => toLower_idem c

/-- `eq_ignore_ascii_case`. -/
def eqIgnoreCase (s t : Text) : Bool := lowercase s = lowercase t

/-- The arcs of an OID: each seven bits to a byte, the last byte with its high bit clear, and the
first two arcs in one; `none` when one does not fit 128 bits or is cut short. -/
def oidArcs : List UInt8 → ℕ → Bool → List ℕ → Option (List ℕ)
  | [], _, pending, arcs => if pending ∨ arcs = [] then none else some arcs
  | b :: rest, acc, _, arcs =>
    if (2 ^ 128 - 1) / 2 ^ 7 < acc then none
    else
      let acc := acc * 2 ^ 7 + b.toNat % 128
      if 128 ≤ b.toNat then oidArcs rest acc true arcs
      else if arcs = [] then
        oidArcs rest 0 false (if acc < 80 then [acc / 40, acc % 40] else [2, acc - 80])
      else oidArcs rest 0 false (arcs ++ [acc])

def oidToString (content : List UInt8) : String :=
  match oidArcs content 0 false [] with
  | some arcs => ".".intercalate (arcs.map toString)
  | none => "<invalid OID>"

/-! ## Names -/

inductive GeneralName
  | Dns (name : Text)
  | Ip (octets : List UInt8)
  | Email (mailbox : Text)
  | Uri (uri : Text)
  | Directory (der : List UInt8)
  | Other (typeId value : List UInt8)
  | RegisteredId (oid : List UInt8)
deriving DecidableEq

def GeneralName.tag : GeneralName → UInt8
  | Dns _ => 0x82
  | Ip _ => 0x87
  | Email _ => 0x81
  | Uri _ => 0x86
  | Directory _ => 0xa4
  | Other _ _ => 0xa0
  | RegisteredId _ => 0x88

inductive Constraint
  | Dns (domain : Text)
  | Email (mailbox : Text)
  | Uri (host : Text)
  | Ip (addressMask : List UInt8)
  | Unsupported (tag : UInt8)
deriving DecidableEq

/-- The tag of the kind of name that is constrained. -/
def Constraint.kind : Constraint → UInt8
  | Dns _ => 0x82
  | Email _ => 0x81
  | Uri _ => 0x86
  | Ip _ => 0x87
  | Unsupported tag => tag

/-- The subtrees a CA may issue under, and those it may not. -/
structure NameConstraints where
  permitted : List Constraint
  excluded : List Constraint
deriving DecidableEq

def NameConstraints.constraints (nc : NameConstraints) : List Constraint :=
  nc.permitted ++ nc.excluded

/-- The names of a subjectAltName extension: the host names and the addresses are among the names,
and a host name is in lower case. -/
structure AltNames where
  dnsNames : List Text
  ipAddrs : List (List UInt8)
  san : List GeneralName
  droppedSan : List UInt8
  dns_mem : ∀ n ∈ dnsNames, GeneralName.Dns n ∈ san
  ip_mem : ∀ a ∈ ipAddrs, GeneralName.Ip a ∈ san
  lower : ∀ n ∈ dnsNames, lowercase n = n

namespace AltNames

def empty : AltNames where
  dnsNames := []
  ipAddrs := []
  san := []
  droppedSan := []
  dns_mem := by simp
  ip_mem := by simp
  lower := by simp

/-- A name that is neither a host name nor an address is kept. -/
def push (a : AltNames) (n : GeneralName) : AltNames :=
  { a with
    san := a.san ++ [n]
    dns_mem := fun m hm => List.mem_append_left _ (a.dns_mem m hm)
    ip_mem := fun m hm => List.mem_append_left _ (a.ip_mem m hm) }

/-- A name that is left out is remembered by its tag. -/
def drop (a : AltNames) (tag : UInt8) : AltNames :=
  { a with droppedSan := if tag ∈ a.droppedSan then a.droppedSan else a.droppedSan ++ [tag] }

def pushDns (a : AltNames) (s : Text) : AltNames where
  dnsNames := a.dnsNames ++ [lowercase s]
  ipAddrs := a.ipAddrs
  san := a.san ++ [.Dns (lowercase s)]
  droppedSan := a.droppedSan
  dns_mem := by
    intro n hn
    rcases List.mem_append.1 hn with hn | hn
    · exact List.mem_append_left _ (a.dns_mem n hn)
    · rw [List.mem_singleton.1 hn]
      exact List.mem_append_right _ (List.mem_singleton_self _)
  ip_mem := fun m hm => List.mem_append_left _ (a.ip_mem m hm)
  lower := by
    intro n hn
    rcases List.mem_append.1 hn with hn | hn
    · exact a.lower n hn
    · rw [List.mem_singleton.1 hn]
      exact lowercase_idem s

def pushIp (a : AltNames) (octets : List UInt8) : AltNames where
  dnsNames := a.dnsNames
  ipAddrs := a.ipAddrs ++ [octets]
  san := a.san ++ [.Ip octets]
  droppedSan := a.droppedSan
  dns_mem := fun m hm => List.mem_append_left _ (a.dns_mem m hm)
  ip_mem := by
    intro n hn
    rcases List.mem_append.1 hn with hn | hn
    · exact List.mem_append_left _ (a.ip_mem n hn)
    · rw [List.mem_singleton.1 hn]
      exact List.mem_append_right _ (List.mem_singleton_self _)
  lower := a.lower

end AltNames

/-! ## Keys -/

inductive HashAlg
  | Sha256
  | Sha384
  | Sha512
deriving DecidableEq

inductive SigAlg
  | RsaPkcs1 (hash : HashAlg)
  | RsaPss (hash : HashAlg)
  | Ecdsa (hash : HashAlg)
  | Ed25519
deriving DecidableEq

inductive Curve
  | P256
  | P384
  | P521
deriving DecidableEq

/-- A public key; of an RSA key, the width of its modulus beside the key itself. -/
inductive PublicKey
  | Rsa (bits : ℕ) (key : List UInt8)
  | Ec (curve : Curve) (point : List UInt8)
  | Ed25519 (key : List UInt8)
  | Unsupported
deriving DecidableEq

/-- What certificates are read and checked with: the one SEQUENCE some bytes are (`sequence`), the
type and the value of an otherName, the signature check, and how Rust writes a text (`{:?}`) and an
address. -/
structure Prims where
  sequence : List UInt8 → Option (List UInt8)
  otherName : List UInt8 → Option (List UInt8 × List UInt8)
  verifySignature : SigAlg → PublicKey → List UInt8 → List UInt8 → Bool
  debug : Text → String
  ipText : List UInt8 → String

/-! ## The subjectAltName extension -/

def asciiText (content : List UInt8) : Option Text :=
  if content.all (· < 0x80) then some (content.map fun b => Char.ofNat b.toNat) else none

/-- A dNSName that is not ASCII, or has a control character, fails the certificate. -/
def AltNames.readDns (a : AltNames) (content : List UInt8) : Except Error AltNames :=
  match asciiText content with
  | none =>
    if (String.fromUTF8? ⟨content.toArray⟩).isNone then .error (.Asn1 "bad dNSName")
    else .error (.Certificate "non-ASCII dNSName")
  | some s =>
    if content.any (fun b => b < 0x20 || b = 0x7f) then
      .error (.Certificate "control character in dNSName")
    else .ok (a.pushDns s)

/-- A name that was read is kept, and any other is left out. -/
def AltNames.keep (a : AltNames) (tag : UInt8) (n : Option GeneralName) : AltNames :=
  match n with
  | some n => a.push n
  | none => a.drop tag

/-- One entry of the extension (the loop body of the subjectAltName arm of `apply_extension`). -/
def AltNames.read (P : Prims) (a : AltNames) (tag : UInt8) (content : List UInt8) :
    Except Error AltNames :=
  if tag = 0x82 then a.readDns content
  else if tag = 0x87 ∧ (content.length = 4 ∨ content.length = 16) then .ok (a.pushIp content)
  else if tag = 0x81 then .ok (a.keep tag ((asciiText content).map .Email))
  else if tag = 0x86 then .ok (a.keep tag ((asciiText content).map .Uri))
  else if tag = 0xa4 then .ok (a.keep tag ((P.sequence content).map .Directory))
  else if tag = 0xa0 then
    .ok (a.keep tag ((P.otherName content).map fun e => .Other e.1 e.2))
  else if tag = 0x88 ∧ content ≠ [] then .ok (a.push (.RegisteredId content))
  else .ok (a.drop tag)

/-! ## Certificates -/

/-- A certificate, as `parse` reads it.  The two names are there in three forms: as DER, as the keys
that path building compares (`name_key`), and the subject as the messages show it
(`subject_summary`), with the e-mail addresses in it; of the key identifiers, the contents that
read. -/
structure Certificate extends AltNames where
  der : List UInt8
  tbs : List UInt8
  sigAlg : Option SigAlg
  signature : List UInt8
  issuerDer : List UInt8
  subjectDer : List UInt8
  issuerKey : List UInt8
  subjectKey : List UInt8
  issuerSummary : String
  subjectSummary : String
  subjectEmailAddresses : List Text
  authorityKeyId : Option (List UInt8)
  subjectKeyId : Option (List UInt8)
  notBefore : ℤ
  notAfter : ℤ
  publicKey : PublicKey
  isCa : Bool
  pathLen : Option ℕ
  hasBasicConstraints : Bool
  keyUsage : Option (BitVec 16)
  extKeyUsage : Option (List (List UInt8))
  nameConstraints : Option NameConstraints
  unrecognizedCritical : List (List UInt8)
  version : ℕ

/-- `path_err`: a certificate error that names the certificate it is about. -/
def pathErr {α : Type} (c : Certificate) (what : String) : Except Error α :=
  .error (.Certificate s!"{what} [{c.subjectSummary}]")

def Certificate.isSelfIssued (c : Certificate) : Bool := c.subjectDer = c.issuerDer

/-! ## Purposes and options -/

def OID_EKU_SERVER_AUTH : List UInt8 := [0x2b, 0x06, 0x01, 0x05, 0x05, 0x07, 0x03, 0x01]
def OID_EKU_CLIENT_AUTH : List UInt8 := [0x2b, 0x06, 0x01, 0x05, 0x05, 0x07, 0x03, 0x02]
def OID_EKU_CODE_SIGNING : List UInt8 := [0x2b, 0x06, 0x01, 0x05, 0x05, 0x07, 0x03, 0x03]
def OID_EKU_EMAIL_PROTECTION : List UInt8 := [0x2b, 0x06, 0x01, 0x05, 0x05, 0x07, 0x03, 0x04]
def OID_EKU_TIME_STAMPING : List UInt8 := [0x2b, 0x06, 0x01, 0x05, 0x05, 0x07, 0x03, 0x08]
def OID_EKU_OCSP_SIGNING : List UInt8 := [0x2b, 0x06, 0x01, 0x05, 0x05, 0x07, 0x03, 0x09]
def OID_EKU_ANY : List UInt8 := [0x55, 0x1d, 0x25, 0x00]

def KU_DIGITAL_SIGNATURE : BitVec 16 := 1 <<< 0
def KU_NON_REPUDIATION : BitVec 16 := 1 <<< 1
def KU_KEY_CERT_SIGN : BitVec 16 := 1 <<< 5

inductive Purpose
  | ServerAuth
  | ClientAuth
  | CodeSigning
  | EmailProtection
  | TimeStamping
  | OcspSigning
  | Oid (oid : List UInt8)
  | Any
deriving DecidableEq

def Purpose.ekuOid : Purpose → Option (List UInt8)
  | ServerAuth => some OID_EKU_SERVER_AUTH
  | ClientAuth => some OID_EKU_CLIENT_AUTH
  | CodeSigning => some OID_EKU_CODE_SIGNING
  | EmailProtection => some OID_EKU_EMAIL_PROTECTION
  | TimeStamping => some OID_EKU_TIME_STAMPING
  | OcspSigning => some OID_EKU_OCSP_SIGNING
  | Oid oid => some oid
  | Any => none

def Purpose.description : Purpose → String
  | ServerAuth => "TLS server authentication"
  | ClientAuth => "TLS client authentication"
  | CodeSigning => "code signing"
  | EmailProtection => "e-mail protection"
  | TimeStamping => "time stamping"
  | OcspSigning => "OCSP signing"
  | Oid oid => s!"extended key usage {oidToString oid}"
  | Any => "any purpose"

/-- The keyUsage bits of which the leaf must have at least one, and how a message names them. -/
def Purpose.leafKeyUsage : Purpose → BitVec 16 × String
  | ServerAuth | ClientAuth | CodeSigning | OcspSigning =>
    (KU_DIGITAL_SIGNATURE, "digitalSignature")
  | _ => (KU_DIGITAL_SIGNATURE ||| KU_NON_REPUDIATION, "digitalSignature or nonRepudiation")

/-- `allows`: no extendedKeyUsage, or one that lists the purpose or anyExtendedKeyUsage. -/
def Certificate.allows (c : Certificate) (purpose : Purpose) : Bool :=
  match purpose.ekuOid, c.extKeyUsage with
  | some oid, some list => list.any fun o => o = oid ∨ o = OID_EKU_ANY
  | _, _ => true

structure VerifyOptions where
  purpose : Purpose
  time : ℤ
  hostname : Option Text
  allowMissingLeafEku : Bool
  acceptCritical : List (List UInt8)
  webPki : Bool

end Lazaret.X509
