import Lazaret.X509.Constraints

/-!
# The checks of a path

Everything that is checked about a candidate path but the signatures (`check_path`, `x509.rs`): a
path is the leaf and what is above it, the trust anchor last.
-/

namespace Lazaret.X509

variable (P : Prims)

/-! ## Each certificate -/

/-- The time and the critical extensions of a certificate. -/
def checkCertificate (opts : VerifyOptions) (c : Certificate) : Except Error Unit :=
  if opts.time < c.notBefore then pathErr c "certificate is not yet valid"
  else if c.notAfter < opts.time then pathErr c "certificate has expired"
  else match c.unrecognizedCritical.find? fun o => ¬ opts.acceptCritical.any (· = o) with
    | some oid => pathErr c s!"unrecognized critical extension {oidToString oid} in"
    | none => .ok ()

def checkKeySize (minRsaBits : ℕ) (c : Certificate) : Except Error Unit :=
  match c.publicKey with
  | .Rsa bits _ =>
    if bits < minRsaBits then
      pathErr c s!"RSA key of {bits} bits is below the minimum of {minRsaBits} bits"
    else .ok ()
  | _ => .ok ()

/-! ## The leaf -/

/-- What a certificate is valid for, as a message says it: its first host names. -/
def validFor (c : Certificate) : String :=
  let names := (c.dnsNames.take 5).map String.ofList ++
    if 5 < c.dnsNames.length then ["..."] else []
  if names = [] then "it lists no DNS names" else "it is valid for: " ++ ", ".intercalate names

def checkHostname (opts : VerifyOptions) (leaf : Certificate) : Except Error Unit :=
  match opts.hostname with
  | none => .ok ()
  | some hostname =>
    if leaf.matchesHostname hostname then .ok ()
    else .error (.Certificate
      (s!"certificate [{leaf.subjectSummary}] is not valid for host name {P.debug hostname}; " ++
        s!"{validFor leaf}"))

def checkPurpose (opts : VerifyOptions) (leaf : Certificate) : Except Error Unit :=
  let purpose := opts.purpose
  if leaf.allows purpose = false then
    pathErr leaf s!"leaf certificate is not valid for {purpose.description}"
  else if leaf.extKeyUsage = none ∧ opts.allowMissingLeafEku = false ∧ purpose ≠ .Any then
    pathErr leaf
    s!"leaf certificate has no extendedKeyUsage, which must name {purpose.description}:"
  else if leaf.keyUsage.any fun ku => ku &&& purpose.leafKeyUsage.1 = 0 then
    pathErr leaf s!"leaf certificate keyUsage does not permit {purpose.leafKeyUsage.2}"
  else .ok ()

/-! ## The CAs -/

/-- A certificate above the leaf says it is a CA, unless it is an anchor that has no way to, and may
sign certificates for the purpose. -/
def checkCa (opts : VerifyOptions) (ca : Certificate) (isAnchor : Bool) : Except Error Unit :=
  if ca.isCa = false ∧ (isAnchor = false ∨ ca.hasBasicConstraints ∨ 2 ≤ ca.version) then
    pathErr ca "issuing certificate is not a CA"
  else if ca.keyUsage.any fun ku => ku &&& KU_KEY_CERT_SIGN = 0 then
    pathErr ca "issuing certificate keyUsage does not permit certificate signing"
  else if ca.allows opts.purpose = false then
    pathErr ca s!"issuing certificate is not valid for {opts.purpose.description}"
  else .ok ()

/-- The intermediates strictly between the leaf and a CA, but for self-issued ones, are no more than
its limit. -/
def checkPathLen (ca : Certificate) (below : List Certificate) : Except Error Unit :=
  match ca.pathLen with
  | none => .ok ()
  | some limit =>
    if limit < (below.tail.filter fun c => ¬ c.isSelfIssued).length % 2 ^ 32 then
      pathErr ca "certificate path exceeds the pathLenConstraint of"
    else .ok ()

def checkConstraints (ca : Certificate) (below : List Certificate) : Except Error Unit :=
  match ca.nameConstraints with
  | none => .ok ()
  | some nc => checkNameConstraints P ca nc below

/-- The loop over the certificates above the leaf: `below` is what is below the next one. -/
def checkCas (opts : VerifyOptions) :
    List Certificate → List Certificate → Except Error Unit
  | _, [] => .ok ()
  | below, ca :: rest => do
    checkCa opts ca (rest = [])
    checkPathLen ca below
    checkConstraints P ca below
    checkCas opts (below ++ [ca]) rest

/-! ## The rules of the CA/Browser Forum -/

/-- The extendedKeyUsage of the leaf names serverAuth and not anyExtendedKeyUsage. -/
def checkWebUsage (leaf : Certificate) : Except Error Unit :=
  match leaf.extKeyUsage with
  | none => pathErr leaf ("leaf certificate has no extendedKeyUsage, which the CA/Browser " ++
    "Forum's rules require to name serverAuth")
  | some list =>
    if list.any fun o => o = OID_EKU_ANY then
      pathErr leaf ("leaf certificate's extendedKeyUsage names anyExtendedKeyUsage, which the " ++
        "CA/Browser Forum's rules forbid")
    else if ¬ list.any fun o => o = OID_EKU_SERVER_AUTH then
      pathErr leaf "leaf certificate's extendedKeyUsage does not name serverAuth"
    else .ok ()

def PublicKey.isEd25519 : PublicKey → Bool
  | Ed25519 _ => true
  | _ => false

def checkWebKey (c : Certificate) : Except Error Unit :=
  if c.publicKey.isEd25519 ∨ c.sigAlg = some .Ed25519 then
    pathErr c ("Ed25519 is not a key or signature algorithm of the CA/Browser Forum's rules " ++
      "(RSA and ECDSA only), in")
  else .ok ()

/-- The names of a certificate and its issuer are the same bytes, and so are the key identifiers
when both have one. -/
def checkWebIssuer (child issuer : Certificate) : Except Error Unit :=
  if child.issuerDer ≠ issuer.subjectDer then
    pathErr child ("the issuer name is not, byte for byte, the subject name of the certificate " ++
      "that issued it (CA/Browser Forum rule 7.1.4.1), in")
  else if child.authorityKeyId.any fun aki => issuer.subjectKeyId.any fun ski => aki ≠ ski then
    pathErr child ("the authorityKeyIdentifier is not the subjectKeyIdentifier of the " ++
      "certificate that issued it, in")
  else .ok ()

def checkWebPki (leaf : Certificate) (above : List Certificate) : Except Error Unit := do
  checkWebUsage leaf
  (leaf :: above).dropLast.forM checkWebKey
  ((leaf :: above).zip above).forM fun e => checkWebIssuer e.1 e.2

/-! ## The path -/

/-- `check_path`; `web`: the rules of the CA/Browser Forum as well. -/
def checkPath (opts : VerifyOptions) (minRsaBits : ℕ) (web : Bool) (leaf : Certificate)
    (above : List Certificate) : Except Error Unit := do
  (leaf :: above).forM (checkCertificate opts)
  (leaf :: above).dropLast.forM (checkKeySize minRsaBits)
  checkHostname P opts leaf
  checkPurpose opts leaf
  checkCas P opts [leaf] above
  if web then checkWebPki leaf above

end Lazaret.X509
