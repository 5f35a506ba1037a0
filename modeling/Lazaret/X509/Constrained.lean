import Lazaret.X509.CheckPath
import Mathlib.Data.List.GetD

/-!
# Which hosts a constrained CA can speak for

`HostAllowed` says what name constraints mean for a host, in terms of subtrees.  The checks of a
path apply the constraints to the names in the leaf, and a name with a wildcard stands for hosts it
is not below or above: `constraints_hold_iff` says exactly when every CA of a path that passes may
speak for the host that was asked for.
-/

namespace Lazaret.X509

open Domain List

variable {P : Prims}

/-! ## Subtrees -/

/-- A host is in the subtree of a DNS constraint: the empty one has every host, one with a leading
dot what lies below the rest, and any other one itself too. -/
def InSubtree (constraint host : Text) : Prop :=
  constraint = [] ∨ (∃ domain, constraint = '.' :: domain ∧ Below '.' domain host) ∨
    (constraint.head? ≠ some '.' ∧ Within '.' constraint host)

/-- An address is in the subtree of an IP constraint: under the mask it is the address there. -/
def InIpSubtree (constraint ip : List UInt8) : Prop :=
  constraint.length = ip.length * 2 ∧ ∀ i < ip.length,
    ip.getD i 0 &&& constraint.getD (ip.length + i) 0 =
      constraint.getD i 0 &&& constraint.getD (ip.length + i) 0

/-- A host name is in no excluded subtree, and in a permitted one if there are any. -/
def DnsAllowed (nc : NameConstraints) (host : Text) : Prop :=
  (∀ d, .Dns d ∈ nc.excluded → ¬ InSubtree d host) ∧
    ((∃ d, .Dns d ∈ nc.permitted) → ∃ d, .Dns d ∈ nc.permitted ∧ InSubtree d host)

def IpAllowed (nc : NameConstraints) (ip : List UInt8) : Prop :=
  (∀ s, .Ip s ∈ nc.excluded → ¬ InIpSubtree s ip) ∧
    ((∃ s, .Ip s ∈ nc.permitted) → ∃ s, .Ip s ∈ nc.permitted ∧ InIpSubtree s ip)

/-- The constraints let their CA speak for a host: an address, or a name in lower case without its
trailing dot. -/
def HostAllowed (nc : NameConstraints) (host : Text) : Prop :=
  match parseIp host with
  | some ip => IpAllowed nc ip
  | none => DnsAllowed nc (normalizeHost host)

variable {host : Text}

lemma dnsConstraintMatches_iff {constraint : Text} :
    dnsConstraintMatches constraint host = true ↔ InSubtree constraint host := by
  match constraint with
  | [] => simp [dnsConstraintMatches, InSubtree]
  | c :: rest =>
    by_cases hc : c = '.'
    · subst hc
      simp [dnsConstraintMatches, InSubtree, Below]
    · rw [dnsConstraintMatches]
      · simp [InSubtree, Within, Below, hc]
      · exact hc

lemma ipConstraintMatches_iff {constraint ip : List UInt8} :
    ipConstraintMatches constraint ip = true ↔ InIpSubtree constraint ip := by
  rw [ipConstraintMatches, decide_eq_true_iff]
  refine and_congr_right fun hlen => ?_
  rw [all_eq_true]
  constructor
  · intro h i hi
    have hmem : (ip[i], constraint[i], constraint[ip.length + i]) ∈
        ip.zip ((constraint.take ip.length).zip (constraint.drop ip.length)) :=
      mem_iff_getElem.2 ⟨i, by simp; omega, by simp⟩
    have heq := h _ hmem
    rw [getD_eq_getElem _ _ hi, getD_eq_getElem _ _ (by omega), getD_eq_getElem _ _ (by omega)]
    simpa using heq
  · intro h e he
    obtain ⟨i, hi, rfl⟩ := mem_iff_getElem.1 he
    have hi' : i < ip.length := by
      simp only [length_zip] at hi
      omega
    have heq := h i hi'
    rw [getD_eq_getElem _ _ hi', getD_eq_getElem _ _ (by omega),
      getD_eq_getElem _ _ (by omega)] at heq
    simpa using heq

/-- What a name is within, whatever one label is put before it. -/
def Covered (constraint base : Text) : Prop :=
  constraint = [] ∨ (∃ domain, constraint = '.' :: domain ∧ Within '.' domain base) ∨
    (constraint.head? ≠ some '.' ∧ Within '.' constraint base)

variable {label base : Text}

lemma inSubtree_label_iff {constraint : Text} (hne : label ≠ [])
    (hlabel : '.' ∉ label) : InSubtree constraint (label ++ '.' :: base) ↔
      constraint = label ++ '.' :: base ∨ Covered constraint base := by
  simp only [InSubtree, Covered, below_label_iff hlabel, within_label_iff hlabel]
  constructor
  · rintro (h | h | ⟨hdot, h | h⟩)
    · exact .inr (.inl h)
    · exact .inr (.inr (.inl h))
    · exact .inl h.symm
    · exact .inr (.inr (.inr ⟨hdot, h⟩))
  · rintro (rfl | h | h | ⟨hdot, h⟩)
    · refine .inr (.inr ⟨?_, .inl rfl⟩)
      obtain ⟨c, label, rfl⟩ := exists_cons_of_ne_nil hne
      rintro hc
      exact hlabel (by simp_all)
    · exact .inl h
    · exact .inr (.inl h)
    · exact .inr (.inr ⟨hdot, .inr h⟩)

lemma not_covered_self (hne : label ≠ []) (hlabel : '.' ∉ label) :
    ¬ Covered (label ++ '.' :: base) base := by
  obtain ⟨c, label, rfl⟩ := exists_cons_of_ne_nil hne
  rintro (h | ⟨domain, h, -⟩ | ⟨-, h | h⟩)
  · simp at h
  · exact hlabel (by simp_all)
  · have := congrArg List.length h
    simp at this
    omega
  · have := h.length_le
    simp at this
    omega

/-! ## The host and the pattern -/

/-- The wildcard a host name of several labels matches. -/
def wildcardOf (host : Text) : Text := '*' :: host.dropWhile (· ≠ '.')

/-- A wildcard stands for a host: it puts another label before the same base. -/
structure StandsFor (pattern host label base : Text) : Prop where
  label_ne : label ≠ []
  dot_notMem : '.' ∉ label
  host_eq : host = label ++ '.' :: base
  pattern_eq : pattern = '*' :: '.' :: base

variable {pattern : Text}

lemma StandsFor.wildcardOf (h : StandsFor pattern host label base) : wildcardOf host = pattern := by
  rw [h.pattern_eq, h.host_eq, X509.wildcardOf, dropWhile_append_of_pos]
  · simp
  · intro c hc
    rw [decide_eq_true_iff]
    rintro rfl
    exact h.dot_notMem hc

lemma lowercase_eq_self {s : Text} : lowercase s = s ↔ ∀ c ∈ s, c.toLower = c := by
  rw [lowercase]
  nth_rewrite 2 [← map_id s]
  exact map_inj_left

lemma lowercase_of_sublist {s t : Text} (hs : s.Sublist t) (ht : lowercase t = t) :
    lowercase s = s :=
  lowercase_eq_self.2 fun c hc => lowercase_eq_self.1 ht c (hs.subset hc)

lemma withoutTrailingDot_sublist (s : Text) : (withoutTrailingDot s).Sublist s := by
  rw [withoutTrailingDot]
  split
  · exact dropLast_sublist s
  · exact Sublist.refl s

lemma splitLabel_eq_some {first rest : Text} (h : splitLabel host = (first, some rest)) :
    '.' ∉ first ∧ host = first ++ '.' :: rest := by
  simp only [splitLabel, Prod.mk.injEq] at h
  obtain ⟨rfl, hrest⟩ := h
  refine ⟨fun hmem => by simpa using mem_takeWhile_imp hmem, ?_⟩
  have happ := takeWhile_append_dropWhile (p := fun c => decide (c ≠ '.')) (l := host)
  have hhead := head?_dropWhile_not (fun c => decide (c ≠ '.')) host
  generalize host.dropWhile (fun c => decide (c ≠ '.')) = tail at happ hhead hrest
  cases tail with
  | nil => simp at hrest
  | cons c rest' =>
    have hdot : c = '.' := by simpa using hhead
    rw [List.tail?_cons, Option.some.injEq] at hrest
    subst hdot hrest
    exact happ.symm

lemma wildcardBase_eq_some (h : wildcardBase pattern = some base) :
    pattern = '*' :: '.' :: base := by
  unfold wildcardBase at h
  split at h
  · rw [Option.some.inj h]
  · cases h

lemma wildcardMatches_imp (h : wildcardMatches base host = true) :
    ∃ first rest, splitLabel host = (first, some rest) ∧ first ≠ [] ∧
      lowercase rest = lowercase base := by
  rw [wildcardMatches] at h
  split_ifs at h
  rcases hsplit : splitLabel host with ⟨first, _ | rest⟩
  · simp [hsplit] at h
  · simp only [hsplit, eqIgnoreCase, decide_eq_true_iff, ne_eq] at h
    exact ⟨first, rest, rfl, h⟩

lemma dnsPatternMatches_cases (hpattern : lowercase pattern = pattern)
    (hhost : lowercase host = host) (h : dnsPatternMatches pattern host = true) :
    withoutTrailingDot pattern = host ∨
      ∃ label base, StandsFor (withoutTrailingDot pattern) host label base := by
  have hlower := lowercase_of_sublist (withoutTrailingDot_sublist pattern) hpattern
  rw [dnsPatternMatches] at h
  generalize withoutTrailingDot pattern = p at hlower h ⊢
  split_ifs at h with hne hstar
  · right
    cases hbase : wildcardBase p with
    | none => simp [hbase] at h
    | some base =>
      rw [hbase] at h
      have hp := wildcardBase_eq_some hbase
      obtain ⟨label, rest, hsplit, hlabel, heq⟩ := wildcardMatches_imp h
      obtain ⟨hdot, hhost'⟩ := splitLabel_eq_some hsplit
      have hrest : lowercase rest = rest :=
        lowercase_of_sublist (by rw [hhost']; simp) hhost
      have hbase' : lowercase base = base :=
        lowercase_of_sublist (by rw [hp]; simp) hlower
      rw [hrest, hbase'] at heq
      exact ⟨label, base, hlabel, hdot, heq ▸ hhost', hp⟩
  · exact .inl (by rwa [eqIgnoreCase, decide_eq_true_iff, hlower, hhost] at h)

/-! ## The checks -/

variable {ca : Certificate} {nc : NameConstraints}

/-- A name passes when no constraint of its kind is unsupported, none excludes it, and one permits
it if any of its kind is there. -/
lemma checkOneName_eq_ok {name : GeneralName} : checkOneName P ca nc name = .ok () ↔
      (∀ c ∈ nc.constraints, c ≠ .Unsupported name.tag) ∧
      (∀ c ∈ nc.excluded, constraintCovers c name ≠ some true) ∧
      ((∃ c ∈ nc.permitted, (constraintCovers c name).isSome) →
        ∃ c ∈ nc.permitted, constraintCovers c name = some true) := by
  rw [checkOneName]
  split_ifs with h₁ h₂ h₃
  · refine iff_of_false (by simp [pathErr]) fun h => ?_
    obtain ⟨c, hc, heq⟩ := any_eq_true.1 h₁
    exact h.1 c hc (by simpa using heq)
  · refine iff_of_false (by simp [pathErr]) fun h => ?_
    obtain ⟨c, hc, heq⟩ := any_eq_true.1 h₂
    exact h.2.1 c hc (by simpa using heq)
  · refine iff_of_false (by simp [pathErr]) fun h => h₃.2 ?_
    obtain ⟨c, hc, heq⟩ := h.2.2 (by simpa using h₃.1)
    exact any_eq_true.2 ⟨c, hc, by simpa using heq⟩
  · refine iff_of_true rfl ⟨?_, ?_, ?_⟩
    · rintro c hc rfl
      exact h₁ (any_eq_true.2 ⟨_, hc, decide_eq_true rfl⟩)
    · simpa using h₂
    · simpa using h₃

lemma checkOneName_dns {n : Text}
    (h : checkOneName P ca nc (.Dns n) = .ok ()) : DnsAllowed nc (withoutTrailingDot n) := by
  obtain ⟨-, hexcl, hperm⟩ := checkOneName_eq_ok.1 h
  refine ⟨fun d hd hin => hexcl _ hd ?_, fun hsome => ?_⟩
  · rw [constraintCovers, dnsConstraintMatches_iff.2 hin]
  · obtain ⟨d, hd⟩ := hsome
    obtain ⟨c, hc, hcov⟩ := hperm ⟨_, hd, rfl⟩
    cases c with
    | Dns d => exact ⟨d, hc, dnsConstraintMatches_iff.1 (by simpa [constraintCovers] using hcov)⟩
    | _ => simp [constraintCovers] at hcov

lemma checkOneName_ip {ip : List UInt8}
    (h : checkOneName P ca nc (.Ip ip) = .ok ()) : IpAllowed nc ip := by
  obtain ⟨-, hexcl, hperm⟩ := checkOneName_eq_ok.1 h
  refine ⟨fun d hd hin => hexcl _ hd ?_, fun hsome => ?_⟩
  · rw [constraintCovers, ipConstraintMatches_iff.2 hin]
  · obtain ⟨d, hd⟩ := hsome
    obtain ⟨c, hc, hcov⟩ := hperm ⟨_, hd, rfl⟩
    cases c with
    | Ip d => exact ⟨d, hc, ipConstraintMatches_iff.1 (by simpa [constraintCovers] using hcov)⟩
    | _ => simp [constraintCovers] at hcov

lemma checkCas_constraints {opts : VerifyOptions} {below above : List Certificate}
    (h : checkCas P opts below above = .ok ()) (hca : ca ∈ above) :
    ∃ below', below <+: below' ∧ checkConstraints P ca below' = .ok () := by
  induction above generalizing below with
  | nil => simp at hca
  | cons c rest ih =>
    simp only [checkCas, except_bind_eq_ok] at h
    obtain ⟨_, _, _, _, _, hc, hrest⟩ := h
    rcases mem_cons.1 hca with rfl | hca
    · exact ⟨below, prefix_rfl, hc⟩
    · obtain ⟨below', hbelow, hok⟩ := ih hrest hca
      exact ⟨below', (prefix_append _ _).trans hbelow, hok⟩

lemma checkNameConstraints_name {cert : Certificate} {below : List Certificate} {name : GeneralName}
    (h : checkNameConstraints P ca nc below = .ok ()) (hcert : cert ∈ below)
    (hname : name ∈ cert.san) : checkOneName P ca nc name = .ok () := by
  rw [checkNameConstraints] at h
  split_ifs at h
  · exact absurd h (by simp [pathErr])
  · have hnames := except_forM_eq_ok.1 h cert hcert
    simp only [checkNames, except_bind_eq_ok] at hnames
    obtain ⟨_, hsan, -⟩ := hnames
    exact except_forM_eq_ok.1 hsan name hname

variable {opts : VerifyOptions} {minRsaBits : ℕ} {web : Bool} {leaf : Certificate}
  {above : List Certificate} {host : Text}

lemma checkPath_names (h : checkPath P opts minRsaBits web leaf above = .ok ())
    (hhost : opts.hostname = some host) :
    leaf.matchesHostname host = true ∧
      ∀ ca ∈ above, ∀ nc, ca.nameConstraints = some nc →
        ∀ name ∈ leaf.san, checkOneName P ca nc name = .ok () := by
  simp only [checkPath, except_bind_eq_ok] at h
  obtain ⟨_, _, _, _, _, hname, _, _, _, hcas, _⟩ := h
  constructor
  · rw [checkHostname, hhost] at hname
    by_contra hne
    simp [hne] at hname
  · intro ca hca nc hnc name hmem
    obtain ⟨below, hbelow, hok⟩ := checkCas_constraints hcas hca
    rw [checkConstraints, hnc] at hok
    exact checkNameConstraints_name hok (hbelow.subset (mem_singleton_self _)) hmem

/-! ## The host that was asked for -/

/-- A name of the leaf is the host itself, but for the dot at its end. -/
def NamesHost (leaf : Certificate) (host : Text) : Prop :=
  ∃ p ∈ leaf.dnsNames, withoutTrailingDot p = host

/-- No excluded DNS subtree begins at the host itself, and when there are permitted ones, one begins
there or has the wildcard for the host in it without being that wildcard's own text. -/
def WildcardKept (nc : NameConstraints) (host : Text) : Prop :=
  .Dns host ∉ nc.excluded ∧
    ((∃ d, .Dns d ∈ nc.permitted) → ∃ d, .Dns d ∈ nc.permitted ∧
      (d = host ∨ d ≠ wildcardOf host ∧ InSubtree d (wildcardOf host)))

/-- Constraints that let a wildcard pass let the hosts it stands for pass, but for the subtrees that
begin at the host or at the wildcard. -/
lemma dnsAllowed_iff_wildcardKept
    (hs : StandsFor pattern host label base) (hp : DnsAllowed nc pattern) :
    DnsAllowed nc host ↔ WildcardKept nc host := by
  have hhost (d : Text) : InSubtree d host ↔ d = host ∨ Covered d base := by
    rw [hs.host_eq]
    exact inSubtree_label_iff hs.label_ne hs.dot_notMem
  have hpattern (d : Text) : InSubtree d pattern ↔ d = pattern ∨ Covered d base := by
    rw [hs.pattern_eq]
    exact inSubtree_label_iff (cons_ne_nil '*' []) (by decide)
  have hself : ¬ Covered pattern base := by
    rw [hs.pattern_eq]
    exact not_covered_self (cons_ne_nil '*' []) (by decide)
  have hperm (d : Text) : InSubtree d host ↔ d = host ∨ d ≠ pattern ∧ InSubtree d pattern := by
    rw [hhost, hpattern]
    refine or_congr_right ⟨fun h => ⟨?_, .inr h⟩, fun h => h.2.resolve_left h.1⟩
    rintro rfl
    exact hself h
  rw [DnsAllowed, WildcardKept, hs.wildcardOf]
  refine and_congr ⟨fun h hd => h _ hd ((hhost _).2 (.inl rfl)), fun h d hd hin => ?_⟩ ?_
  · rcases (hhost d).1 hin with rfl | hcov
    · exact h hd
    · exact hp.1 d hd ((hpattern d).2 (.inr hcov))
  · simp only [hperm]

/-- A path that passes keeps every CA above the leaf to hosts it may speak for exactly when the host
is an address or a name of the leaf, or each CA's constraints treat it as the wildcard that stands
for it. -/
theorem constraints_hold_iff (h : checkPath P opts minRsaBits web leaf above = .ok ())
    (hhost : opts.hostname = some host) :
    (∀ ca ∈ above, ∀ nc, ca.nameConstraints = some nc → HostAllowed nc host) ↔
      (parseIp host).isSome ∨ NamesHost leaf (normalizeHost host) ∨
        ∀ ca ∈ above, ∀ nc, ca.nameConstraints = some nc →
          WildcardKept nc (normalizeHost host) := by
  obtain ⟨hmatch, hnames⟩ := checkPath_names h hhost
  cases hip : parseIp host with
  | some ip =>
    simp only [Certificate.matchesHostname, hip] at hmatch
    obtain ⟨a, ha, heq⟩ := any_eq_true.1 hmatch
    obtain rfl : a = ip := by simpa using heq
    refine iff_of_true (fun ca hca nc hnc => ?_) (.inl rfl)
    rw [HostAllowed, hip]
    exact checkOneName_ip (hnames ca hca nc hnc _ (leaf.ip_mem a ha))
  | none =>
    simp only [Certificate.matchesHostname, hip] at hmatch
    obtain ⟨p, hp, hpm⟩ := any_eq_true.1 hmatch
    have hdns (ca) (hca : ca ∈ above) (nc) (hnc : ca.nameConstraints = some nc) (q)
        (hq : q ∈ leaf.dnsNames) : DnsAllowed nc (withoutTrailingDot q) :=
      checkOneName_dns (hnames ca hca nc hnc _ (leaf.dns_mem q hq))
    have hallowed (nc : NameConstraints) :
        HostAllowed nc host ↔ DnsAllowed nc (normalizeHost host) := by
      rw [HostAllowed, hip]
    simp only [hallowed, Option.isSome_none, Bool.false_eq_true, false_or]
    by_cases hexact : NamesHost leaf (normalizeHost host)
    · obtain ⟨q, hq, heq⟩ := hexact
      refine iff_of_true (fun ca hca nc hnc => ?_) (.inl ⟨q, hq, heq⟩)
      exact heq ▸ hdns ca hca nc hnc q hq
    · obtain ⟨label, base, hs⟩ := (dnsPatternMatches_cases (leaf.lower p hp)
        (lowercase_idem _) hpm).resolve_left fun heq => hexact ⟨p, hp, heq⟩
      simp only [hexact, false_or]
      exact forall₂_congr fun ca hca => forall₂_congr fun nc hnc =>
        dnsAllowed_iff_wildcardKept hs (hdns ca hca nc hnc p hp)

/-! ## A wildcard under an excluded host -/

/-- Signatures that all verify, and texts shown as they are. -/
def samplePrims : Prims where
  sequence := fun _ => none
  otherName := fun _ => none
  verifySignature := fun _ _ _ _ => true
  debug := String.ofList
  ipText := fun _ => ""

/-- A certificate with those names, of a subject that is one byte, from an issuer that is one. -/
def sampleCertificate (names : AltNames) (subject issuer : UInt8) (isCa : Bool)
    (nameConstraints : Option NameConstraints) : Certificate where
  toAltNames := names
  der := [subject, issuer]
  tbs := [subject, issuer]
  sigAlg := some (.Ecdsa .Sha256)
  signature := []
  issuerDer := [issuer]
  subjectDer := [subject]
  issuerKey := [issuer]
  subjectKey := [subject]
  issuerSummary := "issuer"
  subjectSummary := "subject"
  subjectEmailAddresses := []
  authorityKeyId := none
  subjectKeyId := none
  notBefore := 0
  notAfter := 100
  publicKey := .Ec .P256 []
  isCa := isCa
  pathLen := none
  hasBasicConstraints := true
  keyUsage := none
  extKeyUsage := some [OID_EKU_SERVER_AUTH]
  nameConstraints := nameConstraints
  unrecognizedCritical := []
  version := 2

def sampleLeaf : Certificate :=
  sampleCertificate (AltNames.empty.pushDns "*.example.com".toList) 1 2 false none

/-- An anchor that may not speak for one host of that domain. -/
def sampleAnchor : Certificate :=
  sampleCertificate AltNames.empty 2 2 true
    (some { permitted := [], excluded := [.Dns "bad.example.com".toList] })

def sampleOptions (host : String) : VerifyOptions where
  purpose := .ServerAuth
  time := 50
  hostname := some host.toList
  allowMissingLeafEku := true
  acceptCritical := []
  webPki := true

/-- Another host of the domain is kept to the constraints. -/
theorem constraints_hold_good_host :
    checkPath samplePrims (sampleOptions "good.example.com") 2048 true sampleLeaf [sampleAnchor] =
        .ok () ∧
      ∀ ca ∈ [sampleAnchor], ∀ nc, ca.nameConstraints = some nc →
        HostAllowed nc "good.example.com".toList := by
  have hok : checkPath samplePrims (sampleOptions "good.example.com") 2048 true sampleLeaf
      [sampleAnchor] = .ok () := by
    decide
  refine ⟨hok, (constraints_hold_iff hok rfl).2 (.inr (.inr ?_))⟩
  rintro ca hca nc hnc
  obtain rfl := mem_singleton.1 hca
  obtain rfl := Option.some.inj hnc
  refine ⟨by decide, ?_⟩
  rintro ⟨d, hd⟩
  simp at hd

/-- The excluded host itself is let through: the wildcard that stands for it is not below it. -/
theorem excluded_host_passes :
    ¬ ∀ (P : Prims) (opts : VerifyOptions) (minRsaBits : ℕ) (web : Bool) (leaf : Certificate)
        (above : List Certificate) (host : Text),
      checkPath P opts minRsaBits web leaf above = .ok () → opts.hostname = some host →
        ∀ ca ∈ above, ∀ nc, ca.nameConstraints = some nc → HostAllowed nc host := by
  intro hall
  have hok : checkPath samplePrims (sampleOptions "bad.example.com") 2048 true sampleLeaf
      [sampleAnchor] = .ok () := by
    decide
  have hallowed := hall _ _ _ _ _ _ _ hok rfl _ (mem_singleton_self _) _ rfl
  have hip : parseIp "bad.example.com".toList = none := by decide
  have hhost : normalizeHost "bad.example.com".toList = "bad.example.com".toList := by
    decide
  rw [HostAllowed, hip] at hallowed
  refine hallowed.1 "bad.example.com".toList (mem_singleton_self _) ?_
  rw [hhost]
  exact .inr (.inr ⟨by decide, .inl rfl⟩)

end Lazaret.X509
