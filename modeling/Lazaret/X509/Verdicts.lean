import Lazaret.X509.Meaning

/-!
# Verdicts on names

`check_name_constraints` by what the constraints mean (`check_eq_ok_iff`).  Its verdict is one on
sets of constraints, on names up to the case and the last dot of their domains, and more exclusions
accept no more; and it is given unless an e-mail constraint cuts the domain of an address in a
subject inside a character (`name_constraints_iff`).
-/

namespace Lazaret.X509

open List

variable {P : Prims} {ca : Certificate} {nc nc' : NameConstraints} {name name' : GeneralName}
  {below below' : List Certificate}

/-! ## What is accepted -/

/-- The constraints let a name pass: none of its kind is unsupported, no excluded one is about it,
and one of the permitted ones is if there are any of its kind. -/
structure Passes (nc : NameConstraints) (name : GeneralName) : Prop where
  supported : ∀ k ∈ nc.constraints, k ≠ .Unsupported name.tag
  not_excluded : ∀ k ∈ nc.excluded, ¬ Means k name
  permitted : (∃ k ∈ nc.permitted, SameKind k name) → ∃ k ∈ nc.permitted, Means k name

lemma checkOneName_eq_ok_iff (hread : ∀ k ∈ nc.constraints, k.Read) (hname : name.DnsLower) :
    checkOneName P ca nc name = .ok () ↔ Passes nc name := by
  have hcovers : ∀ k ∈ nc.constraints, constraintCovers k name = some true ↔ Means k name :=
    fun k hk => covers_iff_means (hread k hk) hname
  rw [checkOneName_eq_ok]
  constructor
  · rintro ⟨hsupported, hexcl, hperm⟩
    refine ⟨hsupported, fun k hk hmeans => ?_, fun ⟨k, hk, hkind⟩ => ?_⟩
    · exact hexcl k hk ((hcovers k (mem_append_right _ hk)).2 hmeans)
    · obtain ⟨k', hk', hcov⟩ := hperm ⟨k, hk, isSome_covers_iff.2 hkind⟩
      exact ⟨k', hk', (hcovers k' (mem_append_left _ hk')).1 hcov⟩
  · rintro ⟨hsupported, hexcl, hperm⟩
    refine ⟨hsupported, fun k hk hcov => ?_, fun ⟨k, hk, hkind⟩ => ?_⟩
    · exact hexcl k hk ((hcovers k (mem_append_right _ hk)).1 hcov)
    · obtain ⟨k', hk', hmeans⟩ := hperm ⟨k, hk, isSome_covers_iff.1 hkind⟩
      exact ⟨k', hk', (hcovers k' (mem_append_left _ hk')).2 hmeans⟩

structure Accepts (nc : NameConstraints) (cert : Certificate) : Prop where
  san : ∀ n ∈ cert.san, Passes nc n
  dropped : ∀ tag ∈ cert.droppedSan, ∀ k ∈ nc.constraints, k.kind ≠ tag
  mails : (∃ m, .Email m ∈ nc.constraints) → ∀ mail ∈ cert.subjectEmailAddresses,
    Passes nc (.Email mail)

lemma checkDropped_eq_ok {tag : UInt8} :
    checkDropped ca nc tag = .ok () ↔ ∀ k ∈ nc.constraints, k.kind ≠ tag := by
  rw [checkDropped]
  split
  next h =>
    obtain ⟨k, hk, hkind⟩ := any_eq_true.1 h
    refine iff_of_false (fun h => ?_) fun hall => hall k hk (of_decide_eq_true hkind)
    cases h
  next h =>
    refine iff_of_true rfl fun k hk hkind => h (any_eq_true.2 ⟨k, hk, decide_eq_true hkind⟩)

lemma any_isEmail : nc.constraints.any Constraint.isEmail = true ↔ ∃ m, .Email m ∈
    nc.constraints := by
  rw [any_eq_true]
  constructor
  · rintro ⟨k, hk, hemail⟩
    cases k with
    | Email m => exact ⟨m, hk⟩
    | _ => cases hemail
  · rintro ⟨m, hm⟩
    exact ⟨_, hm, rfl⟩

theorem check_eq_ok_iff (hread : ∀ k ∈ nc.constraints, k.Read)
    (hbelow : ∀ cert ∈ below, cert.NamesParsed P) :
    checkNameConstraints P ca nc below = .ok () ↔
      (∀ k ∈ nc.constraints, k.kind ≠ 0xa4) ∧ ∀ cert ∈ below, Accepts nc cert := by
  rw [checkNameConstraints]
  split
  next h =>
    obtain ⟨k, hk, hkind⟩ := any_eq_true.1 h
    refine iff_of_false (fun h => ?_) fun hall => hall.1 k hk (of_decide_eq_true hkind)
    cases h
  next h =>
    have hkinds : ∀ k ∈ nc.constraints, k.kind ≠ 0xa4 := fun k hk hkind =>
      h (any_eq_true.2 ⟨k, hk, decide_eq_true hkind⟩)
    rw [and_iff_right hkinds, except_forM_eq_ok]
    refine forall₂_congr fun cert hcert => ?_
    have hsan : ∀ n ∈ cert.san, checkOneName P ca nc n = .ok () ↔ Passes nc n := fun n hn =>
      checkOneName_eq_ok_iff hread ((hbelow cert hcert).read n hn).dnsLower
    have hmail : ∀ mail, checkOneName P ca nc (.Email mail) = .ok () ↔ Passes nc (.Email mail) :=
      fun mail => checkOneName_eq_ok_iff hread fun n hn => by cases hn
    simp only [checkNames, except_bind_eq_ok, except_forM_eq_ok, exists_const, checkDropped_eq_ok]
    constructor
    · rintro ⟨hnames, hdropped, hmails⟩
      refine ⟨fun n hn => (hsan n hn).1 (hnames n hn), hdropped, fun hemail mail hmem => ?_⟩
      rw [if_pos (any_isEmail.2 hemail), except_forM_eq_ok] at hmails
      exact (hmail mail).1 (hmails mail hmem)
    · rintro ⟨hnames, hdropped, hmails⟩
      refine ⟨fun n hn => (hsan n hn).2 (hnames n hn), hdropped, ?_⟩
      split
      next hany =>
        rw [except_forM_eq_ok]
        exact fun mail hmem => (hmail mail).2 (hmails (any_isEmail.1 hany) mail hmem)
      · rfl

/-! ## Sets of constraints -/

/-- The same constraints, in another order or more than once. -/
structure SameSets (nc nc' : NameConstraints) : Prop where
  permitted : ∀ k, k ∈ nc'.permitted ↔ k ∈ nc.permitted
  excluded : ∀ k, k ∈ nc'.excluded ↔ k ∈ nc.excluded

lemma SameSets.constraints (h : SameSets nc nc') (k : Constraint) :
    k ∈ nc'.constraints ↔ k ∈ nc.constraints := by
  rw [NameConstraints.constraints, NameConstraints.constraints, mem_append, mem_append,
    h.permitted, h.excluded]

lemma any_congr_mem {α : Type} {xs ys : List α} (h : ∀ x, x ∈ ys ↔ x ∈ xs) (f : α → Bool) :
    ys.any f = xs.any f := by
  rw [Bool.eq_iff_iff, any_eq_true, any_eq_true]
  exact exists_congr fun x => and_congr_left fun _ => h x

lemma checkOneName_congr (h : SameSets nc nc') :
    checkOneName P ca nc' name = checkOneName P ca nc name := by
  rw [checkOneName, checkOneName, any_congr_mem h.constraints, any_congr_mem h.excluded,
    any_congr_mem h.permitted, any_congr_mem h.permitted]

lemma check_congr (h : SameSets nc nc') :
    checkNameConstraints P ca nc' below = checkNameConstraints P ca nc below := by
  have hone : checkOneName P ca nc' = checkOneName P ca nc := funext fun _ => checkOneName_congr h
  have hdropped : checkDropped ca nc' = checkDropped ca nc := by
    funext tag
    rw [checkDropped, checkDropped, any_congr_mem h.constraints]
  have hnames : checkNames P ca nc' = checkNames P ca nc := by
    funext cert
    rw [checkNames, checkNames, hone, hdropped, any_congr_mem h.constraints]
  rw [checkNameConstraints, checkNameConstraints, hnames, any_congr_mem h.constraints]

/-! ## Spelling -/

/-- Constraints that are the same but for the case of their domains. -/
structure SameSpelling (nc nc' : NameConstraints) : Prop where
  permitted : List.Forall₂ SameConstraint nc.permitted nc'.permitted
  excluded : List.Forall₂ SameConstraint nc.excluded nc'.excluded

/-- Certificates with names that are the same but for the case of their domains and the dots at
their ends. -/
structure SameNames (cert cert' : Certificate) : Prop where
  san : List.Forall₂ SameName cert.san cert'.san
  dropped : cert'.droppedSan = cert.droppedSan
  mails : List.Forall₂ (fun m m' => SameName (.Email m) (.Email m'))
    (subjectEmailAddresses cert.subjectDer) (subjectEmailAddresses cert'.subjectDer)

lemma SameSpelling.constraints (h : SameSpelling nc nc') :
    Forall₂ SameConstraint nc.constraints nc'.constraints :=
  rel_append h.permitted h.excluded

lemma forall₂_symm {α : Type} {R : α → α → Prop} (hR : ∀ x y, R x y → R y x) {xs ys : List α}
    (h : Forall₂ R xs ys) : Forall₂ R ys xs :=
  h.flip.imp fun x y hxy => hR y x hxy

lemma SameSpelling.symm (h : SameSpelling nc nc') : SameSpelling nc' nc :=
  ⟨forall₂_symm (fun _ _ => SameConstraint.symm) h.permitted,
    forall₂_symm (fun _ _ => SameConstraint.symm) h.excluded⟩

lemma SameNames.symm {cert cert' : Certificate} (h : SameNames cert cert') : SameNames cert' cert :=
  ⟨forall₂_symm (fun _ _ => SameName.symm) h.san, h.dropped.symm,
    forall₂_symm (fun _ _ => SameName.symm) h.mails⟩

lemma passes_imp (hnc : SameSpelling nc nc') (hname : SameName name name') (h : Passes nc name) :
    Passes nc' name' := by
  refine ⟨fun k' hk' hunsupported => ?_, fun k' hk' hmeans => ?_, fun ⟨k', hk', hkind⟩ => ?_⟩
  · obtain ⟨k, hk, hsame⟩ := forall₂_exists_of_mem_right hnc.constraints hk'
    rw [← hname.tag, ← hsame.unsupported] at hunsupported
    exact h.supported k hk hunsupported
  · obtain ⟨k, hk, hsame⟩ := forall₂_exists_of_mem_right hnc.excluded hk'
    exact h.not_excluded k hk ((means_congr hsame hname).2 hmeans)
  · obtain ⟨k, hk, hsame⟩ := forall₂_exists_of_mem_right hnc.permitted hk'
    obtain ⟨j, hj, hmeans⟩ := h.permitted ⟨k, hk, (sameKind_congr hsame hname).2 hkind⟩
    obtain ⟨j', hj', hsame'⟩ := forall₂_exists_of_mem hnc.permitted hj
    exact ⟨j', hj', (means_congr hsame' hname).1 hmeans⟩

lemma accepts_imp {cert cert' : Certificate} (hnc : SameSpelling nc nc')
    (hcert : SameNames cert cert')
    (hparsed : cert.NamesParsed P) (hparsed' : cert'.NamesParsed P) (h : Accepts nc cert) :
    Accepts nc' cert' := by
  refine ⟨fun n' hn' => ?_, fun tag htag k' hk' => ?_, fun ⟨m', hm'⟩ mail' hmail' => ?_⟩
  · obtain ⟨n, hn, hsame⟩ := forall₂_exists_of_mem_right hcert.san hn'
    exact passes_imp hnc hsame (h.san n hn)
  · rw [hcert.dropped] at htag
    obtain ⟨k, hk, hsame⟩ := forall₂_exists_of_mem_right hnc.constraints hk'
    rw [← hsame.kind]
    exact h.dropped tag htag k hk
  · rw [hparsed'.mails] at hmail'
    obtain ⟨mail, hmail, hsame⟩ := forall₂_exists_of_mem_right hcert.mails hmail'
    obtain ⟨k, hk, hsame'⟩ := forall₂_exists_of_mem_right hnc.constraints hm'
    have hemail : ∃ m, Constraint.Email m ∈ nc.constraints := by
      cases k with
      | Email m => exact ⟨m, hk⟩
      | _ => cases hsame'
    rw [← hparsed.mails] at hmail
    exact passes_imp hnc hsame (h.mails hemail mail hmail)

lemma noCuts_imp (hnc : SameSpelling nc nc') (hsame : Forall₂ SameNames below below')
    (h : NoCuts nc below) : NoCuts nc' below' := by
  intro cert' hcert' mail' hmail' k' hk' hcut
  obtain ⟨cert, hcert, hnames⟩ := forall₂_exists_of_mem_right hsame hcert'
  obtain ⟨mail, hmail, hname⟩ := forall₂_exists_of_mem_right hnames.mails hmail'
  obtain ⟨k, hk, hk''⟩ := forall₂_exists_of_mem_right hnc.constraints hk'
  exact h cert hcert mail hmail k hk (cuts_imp hk''.symm hname.symm hcut)

/-! ## The claim on all of them -/

def NameConstraints.Parsed (nc : NameConstraints) : Prop :=
  ∃ value, parseNameConstraints value = .ok nc

lemma NameConstraints.Parsed.read (h : nc.Parsed) : ∀ k ∈ nc.constraints, k.Read := by
  obtain ⟨value, hvalue⟩ := h
  exact parseNameConstraints_read hvalue

/-- The names that are checked, of the certificates below a CA. -/
def Checked (below : List Certificate) (name : GeneralName) : Prop :=
  ∃ cert ∈ below, name ∈ cert.san ∨ ∃ mail ∈ subjectEmailAddresses cert.subjectDer,
  name = .Email mail

/-- The constraints of a CA are applied as they should to what is below it. -/
structure Applied (P : Prims) (ca : Certificate) (nc : NameConstraints) (below : List Certificate) :
    Prop where
  verdict : Sliced.checkNameConstraints P ca nc below ≠ .fault
  covers : ∀ name, Checked below name → ∀ k ∈ nc.constraints, SameKind k name →
    ∃ b, Sliced.constraintCovers k name = .ok (some b) ∧ (b = true ↔ Means k name)
  sets : ∀ nc', SameSets nc nc' →
    Sliced.checkNameConstraints P ca nc' below = Sliced.checkNameConstraints P ca nc below
  spelling : ∀ nc' below', nc'.Parsed → (∀ cert ∈ below', cert.NamesParsed P) →
    SameSpelling nc nc' → List.Forall₂ SameNames below below' →
    (Sliced.checkNameConstraints P ca nc' below' = .ok () ↔
      Sliced.checkNameConstraints P ca nc below = .ok ())
  excluding : ∀ nc', nc'.Parsed → nc'.permitted = nc.permitted → nc.excluded ⊆ nc'.excluded →
    (∃ e, Sliced.checkNameConstraints P ca nc below = .err e) →
    Sliced.checkNameConstraints P ca nc' below ≠ .ok ()

lemma accepts_of_excluded_subset {cert : Certificate} (hperm : nc'.permitted = nc.permitted)
    (hexcl : nc.excluded ⊆ nc'.excluded) (h : Accepts nc' cert) : Accepts nc cert := by
  have hsub : ∀ k ∈ nc.constraints, k ∈ nc'.constraints := by
    intro k hk
    rw [NameConstraints.constraints, hperm]
    rcases mem_append.1 hk with hk | hk
    · exact mem_append_left _ hk
    · exact mem_append_right _ (hexcl hk)
  have hpass : ∀ n, Passes nc' n → Passes nc n := fun n hn =>
    ⟨fun k hk => hn.supported k (hsub k hk), fun k hk => hn.not_excluded k (hexcl hk),
      hperm ▸ hn.permitted⟩
  exact ⟨fun n hn => hpass n (h.san n hn), fun tag htag k hk => h.dropped tag htag k (hsub k hk),
    fun ⟨m, hm⟩ mail hmail => hpass _ (h.mails ⟨m, hsub _ hm⟩ mail hmail)⟩

theorem applied_of_noCuts (hnc : nc.Parsed) (hbelow : ∀ cert ∈ below, cert.NamesParsed P)
    (hno : NoCuts nc below) : Applied P ca nc below := by
  have hread := hnc.read
  have hcheck : Sliced.checkNameConstraints P ca nc below =
      Sliced.returns (checkNameConstraints P ca nc below) := Sliced.check_eq hread hbelow hno
  refine ⟨?_, fun name hname k hk hkind => ?_, fun nc' hsets => ?_, ?_, ?_⟩
  · rw [hcheck]
    exact Sliced.returns_ne_fault _
  · have hcase : ¬ Cuts k name ∧ name.DnsLower := by
      obtain ⟨cert, hcert, hsan | ⟨mail, hmail, rfl⟩⟩ := hname
      · have hnread := (hbelow cert hcert).read name hsan
        exact ⟨not_cuts_of_read hnread, hnread.dnsLower⟩
      · exact ⟨hno cert hcert mail hmail k hk, fun n hn => by cases hn⟩
    obtain ⟨b, hb⟩ := Option.isSome_iff_exists.1 (isSome_covers_iff.2 hkind)
    refine ⟨b, by rw [(covers_cases (hread k hk)).2 hcase.1, hb], ?_⟩
    rw [← covers_iff_means (hread k hk) hcase.2, hb, Option.some.injEq]
  · have hread' : ∀ k ∈ nc'.constraints, k.Read := fun k hk => hread k ((hsets.constraints k).1 hk)
    have hno' : NoCuts nc' below := fun cert hcert mail hmail k hk =>
      hno cert hcert mail hmail k ((hsets.constraints k).1 hk)
    rw [hcheck, Sliced.check_eq hread' hbelow hno', check_congr hsets]
  · intro nc' below' hnc' hbelow' hspelling hsame
    have hno' := noCuts_imp hspelling hsame hno
    rw [hcheck, Sliced.check_eq hnc'.read hbelow' hno', Sliced.returns_eq_ok, Sliced.returns_eq_ok,
      check_eq_ok_iff hread hbelow, check_eq_ok_iff hnc'.read hbelow']
    constructor
    · rintro ⟨hkinds, haccepts⟩
      refine ⟨fun k hk => ?_, fun cert hcert => ?_⟩
      · obtain ⟨k', hk', hkk'⟩ := forall₂_exists_of_mem hspelling.constraints hk
        rw [hkk'.kind]
        exact hkinds k' hk'
      · obtain ⟨cert', hcert', hnames⟩ := forall₂_exists_of_mem hsame hcert
        exact accepts_imp hspelling.symm hnames.symm (hbelow' cert' hcert') (hbelow cert hcert)
          (haccepts cert' hcert')
    · rintro ⟨hkinds, haccepts⟩
      refine ⟨fun k' hk' => ?_, fun cert' hcert' => ?_⟩
      · obtain ⟨k, hk, hkk'⟩ := forall₂_exists_of_mem_right hspelling.constraints hk'
        rw [← hkk'.kind]
        exact hkinds k hk
      · obtain ⟨cert, hcert, hnames⟩ := forall₂_exists_of_mem_right hsame hcert'
        exact accepts_imp hspelling hnames (hbelow cert hcert) (hbelow' cert' hcert')
          (haccepts cert hcert)
  · rintro nc' hnc' hperm hexcl ⟨e, he⟩ hok
    obtain ⟨hkinds, haccepts⟩ :=
      (check_eq_ok_iff hnc'.read hbelow).1 (Sliced.check_ok hnc'.read hbelow hok)
    have haccepted : checkNameConstraints P ca nc below = .ok () := by
      refine (check_eq_ok_iff hread hbelow).2 ⟨fun k hk => hkinds k ?_, fun cert hcert =>
        accepts_of_excluded_subset hperm hexcl (haccepts cert hcert)⟩
      rw [NameConstraints.constraints, hperm]
      rcases mem_append.1 hk with hk | hk
      · exact mem_append_left _ hk
      · exact mem_append_right _ (hexcl hk)
    rw [hcheck, haccepted] at he
    cases he

theorem noCuts_of_applied (hnc : nc.Parsed) (h : Applied P ca nc below) : NoCuts nc below := by
  intro cert hcert mail hmail k hk hcut
  have hkind : SameKind k (.Email mail) := by
    cases k with
    | Email m => trivial
    | _ => exact hcut.elim
  obtain ⟨b, hb, -⟩ := h.covers _ ⟨cert, hcert, .inr ⟨mail, hmail, rfl⟩⟩ k hk hkind
  rw [(covers_cases (hnc.read k hk)).1 hcut] at hb
  cases hb

/-- The constraints of a CA are applied as they should exactly if none of them cuts the domain of an
e-mail address in a subject inside a character. -/
theorem name_constraints_iff (hnc : nc.Parsed) (hbelow : ∀ cert ∈ below, cert.NamesParsed P) :
    Applied P ca nc below ↔ NoCuts nc below :=
  ⟨noCuts_of_applied hnc, applied_of_noCuts hnc hbelow⟩

/-! ## A domain that is cut -/

def tlv (tag : UInt8) (content : List UInt8) : List UInt8 :=
  tag :: UInt8.ofNat content.length :: content

def dotComDer : List UInt8 :=
  tlv TAG_SEQUENCE (tlv 0xa1 (tlv TAG_SEQUENCE (tlv 0x81 (Utf8.encode ".com".toList))))

def dotCom : NameConstraints := ⟨[], [.Email ".com".toList]⟩

lemma dotCom_parsed : dotCom.Parsed := ⟨dotComDer, by rfl⟩

def mailSubject (mail : Text) : List UInt8 :=
  tlv TAG_SEQUENCE (tlv TAG_SET (tlv TAG_SEQUENCE
    (tlv TAG_OID OID_EMAIL_ADDRESS ++ tlv 0x0c (Utf8.encode mail))))

/-- A certificate with that subject and no subjectAltName. -/
def mailCertificate (mail : Text) : Certificate :=
  { sampleCertificate AltNames.empty 1 2 false none with
    subjectDer := mailSubject mail
    subjectEmailAddresses := [mail] }

/-- An address whose domain is not cut. -/
theorem name_constraints_iff_ascii :
    Applied samplePrims sampleAnchor dotCom [mailCertificate "x@a.org".toList] ↔
      NoCuts dotCom [mailCertificate "x@a.org".toList] := by
  refine name_constraints_iff dotCom_parsed fun cert hcert => ?_
  rw [mem_singleton.1 hcert]
  exact ⟨.inl rfl, by decide⟩

/-- An address whose domain is cut: the check panics. -/
theorem constraint_cuts_domain :
    parseNameConstraints dotComDer = .ok dotCom ∧
      (mailCertificate "x@éaom".toList).NamesParsed samplePrims ∧
      Sliced.checkNameConstraints samplePrims sampleAnchor dotCom
        [mailCertificate "x@éaom".toList] = .fault ∧
      ¬ Applied samplePrims sampleAnchor dotCom [mailCertificate "x@éaom".toList] := by
  have hfault : Sliced.checkNameConstraints samplePrims sampleAnchor dotCom
      [mailCertificate "x@éaom".toList] = .fault := by
    decide
  exact ⟨by rfl, ⟨.inl rfl, by decide⟩, hfault, fun h => h.verdict hfault⟩

end Lazaret.X509
