import Lazaret.Lib.Utf8
import Lazaret.X509.Constraints
import Lazaret.X509.Der

/-!
# Reading names and constraints

What is read of DER about names (`x509.rs`): the constraints of a CA (`parse_name_constraints`), the
subjectAltName extension and the e-mail addresses in a subject.  The texts in the first two are
ASCII, and the ones that are compared with their case are in lower case (`Constraint.Read`,
`GeneralName.Read`); an e-mail address in a subject is any text.
-/

namespace Lazaret.X509

open List

/-! ## Constraints -/

def domainConstraintIsValid (c : Text) : Bool :=
  let body := if c.head? = some '.' then c.tail else c
  c = [] || (body ≠ [] && (body.splitOn '.').all fun label =>
    label ≠ [] && label.all fun b => 0x21 ≤ b.toNat && b.toNat ≤ 0x7e)

def mailboxConstraintIsValid (c : Text) : Bool :=
  match rsplitOnce '@' c with
  | some (localPart, domain) => localPart ≠ [] && domain ≠ [] && domainConstraintIsValid domain
  | none => domainConstraintIsValid c

/-- The constraint of one subtree, by the tag of its base. -/
def parseConstraint (tag : UInt8) (content : List UInt8) : Except Error Constraint :=
  if tag = 0x82 then
    match asciiText content with
    | none => .error (.Asn1 "bad dNSName constraint")
    | some s =>
      if domainConstraintIsValid (lowercase s) then .ok (.Dns (lowercase s))
      else .error (.Asn1 "bad dNSName constraint")
  else if tag = 0x81 then
    match asciiText content with
    | none => .ok (.Unsupported 0x81)
    | some s =>
      if mailboxConstraintIsValid s then .ok (.Email s)
      else .error (.Asn1 "bad rfc822Name constraint")
  else if tag = 0x86 then
    match asciiText content with
    | none => .ok (.Unsupported 0x86)
    | some s =>
      if domainConstraintIsValid (lowercase s) then .ok (.Uri (lowercase s))
      else .error (.Asn1 "bad URI constraint")
  else if tag = 0x87 ∧ (content.length = 8 ∨ content.length = 32) then .ok (.Ip content)
  else .ok (.Unsupported tag)

def readSubtree (cs : List Constraint) : Der (List Constraint) := do
  let subtree ← Der.sequence
  let (base, _) ← Der.next subtree
  let c ← parseConstraint base.tag base.content
  pure (cs ++ [c])

def readSubtrees (tag : UInt8) : Der (List Constraint) := do
  match ← Der.optional tag with
  | none => pure []
  | some t => Der.whileNotEmpty readSubtree [] t.content

def parseNameConstraints (value : List UInt8) : Except Error NameConstraints := do
  let (seq, outer) ← Der.sequence value
  let _ ← Der.finish outer
  let (permitted, seq) ← readSubtrees 0xa0 seq
  let (excluded, _) ← readSubtrees 0xa1 seq
  .ok ⟨permitted, excluded⟩

def Constraint.Read : Constraint → Prop
  | .Dns domain => lowercase domain = domain
  | .Email mailbox => isAscii mailbox = true
  | .Uri host => isAscii host = true
  | _ => True

lemma isAscii_of_asciiText {content : List UInt8} {s : Text} (h : asciiText content = some s) :
    isAscii s = true := by
  rw [asciiText] at h
  split at h
  next hall =>
    obtain rfl := Option.some.inj h
    rw [isAscii, all_map, all_eq_true]
    intro b hb
    have hlt := of_decide_eq_true (all_eq_true.1 hall b hb)
    have hnat : b.toNat < 128 := UInt8.lt_iff_toNat_lt.1 hlt
    have hchar : (Char.ofNat b.toNat).toNat = b.toNat := Utf8.toNat_ofNat (.inl (by omega))
    exact decide_eq_true (by rw [hchar]; exact hnat)
  · cases h

lemma toLower_cases (c : Char) : c.toLower = c ∨ (c.toNat < 128 ∧ c.toLower.toNat < 128) := by
  rw [or_iff_not_imp_left]
  intro hne
  have hupper : c.isUpper = true := by
    by_contra hnot
    exact hne (dif_neg fun h => hnot (decide_eq_true h))
  have hlt : ∀ n < 128, (Char.ofNat n).toLower.toNat < 128 := by decide
  have hle : c.toNat ≤ 90 := by
    have hrange : 65 ≤ c.val ∧ c.val ≤ 90 := of_decide_eq_true hupper
    exact UInt32.le_iff_toNat_le.1 hrange.2
  have hc := hlt c.toNat (by omega)
  rw [Char.ofNat_toNat] at hc
  exact ⟨by omega, hc⟩

lemma isAscii_lowercase {s : Text} (h : isAscii s = true) : isAscii (lowercase s) = true := by
  rw [isAscii, lowercase, all_map, all_eq_true]
  intro c hc
  have hlt := of_decide_eq_true (all_eq_true.1 h c hc)
  rcases toLower_cases c with heq | ⟨-, hlower⟩
  · exact decide_eq_true (by rw [heq]; exact hlt)
  · exact decide_eq_true hlower

lemma parseConstraint_read {tag : UInt8} {content : List UInt8} {c : Constraint}
    (h : parseConstraint tag content = .ok c) : c.Read := by
  rw [parseConstraint] at h
  split at h
  · split at h
    · cases h
    next s hs =>
      split at h
      · obtain rfl := Except.ok.inj h
        exact lowercase_idem s
      · cases h
  split at h
  · split at h
    · obtain rfl := Except.ok.inj h
      trivial
    next s hs =>
      split at h
      · obtain rfl := Except.ok.inj h
        exact isAscii_of_asciiText hs
      · cases h
  split at h
  · split at h
    · obtain rfl := Except.ok.inj h
      trivial
    next s hs =>
      split at h
      · obtain rfl := Except.ok.inj h
        exact isAscii_lowercase (isAscii_of_asciiText hs)
      · cases h
  split at h
  · obtain rfl := Except.ok.inj h
    trivial
  · obtain rfl := Except.ok.inj h
    trivial

lemma readSubtrees_read {tag : UInt8} {s t : List UInt8} {cs : List Constraint}
    (h : readSubtrees tag s = .ok (cs, t)) : ∀ c ∈ cs, c.Read := by
  obtain ⟨e, s₁, -, h⟩ := Cursor.bind_eq_ok.1 h
  cases e with
  | none =>
    obtain ⟨rfl, -⟩ := Cursor.pure_eq_ok.1 h
    exact fun c hc => absurd hc not_mem_nil
  | some e =>
    obtain ⟨cs', hloop, h⟩ := except_bind_eq_ok.1 h
    obtain ⟨rfl, -⟩ := Prod.mk.inj (Except.ok.inj h)
    refine Der.whileNotEmpty_inv (fun cs => ∀ c ∈ cs, c.Read) ?_
      (fun c hc => absurd hc not_mem_nil) hloop
    intro cs s cs' s' hread hcs
    obtain ⟨subtree, s₂, -, hread⟩ := Cursor.bind_eq_ok.1 hread
    obtain ⟨base, s₃, -, hread⟩ := Cursor.bind_eq_ok.1 hread
    obtain ⟨c, s₄, hc, hread⟩ := Cursor.bind_eq_ok.1 hread
    obtain ⟨rfl, -⟩ := Cursor.pure_eq_ok.1 hread
    obtain ⟨c', hparse, heq⟩ := except_bind_eq_ok.1 hc
    obtain ⟨rfl, -⟩ := Prod.mk.inj (Except.ok.inj heq)
    intro c hc
    rcases mem_append.1 hc with hc | hc
    · exact hcs c hc
    · rw [mem_singleton.1 hc]
      exact parseConstraint_read hparse

theorem parseNameConstraints_read {value : List UInt8} {nc : NameConstraints}
    (h : parseNameConstraints value = .ok nc) : ∀ c ∈ nc.constraints, c.Read := by
  obtain ⟨seq, -, h⟩ := except_bind_eq_ok.1 h
  obtain ⟨_, -, h⟩ := except_bind_eq_ok.1 h
  obtain ⟨permitted, hperm, h⟩ := except_bind_eq_ok.1 h
  obtain ⟨excluded, hexcl, h⟩ := except_bind_eq_ok.1 h
  obtain rfl := Except.ok.inj h
  intro c hc
  rcases mem_append.1 hc with hc | hc
  · exact readSubtrees_read hperm c hc
  · exact readSubtrees_read hexcl c hc

/-! ## Names -/

/-- One turn of the loop over the entries of a subjectAltName extension. -/
def readGeneralName (P : Prims) (a : AltNames) : Der AltNames := do
  let n ← Der.next
  a.read P n.tag n.content

/-- The subjectAltName arm of `apply_extension`. -/
def readSubjectAltName (P : Prims) (value : List UInt8) : Except Error AltNames := do
  let (names, outer) ← Der.sequence value
  let _ ← Der.finish outer
  Der.whileNotEmpty (readGeneralName P) .empty names

def GeneralName.Read : GeneralName → Prop
  | .Dns n => lowercase n = n
  | .Email mailbox => isAscii mailbox = true
  | .Uri uri => isAscii uri = true
  | _ => True

namespace AltNames

variable {P : Prims} {a a' : AltNames} {tag : UInt8} {content : List UInt8}

lemma mem_keep {x : Option GeneralName} {n : GeneralName} (h : n ∈ (a.keep tag x).san) :
    n ∈ a.san ∨ x = some n := by
  cases x with
  | none => exact .inl h
  | some m =>
    rcases mem_append.1 h with h | h
    · exact .inl h
    · rw [mem_singleton.1 h]
      exact .inr rfl

lemma read_read (h : a.read P tag content = .ok a') (ha : ∀ n ∈ a.san, n.Read) :
    ∀ n ∈ a'.san, n.Read := by
  have hkeep : ∀ {α : Type} {x : Option α} {f : α → GeneralName},
      a' = a.keep tag (x.map f) → (∀ y, x = some y → (f y).Read) → ∀ n ∈ a'.san, n.Read := by
    intro α x f heq hx n hn
    rw [heq] at hn
    rcases mem_keep hn with hn | hn
    · exact ha n hn
    · obtain ⟨y, hy, rfl⟩ := Option.map_eq_some_iff.1 hn
      exact hx y hy
  have hpush : ∀ m : GeneralName, m.Read → a'.san = a.san ++ [m] → ∀ n ∈ a'.san, n.Read := by
    intro m hm heq n hn
    rw [heq] at hn
    rcases mem_append.1 hn with hn | hn
    · exact ha n hn
    · rw [mem_singleton.1 hn]
      exact hm
  rw [AltNames.read] at h
  split at h
  · rw [readDns] at h
    split at h
    · split at h <;> cases h
    next s hs =>
      split at h
      · cases h
      · obtain rfl := Except.ok.inj h
        exact hpush (.Dns (lowercase s)) (lowercase_idem s) rfl
  split at h
  · obtain rfl := Except.ok.inj h
    exact hpush (.Ip content) trivial rfl
  split at h
  · exact hkeep (Except.ok.inj h).symm fun _ hy => isAscii_of_asciiText hy
  split at h
  · exact hkeep (Except.ok.inj h).symm fun _ hy => isAscii_of_asciiText hy
  split at h
  · exact hkeep (Except.ok.inj h).symm fun _ _ => trivial
  split at h
  · exact hkeep (Except.ok.inj h).symm fun _ _ => trivial
  split at h
  · obtain rfl := Except.ok.inj h
    exact hpush (.RegisteredId content) trivial rfl
  · obtain rfl := Except.ok.inj h
    exact ha

end AltNames

theorem readSubjectAltName_read {P : Prims} {value : List UInt8} {a : AltNames}
    (h : readSubjectAltName P value = .ok a) : ∀ n ∈ a.san, n.Read := by
  obtain ⟨names, -, h⟩ := except_bind_eq_ok.1 h
  obtain ⟨_, -, h⟩ := except_bind_eq_ok.1 h
  refine Der.whileNotEmpty_inv (fun a => ∀ n ∈ a.san, n.Read) ?_
    (fun n hn => absurd hn not_mem_nil) h
  intro a s a' s' hread ha
  obtain ⟨n, s₁, -, hread⟩ := Cursor.bind_eq_ok.1 hread
  obtain ⟨a₁, hn, heq⟩ := except_bind_eq_ok.1 hread
  obtain ⟨rfl, -⟩ := Prod.mk.inj (Except.ok.inj heq)
  exact AltNames.read_read hn ha

def OID_EMAIL_ADDRESS : List UInt8 := [0x2a, 0x86, 0x48, 0x86, 0xf7, 0x0d, 0x01, 0x09, 0x01]

/-- An attribute of a subject, after the e-mail addresses before it. -/
def readAttribute (out : List Text) : Der (List Text) := do
  let atv ← Der.sequence
  let (oid, atv) ← Der.expect TAG_OID atv
  let (value, _) ← Der.next atv
  pure (if oid.content = OID_EMAIL_ADDRESS then out ++ [Utf8.lossy value.content] else out)

/-- `subject_email_addresses`: what is read before the first error of a set, and of the sets. -/
def subjectEmailAddresses (nameDer : List UInt8) : List Text :=
  match Der.sequence nameDer with
  | .error _ => []
  | .ok (rdns, _) =>
    Der.whileReads (fun out => do
      let set ← Der.expect TAG_SET
      pure (Der.whileReads readAttribute out set.content)) [] rdns

/-- What `Certificate::parse` makes of the names: those of the subjectAltName extension, if there is
one, and the e-mail addresses of the subject as they are read where they are used. -/
structure Certificate.NamesParsed (P : Prims) (cert : Certificate) : Prop where
  names : cert.toAltNames = .empty ∨ ∃ value, readSubjectAltName P value = .ok cert.toAltNames
  mails : cert.subjectEmailAddresses = X509.subjectEmailAddresses cert.subjectDer

lemma Certificate.NamesParsed.read {P : Prims} {cert : Certificate} (h : cert.NamesParsed P) :
    ∀ n ∈ cert.san, n.Read := by
  rcases h.names with hnames | ⟨value, hvalue⟩
  · intro n hn
    rw [hnames] at hn
    exact absurd hn not_mem_nil
  · exact readSubjectAltName_read hvalue

end Lazaret.X509
