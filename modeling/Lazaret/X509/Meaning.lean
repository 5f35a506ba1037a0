import Lazaret.X509.Constrained
import Lazaret.X509.Slices

/-!
# What a constraint means

The meaning of a constraint in labels (`Means`), and which names are the same but for the case of a
domain and the dot at its end (`SameName`).  A constraint covers what it means (`covers_iff_means`),
and it means the same of such names (`means_congr`).
-/

namespace Lazaret.X509

open Domain List Option

/-! ## Labels -/

def labels (domain : Text) : List Text := (lowercase domain).splitOn '.'

/-- The labels of a domain but for the dot at its end. -/
def domainLabels (domain : Text) : List Text := labels (withoutTrailingDot domain)

/-- A DNS constraint is about a domain and everything below it, with a leading dot only about what
is below; an empty one about everything. -/
def DnsMeans (c n : Text) : Prop :=
  c = [] ∨ (c.head? = some '.' ∧ ∃ pre, pre ≠ [] ∧ domainLabels n = pre ++ labels c.tail) ∨
    (c.head? ≠ some '.' ∧ labels c <:+ domainLabels n)

/-- A constraint on a host is about that host, with a leading dot about the hosts below: those with
more before that dot. -/
def HostMeans (c host : Text) : Prop :=
  (c.head? = some '.' ∧
      ∃ pre, pre ≠ [] ∧ pre ≠ [[]] ∧ domainLabels host = pre ++ labels c.tail) ∨
    (c.head? ≠ some '.' ∧ domainLabels host = labels c)

def IsMailbox (mailbox localPart domain : Text) : Prop :=
  mailbox = localPart ++ '@' :: domain ∧ '@' ∉ domain

/-- An e-mail constraint is about one mailbox, or about those at hosts. -/
def EmailMeans (c mailbox : Text) : Prop :=
  c = [] ∨ ∃ localPart domain, IsMailbox mailbox localPart domain ∧
    ((∃ cDomain, IsMailbox c localPart cDomain ∧ domainLabels domain = labels cDomain) ∨
      ('@' ∉ c ∧ HostMeans c domain))

def UriMeans (c uri : Text) : Prop := c = [] ∨ ∃ host, uriHost uri = some host ∧ HostMeans c host

def SameKind (k : Constraint) (name : GeneralName) : Prop :=
  match k, name with
  | .Dns _, .Dns _ => True
  | .Email _, .Email _ => True
  | .Uri _, .Uri _ => True
  | .Ip _, .Ip _ => True
  | _, _ => False

def Means (k : Constraint) (name : GeneralName) : Prop :=
  match k, name with
  | .Dns c, .Dns n => DnsMeans c n
  | .Email c, .Email n => EmailMeans c n
  | .Uri c, .Uri n => UriMeans c n
  | .Ip c, .Ip n => InIpSubtree c n
  | _, _ => False

lemma Means.sameKind {k : Constraint} {name : GeneralName} (h : Means k name) :
    SameKind k name := by
  cases k <;> cases name <;> trivial

/-! ## A constraint covers what it means -/

variable {c d s host domain localPart : Text}

lemma toLower_eq_dot {a : Char} : a.toLower = '.' ↔ a = '.' := by
  rcases toLower_cases a with h | ⟨ha, -⟩
  · rw [h]
  · have hall : ∀ n < 128, (Char.ofNat n).toLower = '.' ↔ Char.ofNat n = '.' := by decide
    have ha := hall a.toNat ha
    rwa [Char.ofNat_toNat] at ha

lemma head?_lowercase : (lowercase s).head? = some '.' ↔ s.head? = some '.' := by
  cases s with
  | nil => rfl
  | cons a s =>
    show some a.toLower = some '.' ↔ some a = some '.'
    rw [some.injEq, some.injEq, toLower_eq_dot]

lemma lowercase_withoutTrailingDot (s : Text) :
    lowercase (withoutTrailingDot s) = withoutTrailingDot (lowercase s) := by
  have hlast : (lowercase s).getLast? = some '.' ↔ s.getLast? = some '.' := by
    rw [lowercase, getLast?_map, map_eq_some_iff]
    constructor
    · rintro ⟨a, ha, hdot⟩
      rw [ha, toLower_eq_dot.1 hdot]
    · exact fun h => ⟨_, h, rfl⟩
  rw [withoutTrailingDot, withoutTrailingDot]
  by_cases h : s.getLast? = some '.'
  · rw [if_pos h, if_pos (hlast.2 h), lowercase, lowercase, map_dropLast]
  · rw [if_neg h, if_neg fun h' => h (hlast.1 h')]

lemma labels_eq_iff : labels c = labels d ↔ lowercase c = lowercase d := splitOn_inj

lemma dnsConstraintMatches_iff_means {n : Text} (hc : lowercase c = c) (hn : lowercase n = n) :
    dnsConstraintMatches c (withoutTrailingDot n) = true ↔ DnsMeans c n := by
  have hlow : lowercase (withoutTrailingDot n) = withoutTrailingDot n := by
    rw [lowercase_withoutTrailingDot, hn]
  rw [dnsConstraintMatches_iff, InSubtree, DnsMeans, domainLabels, labels, labels, labels, hlow, hc]
  refine or_congr_right (or_congr ?_ (and_congr_right fun _ => within_iff_splitOn))
  cases c with
  | nil => simp
  | cons a c =>
    have htail : lowercase c = c := (cons.inj hc).2
    rw [tail_cons, htail, head?_cons, some.injEq, ← below_iff_splitOn]
    constructor
    · rintro ⟨domain, heq, hbelow⟩
      obtain ⟨rfl, rfl⟩ := cons.inj heq
      exact ⟨rfl, hbelow⟩
    · rintro ⟨rfl, hbelow⟩
      exact ⟨c, rfl, hbelow⟩

lemma length_lt_and_drop_eq {t : Text} :
    (t.length < s.length ∧ s.drop (s.length - t.length) = t) ↔ ∃ q, q ≠ [] ∧ s = q ++ t := by
  constructor
  · rintro ⟨hlt, hdrop⟩
    refine ⟨s.take (s.length - t.length), ?_, ?_⟩
    · refine ne_nil_of_length_pos ?_
      rw [length_take]
      omega
    · conv_lhs => rw [← take_append_drop (s.length - t.length) s]
      rw [hdrop]
  · rintro ⟨q, hq, rfl⟩
    have hpos := length_pos_of_ne_nil hq
    rw [length_append, Nat.add_sub_cancel, drop_left]
    exact ⟨by omega, rfl⟩

lemma domainMatches_iff_means :
    domainMatches c (withoutTrailingDot host) = true ↔ HostMeans c host := by
  rw [domainMatches, HostMeans]
  by_cases hdot : c.head? = some '.'
  · obtain ⟨d, rfl⟩ : ∃ d, c = '.' :: d := by
      cases c with
      | nil => cases hdot
      | cons a d =>
        obtain rfl := some.inj hdot
        exact ⟨d, rfl⟩
    have hlower : lowercase ('.' :: d) = '.' :: lowercase d := rfl
    rw [if_pos hdot, and_iff_right hdot, decide_eq_true_iff, eqIgnoreCase, decide_eq_true_iff,
      hlower, lowercase, map_drop]
    have hiff := length_lt_and_drop_eq (s := lowercase (withoutTrailingDot host))
      (t := '.' :: lowercase d)
    rw [exists_append_iff, length_cons, lowercase, lowercase, length_map, length_map] at hiff
    rw [length_cons]
    refine hiff.trans ?_
    exact (or_iff_left fun h => h.1 hdot).symm
  · rw [if_neg hdot, eqIgnoreCase, decide_eq_true_iff, ← labels_eq_iff]
    constructor
    · exact fun h => .inr ⟨hdot, h⟩
    · rintro (⟨h, -⟩ | ⟨-, h⟩)
      · exact absurd h hdot
      · exact h

lemma eqIgnoreCase_iff : eqIgnoreCase s d = true ↔ labels s = labels d := by
  rw [eqIgnoreCase, decide_eq_true_iff, labels_eq_iff]

lemma isMailbox_iff {mailbox : Text} :
    IsMailbox mailbox localPart domain ↔ rsplitOnce '@' mailbox = some (localPart, domain) :=
  rsplitOnce_eq_some.symm

lemma emailConstraintMatches_iff_means {mailbox : Text} :
    emailConstraintMatches c mailbox = true ↔ EmailMeans c mailbox := by
  rw [emailConstraintMatches, decide_eq_true_iff, EmailMeans]
  refine or_congr_right ?_
  simp only [isMailbox_iff]
  cases rsplitOnce '@' mailbox with
  | none => simp
  | some e =>
    obtain ⟨localPart, domain⟩ := e
    rw [any_some, mailboxMatches]
    cases hc : rsplitOnce '@' c with
    | none =>
      rw [domainMatches_iff_means]
      constructor
      · exact fun h => ⟨localPart, domain, rfl, .inr ⟨rsplitOnce_eq_none.1 hc, h⟩⟩
      · rintro ⟨l, d, heq, ⟨_, h, -⟩ | ⟨-, h⟩⟩
        · cases h
        · obtain ⟨rfl, rfl⟩ := Prod.mk.inj (some.inj heq)
          exact h
    | some e =>
      obtain ⟨cLocal, cDomain⟩ := e
      rw [decide_eq_true_iff, eqIgnoreCase_iff]
      constructor
      · rintro ⟨rfl, h⟩
        exact ⟨localPart, domain, rfl, .inl ⟨cDomain, rfl, h⟩⟩
      · rintro ⟨l, d, heq, ⟨cd, h, hlabels⟩ | ⟨hat, -⟩⟩
        · obtain ⟨rfl, rfl⟩ := Prod.mk.inj (some.inj heq)
          obtain ⟨rfl, rfl⟩ := Prod.mk.inj (some.inj h)
          exact ⟨rfl, hlabels⟩
        · rw [rsplitOnce_eq_none.2 hat] at hc
          cases hc

lemma uriConstraintMatches_iff_means {uri : Text} :
    (c = [] ∨ (uriHost uri).any (fun h => uriHostMatches c (withoutTrailingDot h)) = true) ↔
      UriMeans c uri := by
  rw [UriMeans]
  by_cases hc : c = []
  · exact iff_of_true (.inl hc) (.inl hc)
  rw [or_iff_right hc, or_iff_right hc]
  cases uriHost uri with
  | none => simp
  | some host =>
    rw [any_some, uriHostMatches, decide_eq_true_iff, or_iff_right hc, domainMatches_iff_means]
    constructor
    · exact fun h => ⟨host, rfl, h⟩
    · rintro ⟨host', heq, h⟩
      obtain rfl := some.inj heq
      exact h

/-- A dNSName that is compared with its case is in lower case. -/
def GeneralName.DnsLower (name : GeneralName) : Prop :=
  ∀ n, name = .Dns n → lowercase n = n

lemma GeneralName.Read.dnsLower {name : GeneralName} (h : name.Read) : name.DnsLower := by
  rintro n rfl
  exact h

theorem covers_iff_means {k : Constraint} {name : GeneralName} (hk : k.Read) (hn : name.DnsLower) :
    constraintCovers k name = some true ↔ Means k name := by
  cases k with
  | Dns c =>
    cases name with
    | Dns n =>
      rw [constraintCovers, some.injEq]
      exact dnsConstraintMatches_iff_means hk (hn n rfl)
    | _ => exact iff_of_false (some_ne_none _).symm id
  | Email c =>
    cases name with
    | Email n =>
      rw [constraintCovers, some.injEq]
      exact emailConstraintMatches_iff_means
    | _ => exact iff_of_false (some_ne_none _).symm id
  | Uri c =>
    cases name with
    | Uri n =>
      rw [constraintCovers, some.injEq, decide_eq_true_iff]
      exact uriConstraintMatches_iff_means
    | _ => exact iff_of_false (some_ne_none _).symm id
  | Ip c =>
    cases name with
    | Ip n =>
      rw [constraintCovers, some.injEq]
      exact ipConstraintMatches_iff
    | _ => exact iff_of_false (some_ne_none _).symm id
  | Unsupported tag => cases name <;> exact iff_of_false (some_ne_none _).symm id

lemma isSome_covers_iff {k : Constraint} {name : GeneralName} :
    (constraintCovers k name).isSome = true ↔ SameKind k name := by
  cases k <;> cases name <;> simp [constraintCovers, SameKind]

/-! ## Names that are the same -/

/-- The same domain but for its case and the dot at its end. -/
def SameDomain (d d' : Text) : Prop :=
  lowercase (withoutTrailingDot d) = lowercase (withoutTrailingDot d')

/-- The same name but for the case of its domain and the dot at its end. -/
def SameName (n n' : GeneralName) : Prop :=
  match n, n' with
  | .Dns d, .Dns d' => SameDomain d d'
  | .Email m, .Email m' =>
    m = m' ∨ ∃ l d d', IsMailbox m l d ∧ IsMailbox m' l d' ∧ SameDomain d d'
  | .Uri u, .Uri u' =>
    u = u' ∨ ∃ h h', uriHost u = some h ∧ uriHost u' = some h' ∧ SameDomain h h'
  | n, n' => n = n'

/-- The same constraint but for the case of its domain. -/
def SameConstraint (k k' : Constraint) : Prop :=
  match k, k' with
  | .Dns c, .Dns c' => lowercase c = lowercase c'
  | .Email c, .Email c' =>
    (∃ l d d', IsMailbox c l d ∧ IsMailbox c' l d' ∧ lowercase d = lowercase d') ∨
      ('@' ∉ c ∧ '@' ∉ c' ∧ lowercase c = lowercase c')
  | .Uri c, .Uri c' => lowercase c = lowercase c'
  | k, k' => k = k'

variable {c' d' : Text} {k k' : Constraint} {n n' : GeneralName}

lemma SameDomain.labels (h : SameDomain d d') : domainLabels d = domainLabels d' :=
  labels_eq_iff.2 h

lemma head?_congr (h : lowercase c = lowercase c') :
    c.head? = some '.' ↔ c'.head? = some '.' := by
  rw [← head?_lowercase, h, head?_lowercase]

lemma labels_tail_congr (h : lowercase c = lowercase c') : labels c.tail = labels c'.tail := by
  refine labels_eq_iff.2 ?_
  rw [lowercase, lowercase, map_tail, map_tail]
  exact congrArg List.tail h

lemma eq_nil_congr (h : lowercase c = lowercase c') : c = [] ↔ c' = [] := by
  have hnil : ∀ s : Text, lowercase s = [] ↔ s = [] := fun s => map_eq_nil_iff
  rw [← hnil, h, hnil]

lemma hostMeans_congr (hc : lowercase c = lowercase c') (hd : domainLabels d = domainLabels d') :
    HostMeans c d ↔ HostMeans c' d' := by
  rw [HostMeans, HostMeans, head?_congr hc, ne_eq, head?_congr hc, labels_tail_congr hc, hd,
    labels_eq_iff.2 hc]

lemma emailMeans_congr {m m' : Text} (hk : SameConstraint (.Email c) (.Email c'))
    (hn : SameName (.Email m) (.Email m')) (h : EmailMeans c m) : EmailMeans c' m' := by
  have hmail : ∀ l d, IsMailbox m l d → ∃ d',
    IsMailbox m' l d' ∧ domainLabels d = domainLabels d' := by
    intro l d hm
    rcases hn with rfl | ⟨l', d₁, d₂, h₁, h₂, hsame⟩
    · exact ⟨d, hm, rfl⟩
    · obtain ⟨rfl, rfl⟩ := Prod.mk.inj
        (some.inj ((isMailbox_iff.1 hm).symm.trans (isMailbox_iff.1 h₁)))
      exact ⟨d₂, h₂, hsame.labels⟩
  rcases h with rfl | ⟨l, d, hm, h⟩
  · rcases hk with ⟨l, d, d', ⟨hnil, -⟩, -⟩ | ⟨-, -, hlower⟩
    · exact absurd hnil.symm (append_ne_nil_of_right_ne_nil _ (cons_ne_nil _ _))
    · exact .inl ((eq_nil_congr hlower).1 rfl)
  · obtain ⟨d', hm', hlabels⟩ := hmail l d hm
    refine .inr ⟨l, d', hm', ?_⟩
    rcases h with ⟨cd, hbox, hcd⟩ | ⟨hat, hhost⟩
    · rcases hk with ⟨l', d₁, d₂, h₁, h₂, hlower⟩ | ⟨hat, -, -⟩
      · obtain ⟨rfl, rfl⟩ := Prod.mk.inj
          (some.inj ((isMailbox_iff.1 hbox).symm.trans (isMailbox_iff.1 h₁)))
        exact .inl ⟨d₂, h₂, by rw [← hlabels, hcd, labels_eq_iff.2 hlower]⟩
      · exact absurd (by rw [hbox.1]; simp) hat
    · rcases hk with ⟨l', d₁, d₂, h₁, -, -⟩ | ⟨-, hat', hlower⟩
      · exact absurd (by rw [h₁.1]; simp) hat
      · exact .inr ⟨hat', (hostMeans_congr hlower hlabels).1 hhost⟩

lemma uriMeans_congr {u u' : Text} (hk : lowercase c = lowercase c')
    (hn : SameName (.Uri u) (.Uri u')) (h : UriMeans c u) : UriMeans c' u' := by
  rcases h with h | ⟨host, hhost, h⟩
  · exact .inl ((eq_nil_congr hk).1 h)
  · rcases hn with rfl | ⟨h₁, h₂, hh₁, hh₂, hsame⟩
    · exact .inr ⟨host, hhost, (hostMeans_congr hk rfl).1 h⟩
    · obtain rfl := some.inj (hhost.symm.trans hh₁)
      exact .inr ⟨h₂, hh₂, (hostMeans_congr hk hsame.labels).1 h⟩

lemma SameDomain.symm (h : SameDomain d d') : SameDomain d' d := Eq.symm h

lemma SameName.symm (h : SameName n n') : SameName n' n := by
  cases n with
  | Dns d =>
    cases n' with
    | Dns d' => exact SameDomain.symm h
    | _ => exact Eq.symm h
  | Email m =>
    cases n' with
    | Email m' =>
      rcases h with rfl | ⟨l, d, d', hm, hm', hd⟩
      · exact .inl rfl
      · exact .inr ⟨l, d', d, hm', hm, hd.symm⟩
    | _ => exact Eq.symm h
  | Uri u =>
    cases n' with
    | Uri u' =>
      rcases h with rfl | ⟨d, d', hu, hu', hd⟩
      · exact .inl rfl
      · exact .inr ⟨d', d, hu', hu, hd.symm⟩
    | _ => exact Eq.symm h
  | _ => cases n' <;> exact Eq.symm h

lemma SameConstraint.symm (h : SameConstraint k k') : SameConstraint k' k := by
  cases k with
  | Email c =>
    cases k' with
    | Email c' =>
      rcases h with ⟨l, d, d', hc, hc', hd⟩ | ⟨hc, hc', hlower⟩
      · exact .inl ⟨l, d', d, hc', hc, hd.symm⟩
      · exact .inr ⟨hc', hc, hlower.symm⟩
    | _ => exact Eq.symm h
  | _ => cases k' <;> exact Eq.symm h

lemma SameConstraint.kind (h : SameConstraint k k') : k.kind = k'.kind := by
  cases k <;> cases k' <;> first | rfl | exact congrArg Constraint.kind h

lemma SameConstraint.unsupported (h : SameConstraint k k') {tag : UInt8} :
    k = .Unsupported tag ↔ k' = .Unsupported tag := by
  cases k <;> cases k' <;> first | exact Iff.of_eq (congrArg (· = _) h) | simp

lemma SameName.tag (h : SameName n n') : n.tag = n'.tag := by
  cases n <;> cases n' <;> first | rfl | exact congrArg GeneralName.tag h

lemma sameKind_imp (hk : SameConstraint k k') (hn : SameName n n') (h : SameKind k n) :
    SameKind k' n' := by
  cases k <;> cases n <;> first
    | exact h.elim
    | cases k' <;> cases n' <;> trivial

lemma means_imp (hk : SameConstraint k k') (hn : SameName n n') (h : Means k n) : Means k' n' := by
  have hkind := sameKind_imp hk hn h.sameKind
  cases k with
  | Dns c =>
    cases n with
    | Dns d =>
      cases k' with
      | Dns c' =>
        cases n' with
        | Dns d' =>
          have hlower : lowercase c = lowercase c' := hk
          have hlabels : domainLabels d = domainLabels d' := SameDomain.labels hn
          rw [Means, DnsMeans, eq_nil_congr hlower, head?_congr hlower, ne_eq,
            head?_congr hlower, labels_tail_congr hlower, labels_eq_iff.2 hlower, hlabels] at h
          exact h
        | _ => exact hkind.elim
      | _ => cases hk
    | _ => exact h.elim
  | Email c =>
    cases n with
    | Email m =>
      cases k' with
      | Email c' =>
        cases n' with
        | Email m' => exact emailMeans_congr hk hn h
        | _ => exact hkind.elim
      | _ => cases hk
    | _ => exact h.elim
  | Uri c =>
    cases n with
    | Uri u =>
      cases k' with
      | Uri c' =>
        cases n' with
        | Uri u' => exact uriMeans_congr hk hn h
        | _ => exact hkind.elim
      | _ => cases hk
    | _ => exact h.elim
  | Ip c =>
    cases n with
    | Ip a =>
      cases k' with
      | Ip c' =>
        cases n' with
        | Ip a' =>
          obtain rfl := Constraint.Ip.inj hk
          obtain rfl := GeneralName.Ip.inj hn
          exact h
        | _ => exact hkind.elim
      | _ => cases hk
    | _ => exact h.elim
  | Unsupported tag => cases n <;> exact h.elim

theorem means_congr (hk : SameConstraint k k') (hn : SameName n n') : Means k n ↔ Means k' n' :=
  ⟨means_imp hk hn, means_imp hk.symm hn.symm⟩

lemma sameKind_congr (hk : SameConstraint k k') (hn : SameName n n') :
    SameKind k n ↔ SameKind k' n' :=
  ⟨sameKind_imp hk hn, sameKind_imp hk.symm hn.symm⟩

/-! ### What is cut -/

lemma cutsInside_congr (hc : lowercase c = lowercase c') (hd : lowercase d = lowercase d')
    (h : CutsInside c d) : CutsInside c' d' := by
  obtain ⟨hdot, hlen, hslice⟩ := h
  rw [← textLen_lowercase c, ← textLen_lowercase d, hc, hd, textLen_lowercase, textLen_lowercase]
    at hlen
  refine ⟨(head?_congr hc).1 hdot, hlen, ?_⟩
  have hlower := sliceFrom_lowercase d (textLen d - textLen c)
  rw [hslice, map_none, hd, sliceFrom_lowercase, map_eq_none_iff] at hlower
  rw [← textLen_lowercase c', ← textLen_lowercase d', ← hc, ← hd, textLen_lowercase,
    textLen_lowercase]
  exact hlower

lemma cuts_imp {m m' : Text} (hk : SameConstraint k k') (hn : SameName (.Email m) (.Email m'))
    (h : Cuts k (.Email m)) : Cuts k' (.Email m') := by
  cases k with
  | Email c =>
    cases k' with
    | Email c' =>
      obtain ⟨e, he, hat, hcut⟩ := h
      have hsame : '@' ∉ c' ∧ lowercase c = lowercase c' := by
        rcases hk with ⟨l, d, d', hc, -, -⟩ | ⟨-, hat', hlower⟩
        · exact absurd (by rw [hc.1]; simp) hat
        · exact ⟨hat', hlower⟩
      rcases hn with rfl | ⟨l, d, d', hm, hm', hd⟩
      · exact ⟨e, he, hsame.1, cutsInside_congr hsame.2 rfl hcut⟩
      · rw [isMailbox_iff.1 hm] at he
        obtain rfl := some.inj he
        exact ⟨(l, d'), isMailbox_iff.1 hm', hsame.1, cutsInside_congr hsame.2 hd hcut⟩
    | _ => cases hk
  | _ => exact h.elim

end Lazaret.X509
