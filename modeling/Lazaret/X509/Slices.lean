import Lazaret.X509.Reading
import Mathlib.Algebra.GroupWithZero.Nat

/-!
# Name constraints, byte by byte

`check_name_constraints` with the slices of texts that it takes: they are cut at byte offsets, and
one that is cut inside a character panics.  Only the domain of an e-mail address in a subject can be
cut so (`covers_cases`); where none is, the check is `X509.checkNameConstraints` (`check_eq`), and
where it accepts, so does that one (`check_ok`).
-/

namespace Lazaret.X509

open List Outcome

/-! ## Slices -/

def textLen (s : Text) : ℕ := (s.map Char.utf8Size).sum

/-- `&s[n..]`: none inside a character, and out of range. -/
def sliceFrom : Text → ℕ → Option Text
  | s, 0 => some s
  | [], _ + 1 => none
  | c :: s, n + 1 => if c.utf8Size ≤ n + 1 then sliceFrom s (n + 1 - c.utf8Size) else none

variable {s t p : Text} {n : ℕ}

lemma textLen_append : textLen (s ++ t) = textLen s + textLen t := by
  rw [textLen, map_append, sum_append]
  rfl

lemma textLen_cons (c : Char) (s : Text) : textLen (c :: s) = c.utf8Size + textLen s := rfl

lemma length_le_textLen (s : Text) : s.length ≤ textLen s := by
  induction s with
  | nil => exact Nat.zero_le _
  | cons c s ih =>
    have hpos := c.utf8Size_pos
    rw [textLen_cons, length_cons]
    omega

lemma sliceFrom_eq_some : sliceFrom s n = some t ↔ ∃ p, s = p ++ t ∧ textLen p = n := by
  induction s generalizing n with
  | nil =>
    cases n with
    | zero =>
      rw [sliceFrom, Option.some.injEq]
      constructor
      · rintro rfl
        exact ⟨[], rfl, rfl⟩
      · rintro ⟨p, hp, -⟩
        exact (append_eq_nil_iff.1 hp.symm).2.symm
    | succ n =>
      rw [sliceFrom]
      refine ⟨fun h => absurd h (Option.some_ne_none _).symm, ?_⟩
      rintro ⟨p, hp, hlen⟩
      rw [(append_eq_nil_iff.1 hp.symm).1] at hlen
      cases hlen
  | cons c s ih =>
    cases n with
    | zero =>
      rw [sliceFrom, Option.some.injEq]
      constructor
      · rintro rfl
        exact ⟨[], rfl, rfl⟩
      · rintro ⟨p, hp, hlen⟩
        have hnil : p = [] :=
          length_eq_zero_iff.1 (Nat.le_zero.1 (hlen ▸ length_le_textLen p))
        rw [hnil] at hp
        exact hp
    | succ n =>
      rw [sliceFrom]
      constructor
      · intro h
        split at h
        next hle =>
          obtain ⟨p, rfl, hlen⟩ := ih.1 h
          refine ⟨c :: p, rfl, ?_⟩
          rw [textLen_cons, hlen]
          omega
        · cases h
      · rintro ⟨p, hp, hlen⟩
        cases p with
        | nil => cases hlen
        | cons d p =>
          obtain ⟨rfl, rfl⟩ := cons.inj hp
          rw [textLen_cons] at hlen
          rw [if_pos (by omega)]
          exact ih.2 ⟨p, rfl, by omega⟩

lemma utf8Size_of_lt {c : Char} (h : c.toNat < 128) : c.utf8Size = 1 :=
  Char.utf8Size_eq_one_iff.2 (UInt32.le_iff_toNat_le.2 (Nat.le_of_lt_succ h))

lemma utf8Size_toLower (c : Char) : c.toLower.utf8Size = c.utf8Size := by
  rcases toLower_cases c with h | ⟨hc, hlower⟩
  · rw [h]
  · rw [utf8Size_of_lt hc, utf8Size_of_lt hlower]

lemma textLen_lowercase (s : Text) : textLen (lowercase s) = textLen s := by
  rw [textLen, lowercase, map_map]
  exact congrArg sum (map_congr_left fun c _ => utf8Size_toLower c)

lemma sliceFrom_lowercase (s : Text) (n : ℕ) :
    sliceFrom (lowercase s) n = (sliceFrom s n).map lowercase := by
  induction s generalizing n with
  | nil => cases n <;> rfl
  | cons c s ih =>
    cases n with
    | zero => rfl
    | succ n =>
      show sliceFrom (c.toLower :: lowercase s) (n + 1) = _
      rw [sliceFrom, sliceFrom, utf8Size_toLower]
      split
      · exact ih _
      · rfl

lemma isAscii_cons {c : Char} : isAscii (c :: s) = true ↔ c.toNat < 128 ∧ isAscii s = true := by
  rw [isAscii, all_cons, Bool.and_eq_true, decide_eq_true_iff]
  rfl

lemma textLen_of_isAscii (h : isAscii s = true) : textLen s = s.length := by
  induction s with
  | nil => rfl
  | cons c s ih =>
    obtain ⟨hc, hs⟩ := isAscii_cons.1 h
    rw [textLen_cons, ih hs, utf8Size_of_lt hc, length_cons, add_comm]

lemma isAscii_of_lowercase (h : isAscii (lowercase s) = true) : isAscii s = true := by
  induction s with
  | nil => rfl
  | cons c s ih =>
    obtain ⟨hc, hs⟩ := isAscii_cons.1 h
    refine isAscii_cons.2 ⟨?_, ih hs⟩
    rcases toLower_cases c with heq | ⟨hlt, -⟩
    · rwa [heq] at hc
    · exact hlt

/-! ## The checks -/

/-- Where a slice of the end of a domain, as long as a constraint, is inside a character. -/
def CutsInside (constraint domain : Text) : Prop :=
  constraint.head? = some '.' ∧ textLen constraint < textLen domain ∧
    sliceFrom domain (textLen domain - textLen constraint) = none

namespace Sliced

/-- The last two branches of `uri_host_matches` and of `email_constraint_matches`. -/
def domainMatches (constraint domain : Text) : Outcome Error Bool :=
  if constraint.head? = some '.' then
    if textLen constraint < textLen domain then do
      let tail ← Outcome.orFault (sliceFrom domain (textLen domain - textLen constraint))
      .ok (eqIgnoreCase tail constraint)
    else .ok false
  else .ok (eqIgnoreCase domain constraint)

def uriHostMatches (constraint host : Text) : Outcome Error Bool :=
  if constraint = [] then .ok true else domainMatches constraint host

def emailConstraintMatches (constraint mailbox : Text) : Outcome Error Bool :=
  if constraint = [] then .ok true
  else match rsplitOnce '@' mailbox with
    | none => .ok false
    | some (localPart, domain) =>
      match rsplitOnce '@' constraint with
      | some (cLocal, cDomain) => .ok (localPart = cLocal ∧ eqIgnoreCase domain cDomain)
      | none => domainMatches constraint domain

def constraintCovers (c : Constraint) (name : GeneralName) : Outcome Error (Option Bool) :=
  match c, name with
  | .Dns c, .Dns n => .ok (some (dnsConstraintMatches c (withoutTrailingDot n)))
  | .Email c, .Email n =>
    if c = [] then .ok (some true)
    else match rsplitOnce '@' n with
      | some (localPart, domain) =>
        some <$> emailConstraintMatches c (localPart ++ '@' :: withoutTrailingDot domain)
      | none => .ok (some false)
  | .Uri c, .Uri n =>
    if c = [] then .ok (some true)
    else match uriHost n with
      | some h => some <$> uriHostMatches c (withoutTrailingDot h)
      | none => .ok (some false)
  | .Ip c, .Ip n => .ok (some (ipConstraintMatches c n))
  | _, _ => .ok none

def returns {α : Type} : Except Error α → Outcome Error α
  | .ok a => .ok a
  | .error e => .err e

variable (P : Prims)

/-- A turn of the loop over the permitted subtrees: whether one applies, and whether one permits. -/
def permit (name : GeneralName) (r : Bool × Bool) (c : Constraint) : Outcome Error
    (Bool × Bool) := do
  match ← constraintCovers c name with
  | some m => .ok (true, r.2 || m)
  | none => .ok r

def checkOneName (ca : Certificate) (nc : NameConstraints) (name : GeneralName) :
    Outcome Error Unit := do
  if nc.constraints.any fun c => c = .Unsupported name.tag then
    returns (pathErr ca
      s!"{nameLabel P name} is under a name constraint of a kind that is not supported, in")
  else do
    let excluded ← nc.excluded.anyM fun c => do
      let covers ← constraintCovers c name
      .ok (covers = some true)
    if excluded then
      returns (pathErr ca s!"{nameLabel P name} is excluded by a name constraint of")
    else do
      let (applies, permitted) ← nc.permitted.foldlM (permit name) (false, false)
      if applies ∧ ¬ permitted then
        returns (pathErr ca s!"{nameLabel P name} is not permitted by name constraints of")
      else .ok ()

/-- The names of one certificate, as `check_name_constraints` goes through them. -/
def checkNames (ca : Certificate) (nc : NameConstraints) (cert : Certificate) :
    Outcome Error Unit := do
  cert.san.forM (checkOneName P ca nc)
  cert.droppedSan.forM fun kind => returns (checkDropped ca nc kind)
  if nc.constraints.any Constraint.isEmail then
    (subjectEmailAddresses cert.subjectDer).forM fun mail => checkOneName P ca nc (.Email mail)

def checkNameConstraints (ca : Certificate) (nc : NameConstraints) (below : List Certificate) :
    Outcome Error Unit :=
  if nc.constraints.any fun c => c.kind = 0xa4 then
    returns (pathErr ca "directoryName name constraints are not supported, in")
  else below.forM (checkNames P ca nc)

end Sliced

/-! ## Where nothing is cut -/

variable {c : Char} {a b constraint domain : Text}

lemma rsplitOnce_append (h : c ∉ b) : rsplitOnce c (a ++ c :: b) = some (a, b) := by
  have hafter : (a ++ c :: b).rtakeWhile (· ≠ c) = b := by
    have hb : ∀ x ∈ b.reverse, decide (x ≠ c) = true := by
      intro x hx
      refine decide_eq_true ?_
      rintro rfl
      exact h (mem_reverse.1 hx)
    rw [List.rtakeWhile, reverse_append, reverse_cons, append_assoc, takeWhile_append_of_pos hb,
      singleton_append, takeWhile_cons, if_neg (by simp), append_nil, reverse_reverse]
  rw [rsplitOnce, hafter, if_pos (by simp), length_append, length_cons]
  have hlen : a.length + (b.length + 1) - b.length - 1 = a.length := by omega
  rw [hlen, take_left]

lemma rsplitOnce_eq_some : rsplitOnce c s = some (a, b) ↔ s = a ++ c :: b ∧ c ∉ b := by
  constructor
  · intro h
    have hmem : c ∈ s := by
      by_contra hnot
      rw [rsplitOnce, if_neg hnot] at h
      cases h
    obtain ⟨as, bs, hrev, hnot⟩ := eq_append_cons_of_mem (mem_reverse.2 hmem)
    have hs : s = bs.reverse ++ c :: as.reverse := by
      rw [← reverse_reverse s, hrev, reverse_append, reverse_cons, append_assoc]
      rfl
    have hnot' : c ∉ as.reverse := fun h => hnot (mem_reverse.1 h)
    rw [hs, rsplitOnce_append hnot'] at h
    obtain ⟨rfl, rfl⟩ := Prod.mk.inj (Option.some.inj h)
    exact ⟨hs, hnot'⟩
  · rintro ⟨rfl, h⟩
    exact rsplitOnce_append h

lemma rsplitOnce_eq_none : rsplitOnce c s = none ↔ c ∉ s := by
  rw [rsplitOnce]
  constructor
  · intro h hmem
    rw [if_pos hmem] at h
    cases h
  · exact fun h => if_neg h

/-- A suffix with as many bytes as an ASCII constraint is equal to it without case exactly if the
suffix with as many characters is. -/
lemma suffix_eqIgnoreCase (hascii : isAscii constraint = true)
    (hlen : textLen constraint < textLen domain)
    (hslice : sliceFrom domain (textLen domain - textLen constraint) = some t) :
    eqIgnoreCase t constraint = true ↔ constraint.length < domain.length ∧
      eqIgnoreCase (domain.drop (domain.length - constraint.length)) constraint = true := by
  obtain ⟨p, hdomain, hp⟩ := sliceFrom_eq_some.1 hslice
  have hsum : textLen domain = textLen p + textLen t := by rw [hdomain, textLen_append]
  rw [eqIgnoreCase, decide_eq_true_iff, eqIgnoreCase, decide_eq_true_iff]
  constructor
  · intro heq
    have htlen : t.length = constraint.length := by
      have hl := congrArg List.length heq
      rwa [lowercase, lowercase, length_map, length_map] at hl
    have hpne : p ≠ [] := by
      rintro rfl
      rw [show textLen [] = 0 from rfl] at hp
      omega
    have hppos := length_pos_of_ne_nil hpne
    have hdrop : domain.length - constraint.length = p.length := by
      rw [hdomain, length_append]
      omega
    refine ⟨by rw [hdomain, length_append]; omega, ?_⟩
    rw [hdrop, hdomain, drop_left]
    exact heq
  · rintro ⟨hless, heq⟩
    obtain ⟨t', ht'⟩ : ∃ t', t' = domain.drop (domain.length - constraint.length) := ⟨_, rfl⟩
    rw [← ht'] at heq
    have hsplit : domain = domain.take (domain.length - constraint.length) ++ t' := by
      rw [ht', take_append_drop]
    have ht'ascii : isAscii t' = true := by
      refine isAscii_of_lowercase ?_
      rw [heq]
      exact isAscii_lowercase hascii
    -- in ASCII as many characters are as many bytes
    have hbytes : textLen t' = textLen constraint := by
      rw [textLen_of_isAscii ht'ascii, textLen_of_isAscii hascii, ht', length_drop]
      omega
    have hslice' : sliceFrom domain (textLen domain - textLen constraint) = some t' := by
      refine sliceFrom_eq_some.2 ⟨_, hsplit, ?_⟩
      have hsum' := congrArg textLen hsplit
      rw [textLen_append] at hsum'
      omega
    rw [hslice] at hslice'
    rwa [Option.some.inj hslice']

lemma domainMatches_of_cut (h : CutsInside constraint domain) :
    Sliced.domainMatches constraint domain = .fault := by
  obtain ⟨hdot, hlen, hslice⟩ := h
  rw [Sliced.domainMatches, if_pos hdot, if_pos hlen, hslice]
  rfl

lemma domainMatches_of_not_cut (hascii : isAscii constraint = true)
    (h : ¬ CutsInside constraint domain) :
    Sliced.domainMatches constraint domain = .ok (domainMatches constraint domain) := by
  rw [Sliced.domainMatches, domainMatches]
  by_cases hdot : constraint.head? = some '.'
  · rw [if_pos hdot, if_pos hdot]
    by_cases hlen : textLen constraint < textLen domain
    · rw [if_pos hlen]
      cases hslice : sliceFrom domain (textLen domain - textLen constraint) with
      | none => exact absurd ⟨hdot, hlen, hslice⟩ h
      | some t =>
        rw [orFault_some, ok_bind, Outcome.ok.injEq, Bool.eq_iff_iff, decide_eq_true_iff]
        exact suffix_eqIgnoreCase hascii hlen hslice
    · have hshort := length_le_textLen domain
      rw [textLen_of_isAscii hascii] at hlen
      rw [if_neg (by rwa [textLen_of_isAscii hascii]), decide_eq_false (fun hboth => by omega)]
  · rw [if_neg hdot, if_neg hdot]

def Cuts (c : Constraint) (name : GeneralName) : Prop :=
  match c, name with
  | .Email c, .Email n =>
    ∃ e, rsplitOnce '@' n = some e ∧ '@' ∉ c ∧ CutsInside c (withoutTrailingDot e.2)
  | .Uri c, .Uri n => ∃ h, uriHost n = some h ∧ CutsInside c (withoutTrailingDot h)
  | _, _ => False

lemma CutsInside.ne_nil (h : CutsInside constraint domain) : constraint ≠ [] := by
  rintro rfl
  cases h.1

lemma notMem_withoutTrailingDot (h : c ∉ s) : c ∉ withoutTrailingDot s := by
  rw [withoutTrailingDot]
  split
  · exact fun hmem => h (dropLast_subset _ hmem)
  · exact h

lemma emailConstraintMatches_mailbox {localPart : Text} (hne : constraint ≠ []) (h : '@' ∉ domain) :
    Sliced.emailConstraintMatches constraint (localPart ++ '@' :: domain) =
      match rsplitOnce '@' constraint with
      | some (cLocal, cDomain) => .ok (localPart = cLocal ∧ eqIgnoreCase domain cDomain)
      | none => Sliced.domainMatches constraint domain := by
  rw [Sliced.emailConstraintMatches, if_neg hne, rsplitOnce_append h]

/-- A constraint and a name: a slice panics, or else the constraint covers the name or not as it
does without slices. -/
theorem covers_cases {k : Constraint} {name : GeneralName} (hread : k.Read) :
    (Cuts k name → Sliced.constraintCovers k name = .fault) ∧
      (¬ Cuts k name → Sliced.constraintCovers k name = .ok (constraintCovers k name)) := by
  cases k with
  | Dns | Ip | Unsupported => cases name <;> exact ⟨fun h => h.elim, fun _ => rfl⟩
  | Email m =>
    cases name with
    | Email n =>
      rw [Sliced.constraintCovers, constraintCovers, X509.emailConstraintMatches]
      by_cases hm : m = []
      · rw [if_pos hm]
        constructor
        · rintro ⟨_, _, _, hcut⟩
          exact absurd hm hcut.ne_nil
        · rw [decide_eq_true (.inl hm)]
          exact fun _ => rfl
      rw [if_neg hm]
      cases hsplit : rsplitOnce '@' n with
      | none =>
        constructor
        · rintro ⟨_, h, _⟩
          rw [hsplit] at h
          cases h
        · rw [decide_eq_false (by simp [hm])]
          exact fun _ => rfl
      | some e =>
        obtain ⟨localPart, domain⟩ := e
        have hat := notMem_withoutTrailingDot (rsplitOnce_eq_some.1 hsplit).2
        dsimp only
        rw [emailConstraintMatches_mailbox hm hat, Option.any_some, mailboxMatches]
        cases hc : rsplitOnce '@' m with
        | some e =>
          constructor
          · rintro ⟨_, _, hnot, _⟩
            rw [rsplitOnce_eq_none.2 hnot] at hc
            cases hc
          · intro _
            simp [hm]
            rfl
        | none =>
          dsimp only
          constructor
          · rintro ⟨e', he', -, hcut⟩
            rw [hsplit] at he'
            obtain rfl := Option.some.inj he'
            rw [domainMatches_of_cut hcut]
            rfl
          · intro hnot
            rw [domainMatches_of_not_cut hread fun hcut =>
              hnot ⟨_, hsplit, rsplitOnce_eq_none.1 hc, hcut⟩]
            simp [hm]
            rfl
    | _ => exact ⟨fun h => h.elim, fun _ => rfl⟩
  | Uri u =>
    cases name with
    | Uri n =>
      rw [Sliced.constraintCovers, constraintCovers]
      by_cases hu : u = []
      · rw [if_pos hu]
        constructor
        · rintro ⟨_, _, hcut⟩
          exact absurd hu hcut.ne_nil
        · rw [decide_eq_true (.inl hu)]
          exact fun _ => rfl
      rw [if_neg hu]
      cases hhost : uriHost n with
      | none =>
        constructor
        · rintro ⟨_, h, _⟩
          rw [hhost] at h
          cases h
        · rw [decide_eq_false (by simp [hu])]
          exact fun _ => rfl
      | some host =>
        dsimp only
        rw [Sliced.uriHostMatches, if_neg hu, Option.any_some, uriHostMatches]
        constructor
        · rintro ⟨h', hh', hcut⟩
          rw [hhost] at hh'
          obtain rfl := Option.some.inj hh'
          rw [domainMatches_of_cut hcut]
          rfl
        · intro hnot
          rw [domainMatches_of_not_cut hread fun hcut => hnot ⟨_, hhost, hcut⟩]
          simp [hu]
          rfl
    | _ => exact ⟨fun h => h.elim, fun _ => rfl⟩

/-! ## The whole check -/

namespace Sliced

variable {P : Prims} {ca cert : Certificate} {nc : NameConstraints} {name : GeneralName}
  {below : List Certificate}

variable {α : Type}

lemma returns_bind {β : Type} (x : Except Error α) (f : α → Except Error β) :
    returns (x >>= f) = returns x >>= fun a => returns (f a) := by
  cases x <;> rfl

lemma returns_eq_ok {x : Except Error α} {a : α} : returns x = .ok a ↔ x = .ok a := by
  cases x <;> simp [returns]

lemma returns_ne_fault (x : Except Error α) : returns x ≠ .fault := by
  cases x <;> simp [returns]

variable {xs : List α}

lemma forM_eq {f : α → Outcome Error PUnit} {g : α → Except Error PUnit}
    (h : ∀ x ∈ xs, f x = returns (g x)) : xs.forM f = returns (xs.forM g) := by
  induction xs with
  | nil => rfl
  | cons x xs ih =>
    rw [forM_eq_forM, forM_eq_forM] at ih ⊢
    rw [forM_cons, forM_cons, returns_bind, h x mem_cons_self]
    exact congrArg _ (funext fun _ => ih fun y hy => h y (mem_cons_of_mem _ hy))

lemma anyM_eq {f : α → Outcome Error Bool} {g : α → Bool}
    (h : ∀ x ∈ xs, f x = .ok (g x)) : xs.anyM f = .ok (xs.any g) := by
  induction xs with
  | nil => rfl
  | cons x xs ih =>
    have hrest := ih fun y hy => h y (mem_cons_of_mem _ hy)
    rw [List.anyM, h x mem_cons_self, ok_bind, any_cons]
    cases g x with
    | true => rfl
    | false => exact hrest

lemma anyM_eq_false {f : α → Outcome Error Bool}
    (h : xs.anyM f = .ok false) {x : α} (hx : x ∈ xs) : f x = .ok false := by
  induction xs with
  | nil => cases hx
  | cons y xs ih =>
    rw [List.anyM] at h
    obtain ⟨b, hb, h⟩ := bind_eq_ok.1 h
    cases b with
    | true => cases h
    | false =>
      rcases mem_cons.1 hx with rfl | hx
      · exact hb
      · exact ih h hx

lemma foldlM_permit {cs : List Constraint}
    (h : ∀ k ∈ cs, constraintCovers k name = .ok (X509.constraintCovers k name)) (r : Bool × Bool) :
    cs.foldlM (permit name) r =
      .ok (r.1 || cs.any fun k => (X509.constraintCovers k name).isSome,
        r.2 || cs.any fun k => X509.constraintCovers k name = some true) := by
  induction cs generalizing r with
  | nil => simp
  | cons k cs ih =>
    have hrest := ih fun k hk => h k (mem_cons_of_mem _ hk)
    rw [foldlM_cons, permit, h k mem_cons_self, ok_bind]
    cases hk : X509.constraintCovers k name with
    | none =>
      rw [ok_bind, hrest, any_cons, any_cons, hk]
      simp
    | some m =>
      rw [ok_bind, hrest, any_cons, any_cons, hk]
      simp [Bool.or_assoc]

lemma exists_of_foldlM_permit {cs : List Constraint} {r r' : Bool × Bool}
    (h : cs.foldlM (permit name) r = .ok r') {k : Constraint} (hk : k ∈ cs) :
    ∃ x, constraintCovers k name = .ok x := by
  induction cs generalizing r with
  | nil => cases hk
  | cons k' cs ih =>
    rw [foldlM_cons] at h
    obtain ⟨r₁, h₁, h⟩ := bind_eq_ok.1 h
    rcases mem_cons.1 hk with rfl | hk
    · obtain ⟨x, hx, -⟩ := bind_eq_ok.1 h₁
      exact ⟨x, hx⟩
    · exact ih h hk

lemma checkOneName_eq (hread : ∀ k ∈ nc.constraints, k.Read)
    (hno : ∀ k ∈ nc.constraints, ¬ Cuts k name) :
    checkOneName P ca nc name = returns (X509.checkOneName P ca nc name) := by
  have hcovers : ∀ k ∈ nc.constraints,
      constraintCovers k name = .ok (X509.constraintCovers k name) :=
    fun k hk => (covers_cases (hread k hk)).2 (hno k hk)
  have hexcl : nc.excluded.anyM (fun c => do
      let covers ← constraintCovers c name
      .ok (covers = some true)) =
      .ok (nc.excluded.any fun c => X509.constraintCovers c name = some true) := by
    refine anyM_eq fun k hk => ?_
    rw [hcovers k (mem_append_right _ hk)]
    rfl
  have hperm := foldlM_permit (fun k hk => hcovers k (mem_append_left _ hk)) (false, false)
  rw [checkOneName, X509.checkOneName]
  split
  · rfl
  rw [hexcl, ok_bind]
  split
  · rfl
  rw [hperm, ok_bind]
  simp only [Bool.false_or]
  split <;> rfl

lemma not_cuts_of_ok (hread : ∀ k ∈ nc.constraints, k.Read)
    (h : checkOneName P ca nc name = .ok ()) : ∀ k ∈ nc.constraints, ¬ Cuts k name := by
  have hcut : ∀ k ∈ nc.constraints, (∃ x, constraintCovers k name = .ok x) → ¬ Cuts k name := by
    rintro k hk ⟨x, hx⟩ hcut
    rw [(covers_cases (hread k hk)).1 hcut] at hx
    cases hx
  rw [checkOneName] at h
  split at h
  · cases h
  obtain ⟨excluded, hexcl, h⟩ := bind_eq_ok.1 h
  split at h
  · cases h
  next hnot =>
    obtain rfl : excluded = false := by simpa using hnot
    obtain ⟨r, hperm, -⟩ := bind_eq_ok.1 h
    intro k hk
    rcases mem_append.1 hk with hk' | hk'
    · exact hcut k hk (exists_of_foldlM_permit hperm hk')
    · obtain ⟨x, hx, -⟩ := bind_eq_ok.1 (anyM_eq_false hexcl hk')
      exact hcut k hk ⟨x, hx⟩

end Sliced

/-! ### Names in ASCII -/

lemma isAscii_of_subset (h : isAscii s = true) (hsub : t ⊆ s) : isAscii t = true :=
  all_eq_true.2 fun c hc => all_eq_true.1 h c (hsub hc)

lemma not_cutsInside_of_isAscii (h : isAscii domain = true) : ¬ CutsInside constraint domain := by
  rintro ⟨-, hlen, hslice⟩
  have hsome : sliceFrom domain (textLen domain - textLen constraint) =
      some (domain.drop (textLen domain - textLen constraint)) := by
    refine sliceFrom_eq_some.2 ⟨_, (take_append_drop _ _).symm, ?_⟩
    rw [textLen_of_isAscii (isAscii_of_subset h (take_subset _ _)), length_take,
      textLen_of_isAscii h]
    omega
  rw [hsome] at hslice
  cases hslice

lemma withoutTrailingDot_subset (s : Text) : withoutTrailingDot s ⊆ s := by
  rw [withoutTrailingDot]
  split
  · exact dropLast_subset s
  · exact List.Subset.refl s

lemma afterScheme_subset (h : afterScheme s = some t) : t ⊆ s := by
  induction s with
  | nil => cases h
  | cons c s ih =>
    rw [afterScheme.eq_def] at h
    split at h
    next rest heq =>
      obtain rfl := Option.some.inj h
      rw [heq]
      exact fun x hx => mem_cons_of_mem _ (mem_cons_of_mem _ (mem_cons_of_mem _ hx))
    next heq =>
      obtain ⟨-, rfl⟩ := cons.inj heq
      exact subset_cons_of_subset _ (ih h)
    · cases h

lemma uriHost_subset (h : uriHost s = some t) : t ⊆ s := by
  obtain ⟨rest, hrest, h⟩ := Option.bind_eq_some_iff.1 h
  dsimp only at h
  obtain ⟨authority, hauthority⟩ :
      ∃ a, a = rest.takeWhile fun c => c ≠ '/' ∧ c ≠ '?' ∧ c ≠ '#' := ⟨_, rfl⟩
  have hsub : authority ⊆ s := by
    rw [hauthority]
    exact List.Subset.trans (takeWhile_subset _) (afterScheme_subset hrest)
  rw [← hauthority] at h
  split at h
  · cases h
  obtain rfl := Option.some.inj h
  refine List.Subset.trans (takeWhile_subset _) ?_
  cases hsplit : rsplitOnce '@' authority with
  | none => exact hsub
  | some e =>
    obtain ⟨heq, -⟩ := rsplitOnce_eq_some.1 (hsplit.trans rfl : _ = some (e.1, e.2))
    refine List.Subset.trans ?_ hsub
    show e.2 ⊆ _
    rw [heq]
    exact fun x hx => mem_append_right _ (mem_cons_of_mem _ hx)

lemma not_cuts_of_read {k : Constraint} {name : GeneralName} (h : name.Read) : ¬ Cuts k name := by
  intro hcut
  cases k with
  | Email m =>
    cases name with
    | Email n =>
      obtain ⟨e, he, -, hin⟩ := hcut
      obtain ⟨heq, -⟩ := rsplitOnce_eq_some.1 (he.trans rfl : _ = some (e.1, e.2))
      refine not_cutsInside_of_isAscii (isAscii_of_subset h ?_) hin
      rw [heq]
      exact fun x hx => mem_append_right _
        (mem_cons_of_mem _ (withoutTrailingDot_subset _ hx))
    | _ => exact hcut.elim
  | Uri u =>
    cases name with
    | Uri n =>
      obtain ⟨host, hhost, hin⟩ := hcut
      refine not_cutsInside_of_isAscii (isAscii_of_subset h ?_) hin
      exact fun x hx => uriHost_subset hhost (withoutTrailingDot_subset _ hx)
    | _ => exact hcut.elim
  | _ => cases name <;> exact hcut.elim

/-- No constraint cuts the domain of an e-mail address in a subject. -/
def NoCuts (nc : NameConstraints) (below : List Certificate) : Prop :=
  ∀ cert ∈ below, ∀ mail ∈ subjectEmailAddresses cert.subjectDer, ∀ k ∈ nc.constraints,
    ¬ Cuts k (.Email mail)

namespace Sliced

variable {P : Prims} {ca : Certificate} {nc : NameConstraints} {below : List Certificate}

theorem check_eq (hread : ∀ k ∈ nc.constraints, k.Read)
    (hbelow : ∀ cert ∈ below, cert.NamesParsed P) (hno : NoCuts nc below) :
    checkNameConstraints P ca nc below = returns (X509.checkNameConstraints P ca nc below) := by
  rw [checkNameConstraints, X509.checkNameConstraints]
  split
  · rfl
  refine forM_eq fun cert hcert => ?_
  have hsan : cert.san.forM (checkOneName P ca nc) =
      returns (cert.san.forM (X509.checkOneName P ca nc)) :=
    forM_eq fun name hname => checkOneName_eq hread fun k _ =>
      not_cuts_of_read ((hbelow cert hcert).read name hname)
  have hdropped : (cert.droppedSan.forM fun kind => returns (checkDropped ca nc kind)) =
      returns (cert.droppedSan.forM (checkDropped ca nc)) := forM_eq fun _ _ => rfl
  have hmails : ((subjectEmailAddresses cert.subjectDer).forM fun mail =>
        checkOneName P ca nc (.Email mail)) =
      returns (cert.subjectEmailAddresses.forM fun mail =>
        X509.checkOneName P ca nc (.Email mail)) := by
    rw [(hbelow cert hcert).mails]
    exact forM_eq fun mail hmail => checkOneName_eq hread (hno cert hcert mail hmail)
  rw [checkNames, X509.checkNames, returns_bind, hsan, hdropped]
  refine congrArg _ (funext fun _ => ?_)
  rw [returns_bind]
  refine congrArg _ (funext fun _ => ?_)
  split
  · exact hmails
  · rfl

theorem check_ok (hread : ∀ k ∈ nc.constraints, k.Read)
    (hbelow : ∀ cert ∈ below, cert.NamesParsed P)
    (h : checkNameConstraints P ca nc below = .ok ()) :
    X509.checkNameConstraints P ca nc below = .ok () := by
  have hmail : ∀ k ∈ nc.constraints, ∀ mail, Cuts k (.Email mail) → nc.constraints.any
      Constraint.isEmail = true := by
    intro k hk mail hcut
    cases k with
    | Email m => exact any_eq_true.2 ⟨_, hk, rfl⟩
    | _ => exact hcut.elim
  have hno : NoCuts nc below := by
    intro cert hcert mail hmem k hk hcut
    rw [checkNameConstraints] at h
    split at h
    · cases h
    have hnames := forM_eq_ok.1 h cert hcert
    obtain ⟨_, -, hnames⟩ := bind_eq_ok.1 hnames
    obtain ⟨_, -, hnames⟩ := bind_eq_ok.1 hnames
    rw [if_pos (hmail k hk mail hcut)] at hnames
    exact not_cuts_of_ok hread (forM_eq_ok.1 hnames mail hmem) k hk hcut
  rw [check_eq hread hbelow hno, returns_eq_ok] at h
  exact h

end Sliced

end Lazaret.X509
