import Lazaret.Baseline.Signature

/-!
# Applying a baseline

What a baseline marks of a scan's findings (`baseline.rs`, `apply`): as not new those whose
fingerprint one of its entries has, if it is one of our reports, outside the scanned tree or with a
key, and signed with that key if there is one; as accepted those of them that no marker can accept,
with a key.
-/

namespace Lazaret.Baseline

open List Option

variable {F : Type} (H : Host F)

/-- What the rule pack says: the beginnings of the rules that no marker can accept. -/
structure Pack where
  UNSUPPRESSIBLE_PREFIXES : List PyStr

/-- What the gate reads of a finding, as far as its rule. -/
structure Finding where
  rule : PyStr

/-- What a package hands over of a baseline and of the scan it is applied to. -/
structure ApplyIn where
  path : PyStr
  ours : Bool
  inside : Bool
  /-- The key of the environment, when set and not empty. -/
  key : Option PyStr
  /-- The file's bytes, or why they could not be read. -/
  data : Except PyStr (List UInt8)
  /-- The fingerprints of the scan's findings, and what the gate reads of them. -/
  fingerprints : List (Option PyStr)
  rows : List Finding

/-- What to print and what to mark; nothing is marked where `new` is none. -/
structure Applied where
  warnings : List PyStr
  new : Option (List Bool)
  newIssues : Option ℕ
  untrusted : Bool
  accepted : Option (List Bool)
  acceptedIssues : Option ℕ

def warning (path : PyStr) (rest : String) : PyStr :=
  u "warning: baseline " ++ H.sanitizeTermLine path ++ u rest

/-- The answer for a baseline that is not trusted: every finding is new. -/
def untrusted (a : ApplyIn) (reason : String) : Applied where
  warnings := [warning H a.path (" " ++ reason ++
    " — treating it as untrusted: all current findings are counted as new")]
  new := some (List.replicate a.fingerprints.length true)
  newIssues := some a.fingerprints.length
  untrusted := true
  accepted := none
  acceptedIssues := none

def ignored (w : PyStr) : Applied where
  warnings := [w]
  new := none
  newIssues := none
  untrusted := false
  accepted := none
  acceptedIssues := none

def unread (path why : PyStr) : PyStr :=
  u "warning: could not read baseline " ++ H.sanitizeTermLine path ++ u ": " ++
    H.sanitizeTermLine why

/-- The marks of a baseline that is used, by its entries. -/
def mark (p : Pack) (a : ApplyIn) (issues : List (PyVal F)) : Applied :=
  let known := (fingerprints H issues).1
  let skipped := (fingerprints H issues).2
  let new := a.fingerprints.map fun fp =>
    match fp with
    | none => true
    | some f => f ∉ known
  let accepted := (List.range a.fingerprints.length).map fun k =>
    new[k]? = some false &&
      (a.rows[k]?).any fun r => p.UNSUPPRESSIBLE_PREFIXES.any fun pre => pre.isPrefixOf r.rule
  let count := accepted.countP id
  { warnings := if skipped > 0 then [warning H a.path (": " ++ toString skipped ++
      " malformed issue entrie(s) skipped (expected objects with rule/file/line)")] else []
    new := some new
    newIssues := some (new.countP id)
    untrusted := false
    accepted := if a.key.isSome ∧ count > 0 then some accepted else none
    acceptedIssues := if a.key.isSome ∧ count > 0 then some count else none }

def apply (p : Pack) (a : ApplyIn) : Applied :=
  if !a.ours then
    untrusted H a
      "is not a report produced by this engine (no matching engine marker, or wrong shape)"
  else if a.key = none ∧ a.inside then
    untrusted H a ("is inside the scanned tree and $LAZARET_BASELINE_KEY is not set " ++
      "(the scanned repository could have planted it) — keep baselines outside the scanned tree " ++
      "(e.g. in $RUNNER_TEMP) or set LAZARET_BASELINE_KEY so reports are signed")
  else
    match a.data with
    | .error why => ignored (unread H a.path why)
    | .ok bytes =>
      match H.read bytes with
      | .error why => ignored (unread H a.path why)
      | .ok (.dict items) =>
        match ((PyVal.dict items).get "issues").getD (.list []) with
        | .list issues =>
          match a.key with
          | none => mark H p a issues
          | some key =>
            match verify H (.dict items) issues key with
            | .error why => untrusted H a ("is not trusted: " ++ why)
            | .ok () => mark H p a issues
        | other => ignored (warning H a.path (": 'issues' is " ++ other.typeName ++
            ", not a list — baseline ignored"))
      | .ok prev => ignored (warning H a.path (": top level is " ++ prev.typeName ++
          ", not an object — expected \x7b\"issues\": [...]\x7d; baseline ignored"))

/-! ## What is hidden -/

/-- Finding `k` is marked as not new. -/
def Applied.Hides (r : Applied) (k : ℕ) : Prop := ∃ new, r.new = some new ∧ new[k]? = some false

/-- Finding `k` is marked as accepted. -/
def Applied.Accepts (r : Applied) (k : ℕ) : Prop :=
  ∃ accepted, r.accepted = some accepted ∧ accepted[k]? = some true

/-- The entries of a report, where it is an object with a list of them. -/
def issuesOf : PyVal F → Option (List (PyVal F))
  | .dict items =>
    match ((PyVal.dict items).get "issues").getD (.list []) with
    | .list issues => some issues
    | _ => none
  | _ => none

/-- A baseline that is used: one of our reports, outside the tree or with a key, read, of the right
shape, and with a key its signature verifies. -/
def Trusted (a : ApplyIn) (doc : PyVal F) (issues : List (PyVal F)) : Prop :=
  a.ours = true ∧ (a.key.isSome ∨ a.inside = false) ∧
    (∃ bytes, a.data = .ok bytes ∧ H.read bytes = .ok doc) ∧ issuesOf doc = some issues ∧
    ∀ key, a.key = some key → verify H doc issues key = .ok ()

variable {H}

variable {a : ApplyIn} {k : ℕ}

lemma not_hides_untrusted {reason : String} : ¬ (untrusted H a reason).Hides k := by
  rintro ⟨new, hnew, hk⟩
  cases hnew
  rw [getElem?_replicate] at hk
  split at hk <;> cases hk

lemma not_hides_ignored {w : PyStr} : ¬ (ignored w).Hides k := by
  rintro ⟨new, hnew, -⟩
  cases hnew

lemma apply_cases (p : Pack) (a : ApplyIn) :
    (∃ reason, apply H p a = untrusted H a reason) ∨ (∃ w, apply H p a = ignored w) ∨
      ∃ doc issues, Trusted H a doc issues ∧ apply H p a = mark H p a issues := by
  unfold apply
  split
  · exact .inl ⟨_, rfl⟩
  · rename_i hours
    split
    · exact .inl ⟨_, rfl⟩
    · rename_i hplace
      split
      · exact .inr (.inl ⟨_, rfl⟩)
      · rename_i bytes hdata
        split
        · exact .inr (.inl ⟨_, rfl⟩)
        · rename_i items hread
          split
          · rename_i issues hissues
            have htrusted : (∀ key, a.key = some key → verify H (.dict items) issues key = .ok ()) →
                Trusted H a (.dict items) issues := by
              refine fun hverify => ⟨by simpa using hours, ?_, ⟨bytes, hdata, hread⟩, ?_, hverify⟩
              · cases hkey : a.key with
                | some key => exact .inl rfl
                | none =>
                  refine .inr ?_
                  simpa [hkey] using hplace
              · simp only [issuesOf, hissues]
            split
            · rename_i hkey
              refine .inr (.inr ⟨_, issues, htrusted fun key h => ?_, rfl⟩)
              rw [hkey] at h
              cases h
            · rename_i key hkey
              split
              · exact .inl ⟨_, rfl⟩
              · rename_i hverify
                refine .inr (.inr ⟨_, issues, htrusted fun key' h => ?_, rfl⟩)
                rw [hkey, some.injEq] at h
                subst h
                exact hverify
          · exact .inr (.inl ⟨_, rfl⟩)
        · exact .inr (.inl ⟨_, rfl⟩)

variable {issues : List (PyVal F)}

lemma apply_of_trusted (p : Pack) {doc : PyVal F}
    (h : Trusted H a doc issues) : apply H p a = mark H p a issues := by
  obtain ⟨hours, hplace, ⟨bytes, hdata, hread⟩, hissues, hverify⟩ := h
  unfold apply
  have hin : ¬ (a.key = none ∧ a.inside = true) := by
    rintro ⟨hkey, hinside⟩
    rw [hkey, hinside] at hplace
    simp at hplace
  rw [if_neg (by simp [hours]), if_neg hin, hdata]
  dsimp only
  rw [hread]
  cases doc with
  | dict items =>
    simp only [issuesOf] at hissues
    dsimp only
    split at hissues
    · cases hissues
      cases hkey : a.key with
      | none => rfl
      | some key =>
        dsimp only
        rw [hverify key hkey]
    · cases hissues
  | none | bool | int | float | str | list => cases hissues

variable {p : Pack}

lemma hides_mark_iff : (mark H p a issues).Hides k ↔
      ∃ fp, a.fingerprints[k]? = some (some fp) ∧ ∃ e ∈ issues, fingerprint H e = some fp := by
  have hknown : ∀ fp, fp ∈ (fingerprints H issues).1 ↔ ∃ e ∈ issues, fingerprint H e = some fp := by
    intro fp
    simp [fingerprints, mem_filterMap]
  constructor
  · rintro ⟨new, hnew, hk⟩
    cases hnew
    rw [getElem?_map, map_eq_some_iff] at hk
    obtain ⟨fp?, hfp, hmark⟩ := hk
    cases fp? with
    | none => cases hmark
    | some fp => exact ⟨fp, hfp, (hknown fp).1 (by simpa using hmark)⟩
  · rintro ⟨fp, hfp, he⟩
    refine ⟨_, rfl, ?_⟩
    rw [getElem?_map, hfp]
    simp [(hknown fp).2 he]

theorem hides_iff : (apply H p a).Hides k ↔ ∃ doc issues, Trusted H a doc issues ∧
      ∃ fp, a.fingerprints[k]? = some (some fp) ∧ ∃ e ∈ issues, fingerprint H e = some fp := by
  constructor
  · intro h
    obtain ⟨reason, heq⟩ | ⟨w, heq⟩ | ⟨doc, issues, htrusted, heq⟩ := apply_cases (H := H) p a
    · exact absurd (heq ▸ h) not_hides_untrusted
    · exact absurd (heq ▸ h) not_hides_ignored
    · exact ⟨doc, issues, htrusted, hides_mark_iff.1 (heq ▸ h)⟩
  · rintro ⟨doc, issues, htrusted, h⟩
    rw [apply_of_trusted p htrusted]
    exact hides_mark_iff.2 h

theorem accepts_only (h : (apply H p a).Accepts k) : (apply H p a).Hides k ∧ a.key.isSome ∧
      ∃ r, a.rows[k]? = some r ∧ ∃ pre ∈ p.UNSUPPRESSIBLE_PREFIXES, pre <+: r.rule := by
  obtain ⟨reason, heq⟩ | ⟨w, heq⟩ | ⟨doc, issues, -, heq⟩ := apply_cases (H := H) p a
  · rw [heq] at h
    obtain ⟨accepted, hacc, -⟩ := h
    cases hacc
  · rw [heq] at h
    obtain ⟨accepted, hacc, -⟩ := h
    cases hacc
  · rw [heq] at h ⊢
    obtain ⟨accepted, hacc, hk⟩ := h
    unfold mark at hacc
    dsimp only at hacc
    split at hacc
    · rename_i hcond
      cases hacc
      rw [getElem?_map, map_eq_some_iff] at hk
      obtain ⟨k', hk', hmark⟩ := hk
      have hkk : k' = k := by
        rw [getElem?_range] at hk'
        · exact (some.inj hk').symm
        · exact (length_range (n := a.fingerprints.length)) ▸
            (List.getElem?_eq_some_iff.1 hk').1
      subst hkk
      rw [Bool.and_eq_true, decide_eq_true_eq, Option.any_eq_true] at hmark
      obtain ⟨hhid, r, hr, hpre⟩ := hmark
      obtain ⟨pre, hpre, hstart⟩ := any_eq_true.1 hpre
      exact ⟨⟨_, rfl, hhid⟩, hcond.1, r, hr, pre, hpre, isPrefixOf_iff_prefix.1 hstart⟩
    · cases hacc

/-! ## What may be hidden -/

/-- What a baseline with a key is signed over: its signature is that of every list of the set of its
entries' fingerprints, and of no list that JSON writes otherwise. -/
def SignedOver (H : Host F) (doc : PyVal F) (issues : List (PyVal F)) (key : PyStr) : Prop :=
  ∃ value, signatureValue doc = some value ∧ ∀ fps,
    ((∀ f, f ∈ fps ↔ f ∈ (fingerprints H issues).1) → sign H fps key = value) ∧
    (sign H fps key = value →
      ∀ w, w ∈ fps.map writeStr ↔ w ∈ (fingerprints H issues).1.map writeStr)

/-- That a baseline may hide a finding: it is one of our reports, outside the scanned tree or with a
key, signed with it if there is one, and lists a finding of the same rule, path and flagged line. -/
def MayHide (H : Host F) (a : ApplyIn) (x : PyVal F) : Prop :=
  a.ours = true ∧ (a.inside = false ∨ a.key.isSome) ∧
    ∃ bytes doc issues, a.data = .ok bytes ∧ H.read bytes = .ok doc ∧ issuesOf doc = some issues ∧
      (∀ key, a.key = some key → SignedOver H doc issues key) ∧
      ∃ e ∈ issues, ∃ ps, parts H e = some ps ∧ parts H x = some ps

/-- A finding that is hidden is one that the baseline may hide, and one that is accepted is hidden,
with a key, and of a rule that no marker can accept. -/
structure HidesOnlyListed (H : Host F) (p : Pack) (a : ApplyIn) (k : ℕ) (x : PyVal F) : Prop where
  hides : (apply H p a).Hides k → MayHide H a x
  accepts : (apply H p a).Accepts k → (apply H p a).Hides k ∧ a.key.isSome ∧
    ∃ r, a.rows[k]? = some r ∧ ∃ pre ∈ p.UNSUPPRESSIBLE_PREFIXES, pre <+: r.rule

/-- No entry of the file is the rule, the path and the flagged line of a finding cut at other bars,
unless one has just these. -/
def Uncut (H : Host F) (a : ApplyIn) (x : PyVal F) : Prop :=
  ∀ bytes doc issues, a.data = .ok bytes → H.read bytes = .ok doc → issuesOf doc = some issues →
    ∀ ps, parts H x = some ps → (∃ e ∈ issues, ∃ qs, parts H e = some qs ∧ qs.Recut ps) →
      ∃ e ∈ issues, parts H e = some ps

lemma signedOver_of_verify {doc : PyVal F} {key : PyStr}
    (hinj : Function.Injective (H.hmacSha256 (keyBytes key)))
    (h : verify H doc issues key = .ok ()) : SignedOver H doc issues key := by
  have hvalue : signatureValue doc = some (sign H (fingerprints H issues).1 key) := by
    unfold verify at h
    unfold signatureValue
    split at h
    · split at h
      · split at h
        · split at h
          · cases h
          · split at h
            · rename_i hsame
              rw [sameText_iff.1 hsame]
            · cases h
        · cases h
      · cases h
    · cases h
  refine ⟨_, hvalue, fun fps => ⟨fun hset => sign_congr H hset key, fun hsign => ?_⟩⟩
  exact written_of_sign H hinj hsign

lemma exists_parts_of_fingerprint {ps : Parts}
    (h : ∃ e ∈ issues, fingerprint H e = some ps.join) : (∃ e ∈ issues, parts H e = some ps) ∨
      ∃ e ∈ issues, ∃ qs, parts H e = some qs ∧ qs.Recut ps := by
  obtain ⟨e, he, hefp⟩ := h
  rw [fingerprint, map_eq_some_iff] at hefp
  obtain ⟨qs, hqs, hjoin⟩ := hefp
  rcases eq_or_ne qs ps with rfl | hne
  · exact .inl ⟨e, he, hqs⟩
  · exact .inr ⟨e, he, qs, hqs, hne, Parts.join_eq_iff.1 hjoin⟩

/-- A finding of rule `R` in a file, its flagged line the only one of its snippet. -/
def findingAt (path line : String) : PyVal Empty :=
  .dict [(u "rule", .str (u "R")), (u "file", .str (u path)), (u "line", .int (u "1")),
    (u "snipStart", .int (u "1")), (u "snippet", .list [.str (u line)])]

/-- A report with one finding, in the file `a`, whose flagged line is `b|c`. -/
def barReport : PyVal Empty := .dict [(u "issues", .list [findingAt "a" "b|c"])]

def barBytes : List UInt8 := (u ("\x7b\"issues\":[\x7b\"rule\":\"R\",\"file\":\"a\",\"line\":1," ++
  "\"snipStart\":1,\"snippet\":[\"b|c\"]\x7d]\x7d")).map UInt8.ofNat

/-- A host that reads that report, and knows of ASCII's white space and no float. -/
def barHost : Host Empty where
  floatSub f _ := f
  intToFloat _ := none
  floatNonneg f := f.elim
  floatLt f _ := f.elim
  floatZero f := f.elim
  floatRepr f := f.elim
  isSpace c := c = 32 ∨ (9 ≤ c ∧ c ≤ 13)
  isPrintable c := 32 ≤ c ∧ c ≤ 126
  hmacSha256 _ message := message
  sanitizeTermLine s := s
  read bytes := if bytes = barBytes then .ok barReport else .error (u "not that report")

/-- A scan that finds the line `c` in the file `a|b`, and the report of the other finding, outside
the tree and without a key. -/
def barScan : ApplyIn where
  path := u "baseline.json"
  ours := true
  inside := false
  key := none
  data := .ok barBytes
  fingerprints := [fingerprint barHost (findingAt "a|b" "c")]
  rows := [⟨u "R"⟩]

lemma read_barBytes : barHost.read barBytes = .ok barReport := by
  show (if barBytes = barBytes then (.ok barReport : Except PyStr (PyVal Empty))
    else .error (u "not that report")) = .ok barReport
  rw [if_pos rfl]

lemma issuesOf_barReport : issuesOf barReport = some [findingAt "a" "b|c"] := rfl

lemma parts_listed : parts barHost (findingAt "a" "b|c") = some ⟨u "R", u "a", u "b|c"⟩ := by
  decide

/-- The scan of a finding with the same text and another path: no bar is in a rule or a path. -/
def otherScan : ApplyIn :=
  { barScan with fingerprints := [fingerprint barHost (findingAt "b" "b|c")] }

end Lazaret.Baseline
