import Lazaret.X509.CheckPath
import Mathlib.Data.List.AList

/-!
# The search for a path

The store of trust anchors and the search for a path from a leaf to one of them (`TrustStore`,
`build_path` and `search`, `x509.rs`): depth first, one path stack and one array of the
intermediates in it for the whole search, with a limit on the length of the path and a budget of
signature checks counted over all branches.
-/

namespace Lazaret.X509

def MAX_CHAIN_DEPTH : ℕ := 8
def MAX_PATH_ATTEMPTS : ℕ := 256

/-! ## Reading certificates -/

/-- How certificates are read: `parse` and `peek_subject` (of which only the key of the name is
used) with what the two have to do with each other, and the reader of name constraints. -/
structure Reader where
  parse : List UInt8 → Except Error Certificate
  peekSubjectKey : List UInt8 → Option (List UInt8)
  parseNameConstraints : List UInt8 → Except Error NameConstraints
  parse_der : ∀ {der c}, parse der = .ok c → c.der = der
  peek_eq : ∀ {der c key}, parse der = .ok c → peekSubjectKey der = some key → c.subjectKey = key

/-- `from_der`: a certificate with no critical extension that is not known. -/
def Reader.fromDer (R : Reader) (der : List UInt8) : Except Error Certificate := do
  let c ← R.parse der
  if c.unrecognizedCritical ≠ [] then .error (.Certificate "unrecognized critical extension")
  else .ok c

lemma Reader.fromDer_eq_ok {R : Reader} {der : List UInt8} {c : Certificate}
    (h : R.fromDer der = .ok c) : R.parse der = .ok c := by
  rw [Reader.fromDer, except_bind_eq_ok] at h
  obtain ⟨c', hparse, h⟩ := h
  split at h
  · cases h
  · rw [hparse, h]

/-! ## The trust store -/

/-- A trust anchor: its DER, the cell of its certificate (which holds nothing until it is filled,
and then none if the certificate does not parse), and the date from which its leaves are not
trusted. -/
structure Root (R : Reader) where
  der : List UInt8
  parsed : Option (Option Certificate)
  distrustAfter : Option ℤ
  parsed_der : ∀ c, parsed = some (some c) → c.der = der

/-- The anchors of each subject: the key of the name, and the places of those anchors in the
store. -/
abbrev Index := AList fun _ : List UInt8 => List ℕ

def Index.at (m : Index) (key : List UInt8) : List ℕ := (m.lookup key).getD []

def Index.push (m : Index) (key : List UInt8) (i : ℕ) : Index := m.insert key (m.at key ++ [i])

lemma Index.at_push (m : Index) (key : List UInt8) (i : ℕ) (key' : List UInt8) :
    (m.push key i).at key' = if key' = key then m.at key ++ [i] else m.at key' := by
  rw [Index.push, Index.at]
  split_ifs with h
  · rw [h, AList.lookup_insert, Option.getD_some]
  · rw [AList.lookup_insert_ne h, Index.at]

namespace Root

variable {R : Reader}

/-- `certificate`: what the cell holds, or what is put there now. -/
def certificate (r : Root R) : Option Certificate := r.parsed.getD (R.fromDer r.der).toOption

lemma der_eq {r : Root R} {c : Certificate} (h : r.certificate = some c) : c.der = r.der := by
  rw [certificate] at h
  cases hp : r.parsed with
  | some o => exact r.parsed_der c (by rw [hp] at h ⊢; exact congrArg some h)
  | none =>
    rw [hp, Option.getD_none] at h
    cases hfrom : R.fromDer r.der with
    | error e => simp [hfrom, Except.toOption] at h
    | ok c' =>
      simp only [hfrom, Except.toOption, Option.some.injEq] at h
      exact h ▸ R.parse_der (Reader.fromDer_eq_ok hfrom)

/-- The anchor when its certificate was needed: the cell is filled. -/
def fill (r : Root R) : Root R :=
  { r with
    parsed := some r.certificate
    parsed_der := fun _ h => der_eq (Option.some.inj h) }

end Root

/-- The trust anchors in the order they were added, and where those of a subject are. -/
structure TrustStore (R : Reader) where
  roots : List (Root R)
  bySubject : Index
  minRsaBits : ℕ
  webPkiRules : Bool
  at_lt : ∀ key, ∀ i ∈ bySubject.at key, i < roots.length
  mem_at : ∀ i r c, roots[i]? = some r → r.certificate = some c →
    ∀ key, i ∈ bySubject.at key ↔ c.subjectKey = key

structure AnchorLimits where
  distrustAfter : Option ℤ
  nameConstraints : Option (List UInt8)

def DEFAULT_MIN_RSA_BITS : ℕ := 2048

namespace TrustStore

variable {R : Reader}

def empty : TrustStore R where
  roots := []
  bySubject := ∅
  minRsaBits := DEFAULT_MIN_RSA_BITS
  webPkiRules := true
  at_lt := fun key i hi => by simp [Index.at] at hi
  mem_at := fun i r c hr => by simp at hr

/-- `push_root`: the anchor comes last, and is found under its subject. -/
def pushRoot (s : TrustStore R) (key : List UInt8) (r : Root R)
    (hkey : ∀ c, r.certificate = some c → c.subjectKey = key) : TrustStore R :=
  { s with
    roots := s.roots ++ [r]
    bySubject := s.bySubject.push key s.roots.length
    at_lt := by
      intro key' i hi
      rw [Index.at_push] at hi
      rw [List.length_append, List.length_singleton]
      split_ifs at hi
      · rcases List.mem_append.1 hi with hi | hi
        · exact (s.at_lt key i hi).trans (Nat.lt_succ_self _)
        · rw [List.mem_singleton.1 hi]
          exact Nat.lt_succ_self _
      · exact (s.at_lt key' i hi).trans (Nat.lt_succ_self _)
    mem_at := by
      intro i r' c hr hc key'
      have hbound := s.at_lt key'
      rw [Index.at_push]
      rw [List.getElem?_append] at hr
      split at hr
      · rename_i hlt
        rw [← s.mem_at i r' c hr hc key']
        split_ifs with h
        · rw [h, List.mem_append, List.mem_singleton, or_iff_left hlt.ne]
        · rfl
      · rename_i hge
        obtain ⟨hi, rfl⟩ : i = s.roots.length ∧ r = r' := by
          rw [List.getElem?_singleton] at hr
          split_ifs at hr with h
          exact ⟨by omega, Option.some.inj hr⟩
        rw [hkey c hc]
        split_ifs with h
        · simp [hi, h]
        · refine iff_of_false (fun hmem => hge (hbound i hmem)) (Ne.symm h) }

/-- The constraints a root program imposes, where the certificate has none of its own. -/
def impose (imposed : NameConstraints) (c : Certificate) : Certificate :=
  { c with nameConstraints := some (c.nameConstraints.getD imposed) }

def rootOf (der : List UInt8) (c : Certificate) (h : R.parse der = .ok c)
    (imposed : Option NameConstraints) (distrustAfter : Option ℤ) : Root R where
  der := der
  parsed := some (some (imposed.elim c fun nc => impose nc c))
  distrustAfter := distrustAfter
  parsed_der := by
    intro c' hc
    obtain rfl := Option.some.inj (Option.some.inj hc)
    have hder : c.der = der := R.parse_der h
    cases imposed <;> exact hder

def addDerWithLimits (s : TrustStore R) (der : List UInt8) (limits : AnchorLimits) :
    Except Error (TrustStore R) :=
  match h : R.fromDer der with
  | .error e => .error e
  | .ok c => do
    let imposed ← limits.nameConstraints.mapM R.parseNameConstraints
    .ok (s.pushRoot c.subjectKey
      (rootOf der c (Reader.fromDer_eq_ok h) imposed limits.distrustAfter) (by
        intro c' hc
        obtain rfl := Option.some.inj hc
        cases imposed <;> rfl))

def addDer (s : TrustStore R) (der : List UInt8) : Except Error (TrustStore R) :=
  s.addDerWithLimits der { distrustAfter := none, nameConstraints := none }

/-- An anchor of a bundle: the cell is not filled yet. -/
def lazyRoot (der : List UInt8) : Root R := ⟨der, none, none, by simp⟩

lemma subjectKey_lazyRoot {der key : List UInt8} (h : R.peekSubjectKey der = some key) :
    ∀ c, (lazyRoot der : Root R).certificate = some c → c.subjectKey = key := by
  intro c hc
  rw [Root.certificate, lazyRoot, Option.getD_none] at hc
  cases hfrom : R.fromDer der with
  | error e => simp [hfrom, Except.toOption] at hc
  | ok c' =>
    simp only [hfrom, Except.toOption, Option.some.injEq] at hc
    exact hc ▸ R.peek_eq (Reader.fromDer_eq_ok hfrom) h

/-- One certificate of a bundle is added if its subject reads; with how many were added. -/
def addBlock (p : ℕ × TrustStore R) (der : List UInt8) : ℕ × TrustStore R :=
  match h : R.peekSubjectKey der with
  | some key => (p.1 + 1, p.2.pushRoot key (lazyRoot der) (subjectKey_lazyRoot h))
  | none => p

def addPem (s : TrustStore R) (blocks : List (List UInt8)) : ℕ × TrustStore R :=
  blocks.foldl addBlock (0, s)

/-- `anchors_for`: the anchors of the subject name with that key, with their distrust dates. -/
def anchorsFor (s : TrustStore R) (key : List UInt8) : List (Certificate × Option ℤ) :=
  (s.bySubject.at key).filterMap fun i =>
    s.roots[i]?.bind fun r => r.certificate.map fun c => (c, r.distrustAfter)

lemma mem_anchorsFor {s : TrustStore R} {key : List UInt8} {a : Certificate × Option ℤ} :
    a ∈ s.anchorsFor key ↔
      ∃ r ∈ s.roots, r.certificate = some a.1 ∧ r.distrustAfter = a.2 ∧ a.1.subjectKey = key := by
  simp only [anchorsFor, List.mem_filterMap, Option.bind_eq_some_iff, Option.map_eq_some_iff]
  constructor
  · rintro ⟨i, hi, r, hr, c, hc, rfl⟩
    exact ⟨r, List.mem_of_getElem? hr, hc, rfl, (s.mem_at i r c hr hc key).1 hi⟩
  · rintro ⟨r, hr, hc, ht, hkey⟩
    obtain ⟨i, hi⟩ := List.getElem?_of_mem hr
    exact ⟨i, (s.mem_at i r _ hi hc key).2 hkey, r, hi, a.1, hc, by rw [ht]⟩

lemma anchorsFor_pushRoot (s : TrustStore R) (name : List UInt8) (r : Root R)
    (h : ∀ c, r.certificate = some c → c.subjectKey = name) (key : List UInt8) :
    (s.pushRoot name r h).anchorsFor key = s.anchorsFor key ++
      if name = key then (r.certificate.map fun c => (c, r.distrustAfter)).toList else [] := by
  -- the places that there were are of the same anchors
  have hold : (s.bySubject.at key).filterMap (fun i => (s.roots ++ [r])[i]?.bind fun r =>
      r.certificate.map fun c => (c, r.distrustAfter)) = s.anchorsFor key :=
    List.filterMap_congr fun i hi => by rw [List.getElem?_append_left (s.at_lt key i hi)]
  rw [anchorsFor, pushRoot]
  dsimp only
  rw [Index.at_push]
  by_cases hkey : name = key
  · rw [if_pos hkey.symm, if_pos hkey, hkey, List.filterMap_append, hold]
    simp only [List.filterMap_cons, List.filterMap_nil, List.getElem?_concat_length,
      Option.bind_some]
    cases r.certificate <;> rfl
  · rw [if_neg (Ne.symm hkey), if_neg hkey, hold, List.append_nil]

/-- The store when the certificate of the anchor at `i` was needed. -/
def fill (s : TrustStore R) (i : ℕ) : TrustStore R :=
  { s with
    roots := s.roots.modify i Root.fill
    at_lt := by simpa using s.at_lt
    mem_at := by
      intro j r c hr hc
      rw [List.getElem?_modify, Option.map_eq_map, Option.map_eq_some_iff] at hr
      obtain ⟨r', hr', heq⟩ := hr
      refine s.mem_at j r' c hr' ?_
      rw [← hc, ← heq]
      split_ifs <;> rfl }

lemma anchorsFor_fill (s : TrustStore R) (i : ℕ) (key : List UInt8) :
    (s.fill i).anchorsFor key = s.anchorsFor key := by
  refine List.filterMap_congr fun j _ => ?_
  rw [fill]
  simp only [List.getElem?_modify]
  cases s.roots[j]? with
  | none => rfl
  | some r =>
    simp only [Option.map_eq_map, Option.map_some, Option.bind_some]
    split_ifs <;> rfl

/-- A bundle adds to the anchors of a name, in its order, those of its certificates with that
subject that parse, whatever else is in it, and whichever anchors were needed, and so parsed,
meanwhile. -/
theorem anchorsFor_addPem (s : TrustStore R) (blocks : List (List UInt8)) (needed : List ℕ)
    (key : List UInt8) :
    (needed.foldl fill (s.addPem blocks).2).anchorsFor key =
      s.anchorsFor key ++ blocks.filterMap fun der =>
        if R.peekSubjectKey der = some key then (R.fromDer der).toOption.map (·, none)
          else none := by
  have hadded : ∀ p : ℕ × TrustStore R, (blocks.foldl addBlock p).2.anchorsFor key =
      p.2.anchorsFor key ++ blocks.filterMap fun der =>
        if R.peekSubjectKey der = some key then (R.fromDer der).toOption.map (·, none)
          else none := by
    induction blocks with
    | nil => exact fun p => (List.append_nil _).symm
    | cons der blocks ih =>
      intro p
      rw [List.foldl_cons, ih, List.filterMap_cons, addBlock]
      split
      next name hname =>
        rw [anchorsFor_pushRoot, List.append_assoc, hname, Root.certificate, lazyRoot,
          Option.getD_none]
        by_cases hkey : name = key
        · simp only [hkey, if_true]
          cases (R.fromDer der).toOption <;> rfl
        · simp only [hkey, if_false, Option.some.injEq, List.nil_append]
      next hname => simp only [hname, reduceCtorEq, if_false]
  rw [addPem]
  generalize hs : (blocks.foldl addBlock (0, s)).2 = t
  rw [← hadded (0, s), hs]
  clear hs
  induction needed generalizing t with
  | nil => rfl
  | cons i needed ih => rw [List.foldl_cons, ih, anchorsFor_fill]

end TrustStore

/-! ## The checks of one step -/

def verifySignedBy (P : Prims) (c issuer : Certificate) : Except Error Unit :=
  match c.sigAlg with
  | none =>
    .error (.Certificate s!"unsupported certificate signature algorithm [{c.subjectSummary}]")
  | some alg =>
    if P.verifySignature alg issuer.publicKey c.tbs c.signature then .ok ()
    else .error (.Certificate
      (s!"signature of certificate [{c.subjectSummary}] was not made by the key of " ++
        s!"[{issuer.subjectSummary}]"))

def padded (width n : ℕ) : String :=
  let digits := toString n
  String.ofList (List.replicate (width - digits.length) '0') ++ digits

/-- `utc_date`: a Unix time as a UTC date and time. -/
def utcDate (t : ℤ) : String :=
  let days := t / 86400
  let secs := (t % 86400).toNat
  let z := days + 719468
  let era := z / 146097
  let doe := (z % 146097).toNat
  let yoe := (doe - doe / 1460 + doe / 36524 - doe / 146096) / 365
  let doy := doe - (365 * yoe + yoe / 4 - yoe / 100)
  let mp := (5 * doy + 2) / 153
  let d := doy - (153 * mp + 2) / 5 + 1
  let m := if mp < 10 then mp + 3 else mp - 9
  let y : ℤ := yoe + era * 400 + if m ≤ 2 then 1 else 0
  let year := if y < 0 then "-" ++ padded 3 y.natAbs else padded 4 y.natAbs
  s!"{year}-{padded 2 m}-{padded 2 d}" ++
    s!"T{padded 2 (secs / 3600)}:{padded 2 (secs / 60 % 60)}:{padded 2 (secs % 60)}Z"

/-- The date from which certificates are not trusted under a root. -/
def checkDistrust (leaf root : Certificate) (distrustAfter : Option ℤ) : Except Error Unit :=
  match distrustAfter.filter fun t => t < leaf.notBefore with
  | some t => pathErr root (s!"the leaf was issued ({utcDate leaf.notBefore}) after the date " ++
    s!"({utcDate t}) from which certificates are not trusted under the root")
  | none => .ok ()

variable {R : Reader}

/-- What a search is for: the store, the options, the leaf and the intermediates that were sent. -/
structure Query (R : Reader) where
  store : TrustStore R
  opts : VerifyOptions
  leaf : Certificate
  inters : List Certificate

/-- The last certificate of a path that has those certificates above the leaf. -/
def Query.top (q : Query R) (above : List Certificate) : Certificate := above.getLast?.getD q.leaf

/-- Whether the rules of the CA/Browser Forum apply. -/
def webRules (store : TrustStore R) (opts : VerifyOptions) : Bool :=
  opts.webPki ∧ store.webPkiRules ∧ opts.purpose = .ServerAuth

/-- A path that ends in an anchor: the date of the anchor, and the checks of the path. -/
def checkAnchor (P : Prims) (q : Query R) (above : List Certificate) (root : Certificate)
    (distrustAfter : Option ℤ) : Except Error Unit := do
  checkDistrust q.leaf root distrustAfter
  checkPath P q.opts q.store.minRsaBits (webRules q.store q.opts) q.leaf above

/-! ## The search -/

/-- What the search keeps: the path above the leaf, which intermediates are in it, the error to
return, why a branch ended, the candidate issuers tried so far, and how many of them had the
signature checked. -/
structure Search where
  above : List Certificate
  used : List Bool
  lastErr : Option Error
  deadEnd : Option String
  attempts : ℕ
  checks : ℕ

namespace Search

def attempt (s : Search) : Search := { s with attempts := s.attempts + 1 }

def check (s : Search) : Search := { s with checks := s.checks + 1 }

/-- `last_err.get_or_insert`. -/
def keepErr (s : Search) (e : Error) : Search := { s with lastErr := some (s.lastErr.getD e) }

/-- `*last_err = Some(e)`. -/
def setErr (s : Search) (e : Error) : Search := { s with lastErr := some e }

/-- `dead_end.get_or_insert_with`. -/
def keepEnd (s : Search) (what : String) : Search :=
  { s with deadEnd := some (s.deadEnd.getD what) }

def push (s : Search) (c : Certificate) : Search := { s with above := s.above ++ [c] }

def pop (s : Search) : Search := { s with above := s.above.dropLast }

/-- `used[i] = b`. -/
def mark (s : Search) (i : ℕ) (b : Bool) : Search := { s with used := s.used.set i b }

end Search

/-- How a loop over candidates ended: a path was found, the budget ran out, or no candidate is
left. -/
inductive Ending
  | found
  | gaveUp
  | done
deriving DecidableEq

variable (P : Prims) (q : Query R)

/-- The outcome of trying one anchor whose signature was checked. -/
def tryAnchor (cur root : Certificate) (distrustAfter : Option ℤ) (s : Search) : Bool × Search :=
  match verifySignedBy P cur root with
  | .error e => (false, s.keepErr e)
  | .ok () =>
    let s := s.push root
    match checkAnchor P q s.above root distrustAfter with
    | .ok () => (true, s)
    | .error e => (false, (s.setErr e).pop)

/-- The loop over the anchors that may have issued a certificate; `n` counts the candidates. -/
def tryAnchors (cur : Certificate) :
    List (Certificate × Option ℤ) → Search → ℕ → Ending × Search × ℕ
  | [], s, n => (.done, s, n)
  | (root, distrustAfter) :: rest, s, n =>
    let s := s.attempt
    if MAX_PATH_ATTEMPTS < s.attempts then (.gaveUp, s, n)
    else
      let r := tryAnchor P q cur root distrustAfter s.check
      if r.1 then (.found, r.2, n + 1) else tryAnchors cur rest r.2 (n + 1)

/-- An intermediate is tried when it is not in the path yet, has the issuer's name and is not
self-issued. -/
def isCandidate (cur : Certificate) (s : Search) (i : ℕ) (ic : Certificate) : Bool :=
  s.used[i]? = some false ∧ ic.subjectKey = cur.issuerKey ∧ ic.isSelfIssued = false

/-- The outcome of trying one intermediate: if the signature verifies, the search goes on above it
(`deeper`), and on failure the path is what it was. -/
def tryIntermediate (deeper : Search → Bool × Search) (cur : Certificate) (i : ℕ)
    (ic : Certificate) (s : Search) : Bool × Search :=
  match verifySignedBy P cur ic with
  | .error e => (false, s.keepErr e)
  | .ok () =>
    let r := deeper ((s.mark i true).push ic)
    if r.1 then r else (false, r.2.pop.mark i false)

/-- The loop over the intermediates, from the index `i` on. -/
def tryIntermediates (deeper : Search → Bool × Search) (cur : Certificate) :
    ℕ → List Certificate → Search → ℕ → Ending × Search × ℕ
  | _, [], s, n => (.done, s, n)
  | i, ic :: rest, s, n =>
    if isCandidate cur s i ic then
      let s := s.attempt
      if MAX_PATH_ATTEMPTS < s.attempts then (.gaveUp, s, n)
      else
        let r := tryIntermediate P deeper cur i ic s.check
        if r.1 then (.found, r.2, n + 1)
        else tryIntermediates deeper cur (i + 1) rest r.2 (n + 1)
    else tryIntermediates deeper cur (i + 1) rest s n

/-- What the search says of a certificate none of whose issuers is known. -/
def noIssuer (cur : Certificate) : String :=
  s!"the issuer [{cur.issuerSummary}] of certificate [{cur.subjectSummary}] is neither a " ++
    "trusted root nor sent by the server"

/-- What comes after the anchors of the last certificate: the path is too long for another
intermediate, or the intermediates are tried. -/
def afterAnchors (deeper : Option (Search → Bool × Search)) (cur : Certificate) (s : Search)
    (n : ℕ) : Bool × Search :=
  match deeper with
  | none => (false, s.keepEnd s!"chain is longer than {MAX_CHAIN_DEPTH} certificates")
  | some deeper =>
    match tryIntermediates P deeper cur 0 q.inters s n with
    | (.found, s, _) => (true, s)
    | (.gaveUp, s, _) => (false, s)
    | (.done, s, n) => (false, if n = 0 then s.keepEnd (noIssuer cur) else s)

/-- One call of the search: the anchors of the last certificate first. -/
def searchFrom (deeper : Option (Search → Bool × Search)) (s : Search) : Bool × Search :=
  let cur := q.top s.above
  match tryAnchors P q cur (q.store.anchorsFor cur.issuerKey) s 0 with
  | (.found, s, _) => (true, s)
  | (.gaveUp, s, _) => (false, s)
  | (.done, s, n) => afterAnchors P q deeper cur s n

/-- `search`: `left` is how many more intermediates the path may have, none when it has more than
`MAX_CHAIN_DEPTH` certificates. -/
def search : ℕ → Search → Bool × Search
  | 0, s => searchFrom P q none s
  | left + 1, s => searchFrom P q (some (search left)) s

/-! ## Building a path -/

/-- The intermediates that were sent, each once and without the leaf: what does not parse is
ignored. -/
def collect (R : Reader) : List (List UInt8) → List (List UInt8) → List Certificate
  | _, [] => []
  | seen, der :: rest =>
    if seen.any (· = der) then collect R seen rest
    else ((R.parse der).toOption).toList ++ collect R (seen ++ [der]) rest

/-- The search before it begins: the path is the leaf. -/
def Query.start (q : Query R) : Search where
  above := []
  used := List.replicate q.inters.length false
  lastErr := none
  deadEnd := none
  attempts := 0
  checks := 0

/-- The search of `build_path`. -/
def Query.search (q : Query R) : Bool × Search := X509.search P q MAX_CHAIN_DEPTH q.start

/-- What a search that found no path is reported as. -/
def Query.failure (q : Query R) (s : Search) : Error :=
  let deadEnd := s.deadEnd.getD "no usable certificate path"
  if MAX_PATH_ATTEMPTS < s.attempts then
    .Certificate (s!"gave up after {MAX_PATH_ATTEMPTS} signature checks while building a chain " ++
      s!"for [{q.leaf.subjectSummary}]: too many certificates that could be each other's issuers")
  else s.lastErr.getD (.Certificate
    s!"unable to build a chain to a trusted root for [{q.leaf.subjectSummary}]: {deadEnd}")

def query (store : TrustStore R) (chainDer : List (List UInt8)) (opts : VerifyOptions) :
    Except Error (Query R) :=
  match chainDer with
  | [] => .error (.Certificate "server sent no certificates")
  | der :: rest =>
    if opts.purpose = .ServerAuth ∧ opts.hostname = none then
      .error (.Certificate
        "a host name is required to verify a certificate for TLS server authentication")
    else do
      let leaf ← R.parse der
      .ok { store, opts, leaf, inters := collect R [der] rest }

/-- A chain that verified: the leaf, and the DER of the path that was built. -/
structure VerifiedChain where
  leaf : Certificate
  path : List (List UInt8)

/-- The path that was found, leaf first and anchor last. -/
def Query.result (q : Query R) (r : Bool × Search) : Except Error VerifiedChain :=
  if r.1 then .ok { leaf := q.leaf, path := (q.leaf :: r.2.above).map Certificate.der }
  else .error (q.failure r.2)

def TrustStore.verifyChain (store : TrustStore R) (chainDer : List (List UInt8))
    (opts : VerifyOptions) : Except Error VerifiedChain := do
  let q ← query store chainDer opts
  q.result (q.search P)

def TrustStore.searched (store : TrustStore R) (chainDer : List (List UInt8))
    (opts : VerifyOptions) : Option Search :=
  (query store chainDer opts).toOption.map fun q => (q.search P).2

/-- The budget ran out: one more candidate came up after the last that it allows. -/
def TrustStore.RunsOut (store : TrustStore R) (chainDer : List (List UInt8))
    (opts : VerifyOptions) : Prop :=
  ∃ s ∈ store.searched P chainDer opts, MAX_PATH_ATTEMPTS < s.attempts

end Lazaret.X509
