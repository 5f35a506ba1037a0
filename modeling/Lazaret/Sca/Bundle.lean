import Lazaret.Lib.Places
import Lazaret.Sca.Osv

/-!
# Bundles

A CVE bundle as `scanner/sca.py` reads it: the advisories of the document, each field of the type it
must have (`normalizeAdvisory`), and the package entries under the keys they are looked up by
(`CveBundle`).  `advisoriesFor_eq`: a lookup gives the entries that name the dependency, in the
order of the bundle.
-/

namespace Lazaret.Sca

variable (U : Unicode)

/-! ## Reading the document -/

/-- A package entry of an advisory, with its fields checked: the ranges are none where they are
malformed. -/
structure PackageEntry where
  name : Text
  ecosystem : Option Ecosystem
  ranges : Option (List Range)
  exact : Bool
  vendor : Option Text
deriving DecidableEq

/-- An advisory, with its fields checked; a number is kept as its `str`. -/
structure Advisory where
  cve : Text
  title : Option Text
  severity : Option Text
  cvss : Option Text
  epss : Option Text
  epssPercentile : Option Text
  knownExploited : Bool
  malicious : Bool
  ransomware : Bool
  dueDate : Option Text
  published : Option Text
  cwes : List Text
  refs : List Text
  sources : List Text
  packages : List PackageEntry
deriving DecidableEq

def Ecosystem.name : Ecosystem → Text
  | .npm => "npm".toList
  | .pypi => "pypi".toList
  | .go => "go".toList
  | .crates => "crates".toList

def ECOSYSTEMS : List Ecosystem := [.npm, .pypi, .go, .crates]

/-- The ecosystem of that name, if it is one of `ECOSYSTEMS`. -/
def ecosystemNamed (v : Option Json) : Option Ecosystem :=
  (Json.text? v).bind fun t => ECOSYSTEMS.find? fun e => e.name = t

def num (v : Option Json) : Option Text :=
  match v with
  | some (.number s) => some s
  | _ => none

def strs (v : Option Json) : List Text := (Json.elements v).filterMap fun x => Json.text? (some x)

def isTrue (v : Option Json) : Bool :=
  match v with
  | some (.bool true) => true
  | _ => false

def boundOf : Json → Bound
  | .null => .null
  | .text t => .text t
  | .number s => .number s
  | _ => .other

/-- Whether a mark of inclusion is there, and is not `False`. -/
def inclusiveOf : Json → Bool
  | .bool false => false
  | _ => true

def rangeOf (r : Json) : Range :=
  ⟨(r.get? "fromVersion").map boundOf, (r.get? "fromInclusive").map inclusiveOf,
    (r.get? "toVersion").map boundOf, (r.get? "toInclusive").map inclusiveOf⟩

/-- The ranges of a package entry: none is an empty list, and what is no list of dictionaries is
malformed. -/
def rangesOf (v : Option Json) : Option (List Range) :=
  match v with
  | none | some .null => some []
  | some (.list l) => if l.all (fun r => (Json.dict? (some r)).isSome) then some (l.map rangeOf)
      else none
  | _ => none

/-- One element of an advisory's `packages`, and what is counted of it. -/
def normalizePackage (p : Json) : Option PackageEntry × List String :=
  match (Json.dict? (some p)).bind fun p => Json.text? (p.get? "name") with
  | none => (none, ["malformed advisory package entries skipped"])
  | some name =>
    if strip U name = [] then (none, ["malformed advisory package entries skipped"])
    else
      let eco := ecosystemNamed (p.get? "ecosystem")
      let exact := isTrue (p.get? "exact")
      let ranges := rangesOf (p.get? "ranges")
      (some ⟨name, eco, ranges, exact && eco.isSome, Json.text? (p.get? "vendor")⟩,
        (if exact ∧ eco = none then
          ["exact package entries without a known ecosystem (matched by name)"] else []) ++
        (if ranges = none then ["malformed affected-version ranges (verdict: unknown)"] else []))

def badNumber (raw : Json) (field : String) : Bool :=
  (match raw.get? field with
    | none | some .null => false
    | _ => true) && (num (raw.get? field)).isNone

/-- `normalize_advisory`: an advisory as the scanner uses it, or none of what is no advisory, and
the warnings counted of it. -/
def normalizeAdvisory (raw : Json) (ordinal : ℕ) : Option Advisory × List String :=
  match Json.dict? (some raw) with
  | none => (none, ["malformed advisory entries skipped"])
  | some raw =>
    let id := if Json.truthy (raw.get? "cve") then raw.get? "cve" else raw.get? "id"
    let cve := (Json.text? id).filter fun t => t ≠ []
    let pkgs := match raw.get? "packages" with
      | some (.list l) => l.map (normalizePackage U)
      | _ => []
    let warnings :=
      (if cve = none then ["advisory entries without a 'cve' id (kept as 'advisory#N')"] else [])
      ++ (["cvss", "epss", "epssPercentile"].filter (badNumber raw)).map
        (fun f => "non-numeric " ++ f ++ " values ignored")
      ++ (match raw.get? "packages" with
        | some (.list _) | some .null | none => []
        | _ => ["advisories with a malformed 'packages' list skipped"])
      ++ pkgs.flatMap Prod.snd
    (some {
      cve := cve.getD ("advisory#".toList ++ (toString ordinal).toList)
      title := Json.text? (raw.get? "title")
      severity := Json.text? (raw.get? "severity")
      cvss := num (raw.get? "cvss")
      epss := num (raw.get? "epss")
      epssPercentile := num (raw.get? "epssPercentile")
      knownExploited := isTrue (raw.get? "knownExploited")
      malicious := isTrue (raw.get? "malicious")
      ransomware := isTrue (raw.get? "ransomware")
      dueDate := Json.text? (raw.get? "dueDate")
      published := Json.text? (raw.get? "published")
      cwes := strs (raw.get? "cwes")
      refs := strs (raw.get? "refs")
      sources := strs (raw.get? "sources")
      packages := pkgs.filterMap Prod.fst }, warnings)

/-! ## Looking names up -/

def nameVariants (name : Text) (ecosystem : Option Ecosystem) : List Text :=
  let n := U.lower (strip U name)
  let first := normalizePkg U (if ecosystem = some .go then name else n) ecosystem
  let base := normalizePkg U n none
  ((first :: if ecosystem = some .pypi then ["python-".toList ++ base, "py-".toList ++ base]
    else []).filter fun k => k ≠ []).eraseDups

abbrev Pair := Advisory × PackageEntry

/-- `CveBundle`: the advisories, and the places of their package entries in the bundle under the
keys that they are looked up by. -/
structure CveBundle where
  advisories : List Advisory
  index : List (Text × Unit × List ℕ)
  /-- `_exact`: under an ecosystem and an exact name. -/
  exact : List ((Ecosystem × Text) × Unit × List ℕ)

/-- The keys that an exact entry is put under: its ecosystem and its exact name. -/
def exactKeys (pkg : PackageEntry) : List (Ecosystem × Text) :=
  match pkg.exact, pkg.ecosystem with
  | true, some eco => [(eco, exactNameKey U pkg.name (some eco))]
  | _, _ => []

/-- The loose keys that an entry which is not exact is put under. -/
def looseKeys (pkg : PackageEntry) : List Text :=
  if pkg.exact then [] else nameVariants U pkg.name pkg.ecosystem

/-- Every package entry of some advisories, in order. -/
def pairsOf (advisories : List Advisory) : List Pair :=
  advisories.flatMap fun adv => adv.packages.map fun pkg => (adv, pkg)

/-- `CveBundle.__init__`, of the advisories read. -/
def CveBundle.ofAdvisories (advisories : List Advisory) : CveBundle :=
  { advisories := advisories
    index := Places.index (fun p => looseKeys U p.2) (pairsOf advisories)
    exact := Places.index (fun p => exactKeys U p.2) (pairsOf advisories) }

/-- The ecosystems whose exact names a lookup asks for: its own, or all. -/
def lookedUp : Option Ecosystem → List Ecosystem
  | some eco => [eco]
  | none => ECOSYSTEMS

/-- The loose keys that a lookup asks for: none in an ecosystem that matches only exact names. -/
def looseLookups (name : Text) (ecosystem : Option Ecosystem) : List Text :=
  if ecosystem.any Ecosystem.exactOnly then [] else nameVariants U name ecosystem

def CveBundle.places (b : CveBundle) (name : Text) (ecosystem : Option Ecosystem) : List ℕ :=
  ((looseLookups U name ecosystem).flatMap fun k => Places.placesAt b.index k) ++
  (lookedUp ecosystem).flatMap fun eco =>
    Places.placesAt b.exact (eco, exactNameKey U name (some eco))

/-- `advisories_for`: every pair that names a dependency, each once, in the order of the bundle. -/
def CveBundle.advisoriesFor (b : CveBundle) (name : Text) (ecosystem : Option Ecosystem) :
    List Pair :=
  Places.pick (pairsOf b.advisories) (b.places U name ecosystem)

/-! ## What a lookup gives -/

/-- Whether an entry names a dependency: an exact one by ecosystem and exact name, another by a
loose key. -/
def names (name : Text) (ecosystem : Option Ecosystem) (pkg : PackageEntry) : Bool :=
  ((looseLookups U name ecosystem).any fun k => k ∈ looseKeys U pkg) ||
  (lookedUp ecosystem).any fun eco => (eco, exactNameKey U name (some eco)) ∈ exactKeys U pkg

theorem advisoriesFor_eq (advisories : List Advisory) (name : Text)
    (ecosystem : Option Ecosystem) :
    (CveBundle.ofAdvisories U advisories).advisoriesFor U name ecosystem =
      (pairsOf advisories).filter fun p => names U name ecosystem p.2 := by
  apply Places.pick_eq_filter
  intro i
  simp only [CveBundle.places, CveBundle.ofAdvisories, List.mem_append, List.mem_flatMap,
    Places.mem_placesAt_index, names, Bool.or_eq_true, List.any_eq_true, decide_eq_true_eq]
  constructor
  · rintro (⟨k, hk, x, hx, hmem⟩ | ⟨eco, heco, x, hx, hmem⟩)
    · exact ⟨x, hx, .inl ⟨k, hk, hmem⟩⟩
    · exact ⟨x, hx, .inr ⟨eco, heco, hmem⟩⟩
  · rintro ⟨x, hx, ⟨k, hk, hmem⟩ | ⟨eco, heco, hmem⟩⟩
    · exact .inl ⟨k, hk, x, hx, hmem⟩
    · exact .inr ⟨eco, heco, x, hx, hmem⟩

end Lazaret.Sca
