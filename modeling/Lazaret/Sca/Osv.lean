import Lazaret.Lib.Grouping
import Lazaret.Sca.Verdict
import Mathlib.Data.Char
import Mathlib.Data.List.Lex
import Mathlib.Data.List.Sort

/-!
# Advisories made of OSV records

The two identities of a package name (`scanner/sca.py`): the loose key that names fold to, across
npm, PyPI and CPE products (`normalizePkg`), and the one an exact bundle entry matches on
(`exactNameKey`).  Then what `scanner/sca_feeds.py` makes of OSV's records, and the advisory of a
group of them.
-/

namespace Lazaret.Sca

variable (U : Unicode)

/-- `re.sub("[…]+", "-", s)`: each run of such characters is one `-`. -/
def collapse (p : Char → Bool) : Text → Text
  | [] => []
  | c :: rest =>
    if p c then
      match rest with
      | d :: _ => if p d then collapse p rest else '-' :: collapse p rest
      | [] => ['-']
    else c :: collapse p rest

/-- `s.replace(c, "-")` -/
def replaceWithDash (c : Char) (s : Text) : Text := s.map fun d => if d = c then '-' else d

/-- Without the first of some beginnings that it has. -/
def dropFirstPrefix : List Text → Text → Text
  | [], s => s
  | p :: ps, s => if p.isPrefixOf s then s.drop p.length else dropFirstPrefix ps s

/-- `'@scope/pkg'` as `'scope-pkg'`. -/
def foldScope (n : Text) : Text :=
  match n with
  | '@' :: rest =>
    if '/' ∈ rest then
      rest.takeWhile (· ≠ '/') ++ '-' ::
        replaceWithDash '/' ((rest.dropWhile (· ≠ '/')).drop 1)
    else n
  | _ => n

/-- Without PyPI's `python-` or `py-` before and `-python` after. -/
def dropPython (n : Text) : Text :=
  let n := dropFirstPrefix ["python-".toList, "py-".toList] n
  if "-python".toList.isSuffixOf n then n.take (n.length - "-python".length) else n

def normalizePkg (name : Text) (ecosystem : Option Ecosystem) : Text :=
  let n := strip U name
  match ecosystem with
  | some .go => n
  | some .crates => replaceWithDash '_' (U.lower n)
  | some .npm => collapse (fun c => isSeparator c || U.isSpace c) (foldScope (U.lower n))
  | some .pypi | none =>
    dropPython (collapse (fun c => isSeparator c || U.isSpace c) (foldScope (U.lower n)))

/-- `exact_name_key`: the identity that an exact bundle entry matches on. -/
def exactNameKey (name : Text) (ecosystem : Option Ecosystem) : Text :=
  let n := strip U name
  match ecosystem with
  | some .pypi => U.lower (collapse isSeparator n)
  | some .crates => replaceWithDash '_' (U.lower n)
  | _ => n

/-! ## Values -/

/-- What `json.loads` makes of a text: a number is kept as its `str`. -/
inductive Json
  | null
  | bool (b : Bool)
  | number (str : Text)
  | text (t : Text)
  | list (l : List Json)
  | dict (members : List (Text × Json))

namespace Json

/-- `d.get(key)`; none also for what is no dictionary. -/
def get? (v : Json) (key : String) : Option Json :=
  match v with
  | .dict members => (members.find? fun m => m.1 = key.toList).map Prod.snd
  | _ => none

/-- The elements, if this is a list, and else none. -/
def elements : Option Json → List Json
  | some (.list l) => l
  | _ => []

/-- `isinstance(v, str)`. -/
def text? : Option Json → Option Text
  | some (.text t) => some t
  | _ => none

def dict? : Option Json → Option Json
  | some (.dict m) => some (.dict m)
  | _ => none

/-- `bool(v)`. -/
def truthy : Option Json → Bool
  | none | some .null => false
  | some (.bool b) => b
  | some (.number s) => s ≠ "0".toList ∧ s ≠ "0.0".toList ∧ s ≠ "-0.0".toList
  | some (.text t) => t ≠ []
  | some (.list l) => !l.isEmpty
  | some (.dict m) => !m.isEmpty

end Json

/-! ## Identifiers and names -/

/-- `_CVE_RE`: the year and the number of a CVE. -/
def cveNumbers (s : Text) : Option (ℕ × ℕ) :=
  match s with
  | 'C' :: 'V' :: 'E' :: '-' :: rest => do
    let year ← (rest.take 4).mapM U.decimal
    let number ← (rest.drop 5).mapM U.decimal
    let value := fun ds : List ℕ => ds.foldl (fun n d => n * 10 + d) 0
    if (rest.drop 4).head? = some '-' ∧ 4 ≤ number.length ∧ number.length ≤ 9 then
      some (value year, value number)
    else none
  | _ => none

/-- `[A-Za-z]`. -/
def isLetter (c : Char) : Bool := isAlnum c && !isDigit c

/-- `_ID_RE`. -/
def isId (s : Text) : Bool :=
  let before := s.takeWhile (· ≠ '-')
  let after := (s.dropWhile (· ≠ '-')).drop 1
  '-' ∈ s && before.head?.any isLetter && before.all isAlnum && after.head?.any isAlnum &&
    after.all (fun c => isAlnum c || c ∈ ['.', '_', ':', '-']) && after.length ≤ 100

/-- `_NAME_RE`: the form of an ecosystem's names. -/
def isName (ecosystem : Ecosystem) (name : Text) : Bool :=
  match ecosystem with
  | .pypi => name.head?.any isAlnum && name.getLast?.any isAlnum &&
      name.all fun c => isAlnum c || isSeparator c
  | .go => name.head?.any isAlnum &&
      name.all fun c => isAlnum c || c ∈ ['.', '_', '~', '+', '/', '-']
  | .crates => name.head?.any (fun c => isAlnum c || c = '_') &&
      name.all fun c => isAlnum c || c ∈ ['_', '-']
  | .npm =>
    let bare := fun n : Text => n.head?.any (fun c => !U.isSpace c && c ≠ '/' && c ≠ '@') &&
      n.all fun c => !U.isSpace c && c ≠ '/'
    match name with
    | '@' :: rest =>
      let scope := rest.takeWhile (· ≠ '/')
      '/' ∈ rest && scope ≠ [] && scope.all (fun c => !U.isSpace c && c ≠ '@') &&
        bare ((rest.dropWhile (· ≠ '/')).drop 1)
    | _ => bare name

def MAX_NAME : ℕ := 214

/-- `_package_name`: a name of that ecosystem, or none. -/
def packageName (value : Option Json) (ecosystem : Ecosystem) : Option Text := do
  let name := strip U (← Json.text? value)
  if name ≠ [] ∧ name.length ≤ MAX_NAME ∧ name.all U.isPrintable ∧ isName U ecosystem name then
    some name
  else none

/-- `_ECOSYSTEM`: the ecosystem of OSV's name for it. -/
def ecosystemOf (osv : Text) : Option Ecosystem :=
  let key := U.lower (strip U (osv.takeWhile (· ≠ ':')))
  if key = "npm".toList then some .npm
  else if key = "pypi".toList then some .pypi
  else if key = "go".toList then some .go
  else if key = "crates.io".toList then some .crates
  else none

/-! ## The ranges of an entry -/

inductive EventKind
  | introduced
  | fixed
  | lastAffected
  | limit
deriving DecidableEq

def EventKind.member : EventKind → String
  | .introduced => "introduced"
  | .fixed => "fixed"
  | .lastAffected => "last_affected"
  | .limit => "limit"

def MAX_VERSION : ℕ := 128

/-- What one event says: the first kind of which it has a version. -/
def eventOf (e : Json) : Option (EventKind × Text) :=
  [EventKind.introduced, .fixed, .lastAffected, .limit].findSome? fun kind => do
    let v := strip U (← Json.text? (e.get? kind.member))
    if v ≠ [] ∧ v.length ≤ MAX_VERSION then some (kind, v) else none

/-- `("introduced", "0")`: no lower bound. -/
def fromTheStart (e : EventKind × Text) : Bool := e = (.introduced, ['0'])

/-- The keys of some versions in one scheme, if it reads each of them. -/
def keysOf (scheme : Scheme) : List Text → Except KeyError (Option (List (Text × VersionKey)))
  | [] => .ok (some [])
  | v :: rest => do
    match ← scheme.key U v with
    | none => .ok none
    | some k => (keysOf scheme rest).map (Option.map fun ks => (v, k) :: ks)

def VersionKey.cmp : VersionKey → VersionKey → Ordering
  | .pep440 a, .pep440 b => a.cmp b
  | .semver a, .semver b => a.cmp b
  | .pep440 _, .semver _ => .lt
  | .semver _, .pep440 _ => .gt

/-- Whether an event may stand before another: one from the start before every other. -/
def eventLe (keys : List (Text × VersionKey)) (a b : EventKind × Text) : Bool :=
  let key := fun e : EventKind × Text =>
    if fromTheStart e then none else (keys.find? fun k => k.1 = e.2).map Prod.snd
  match key a, key b with
  | none, _ => true
  | some _, none => false
  | some ka, some kb => ka.cmp kb ≠ .gt

/-- `_event_order`: the events in the order of their versions, or none where no one scheme orders
all of them. -/
def eventOrder (evs : List (EventKind × Text)) (ecosystem : Ecosystem) :
    Except KeyError (Option (List (EventKind × Text))) :=
  let versions := (evs.filter fun e => !fromTheStart e).map Prod.snd
  (firstScheme (fun s => keysOf U s versions) (schemes (some ecosystem) versions)).map
    (Option.map fun keys => evs.insertionSort fun a b => eventLe keys a b)

/-- `_interval`: a range, or none where it is empty. -/
def interval (start stop : Option Text) (stopInclusive : Bool) (ecosystem : Ecosystem) :
    Except KeyError (Option Range) :=
  let r : Range := ⟨start.map .text, start.map fun _ => true, stop.map .text,
    stop.map fun _ => stopInclusive⟩
  match start, stop with
  | some a, some b =>
    (cmpKeys U a b (some ecosystem) false).map fun c =>
      if c = some .gt ∨ c = some .eq ∧ stopInclusive = false then none else some r
  | _, _ => .ok (some r)

/-- The loop over the events in order: `open?` holds the start of an interval that is open. -/
def intervals (ecosystem : Ecosystem) :
    List (EventKind × Text) → Option (Option Text) → Except KeyError (List (Option Range))
  | [], none => .ok []
  | [], some start => (interval U start none true ecosystem).map fun r => [r]
  | (.introduced, v) :: rest, none =>
    intervals ecosystem rest (some (if v = ['0'] then none else some v))
  | (.introduced, _) :: rest, some start => intervals ecosystem rest (some start)
  | (_, _) :: rest, none => intervals ecosystem rest none
  | (kind, v) :: rest, some start => do
    let r ← interval U start (some v) (kind = .lastAffected) ecosystem
    (intervals ecosystem rest none).map fun rs => r :: rs

/-- `osv_intervals`: the ranges of the events of one OSV range. -/
def osvIntervals (events : Option Json) (ecosystem : Ecosystem) :
    Except KeyError (List Range) := do
  let evs := (Json.elements events).filterMap (eventOf U)
  let ordered ← eventOrder U evs ecosystem
  (intervals U ecosystem (ordered.getD evs) none).map fun rs => rs.filterMap id

/-- Whether a range is one of versions, not of commits. -/
def ofVersions (rng : Json) : Bool :=
  Json.text? (rng.get? "type") = some "SEMVER".toList ∨
    Json.text? (rng.get? "type") = some "ECOSYSTEM".toList

/-- `any(version_in_range(v, r, ecosystem) is True for r in intervals)` -/
def covered (v : Text) (ecosystem : Ecosystem) : List Range → Except KeyError Bool
  | [] => .ok false
  | r :: rest => do
    if (← versionInRange U v r (some ecosystem)) = some true then .ok true
    else covered v ecosystem rest

/-- The loop over the listed versions: those that no interval covers, each once. -/
def points (ecosystem : Ecosystem) (rs : List Range) :
    List Json → List Text → Except KeyError (List Range)
  | [], _ => .ok []
  | .text t :: rest, seen => do
    let v := strip U t
    if v = [] ∨ v ∈ seen ∨ v.length > MAX_VERSION then points ecosystem rs rest seen
    else if ¬ (← isComparableVersion U v (some ecosystem)) then
      points ecosystem rs rest (v :: seen)
    else if ← covered U v ecosystem rs then points ecosystem rs rest (v :: seen)
    else (points ecosystem rs rest (v :: seen)).map fun ps =>
      ⟨some (.text v), some true, some (.text v), some true⟩ :: ps
  | _ :: rest, seen => points ecosystem rs rest seen

/-- `affected_ranges`: the ranges of one `affected` entry. -/
def affectedRanges (aff : Json) (ecosystem : Ecosystem) : Except KeyError (List Range) := do
  let rs := (← ((Json.elements (aff.get? "ranges")).filter ofVersions).mapM fun rng =>
    osvIntervals U (rng.get? "events") ecosystem).flatten
  let versions := if rs.any allVersions then [] else Json.elements (aff.get? "versions")
  (points U ecosystem rs versions []).map fun ps => rs ++ ps

/-! ## Records -/

/-- What the bundle uses of one OSV record: its id, its aliases, and the packages it names with the
ranges of each. -/
structure Record where
  id : Text
  aliases : List Text
  packages : List (Ecosystem × Text × List Range)
deriving DecidableEq

def nameKey (name : Text) (ecosystem : Ecosystem) : Text := exactNameKey U name (some ecosystem)

def NOT_MODULES : List Text := ["stdlib".toList, "toolchain".toList]

/-- `_NOT_VULNERABILITIES`: RustSec's words for what is no flaw in a version. -/
def NOT_VULNERABILITIES : List Text := ["unmaintained".toList, "notice".toList]

/-- The package that an `affected` entry names, if it is one that is read. -/
def named (aff : Json) : Option (Ecosystem × Text) := do
  let pkg ← Json.dict? (aff.get? "package")
  let eco ← ecosystemOf U (← Json.text? (pkg.get? "ecosystem"))
  let name ← packageName U (pkg.get? "name") eco
  if eco = .go ∧ name ∈ NOT_MODULES then none
  else
    let informational := (Json.dict? (aff.get? "database_specific")).bind
      fun ds => Json.text? (ds.get? "informational")
    if eco = .crates ∧ informational.any (fun i => i ∈ NOT_VULNERABILITIES) then none
    else some (eco, name)

def packageKey (p : Ecosystem × Text) : Ecosystem × Text := (p.1, nameKey U p.2 p.1)

/-- The ranges that an `affected` entry adds, under the key of the package it names. -/
def readAffected (aff : Json) :
    Except KeyError (Option ((Ecosystem × Text) × Text × List Range)) :=
  match named U aff with
  | none => .ok none
  | some p => (affectedRanges U aff p.1).map fun rs => some (packageKey U p, p.2, rs)

/-- The loop over the aliases: those that are ids, each once and none its own. -/
def aliasesOf (rid : Text) : List Json → List Text → List Text
  | [], aliases => aliases
  | .text t :: rest, aliases =>
    let a := strip U t
    let a := if (cveNumbers U (U.upper a)).isSome then U.upper a else a
    aliasesOf rid rest
      (if isId a ∧ a ≠ rid ∧ a ∉ aliases then aliases ++ [a] else aliases)
  | _ :: rest, aliases => aliasesOf rid rest aliases

def affectedEntries (raw : Json) : List Json := Json.elements (raw.get? "affected")

/-- `osv_record`: what is used of a record, or none of one that names no package that is read. -/
def osvRecord (raw : Json) : Except KeyError (Option Record) :=
  match Json.text? (raw.get? "id") with
  | none => .ok none
  | some rid =>
    if ¬ isId rid then .ok none
    else if Json.truthy (raw.get? "withdrawn") then .ok none
    else do
      let read ← (affectedEntries raw).mapM (readAffected U)
      let packages := Grouping.gather (read.filterMap id)
      if packages = [] then .ok none
      else .ok (some {
        id := rid
        aliases := aliasesOf U rid (Json.elements (raw.get? "aliases")) []
        packages := packages.map fun e => (e.1.1, e.2.1, e.2.2.eraseDups) })

/-! ## Groups -/

abbrev Parents := List (Text × Text)

def Parents.get (parent : Parents) (x : Text) : Text :=
  ((parent.find? fun e => e.1 = x).map Prod.snd).getD x

/-- `parent[x] = p` -/
def Parents.set (x p : Text) : Parents → Parents
  | [] => [(x, p)]
  | e :: rest => if e.1 = x then (x, p) :: rest else e :: Parents.set x p rest

/-- The first loop of `find`: up to the root. -/
def rootOf (parent : Parents) : ℕ → Text → Text
  | 0, x => x
  | fuel + 1, x => if parent.get x = x then x else rootOf parent fuel (parent.get x)

/-- The second loop of `find`: each on the way is put under the root. -/
def compress (root : Text) : ℕ → Text → Parents → Parents
  | 0, _, parent => parent
  | fuel + 1, x, parent =>
    if parent.get x = root then parent
    else compress root fuel (parent.get x) (parent.set x root)

/-- `find`: the root, and the parents with the way to it shortened. -/
def find (parent : Parents) (x : Text) : Text × Parents :=
  let root := rootOf parent (parent.length + 1) x
  (root, compress root (parent.length + 1) x parent)

/-- One alias of a record: the two are put under the smaller of their roots. -/
def unite (id : Text) (parent : Parents) (other : Text) : Parents :=
  let a := find parent id
  let b := find a.2 other
  if a.1 ≠ b.1 then b.2.set (max a.1 b.1) (min a.1 b.1) else b.2

/-- The records under their roots, in the order they are read. -/
def rooted : List Record → Parents → List (Text × Unit × List Record)
  | [], _ => []
  | rec :: rest, parent =>
    let r := find parent rec.id
    (r.1, (), [rec]) :: rooted rest r.2

/-- `group_records`: the lists of records that are one vulnerability. -/
def groupRecords (records : List Record) : List (List Record) :=
  let parent := records.foldl (fun p rec => rec.aliases.foldl (unite rec.id) p) []
  (Grouping.gather (rooted records parent)).map fun e => e.2.2

/-! ## Advisories -/

/-- `_id_rank`: CVEs first, by year and number, then by the kind of the id. -/
def idRank (i : Text) : ℕ × ℕ × ℕ × Text :=
  match cveNumbers U i with
  | some (year, number) => (0, year, number, i)
  | none =>
    match ["GHSA-", "PYSEC-", "MAL-", "GO-", "RUSTSEC-"].findIdx?
        fun p => p.toList.isPrefixOf i with
    | some n => (n + 1, 0, 0, i)
    | none => (9, 0, 0, i)

/-- `<=` of two ranks. -/
def rankLe (a b : ℕ × ℕ × ℕ × Text) : Bool :=
  ((compare a.1 b.1).then <| (compare a.2.1 b.2.1).then <| (compare a.2.2.1 b.2.2.1).then <|
    compareList (fun c d => compare c.toNat d.toNat) a.2.2.2 b.2.2.2) ≠ .gt

/-- The place of an ecosystem's name in the order of the names. -/
def Ecosystem.place : Ecosystem → ℕ
  | .crates => 0
  | .go => 1
  | .npm => 2
  | .pypi => 3

/-- `<=` of two keys of packages. -/
def packageLe (a b : Ecosystem × Text) : Bool :=
  ((compare a.1.place b.1.place).then <|
    compareList (fun c d => compare c.toNat d.toNat) a.2 b.2) ≠ .gt

/-- A package entry of an advisory; each is marked exact. -/
structure Package where
  name : Text
  ecosystem : Ecosystem
  ranges : List Range
deriving DecidableEq

/-- `advisory`, as far as its package entries: one for each package that a member names. -/
def advisory (members : List Record) : List Package :=
  let members := members.insertionSort fun a b => rankLe (idRank U a.id) (idRank U b.id)
  let packages := Grouping.gather (members.flatMap fun m => m.packages.map fun p =>
    (packageKey U (p.1, p.2.1), p.2.1, p.2.2))
  (packages.insertionSort fun a b => packageLe a.1 b.1).map fun e =>
    ⟨e.2.1, e.1.1, e.2.2.eraseDups⟩

end Lazaret.Sca
