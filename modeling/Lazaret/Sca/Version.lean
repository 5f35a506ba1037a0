import Mathlib.Data.List.DropRight

/-!
# Versions

The version engine of `scanner/sca.py`: PEP 440 and SemVer keys, the scheme an ecosystem's versions
are compared by, and whether a version lies in an affected range.  Python's tables of characters are
a parameter (`Unicode`); reading a version fails (`KeyError`) where its pre-release letters are none
of the table's, which the case-insensitive match lets through (`1.0prevıew`).
-/

namespace Lazaret.Sca

abbrev Text := List Char

instance instLawfulBEqText : LawfulBEq Text := inferInstance

/-- Python's tables of characters: `\s` and `str.isspace`, `str.isprintable`, the value of a `\d`,
and the two changes of case. -/
structure Unicode where
  isSpace : Char → Bool
  isPrintable : Char → Bool
  decimal : Char → Option ℕ
  lower : Text → Text
  upper : Text → Text

def ascii : Unicode where
  isSpace c := (9 ≤ c.toNat ∧ c.toNat ≤ 13) ∨ (28 ≤ c.toNat ∧ c.toNat ≤ 32)
  isPrintable c := 32 ≤ c.toNat ∧ c.toNat ≤ 126
  decimal c := if '0' ≤ c ∧ c ≤ '9' then some (c.toNat - '0'.toNat) else none
  lower s := s.map Char.toLower
  upper s := s.map Char.toUpper

structure KeyError where
  key : Text
deriving DecidableEq

/-- The ecosystems a dependency, and a bundle entry, can be of. -/
inductive Ecosystem
  | npm
  | pypi
  | go
  | crates
deriving DecidableEq

instance instLawfulBEqEcosystemText : LawfulBEq (Ecosystem × Text) := inferInstance

/-- `EXACT_ONLY`: those whose names are matched only against an exact bundle entry. -/
def Ecosystem.exactOnly : Ecosystem → Bool
  | .go | .crates => true
  | .npm | .pypi => false

variable (U : Unicode)

def strip (s : Text) : Text := (s.dropWhile U.isSpace).rdropWhile U.isSpace

/-! ## Reading a version -/

/-- `[0-9]`. -/
def isDigit (c : Char) : Bool := '0' ≤ c ∧ c ≤ '9'

/-- `[0-9A-Za-z]`. -/
def isAlnum (c : Char) : Bool := isDigit c ∨ ('a' ≤ c ∧ c ≤ 'z') ∨ ('A' ≤ c ∧ c ≤ 'Z')

/-- `[0-9A-Za-z-]`. -/
def isIdent (c : Char) : Bool := isAlnum c ∨ c = '-'

/-- The character that a match without regard to case takes this one for: `ı` and `İ` are an `i`,
`ſ` is an `s` and the Kelvin sign a `k`. -/
def caseless (c : Char) : Char :=
  if c = 'ı' ∨ c = 'İ' then 'i'
  else if c = 'ſ' then 's'
  else if c = Char.ofNat 0x212a then 'k'
  else c.toLower

/-- `[a-z0-9]`, without regard to case. -/
def isLocal (c : Char) : Bool := isDigit c ∨ ('a' ≤ caseless c ∧ caseless c ≤ 'z')

/-- `[-_.]`. -/
def isSeparator (c : Char) : Bool := c = '-' ∨ c = '_' ∨ c = '.'

def int (digits : Text) : ℕ := digits.foldl (fun n c => n * 10 + (c.toNat - '0'.toNat)) 0

/-- What stands in the leading characters of a kind, cut at the separators, and what follows:
`none` if a part is empty. -/
def parts (ok sep : Char → Bool) (s : Text) : Option (List Text × Text) :=
  let ps := (s.takeWhile fun c => ok c ∨ sep c).splitOnP sep
  if [] ∈ ps then none else some (ps, s.dropWhile fun c => ok c ∨ sep c)

/-- `[-_.]?` -/
def skipSeparator : Text → Text
  | c :: rest => if isSeparator c then rest else c :: rest
  | [] => []

/-- One of some words, without regard to case, and what follows. -/
def word (words : List Text) (s : Text) : Option (Text × Text) :=
  (words.find? fun w => (s.take w.length).map caseless = w).map fun w =>
    (s.take w.length, s.drop w.length)

/-- `[0-9]+`, or nothing. -/
def digits (s : Text) : Text × Text := (s.takeWhile isDigit, s.dropWhile isDigit)

/-- `[-_.]?(words)[-_.]?([0-9]+)?`: the word, the number after it and what follows. -/
def labelled (words : List Text) (s : Text) : Option ((Text × ℕ) × Text) :=
  (word words (skipSeparator s)).map fun w =>
    let d := digits (skipSeparator w.2)
    ((w.1, int d.1), d.2)

/-! ## Keys -/

/-- What may be missing from a version, sorting before or after what is there. -/
inductive Slot (α : Type*)
  | neg
  | at (a : α)
  | pos
deriving DecidableEq

inductive Part
  | number (n : ℕ)
  | word (s : Text)
deriving DecidableEq

structure Pep440 where
  epoch : ℕ
  release : List ℕ
  pre : Slot (ℕ × ℕ)
  post : Slot ℕ
  dev : Slot ℕ
  loc : Slot (List Part)
deriving DecidableEq

/-- The sort key of a SemVer version: its numbers, and the parts of its pre-release. -/
structure Semver where
  release : List ℕ
  pre : Option (List Part)
deriving DecidableEq

/-- `_release`: without zeros at the end, of more than one. -/
def release (nums : List ℕ) : List ℕ :=
  match nums with
  | [] => []
  | n :: rest => n :: rest.rdropWhile (· = 0)

def part (lower : Text → Text) (p : Text) : Part :=
  if p.all isDigit then .number (int p) else .word (lower p)

def MAX_VERSION_LEN : ℕ := 128

def PRE_ORDER : List (Text × ℕ) := [
  ("a".toList, 0), ("alpha".toList, 0), ("b".toList, 1), ("beta".toList, 1), ("c".toList, 2),
  ("rc".toList, 2), ("pre".toList, 2), ("preview".toList, 2)]

def preOrder (l : Text) : Except KeyError ℕ :=
  match (PRE_ORDER.find? fun e => e.1 = l) with
  | some e => .ok e.2
  | none => .error ⟨l⟩

def preWords : List Text :=
  ["alpha".toList, "a".toList, "beta".toList, "b".toList, "preview".toList, "pre".toList,
    "c".toList, "rc".toList]

def postWords : List Text := ["post".toList, "rev".toList, "r".toList]

def devWords : List Text := ["dev".toList]

/-- The number of a post-release: `-1`, or a word with a number after it or none. -/
def postRelease (s : Text) : Option (ℕ × Text) :=
  match s with
  | '-' :: c :: rest =>
    if isDigit c then some (int (digits (c :: rest)).1, (digits (c :: rest)).2)
    else (labelled postWords s).map fun r => (r.1.2, r.2)
  | _ => (labelled postWords s).map fun r => (r.1.2, r.2)

/-- What `_PEP440_RE` finds: its groups. -/
structure Pep440Match where
  epoch : ℕ
  nums : List Text
  pre : Option (Text × ℕ)
  post : Option ℕ
  dev : Option ℕ
  loc : Option (List Text)

/-- An optional group: what it holds, and what follows. -/
def optional {α : Type*} (read : Text → Option (α × Text)) (s : Text) : Option α × Text :=
  match read s with
  | some (a, rest) => (some a, rest)
  | none => (none, s)

/-- `[0-9]+!` -/
def epoch (s : Text) : Option (ℕ × Text) :=
  match digits s with
  | (d :: ds, '!' :: rest) => some (int (d :: ds), rest)
  | _ => none

/-- `[0-9]+(\.[0-9]+)*`, and what follows: a dot without a digit after it is not part of it. -/
def dotted (s : Text) : Option (List Text × Text) :=
  let run := s.takeWhile fun c => isDigit c ∨ c = '.'
  let nums := (run.splitOnP fun c => c = '.').takeWhile fun p => p ≠ []
  if nums = [] then none else some (nums, s.drop (nums.flatten.length + (nums.length - 1)))

def localLabel (s : Text) : Option (List Text × Text) :=
  match s with
  | '+' :: rest => parts isLocal isSeparator rest
  | _ => none

def pep440Match (s : Text) : Option Pep440Match := do
  let s := s.dropWhile U.isSpace
  let s := match s with
    | c :: rest => if caseless c = 'v' then rest else c :: rest
    | [] => []
  let (e, s) := optional epoch s
  let (nums, s) ← dotted s
  let (pre, s) := optional (labelled preWords) s
  let (post, s) := optional postRelease s
  let (dev, s) := optional (labelled devWords) s
  let (loc, s) := optional localLabel s
  if s.all U.isSpace then
    some ⟨e.getD 0, nums, pre, post, dev.map Prod.snd, loc⟩
  else none

/-- `_pep440_key`: the sort key of a PEP 440 version. -/
def pep440Key (s : Text) (ignoreLocal : Bool) : Except KeyError (Option Pep440) :=
  if s.length > MAX_VERSION_LEN then .ok none
  else
    match pep440Match U s with
    | none => .ok none
    | some m => do
      let pre ← m.pre.mapM fun p => (preOrder (U.lower p.1)).map fun o => (o, p.2)
      let preK := match pre, m.post, m.dev with
        | none, none, some _ => .neg
        | none, _, _ => .pos
        | some p, _, _ => .at p
      let postK := match m.post with
        | none => .neg
        | some n => .at n
      let devK := match m.dev with
        | none => .pos
        | some n => .at n
      let locK := match m.loc, ignoreLocal with
        | some ps, false => .at (ps.map (part U.lower))
        | _, _ => .neg
      .ok (some ⟨m.epoch, release (m.nums.map int), preK, postK, devK, locK⟩)

def signed (sign : Char) (s : Text) : Option (List Text × Text) :=
  match s with
  | c :: rest => if c = sign then parts isIdent (fun c => c = '.') rest else none
  | [] => none

/-- `_SEMVER_RE.match`: the numbers and the pre-release. -/
def semverMatch (s : Text) : Option (List Text × Option (List Text)) := do
  let s := s.dropWhile U.isSpace
  let s := match s with
    | 'v' :: rest => rest
    | '=' :: rest => rest
    | s => s
  let s := s.dropWhile U.isSpace
  let (nums, s) ← dotted s
  let (pre, s) := optional (signed '-') s
  let (_, s) := optional (signed '+') s
  if s.all U.isSpace then some (nums, pre) else none

/-- `_semver_key`: the sort key of a SemVer version, whose build metadata takes no part in it. -/
def semverKey (s : Text) : Option Semver :=
  if s.length > MAX_VERSION_LEN then none
  else (semverMatch U s).map fun m =>
    ⟨release (m.1.map int), m.2.map fun ps => ps.map (part id)⟩

/-! ## Comparing -/

/-- `(a > b) - (a < b)` of two texts, or two tuples of numbers. -/
def compareList {α : Type*} (cmp : α → α → Ordering) : List α → List α → Ordering
  | [], [] => .eq
  | [], _ :: _ => .lt
  | _ :: _, [] => .gt
  | a :: as, b :: bs => (cmp a b).then (compareList cmp as bs)

def Slot.cmp {α : Type*} (cmp : α → α → Ordering) : Slot α → Slot α → Ordering
  | .neg, .neg => .eq
  | .neg, _ => .lt
  | .at _, .neg => .gt
  | .at a, .at b => cmp a b
  | .at _, .pos => .lt
  | .pos, .pos => .eq
  | .pos, _ => .gt

/-- Two parts: `numbersFirst` of a pre-release, words first in a local label. -/
def Part.cmp (numbersFirst : Bool) : Part → Part → Ordering
  | .number a, .number b => compare a b
  | .word a, .word b => compareList (fun c d => compare c.toNat d.toNat) a b
  | .number _, .word _ => if numbersFirst then .lt else .gt
  | .word _, .number _ => if numbersFirst then .gt else .lt

def Pep440.cmp (a b : Pep440) : Ordering :=
  (compare a.epoch b.epoch).then <|
  (compareList compare a.release b.release).then <|
  (a.pre.cmp (fun x y => (compare x.1 y.1).then (compare x.2 y.2)) b.pre).then <|
  (a.post.cmp compare b.post).then <|
  (a.dev.cmp compare b.dev).then <|
  a.loc.cmp (compareList (Part.cmp false)) b.loc

def Semver.cmp (a b : Semver) : Ordering :=
  (compareList compare a.release b.release).then <|
  match a.pre, b.pre with
  | none, none => .eq
  | none, some _ => .gt
  | some _, none => .lt
  | some p, some q => compareList (Part.cmp true) p q

inductive Scheme
  | pep440
  | semver
deriving DecidableEq

/-- `_schemes`: the ways to read versions of an ecosystem, in the order they are tried. -/
def schemes (ecosystem : Option Ecosystem) (versions : List Text) : List Scheme :=
  match ecosystem with
  | some .pypi => [.pep440, .semver]
  | some .go | some .crates => [.semver]
  | some .npm => [.semver, .pep440]
  | none => if versions.any (fun v => '-' ∈ v) then [.semver, .pep440] else [.pep440, .semver]

inductive VersionKey
  | pep440 (k : Pep440)
  | semver (k : Semver)
deriving DecidableEq

def Scheme.key (s : Scheme) (v : Text) : Except KeyError (Option VersionKey) :=
  match s with
  | .pep440 => (pep440Key U v false).map (Option.map .pep440)
  | .semver => .ok ((semverKey U v).map .semver)

/-- One scheme's comparison of two versions, if it reads both: the second is read first. -/
def Scheme.compare (s : Scheme) (a b : Text) (ignoreLocal : Bool) :
    Except KeyError (Option Ordering) :=
  match s with
  | .pep440 => do
    match ← pep440Key U b false with
    | none => .ok none
    | some kb => (pep440Key U a ignoreLocal).map (Option.map fun ka => ka.cmp kb)
  | .semver => .ok (do
      let kb ← semverKey U b
      let ka ← semverKey U a
      some (ka.cmp kb))

def firstScheme {α : Type} (f : Scheme → Except KeyError (Option α)) :
    List Scheme → Except KeyError (Option α)
  | [] => .ok none
  | s :: rest => do
    match ← f s with
    | some a => .ok (some a)
    | none => firstScheme f rest

/-- `version_key`: a key of one version, or none when it is not comparable. -/
def versionKey (version : Text) (ecosystem : Option Ecosystem) :
    Except KeyError (Option VersionKey) :=
  firstScheme (fun s => s.key U version) (schemes ecosystem [version])

/-- `_cmp_keys`: two versions by the first scheme that reads both. -/
def cmpKeys (a b : Text) (ecosystem : Option Ecosystem) (ignoreLocalOfA : Bool) :
    Except KeyError (Option Ordering) :=
  firstScheme (fun s => s.compare U a b ignoreLocalOfA) (schemes ecosystem [a, b])

def isComparableVersion (version : Text) (ecosystem : Option Ecosystem) : Except KeyError Bool :=
  (versionKey U version ecosystem).map Option.isSome

end Lazaret.Sca
