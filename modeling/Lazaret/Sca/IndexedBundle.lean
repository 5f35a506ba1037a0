import Lazaret.Lib.Bisect
import Lazaret.Lib.Recent
import Lazaret.Sca.Index

/-!
# Reading an indexed bundle

`IndexedBundle` of `scanner/sca_index.py`: the file is checked when it is opened (`openIndex`), and
a lookup finds its keys by bisection and reads their records and those of the advisories, through
two caches (`advisoriesFor`).  `find_of_entry`: what is opened has its keys in order, and each is
found.
-/

namespace Lazaret.Sca

variable (U : Unicode) (M : Machine)

inductive ReadError
  | notAnIndex
  | otherFormat (format : ℕ)
  | damaged (what : String)
deriving DecidableEq

structure File where
  /-- `S_ISREG` -/
  regular : Bool
  bytes : List UInt8

def File.read (f : File) (off length : ℕ) : List UInt8 := (f.bytes.drop off).take length

structure IndexedBundle where
  file : File
  header : Header
  advtab : List UInt8
  keytab : List UInt8
  info : BundleInfo

namespace IndexedBundle

/-! ## Opening -/

def jsonLoadsBounded (raw : List UInt8) : Option Json :=
  (M.decode raw).bind fun text =>
    if jsonDepthExceeds MAX_MANIFEST_DEPTH text then none else M.jsonLoads text

/-- The header of a file, if it is one that this format has. -/
def checkHeader (f : File) : Except ReadError Header :=
  let head := f.read 0 HEADER_SIZE
  let h := Header.unpack (head.drop MAGIC.length)
  if f.regular = false then .error (.damaged "not a regular file")
  else if head.take MAGIC.length ≠ MAGIC then .error .notAnIndex
  else if head.length < HEADER_SIZE then .error (.damaged "the header is cut short")
  else if h.format ≠ FORMAT then .error (.otherFormat h.format)
  else if M.crc32 (head.take (HEADER_SIZE - 4) ++ [0, 0, 0, 0]) ≠ h.headerCrc then
    .error (.damaged "the header does not match its checksum")
  else if h.flags ≠ 0 then .error (.damaged "unknown flags")
  else if h.fileLen ≠ f.bytes.length then
    .error (.damaged ("the file is " ++ toString f.bytes.length ++ " bytes and its header says " ++
      toString h.fileLen ++ " (truncated or extended)"))
  else if h.advisories > MAX_ADVISORIES ∨ h.keys > MAX_KEYS ∨ h.metaLen > MAX_META_BYTES then
    .error (.damaged "a count over the limits")
  else if h.metaOff ≠ HEADER_SIZE ∨ h.advtabOff ≠ h.metaOff + h.metaLen ∨
      h.keytabOff ≠ h.advtabOff + ADV_ENTRY * h.advisories ∨
      h.blobsOff ≠ h.keytabOff + KEY_ENTRY * h.keys ∨ h.blobsOff > h.fileLen then
    .error (.damaged "the parts are not laid out as the writer lays them out")
  else .ok h

def part (f : File) (off length crc : ℕ) (what : String) : Except ReadError (List UInt8) :=
  let data := f.read off length
  if data.length ≠ length then .error (.damaged (what ++ " is cut short"))
  else if M.crc32 data ≠ crc then .error (.damaged (what ++ " does not match its checksum"))
  else .ok data

def digestAt (keytab : List UInt8) (i : ℕ) : List ℕ :=
  byteValues ((keytab.drop (i * KEY_ENTRY)).take DIGEST_BYTES)

/-- The loop of `_check_sorted` over so many entries, from one on. -/
def inOrder (keytab : List UInt8) : ℕ → ℕ → Bool
  | 0, _ => true
  | 1, _ => true
  | n + 2, i => decide (digestAt keytab i < digestAt keytab (i + 1)) &&
    inOrder keytab (n + 1) (i + 1)

/-- `type(v) is int and v >= 0`, and the number. -/
def natOf : Json → Option ℕ
  | .number s => if s ≠ [] ∧ s.all isDigit then some (int s) else none
  | _ => none

def warningOf (m : Text × Json) : Option (Text × ℕ) :=
  match natOf m.2 with
  | some n => if 0 < n ∧ n < 2 ^ 40 then some (m.1, n) else none
  | none => none

def takeMeta (h : Header) (metadata : Json) : Except ReadError BundleInfo :=
  if (Json.dict? (some metadata)).isNone ∨ Json.eqNat (metadata.get? "format") FORMAT = false ∨
      Json.eqNat (metadata.get? "bundleVersion") 1 = false then
    .error (.damaged "the metadata is not this format's")
  else if Json.eqNat (metadata.get? "advisories") h.advisories = false ∨
      Json.eqNat (metadata.get? "keys") h.keys = false ∨
      Json.eqNat (metadata.get? "postings") h.postings = false then
    .error (.damaged "the metadata and the header disagree on the counts")
  else
    let gen := match metadata.get? "generatedAt" with
      | none | some .null => some none
      | some (.text t) => some (some t)
      | some _ => none
    let sources := match metadata.get? "sources" with
      | some (.list l) => l.mapM fun s => Json.text? (some s)
      | _ => none
    let warned := match metadata.get? "warnings" with
      | some (.dict m) => m.mapM warningOf
      | _ => none
    match gen, sources, Json.dict? (metadata.get? "counts"), warned with
    | none, _, _, _ => .error (.damaged "generatedAt is not text")
    | _, none, _, _ => .error (.damaged "sources is not a list of text")
    | _, _, none, _ => .error (.damaged "counts is not an object")
    | _, _, _, none => .error (.damaged "the warnings are not counts")
    | some gen, some sources, some counts, some warned =>
      .ok ⟨gen, sources, counts, warned.insertionSort fun a b => a.1 ≤ b.1⟩

def openIndex (f : File) : Except ReadError IndexedBundle := do
  let h ← checkHeader M f
  let metaBytes ← part M f h.metaOff h.metaLen h.metaCrc "the metadata"
  let advtab ← part M f h.advtabOff (ADV_ENTRY * h.advisories) h.advtabCrc "the advisory table"
  let keytab ← part M f h.keytabOff (KEY_ENTRY * h.keys) h.keytabCrc "the key table"
  if inOrder keytab h.keys 0 = false then .error (.damaged "the key table is not in order")
  else
    match jsonLoadsBounded M metaBytes with
    | none => .error (.damaged "the metadata is not JSON")
    | some metadata => do
      let info ← takeMeta h metadata
      .ok ⟨f, h, advtab, keytab, info⟩

/-! ## Records -/

variable (b : IndexedBundle)

def record (off length crc : ℕ) (what : String) : Except ReadError Json :=
  let data := b.file.read (b.header.blobsOff + off) length
  if length > MAX_STORED_BYTES ∨ off + length > b.header.fileLen - b.header.blobsOff then
    .error (.damaged (what ++ " lies outside the records"))
  else if data.length ≠ length then .error (.damaged (what ++ " is cut short"))
  else if M.crc32 data ≠ crc then .error (.damaged (what ++ " does not match its checksum"))
  else
    match M.decompress data (MAX_RECORD_BYTES + 1) with
    | none => .error (.damaged (what ++ " is not a zlib stream"))
    | some r =>
      if r.raw.length > MAX_RECORD_BYTES ∨ r.unconsumedTail ≠ [] ∨ r.unusedData ≠ [] ∨
          r.eof = false then
        .error (.damaged (what ++ " does not inflate to a whole record within " ++
          toString MAX_RECORD_BYTES ++ " bytes"))
      else
        match jsonLoadsBounded M r.raw with
        | none => .error (.damaged (what ++ " is not JSON"))
        | some v => .ok v

/-- An entry of a table: the offset, stored length and CRC-32 of its record. -/
def entryAt (table : List UInt8) : ℕ × ℕ × ℕ :=
  let f := Packed.unpack [8, 4, 4] table
  (f.getD 0 0, f.getD 1 0, f.getD 2 0)

def readAdvisoryRecord (n : ℕ) : Except ReadError Advisory := do
  let what := "advisory " ++ toString n
  let e := entryAt (b.advtab.drop (n * ADV_ENTRY))
  let rec_ ← record M b e.1 e.2.1 e.2.2 what
  match Json.eqNat (rec_.get? "n") n, rec_.get? "a" with
  | true, some raw =>
    match (normalizeAdvisory U raw (n + 1)).1 with
    | some adv => .ok adv
    | none => .error (.damaged (what ++ " is not an advisory"))
  | _, _ => .error (.damaged (what ++ " is not advisory " ++ toString n ++ "'s record"))

def find (digest : List UInt8) : Option (ℕ × ℕ × ℕ) :=
  (Bisect.bisect (digestAt b.keytab) (byteValues digest) b.header.keys).map fun i =>
    entryAt (b.keytab.drop (i * KEY_ENTRY + DIGEST_BYTES))

def postingOf (n_adv : ℕ) (item : Json) : Option Posting :=
  match item with
  | .list [o, n, j] => do
    let o ← natOf o
    let n ← natOf n
    let j ← natOf j
    if n < n_adv then some (o, n, j) else none
  | _ => none

def readPosting (key : Text) : Except ReadError (List Posting) :=
  match find b (keyDigest M key) with
  | none => .ok []
  | some e => do
    let rec_ ← record M b e.1 e.2.1 e.2.2 "the entry for a name"
    match rec_.get? "k", rec_.get? "p" with
    | some (.text k), some (.list items) =>
      if k ≠ key then
        .error (.damaged "the entry for a name is not the record of the name asked for")
      else
        match items.mapM (postingOf b.header.advisories) with
        | some posting => .ok posting
        | none => .error (.damaged
            "the entry for a name lists something that is not a package")
    | _, _ => .error (.damaged "the entry for a name is not the record of the name asked for")

/-! ## Lookups -/

/-- The two caches, with what was used last at the end. -/
structure Caches where
  advs : List (ℕ × Advisory)
  posts : List (Text × List Posting)

def ADVISORY_CACHE : ℕ := 20000

def POSTING_CACHE : ℕ := 20000

def advisory (c : Caches) (n : ℕ) : Except ReadError Advisory × Caches :=
  let r := Recent.get (readAdvisoryRecord U M b) (fun _ => true) ADVISORY_CACHE c.advs n
  (r.1, { c with advs := r.2 })

/-- `_posting`: that a key has no entry is not cached. -/
def posting (c : Caches) (key : Text) : Except ReadError (List Posting) × Caches :=
  let r := Recent.get (readPosting M b) (fun k => (find b (keyDigest M k)).isSome) POSTING_CACHE
    c.posts key
  (r.1, { c with posts := r.2 })

/-- The package entry at a place, with its advisory. -/
def entryOf (what : String) (adv : Advisory) (j : ℕ) : Except ReadError Pair :=
  match adv.packages[j]? with
  | some pkg => .ok (adv, pkg)
  | none => .error (.damaged what)

def setDefault (found : List Posting) (p : Posting) : List Posting :=
  if found.any fun q => q.1 = p.1 then found else found ++ [p]

/-- The message for a place that its advisory does not have. -/
def pastPackages (n : ℕ) : String :=
  "the entry for a name points past advisory " ++ toString n ++ "'s packages"

def pairAt (c : Caches) (p : Posting) : Except ReadError Pair × Caches :=
  match advisory U M b c p.2.1 with
  | (.error e, c) => (.error e, c)
  | (.ok adv, c) => (entryOf (pastPackages p.2.1) adv p.2.2, c)

def advisoriesFor (name : Text) (ecosystem : Option Ecosystem) (c : Caches) :
    Except ReadError (List Pair) × Caches :=
  match Recent.overAll (posting M b) (keysForLookup U name ecosystem) c with
  | (.error e, c) => (.error e, c)
  | (.ok postings, c) =>
    let found := postings.flatten.foldl setDefault []
    Recent.overAll (pairAt U M b) (found.insertionSort fun p q => p.1 ≤ q.1) c

/-- What the caches can hold: nothing at first, and then what lookups leave, whatever they gave. -/
inductive Reached : Caches → Prop
  | start : Reached ⟨[], []⟩
  | lookup {c : Caches} (name : Text) (ecosystem : Option Ecosystem) (h : Reached c) :
      Reached (advisoriesFor U M b name ecosystem c).2

/-! ## The caches change nothing -/

def readPair (p : Posting) : Except ReadError Pair := do
  let adv ← readAdvisoryRecord U M b p.2.1
  entryOf (pastPackages p.2.1) adv p.2.2

def readAdvisoriesFor (name : Text) (ecosystem : Option Ecosystem) :
    Except ReadError (List Pair) := do
  let postings ← (keysForLookup U name ecosystem).mapM (readPosting M b)
  let found := postings.flatten.foldl setDefault []
  (found.insertionSort fun p q => p.1 ≤ q.1).mapM (readPair U M b)

def Caches.Sound (c : Caches) : Prop :=
  Recent.Sound (readAdvisoryRecord U M b) c.advs ∧ Recent.Sound (readPosting M b) c.posts

variable {U M b}

variable {c : Caches}

lemma advisory_spec (h : c.Sound U M b) (n : ℕ) :
    (advisory U M b c n).1 = readAdvisoryRecord U M b n ∧ (advisory U M b c n).2.Sound U M b :=
  ⟨Recent.get_eq h.1 n, Recent.sound_get h.1 n, h.2⟩

lemma posting_spec (h : c.Sound U M b) (key : Text) :
    (posting M b c key).1 = readPosting M b key ∧ (posting M b c key).2.Sound U M b :=
  ⟨Recent.get_eq h.2 key, h.1, Recent.sound_get h.2 key⟩

lemma pairAt_spec (h : c.Sound U M b) (p : Posting) :
    (pairAt U M b c p).1 = readPair U M b p ∧ (pairAt U M b c p).2.Sound U M b := by
  obtain ⟨hread, hsound⟩ := advisory_spec h p.2.1
  rw [readPair, ← hread, pairAt]
  revert hsound
  cases advisory U M b c p.2.1 with
  | mk r c' =>
    intro hsound
    cases r with
    | error | ok => exact ⟨rfl, hsound⟩

theorem advisoriesFor_spec (h : c.Sound U M b) (name : Text) (ecosystem : Option Ecosystem) :
    (advisoriesFor U M b name ecosystem c).1 = readAdvisoriesFor U M b name ecosystem ∧
      (advisoriesFor U M b name ecosystem c).2.Sound U M b := by
  obtain ⟨hread, hsound⟩ := Recent.overAll_spec (f := posting M b)
    (fun c key h => posting_spec h key) (keysForLookup U name ecosystem) h
  rw [readAdvisoriesFor, ← hread, advisoriesFor]
  revert hsound
  cases Recent.overAll (posting M b) (keysForLookup U name ecosystem) c with
  | mk r c' =>
    intro hsound
    cases r with
    | error e => exact ⟨rfl, hsound⟩
    | ok postings =>
      have hgood : c'.Sound U M b := hsound
      exact Recent.overAll_spec (f := pairAt U M b) (s := c') (fun c p h => pairAt_spec h p)
        ((postings.flatten.foldl setDefault []).insertionSort fun p q => p.1 ≤ q.1) hgood

theorem advisoriesFor_eq_read (h : Reached U M b c) (name : Text) (ecosystem : Option Ecosystem) :
    (advisoriesFor U M b name ecosystem c).1 = readAdvisoriesFor U M b name ecosystem := by
  have hsound : c.Sound U M b := by
    induction h with
    | start => exact ⟨Recent.sound_nil, Recent.sound_nil⟩
    | lookup name ecosystem _ ih => exact (advisoriesFor_spec ih name ecosystem).2
  exact (advisoriesFor_spec hsound name ecosystem).1

/-! ## The bisection finds every key -/

variable {n : ℕ} {keytab : List UInt8}

lemma inOrder_adjacent {i j : ℕ} (h : inOrder keytab n i = true)
    (hij : i ≤ j) (hj : j + 1 < i + n) : digestAt keytab j < digestAt keytab (j + 1) := by
  induction n generalizing i with
  | zero => omega
  | succ n ih =>
    cases n with
    | zero => omega
    | succ n =>
      rw [inOrder, Bool.and_eq_true, decide_eq_true_eq] at h
      obtain rfl | hlt := eq_or_lt_of_le hij
      · exact h.1
      · exact ih h.2 hlt (by omega)

lemma inOrder_strict (h : inOrder keytab n 0 = true) (a b : ℕ)
    (hab : a < b) (hb : b < n) : digestAt keytab a < digestAt keytab b := by
  induction b with
  | zero => omega
  | succ b ih =>
    have hstep : digestAt keytab b < digestAt keytab (b + 1) :=
      inOrder_adjacent h (Nat.zero_le b) (by omega)
    obtain rfl | hlt := Nat.eq_or_lt_of_le (Nat.le_of_lt_succ hab)
    · exact hstep
    · exact lt_trans (ih hlt (by omega)) hstep

lemma inOrder_of_strict (h : ∀ j, j + 1 < n → digestAt keytab j < digestAt keytab (j + 1)) :
    inOrder keytab n 0 = true := by
  have hfrom : ∀ k i, i + k = n → inOrder keytab k i = true := by
    intro k
    induction k with
    | zero => exact fun _ _ => rfl
    | succ k ih =>
      intro i hi
      cases k with
      | zero => rfl
      | succ k =>
        rw [inOrder, Bool.and_eq_true, decide_eq_true_eq]
        exact ⟨h i (by omega), ih (i + 1) (by omega)⟩
  exact hfrom n 0 (zero_add n)

lemma inOrder_of_open {f : File} (h : openIndex M f = .ok b) :
    inOrder b.keytab b.header.keys 0 = true := by
  rw [openIndex] at h
  simp only [except_bind_eq_ok] at h
  obtain ⟨hd, -, metaBytes, -, advtab, -, keytab, -, h⟩ := h
  split at h
  · cases h
  · rename_i hsorted
    split at h
    · cases h
    · simp only [except_bind_eq_ok] at h
      obtain ⟨info, -, h⟩ := h
      cases h
      simpa using hsorted

theorem find_of_entry {f : File} (h : openIndex M f = .ok b) {i : ℕ} (hi : i < b.header.keys)
    {digest : List UInt8} (hdigest : byteValues digest = digestAt b.keytab i) :
    find b digest = some (entryAt (b.keytab.drop (i * KEY_ENTRY + DIGEST_BYTES))) := by
  rw [find, (Bisect.bisect_eq_some (inOrder_strict (inOrder_of_open h))).2 ⟨hi, hdigest.symm⟩]
  rfl

end IndexedBundle

end Lazaret.Sca
