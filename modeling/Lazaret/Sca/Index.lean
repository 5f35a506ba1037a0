import Lazaret.Lib.Outcome
import Lazaret.Lib.Packed
import Lazaret.Sca.Bundle
import Lazaret.Sca.JsonText

/-!
# Writing an indexed bundle

A bundle document stored for lookups (`scanner/sca_index.py`): a header, the metadata, a table of
the advisories, a table of the keys that package entries are found under, sorted by digest, and a
record for each advisory and each key.  `dumpIndex` writes one.  Checksums, digests, compression and
the parsing of JSON are what the machine gives (`Machine`).
-/

namespace Lazaret.Sca

variable (U : Unicode) {α : Type}

/-! ## The machine -/

/-- What inflating a stream gives: its bytes up to a limit, the input that the limit left, what
follows the stream, and whether it ended. -/
structure Inflated where
  raw : List UInt8
  unconsumedTail : List UInt8
  unusedData : List UInt8
  eof : Bool

structure Machine where
  /-- How deep `json.dumps` goes before a `RecursionError`. -/
  recursion : ℕ
  /-- The texts that `float.__repr__` writes. -/
  floats : Text → Bool
  crc32 : List UInt8 → ℕ
  sha256 : List UInt8 → List UInt8
  compress : List UInt8 → List UInt8
  /-- `decompressobj().decompress`, within a limit; none for a `zlib.error`. -/
  decompress : List UInt8 → ℕ → Option Inflated
  /-- Bytes decoded as `json.loads` does, to the text that they are. -/
  decode : List UInt8 → Option Text
  jsonLoads : Text → Option Json

def asciiBytes (t : Text) : List UInt8 := t.map fun c => UInt8.ofNat c.toNat

def MAX_MANIFEST_DEPTH : ℕ := 500

/-- What is documented of these: compression is lossless, a SHA-256 has 32 bytes, ASCII is decoded
as such, and the text that `json.dumps` writes of a value within the bound on depth, each number as
Python itself writes it, is read as the value. -/
structure Machine.Lawful (M : Machine) : Prop where
  length_sha256 : ∀ bytes, (M.sha256 bytes).length = 32
  decompress_compress : ∀ raw limit, raw.length < limit →
    M.decompress (M.compress raw) limit = some ⟨raw, [], [], true⟩
  decode_ascii : ∀ t : Text, (∀ c ∈ t, 0 < c.toNat ∧ c.toNat < 128) →
    M.decode (asciiBytes t) = some t
  jsonLoads_dumps : ∀ v text, v.Distinct → v.depth ≤ MAX_MANIFEST_DEPTH →
    dumps M.floats M.recursion v = some text → M.jsonLoads text = some v.sorted

variable (M : Machine)

/-! ## The document -/

def natJson (n : ℕ) : Json := .number (Nat.toDigits 10 n)

/-- `v == n`: a float and `True` are equal to a number too. -/
def Json.eqNat (v : Option Json) (n : ℕ) : Bool :=
  match v with
  | some (.number s) => s = Nat.toDigits 10 n ∨ s = Nat.toDigits 10 n ++ ['.', '0']
  | some (.bool b) => (if b then 1 else 0) = n
  | _ => false

inductive BundleError
  | notABundle
  | advisoriesNotAList
deriving DecidableEq

structure BundleHeader where
  advisories : List Json
  generatedAt : Option Text
  sources : List Text
  counts : Json
  warnings : List String

def bundleHeader (doc : Json) : Except BundleError BundleHeader :=
  if (Json.dict? (some doc)).isNone ∨ Json.eqNat (doc.get? "bundleVersion") 1 = false then
    .error .notABundle
  else
    let advisories := match doc.get? "advisories" with
      | none | some .null => some []
      | some (.list l) => some l
      | some _ => none
    match advisories with
    | none => .error .advisoriesNotAList
    | some advisories =>
      let gen := doc.get? "generatedAt"
      let sources := doc.get? "sources"
      .ok {
        advisories := advisories
        generatedAt := Json.text? gen
        sources := strs sources
        counts := (Json.dict? (doc.get? "counts")).getD (.dict [])
        warnings :=
          (match gen with
            | none | some .null | some (.text _) => []
            | _ => ["non-text generatedAt values"]) ++
          (match sources with
            | none | some .null => []
            | some (.list l) => if (strs sources).length = l.length then []
                else ["non-text bundle source entries"]
            | _ => ["non-text bundle source entries"]) }

/-- `_Warnings.counts`: how often each was counted. -/
def warningCounts (warnings : List String) : List (Text × ℕ) :=
  warnings.dedup.map fun w => (w.toList, warnings.count w)

/-- What a scan reads of a bundle beside its advisories: when it was made, from what, its counts and
the warnings counted. -/
structure BundleInfo where
  generatedAt : Option Text
  sources : List Text
  counts : Json
  warnings : List (Text × ℕ)

/-- The loop of `CveBundle.__init__` over the advisories: those read, and the warnings counted. -/
def readAdvisory (st : List Advisory × List String) (raw : Json) : List Advisory × List String :=
  match normalizeAdvisory U raw (st.1.length + 1) with
  | (none, warnings) => (st.1, st.2 ++ warnings)
  | (some adv, warnings) => (st.1 ++ [adv], st.2 ++ warnings)

/-- `CveBundle` of a document. -/
def CveBundle.ofDocument (doc : Json) : Except BundleError (CveBundle × BundleInfo) :=
  match bundleHeader doc with
  | .error e => .error e
  | .ok h =>
    let st := h.advisories.foldl (readAdvisory U) ([], h.warnings)
    .ok (CveBundle.ofAdvisories U st.1,
      ⟨h.generatedAt, h.sources, h.counts, warningCounts st.2⟩)

/-! ## Keys -/

/-- `"L\0" + k` -/
def looseKey (k : Text) : Text := 'L' :: Char.ofNat 0 :: k

/-- `"E\0%s\0%s" % (ecosystem, k)` -/
def exactKey (k : Ecosystem × Text) : Text :=
  'E' :: Char.ofNat 0 :: (k.1.name ++ Char.ofNat 0 :: k.2)

/-- `_loose_keys` of name variants: in order. -/
def looseKeyTexts (variants : List Text) : List Text :=
  (variants.insertionSort (· ≤ ·)).map looseKey

def keysOfPackage (pkg : PackageEntry) : List Text :=
  (exactKeys U pkg).map exactKey ++ looseKeyTexts (looseKeys U pkg)

def keysForLookup (name : Text) (ecosystem : Option Ecosystem) : List Text :=
  looseKeyTexts (looseLookups U name ecosystem) ++
    (lookedUp ecosystem).map fun eco => exactKey (eco, exactNameKey U name (some eco))

def DIGEST_BYTES : ℕ := 16

def keyDigest (key : Text) : List UInt8 :=
  (M.sha256 (key.flatMap String.utf8EncodeChar)).take DIGEST_BYTES

def byteValues (bytes : List UInt8) : List ℕ := bytes.map UInt8.toNat

/-! ## Records -/

def MAX_RECORD_BYTES : ℕ := 8 * 2 ^ 20

def MAX_STORED_BYTES : ℕ := 8 * 2 ^ 20

def MAX_META_BYTES : ℕ := 16 * 2 ^ 20

def MAX_ADVISORIES : ℕ := 5000000

def MAX_KEYS : ℕ := 8000000

inductive Piece
  | advisory (n : ℕ)
  | entry (key : Text)
  | metadata
deriving DecidableEq

inductive WriteError
  | document (e : BundleError)
  /-- `json.dumps` raises. -/
  | notJson (what : Piece)
  /-- Over what a reader accepts, before or after it is compressed. -/
  | tooLarge (what : Piece) (size limit : ℕ)
  | storedTooLarge (what : Piece) (size limit : ℕ)
  | sharedDigest (first second : Text)
  /-- `struct.error`: a number does not fit. -/
  | doesNotFit
deriving DecidableEq

def packRecord (obj : Json) (what : Piece) : Except WriteError (List UInt8) :=
  match dumps M.floats M.recursion obj with
  | none => .error (.notJson what)
  | some text =>
    let raw := asciiBytes text
    if raw.length > MAX_RECORD_BYTES then .error (.tooLarge what raw.length MAX_RECORD_BYTES)
    else
      let data := M.compress raw
      if data.length > MAX_STORED_BYTES then
        .error (.storedTooLarge what data.length MAX_STORED_BYTES)
      else .ok data

/-- What is packed, or the error that a number does not fit. -/
def packed (fields : List (ℕ × ℕ)) : Except WriteError (List UInt8) :=
  match Packed.pack fields with
  | none => .error .doesNotFit
  | some bytes => .ok bytes

/-- The fields of an entry of a table: offset, stored length and CRC-32 of a stored record. -/
def entryFields (e : ℕ × List UInt8) : List (ℕ × ℕ) :=
  [(8, e.1), (4, e.2.length), (4, M.crc32 e.2)]

def ADV_ENTRY : ℕ := 16

def KEY_ENTRY : ℕ := 32

structure Header where
  format : ℕ
  flags : ℕ
  fileLen : ℕ
  advisories : ℕ
  keys : ℕ
  postings : ℕ
  metaOff : ℕ
  metaLen : ℕ
  advtabOff : ℕ
  keytabOff : ℕ
  blobsOff : ℕ
  metaCrc : ℕ
  advtabCrc : ℕ
  keytabCrc : ℕ
  headerCrc : ℕ
deriving DecidableEq

def MAGIC : List UInt8 := asciiBytes "LZSCAIDX".toList

def FORMAT : ℕ := 1

def HEADER_SIZE : ℕ := 104

def Header.fields (h : Header) : List (ℕ × ℕ) :=
  [(4, h.format), (4, h.flags), (8, h.fileLen), (8, h.advisories), (8, h.keys), (8, h.postings),
    (8, h.metaOff), (8, h.metaLen), (8, h.advtabOff), (8, h.keytabOff), (8, h.blobsOff),
    (4, h.metaCrc), (4, h.advtabCrc), (4, h.keytabCrc), (4, h.headerCrc)]

def headerWidths : List ℕ := [4, 4, 8, 8, 8, 8, 8, 8, 8, 8, 8, 4, 4, 4, 4]

def Header.unpack (bytes : List UInt8) : Header :=
  let f := Packed.unpack headerWidths bytes
  ⟨f.getD 0 0, f.getD 1 0, f.getD 2 0, f.getD 3 0, f.getD 4 0, f.getD 5 0, f.getD 6 0, f.getD 7 0,
    f.getD 8 0, f.getD 9 0, f.getD 10 0, f.getD 11 0, f.getD 12 0, f.getD 13 0, f.getD 14 0⟩

def Header.pack (h : Header) : Except WriteError (List UInt8) :=
  (packed h.fields).map fun bytes => MAGIC ++ bytes

def dictOf (members : List (String × Json)) : Json := .dict (members.map fun m => (m.1.toList, m.2))

/-! ## The file -/

/-- Records stored from a position on: the entry of each in a table, after what the table has before
it, and what is stored. -/
def writeRecords (before : α → List UInt8) (obj : α → Json) (what : α → Piece) :
    ℕ → List α → Except WriteError (List (List UInt8 × List UInt8))
  | _, [] => .ok []
  | pos, x :: rest => do
    let data ← packRecord M (obj x) (what x)
    let entry ← packed (entryFields M (pos, data))
    let more ← writeRecords before obj what (pos + data.length) rest
    .ok ((before x ++ entry, data) :: more)

def firstShared : List Text → List Text → Option (Text × Text)
  | _, [] => none
  | seen, key :: rest =>
    match seen.find? fun k => keyDigest M k = keyDigest M key with
    | some k => some (k, key)
    | none => firstShared (seen ++ [key]) rest

/-- The places of package entries under a key: their order in the bundle, the advisory and the
package. -/
abbrev Posting := ℕ × ℕ × ℕ

def entryRecord (p : Text × List Posting) : Json :=
  dictOf [("k", .text p.1),
    ("p", .list (p.2.map fun q => .list [natJson q.1, natJson q.2.1, natJson q.2.2]))]

structure IndexSummary where
  advisories : ℕ
  keys : ℕ
  postings : ℕ
  bytes : ℕ
deriving DecidableEq

def totalPostings (postings : List (Text × List Posting)) : ℕ :=
  (postings.map fun p => p.2.length).sum

def sortedEntries (postings : List (Text × List Posting)) : List (Text × List Posting) :=
  postings.insertionSort fun a b => byteValues (keyDigest M a.1) ≤ byteValues (keyDigest M b.1)

/-- The metadata with the counts of what is stored. -/
def withCounts (metadata : List (String × Json)) (advisories keys postings : ℕ) : Json :=
  dictOf (metadata ++ [("format", natJson FORMAT), ("advisories", natJson advisories),
    ("keys", natJson keys), ("postings", natJson postings)])

/-- The header of a file's parts, with its own checksum still zero. -/
def headerOf (metaBytes advTable keyTable blobs : List UInt8) (advisories keys postings : ℕ) :
    Header :=
  let advtabOff := HEADER_SIZE + metaBytes.length
  let keytabOff := advtabOff + advTable.length
  let blobsOff := keytabOff + keyTable.length
  { format := FORMAT, flags := 0, fileLen := blobsOff + blobs.length
    advisories := advisories, keys := keys, postings := postings
    metaOff := HEADER_SIZE, metaLen := metaBytes.length, advtabOff := advtabOff
    keytabOff := keytabOff, blobsOff := blobsOff
    metaCrc := M.crc32 metaBytes, advtabCrc := M.crc32 advTable, keytabCrc := M.crc32 keyTable
    headerCrc := 0 }

/-- `_assemble`: the file of some metadata, advisory records and postings. -/
def assemble (metadata : List (String × Json)) (advRecords : List Json)
    (postings : List (Text × List Posting)) : Except WriteError (List UInt8 × IndexSummary) := do
  let advs ← writeRecords M (fun _ => []) Prod.fst (fun r => .advisory r.2) 0 advRecords.zipIdx
  match firstShared M [] (postings.map Prod.fst) with
  | some keys => .error (.sharedDigest keys.1 keys.2)
  | none => do
    let keys ← writeRecords M (fun p => keyDigest M p.1) entryRecord (fun p => .entry p.1)
      (advs.map Prod.snd).flatten.length (sortedEntries M postings)
    let total := totalPostings postings
    match dumps M.floats M.recursion
      (withCounts metadata advRecords.length postings.length total) with
    | none => .error (.notJson .metadata)
    | some text =>
      let metaBytes := asciiBytes text
      if metaBytes.length > MAX_META_BYTES then
        .error (.tooLarge .metadata metaBytes.length MAX_META_BYTES)
      else do
        let advTable := (advs.map Prod.fst).flatten
        let keyTable := (keys.map Prod.fst).flatten
        let blobs := (advs.map Prod.snd ++ keys.map Prod.snd).flatten
        let head := headerOf M metaBytes advTable keyTable blobs advRecords.length
          postings.length total
        let unsigned ← head.pack
        let header ← { head with headerCrc := M.crc32 unsigned }.pack
        .ok (header ++ (metaBytes ++ (advTable ++ (keyTable ++ blobs))),
          ⟨advRecords.length, postings.length, total, head.fileLen⟩)

/-- What `dump_index` has made of the advisories so far. -/
structure Dump where
  advRecords : List Json
  postings : List (Text × Unit × List Posting)
  order : ℕ
  warnings : List String

/-- A package entry of an advisory is filed under each of its keys. -/
def Dump.addPackage (n : ℕ) (st : Dump) (p : PackageEntry × ℕ) : Dump :=
  { st with
    postings := (keysOfPackage U p.1).foldl
      (fun postings key => Grouping.add key () [(st.order, n, p.2)] postings) st.postings
    order := st.order + 1 }

/-- The loop of `dump_index` over the advisories. -/
def Dump.addAdvisory (st : Dump) (raw : Json) : Dump :=
  let n := st.advRecords.length
  match normalizeAdvisory U raw (n + 1) with
  | (none, warnings) => { st with warnings := st.warnings ++ warnings }
  | (some adv, warnings) =>
    adv.packages.zipIdx.foldl (Dump.addPackage U n)
      { st with
        advRecords := st.advRecords ++ [dictOf [("n", natJson n), ("a", raw)]]
        warnings := st.warnings ++ warnings }

/-- The fields of a document that only the metadata keeps. -/
def EXTRA : List String := ["generator", "attribution", "feeds"]

def metadataOf (doc : Json) (h : BundleHeader) (warnings : List (Text × ℕ)) :
    List (String × Json) :=
  [("bundleVersion", natJson 1), ("generatedAt", (h.generatedAt.map Json.text).getD .null),
    ("sources", .list (h.sources.map .text)), ("counts", h.counts),
    ("warnings", .dict (warnings.map fun w => (w.1, natJson w.2))),
    ("extra", dictOf (EXTRA.filterMap fun k => (doc.get? k).map fun v => (k, v)))]

/-- `dump_index`: the file of a document, and what the build says of it. -/
def dumpIndex (doc : Json) : Except WriteError (List UInt8 × IndexSummary × List (Text × ℕ)) :=
  match bundleHeader doc with
  | .error e => .error (.document e)
  | .ok h => do
    let st := h.advisories.foldl (Dump.addAdvisory U) ⟨[], [], 0, h.warnings⟩
    let warnings := warningCounts st.warnings
    let written ← assemble M (metadataOf doc h warnings) st.advRecords
      (st.postings.map fun e => (e.1, e.2.2))
    .ok (written.1, written.2, warnings)

end Lazaret.Sca
