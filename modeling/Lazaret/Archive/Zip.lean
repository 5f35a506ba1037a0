import Lazaret.Archive.Bytes

/-!
# The members of a zip archive

`entries` (`lazaret-archive`, `zip.rs`) lists what every common unpacker finds in a zip archive:
from each end record that a reader may take, the directories its views name, the local headers of
the members they list, and a walk of the local headers from the first byte.  `read_checked` and
`read_prefix` read one member.  What the archive's code takes from elsewhere (the CRC-32, the
inflater, the way a name is quoted) is a `Codec`.
-/

namespace Lazaret.Archive

inductive Status
  | Done
  | NeedInput
  | NeedOutput
  deriving DecidableEq

/-- What one call of `Inflater::inflate` did. -/
structure Progress where
  consumed : ℕ
  produced : List UInt8
  status : Status

/-- What the archive's code takes from other crates and the standard library. -/
structure Codec where
  crc32 : List UInt8 → ℕ
  /-- `decode_all` of deflated bytes, at most `limit` of them. -/
  decodeAll : List UInt8 → (limit : ℕ) → Except String (List UInt8)
  Inflater : Type
  newInflater : Inflater
  /-- Some input, with room for some output; a failure with its text and the `total_out` there. -/
  inflate : Inflater → List UInt8 → (room : ℕ) → Except (String × ℕ) (Progress × Inflater)
  /-- `String::from_utf8_lossy(..).escape_debug()`. -/
  escapeLossy : List UInt8 → String

/-- One member of the archive, as a view of it finds it. -/
structure Entry where
  name : List UInt8
  flags : ℕ
  method : ℕ
  crc32 : ℕ
  csize : ℕ
  size : ℕ
  local_ : ℕ
  xlen : ℕ
  made_by : ℕ
  external : ℕ
  /-- Whether a central directory lists it as it is. -/
  listed : Bool
  deriving DecidableEq

/-- What a zip's unpackers find in it: every member, and why they may not agree. -/
structure Listing where
  entries : List Entry
  ambiguous : List String
  deriving DecidableEq

abbrev RdE (ε α : Type) := ExceptT ε (Reading Query Answer) α

/-! ### Fields -/

/-- The little-endian number in the `n` bytes at `i`. -/
def leAt (n : ℕ) (b : List UInt8) (i : ℕ) : Option ℕ :=
  if i + n ≤ b.length then some (((b.drop i).take n).foldr (fun x acc => x.toNat + 256 * acc) 0)
  else none

def u16At (b : List UInt8) (i : ℕ) : Option ℕ := leAt 2 b i

def u32At (b : List UInt8) (i : ℕ) : Option ℕ := leAt 4 b i

def u64At (b : List UInt8) (i : ℕ) : Option ℕ := leAt 8 b i

def pk (a b : UInt8) : List UInt8 := [0x50, 0x4b, a, b]

def startsWith (b sig : List UInt8) : Bool := sig.isPrefixOf b

def containsText (m text : String) : Bool := m.toList.tails.any fun t => text.toList.isPrefixOf t

def quoted (C : Codec) (name : List UInt8) : String := "'" ++ C.escapeLossy (name.take 120) ++ "'"

/-- The first of reasons of one kind, with how many more there are. -/
def firstOf (reasons : List String) (more : String) : List String :=
  match reasons with
  | [] => []
  | [first] => [first]
  | first :: rest => [s!"{first} (and {rest.length} more {more})"]

/-- The fields of an extra field: their ids and bodies. -/
def extraFields : List UInt8 → List (ℕ × List UInt8)
  | a :: b :: c :: d :: rest =>
    let len := c.toNat + 256 * d.toNat
    (a.toNat + 256 * b.toNat, if len ≤ rest.length then rest.take len else []) ::
      extraFields (rest.drop len)
  | _ => []
termination_by l => l.length
decreasing_by simp only [List.length_drop, List.length_cons]; omega

/-- The Unicode Path extra fields (`0x7075`) of a header whose raw name is `raw`: how many there
are, and the names the valid ones give. -/
def unicodePaths (C : Codec) (extra raw : List UInt8) : ℕ × List (List UInt8) :=
  let crc := C.crc32 raw
  let fields := ((extraFields extra).filter fun f => f.1 = 0x7075).map Prod.snd
  let names := fields.foldl (fun names body =>
    if 5 ≤ body.length ∧ body.head? = some 1 ∧ u32At body 1 = some crc ∧ body.drop 5 ∉ names
    then names ++ [body.drop 5] else names) []
  (fields.length, names)

/-- A saturated 32-bit value `v` takes the zip64 extra field's next one, at `k`. -/
def take64 (body : List UInt8) (k v : ℕ) : ℕ × ℕ :=
  if v = 0xFFFFFFFF then
    match u64At body k with
    | some n => (k + 8, n)
    | none => (k, v)
  else (k, v)

/-! ### End records -/

/-- One way to read the directory: its entry count, size and offset, and where it ends. -/
structure View where
  count : ℕ
  size : ℕ
  off : ℕ
  stop : ℕ
  deriving DecidableEq

/-- The zip64 record at `pos`, if it is one. -/
def view64 (pos : ℕ) (rec : List UInt8) : View where
  count := (u64At rec 32).getD 0
  size := (u64At rec 40).getD 0
  off := (u64At rec 48).getD 0
  stop := pos

/-- A zip64 locator before the end record at `ep`: where it is, and where it says the zip64 record
is. -/
def locatorOf (ep : ℕ) : RdE Miss (Option (ℕ × ℕ)) :=
  if ep < 20 then pure none
  else do
    match ← haveBytes (ep - 20) 20 with
    | .Here l =>
      if startsWith l (pk 6 7) then pure (some (ep - 20, (u64At l 8).getD U64_MAX)) else pure none
    | .Asked => throw .Need
    | .Past => pure none

/-- The ways the end record at `ep` is read (zip64's first), and what makes them disagree, or why it
is no end record. -/
def viewsOf (ep : ℕ) : RdE Miss (List View × List String) := do
  let r ← get ep 22 "a truncated end of central directory record"
  let bad := Miss.Bad "a truncated end of central directory record"
  let some count := u16At r 10 | throw bad
  let some size := u32At r 12 | throw bad
  let some off := u32At r 16 | throw bad
  let saturated := count = 0xFFFF ∨ size = 0xFFFFFFFF ∨ off = 0xFFFFFFFF
  let classic : View := { count, size, off, stop := ep }
  match ← locatorOf ep with
  | none =>
    if size = 0xFFFFFFFF ∨ off = 0xFFFFFFFF then
      throw (.Bad "a zip64 archive without its locator")
    else pure ([classic], [])
  | some (at_, z) =>
    let zipfileAt := at_ - 56
    let spots := (z, "where its locator says") ::
      if zipfileAt ≠ z then [(zipfileAt, "just before its locator")] else []
    let mut out : List View := []
    let mut z64 : Option View := none
    let mut amb : List String := []
    for (pos, whose) in spots do
      let found ← match ← haveBytes pos 56 with
        | .Here rec => pure (if startsWith rec (pk 6 6) then some (view64 pos rec) else none)
        | .Asked => throw Miss.Need
        | .Past => pure none
      match found with
      | some v =>
        if v ∉ out then
          out := out ++ [v]
        z64 := z64.or (some v)
      | none =>
        amb := amb ++ [s!"its zip64 locator names no zip64 record {whose} (byte {commas pos})"]
    if z ≠ zipfileAt then
      amb := amb ++ [s!"its zip64 record is at byte {commas z}, " ++
        "not just before its locator, where zipfile reads it"]
    match z64 with
    | some v =>
      if (count ≠ 0xFFFF ∧ count ≠ v.count) ∨ (size ≠ 0xFFFFFFFF ∧ size ≠ v.size) ∨
          (off ≠ 0xFFFFFFFF ∧ off ≠ v.off) then
        amb := amb ++ [s!"its zip64 record ({v.count} entries, {commas v.size} bytes at byte " ++
          s!"{commas v.off}) and its end record ({count} entries, {commas size} bytes at byte " ++
          s!"{commas off}) disagree"]
        -- what a reader that takes the end record when it is not saturated reads
        if ¬ saturated then
          out := out ++ [classic]
      pure (out, amb)
    | none =>
      if saturated then throw (.Bad "a zip64 archive without its zip64 record")
      else pure (out ++ [classic], amb)

/-! ### Central directories -/

/-- What one listing reads in all, whatever views its end records give. -/
structure Budget where
  entries : ℕ
  bytes : ℕ

/-- What reading a directory changes, also when it fails. -/
structure Scan where
  budget : Budget
  amb : List String

abbrev Dir (α : Type) := ExceptT Miss (StateT Scan (Reading Query Answer)) α

/-- A question about the file in a directory's reading. -/
def Dir.ask {α : Type} (p : RdE Miss α) : Dir α := ExceptT.mk (StateT.lift p.run)

def Dir.doubt (why : String) : Dir Unit := modify fun s => { s with amb := s.amb ++ [why] }

/-- One entry of `len` bytes is charged. -/
def Dir.charge (len : ℕ) : Dir Unit := do
  let s ← getThe Scan
  if s.budget.entries = 0 ∨ s.budget.bytes < len then
    throw (.Bad "its central directories hold more entries or bytes than the reader reads")
  else
    set { s with budget := ⟨s.budget.entries - 1, s.budget.bytes - len⟩ }

/-- The fields of the central directory entry `cd` and its Unicode Path extra fields (how many, and
the names the valid ones give), or why it is not one; no entry when `concat` moves its offset before
the file's start. -/
def cenEntry (C : Codec) (cd : List UInt8) (concat : ℤ) :
    Except String (Option Entry × ℕ × List (List UInt8)) := do
  let short := "a truncated central directory entry"
  let some made_by := u16At cd 4 | throw short
  let some flags := u16At cd 8 | throw short
  let some method := u16At cd 10 | throw short
  let some crc32 := u32At cd 16 | throw short
  let some csize := u32At cd 20 | throw short
  let some size := u32At cd 24 | throw short
  let some nlen := u16At cd 28 | throw short
  let some xlen := u16At cd 30 | throw short
  let some _clen := u16At cd 32 | throw short
  let some external := u32At cd 38 | throw short
  let some local_ := u32At cd 42 | throw short
  if cd.length < 46 + nlen + xlen then throw short
  let name := (cd.drop 46).take nlen
  let extra := (cd.drop (46 + nlen)).take xlen
  -- the zip64 extra field: the sizes and the offset that did not fit, in that order
  let (size, csize, local_) := (extraFields extra).foldl (fun (size, csize, local_) (id, body) =>
    if id = 1 then
      let (k, size) := take64 body 0 size
      let (k, csize) := take64 body k csize
      let (_, local_) := take64 body k local_
      (size, csize, local_)
    else (size, csize, local_)) (size, csize, local_)
  let moved : ℤ := local_ + concat
  let entry := if 0 ≤ moved ∧ moved ≤ U64_MAX then
      some { name, flags, method, crc32, csize, size, local_ := moved.toNat, xlen, made_by,
             external, listed := true : Entry }
    else none
  pure (entry, unicodePaths C extra name)

/-- One entry of a directory, with the names its Unicode Path extra fields give it, after `out`. -/
def dirEntry (C : Codec) (cd : List UInt8) (len : ℕ) (concat : ℤ) (out : List Entry) :
    Dir (List Entry) := do
  Dir.charge len
  let (e, fields, upaths) ← (match cenEntry C cd concat with
    | .ok r => pure r
    | .error why => throw (.Bad why) : Dir _)
  match e with
  | none => pure out
  | some e =>
    if 1 < fields then
      Dir.doubt (s!"{quoted C e.name} has {fields} Unicode Path extra fields (readers differ on " ++
        "which they take)")
    let mut aliases : List Entry := []
    for u in upaths do
      if u ≠ e.name then
        Dir.doubt (s!"a Unicode Path extra field of {quoted C e.name} names it {quoted C u} " ++
          "(Info-ZIP's and zipfile's name)")
        Dir.charge u.length
        aliases := aliases ++ [{ e with name := u, listed := false }]
    pure (out ++ [e] ++ aliases)

/-- The lengths of the name, the extra field and the comment that follow an entry's 46 bytes. -/
def cenRest (h : List UInt8) : ℕ :=
  (u16At h 28).getD 0 + (u16At h 30).getD 0 + (u16At h 32).getD 0

/-- The entries from `pos` on while entries follow (a directory declared to end at `cdEnd`): where
they end, how many start inside, and the entries after `out`. -/
def dirEntries (C : Codec) (size cdEnd : ℕ) (concat : ℤ) (pos inside : ℕ) (out : List Entry) :
    Dir (ℕ × ℕ × List Entry) :=
  if _hin : pos + 46 ≤ size then do
    match ← Dir.ask (haveBytes pos 46) with
    | .Asked => throw .Need
    | .Past => pure (pos, inside, out)
    | .Here h =>
      if ¬ startsWith h (pk 1 2) then pure (pos, inside, out)
      else
        match ← Dir.ask (haveBytes pos (46 + cenRest h)) with
        | .Asked => throw .Need
        | .Past =>
          Dir.doubt "a central directory entry runs past the archive's end"
          pure (pos, inside, out)
        | .Here whole =>
          let out ← dirEntry C whole (46 + cenRest h) concat out
          if pos < cdEnd ∧ cdEnd < pos + (46 + cenRest h) then
            Dir.doubt "its last central directory entry runs past the directory's declared size"
          dirEntries C size cdEnd concat (pos + (46 + cenRest h))
            (if pos < cdEnd then inside + 1 else inside) out
  else pure (pos, inside, out)
termination_by size - pos
decreasing_by omega

/-- The entries of the directory at `at_` read as `v` says: those that start inside its declared
size and those that follow them; none when there is no directory there. -/
def directory (C : Codec) (size at_ : ℕ) (v : View) (concat : ℤ) (maxDir : ℕ) :
    Dir (Option (List Entry)) := do
  if maxDir < v.size then
    throw (.Bad
      s!"a central directory of {commas v.size} bytes, more than the {commas maxDir} read")
  if size < at_ + v.size then return none
  let cdEnd := at_ + v.size
  -- the declared directory, in one range
  let _ ← Dir.ask (get at_ v.size "")
  if v.size = 0 then
    if v.count ≠ 0 then
      Dir.doubt s!"its end record counts {v.count} entries in a directory of no bytes"
    return some []
  match ← Dir.ask (haveBytes at_ 4) with
  | .Asked => throw .Need
  | .Past => return none
  | .Here s =>
    if s ≠ pk 1 2 then return none
    let (pos, inside, out) ← dirEntries C size cdEnd concat at_ 0 []
    let listed := (out.filter fun e => e.listed).length
    if pos < cdEnd then
      Dir.doubt (s!"its central directory holds {commas (cdEnd - pos)} bytes after its {inside} " ++
        "entries that are not an entry")
    if inside < listed then
      Dir.doubt s!"{listed - inside} central directory entries follow its declared size"
    if inside ≠ v.count then
      Dir.doubt (s!"its end record counts {v.count} entries and its central directory holds " ++
        s!"{inside}")
    return some out

/-! ### Local headers -/

structure Local where
  flags : ℕ
  method : ℕ
  crc32 : ℕ
  csize : ℕ
  size : ℕ
  name : List UInt8
  xlen : ℕ
  /-- How many Unicode Path extra fields it has, and the names the valid ones give. -/
  ufields : ℕ
  unames : List (List UInt8)

/-- The local header at `at_`: none when its bytes were asked for (`hint` of them), an error when
there is none there. -/
def localAt (C : Codec) (size at_ hint : ℕ) : RdE String (Option Local) := do
  let past := fun _ : Miss => "a local header past what is read"
  if size < at_ + 30 then throw "a local header past the archive's end"
  match ← ExceptT.adapt past (haveMore at_ 30 (min (max hint 30) (size - at_))) with
  | .Asked => pure none
  | .Past => throw "a local header past the archive's end"
  | .Here h =>
    if ¬ startsWith h (pk 3 4) then throw "no local header"
    let flags := (u16At h 6).getD 0
    let method := (u16At h 8).getD 0
    let crc32 := (u32At h 14).getD 0
    let csize := (u32At h 18).getD 0
    let size := (u32At h 22).getD 0
    let nlen := (u16At h 26).getD 0
    let xlen := (u16At h 28).getD 0
    match ← ExceptT.adapt past (haveBytes (at_ + 30) (nlen + xlen)) with
    | .Asked => pure none
    | .Past => throw "a local header past the archive's end"
    | .Here rest =>
      let name := rest.take nlen
      let (ufields, unames) := unicodePaths C (rest.drop nlen) name
      -- zip64: the local extra field holds the sizes that did not fit, the size first
      let (size, csize) := if csize = 0xFFFFFFFF ∨ size = 0xFFFFFFFF then
          (extraFields (rest.drop nlen)).foldl (fun (size, csize) (id, body) =>
            if id = 1 then
              let (k, size) := take64 body 0 size
              let (_, csize) := take64 body k csize
              (size, csize)
            else (size, csize)) (size, csize)
        else (size, csize)
      pure (some { flags, method, crc32, csize, size, name, xlen, ufields, unames })

/-! ### The directories that the end records name -/

def MAX_END_RECORDS : ℕ := 16

/-- A directory that was read: its place, the view that names it, and which one it is. -/
abbrev Named := ℕ × View × ℕ

structure Found where
  amb : List String
  /-- Each end record, with the directories its views read. -/
  read : List (ℕ × List Named)
  dirs_read : List (List Entry)
  /-- (place, concat, size, count), and the directory read there. -/
  seen_dirs : List ((ℕ × ℤ × ℕ × ℕ) × Option ℕ)
  budget : Budget
  first_err : Option Miss
  need : Bool

/-- Whether the comment of the end record at `ep` runs to the file's end. -/
def reachesEnd (size ep : ℕ) : RdE Miss Bool := do
  match ← look (ep + 20) 2 with
  | some c => pure (match u16At c 0 with
    | some n => ep + 22 + n = size
    | none => false)
  | none => pure false

/-- One place of a view's directory, for the end record whose directories so far are `dirs`. -/
def readPlace (C : Codec) (size maxDir : ℕ) (v : View) (place : ℕ × ℤ) (dirs : List Named)
    (hereAmb : List String) (f : Found) : RdE Miss (List Named × List String × Found) := do
  let (at_, concat) := place
  if dirs.any fun d => d.1 = at_ ∧ d.2.1 = v then return (dirs, hereAmb, f)
  let key := (at_, concat, v.size, v.count)
  match f.seen_dirs.lookup key with
  | some k =>
    return (dirs ++ (k.map fun k => (at_, v, k)).toList, hereAmb, f)
  | none =>
    let (got, scan) ← ExceptT.lift
      ((directory C size at_ v concat maxDir).run.run ⟨f.budget, hereAmb⟩)
    let f := { f with budget := scan.budget }
    match got with
    | .ok (some es) =>
      let k := f.dirs_read.length
      return (dirs ++ [(at_, v, k)], scan.amb,
        { f with dirs_read := f.dirs_read ++ [es], seen_dirs := (key, some k) :: f.seen_dirs })
    | .ok none => return (dirs, scan.amb, { f with seen_dirs := (key, none) :: f.seen_dirs })
    | .error .Need => return (dirs, scan.amb, { f with need := true })
    | .error (.Bad m) =>
      -- the listing's budget
      if containsText m "more entries or bytes than the reader reads" then throw (.Bad m)
      return (dirs, scan.amb, { f with first_err := f.first_err.or (some (.Bad m)) })

def readEndRecord (C : Codec) (size maxDir ep : ℕ) (f : Found) : RdE Miss Found := do
  match ← ExceptT.lift (viewsOf ep).run with
  | .error .Need => return { f with need := true }
  | .error e => return { f with first_err := f.first_err.or (some e) }
  | .ok (views, amb) =>
    let mut hereAmb := amb
    let mut dirs : List Named := []
    let mut f := f
    for v in views do
      if v.size ≤ v.stop then
        -- where zipfile reads it (its offsets moved by the difference) and where its offset says
        let a := v.stop - v.size
        let concat : ℤ := a - v.off
        for place in (a, concat) :: (if concat ≠ 0 then [(v.off, 0)] else []) do
          (dirs, hereAmb, f) ← readPlace C size maxDir v place dirs hereAmb f
        if concat ≠ 0 then
          hereAmb := hereAmb ++
            [s!"its directory is at byte {commas a} by its end record's place " ++
              s!"and size, and at byte {commas v.off} by its offset"]
    if dirs = [] then return f
    return { f with amb := f.amb ++ hereAmb, read := f.read ++ [(ep, dirs)] }

/-- The end records of the window from `lo` on, the last first. -/
def endRecords (lo : ℕ) (window : List UInt8) : List ℕ :=
  if 22 ≤ window.length then
    (((List.range (window.length - 21)).reverse.filter fun i =>
      startsWith (window.drop i) (pk 5 6))).map fun i => lo + i
  else []

/-- Those of the end records a reader takes: the last, and any whose comment runs to the end. -/
def takenRecords (size last : ℕ) : List ℕ → RdE Miss (List ℕ)
  | [] => pure []
  | ep :: rest => do
    let takes ← if ep = last then pure true else reachesEnd size ep
    let more ← takenRecords size last rest
    pure (if takes then ep :: more else more)

/-! ### The listing -/

/-- A member is added once (by its local header, name, method, flags, checksum and sizes), and at
most `max` are. -/
def addEntry (max : ℕ) (out : List Entry) (e : Entry) : RdE Miss (List Entry) :=
  if out.any fun o => o.local_ = e.local_ ∧ o.name = e.name ∧ o.method = e.method ∧
      o.flags = e.flags ∧ o.crc32 = e.crc32 ∧ o.csize = e.csize ∧ o.size = e.size then pure out
  else if max ≤ out.length then throw (.Bad s!"more than the {max} entries read")
  else pure (out ++ [e])

def addEntries (max : ℕ) (out es : List Entry) : RdE Miss (List Entry) :=
  es.foldlM (addEntry max) out

/-- The local header of each listed member, and what is wrong with the others'. -/
def localHeaders (C : Codec) (size : ℕ) (out : List Entry) :
    List (ℕ × ℕ) → RdE Miss (BTreeMap ℕ Local × List String)
  | [] => pure (BTreeMap.empty, [])
  | (at_, k) :: rest => do
    match out[k]? with
    | none => localHeaders C size out rest
    | some e =>
      let got ← ExceptT.lift (localAt C size at_ (30 + e.name.length + e.xlen + 128)).run
      let (locals, amb) ← localHeaders C size out rest
      match got with
      | .ok (some l) => pure (locals.insert at_ l, amb)
      | .ok none => pure (locals, amb)
      | .error why =>
        pure (locals,
          s!"{why} at byte {commas at_}, where its directory puts {quoted C e.name}" :: amb)

/-- How the local header `l` of the listed member `e` differs from it (`names`: what the directories
name it), and the members it adds. -/
def compareLocal (C : Codec) (names : List (List UInt8)) (e : Entry) (l : Local) :
    List String × List Entry :=
  let sizes := l.flags &&& 8 = 0 ∧ (l.csize ≠ e.csize ∨ l.size ≠ e.size)
  let checksum := l.flags &&& 8 = 0 ∧ l.crc32 ≠ e.crc32
  let others := (l.name :: l.unames).filter fun n => n ∉ names
  let many := if 1 < l.ufields then
      [s!"the local header of {quoted C e.name} (byte {commas e.local_}) has {l.ufields} " ++
        "Unicode Path extra fields (readers differ on which they take)"]
    else []
  if others ≠ [] ∨ l.method ≠ e.method ∨ l.flags ≠ e.flags ∨ sizes ∨ checksum then
    let why := match others with
      | n :: _ => s!"its name is {quoted C n}"
      | [] =>
        if sizes then s!"{l.csize} bytes, not {e.csize}"
        else if checksum then "its CRC-32 differs"
        else "its method or flags differ"
    let (csize, size, crc32) :=
      if l.flags &&& 8 ≠ 0 then (e.csize, e.size, e.crc32) else (l.csize, l.size, l.crc32)
    let localNames := if others = [] then [l.name] else others
    (many ++ [s!"the local header of {quoted C e.name} (byte {commas e.local_}) is not its " ++
        s!"directory entry's: {why}"],
      localNames.map fun name => { name, flags := l.flags, method := l.method, crc32, csize, size,
                                   local_ := e.local_, xlen := l.xlen, made_by := e.made_by,
                                   external := e.external, listed := false : Entry })
  else (many, [])

/-- The listed members' local headers, compared with what the directories say (`central`: all that
they list). -/
def compareLocals (C : Codec) (max : ℕ) (central : List Entry) (locals : BTreeMap ℕ Local) :
    List Entry → List Entry → List String → RdE Miss (List Entry × List String)
  | [], out, differ => pure (out, differ)
  | e :: rest, out, differ =>
    if e.listed then
      match locals.get e.local_ with
      | none => compareLocals C max central locals rest out differ
      | some l => do
        let names := (central.filter fun c => c.local_ = e.local_).map Entry.name
        let (why, more) := compareLocal C names e l
        let out ← addEntries max out more
        compareLocals C max central locals rest out (differ ++ why)
    else compareLocals C max central locals rest out differ

/-- Where the data of an unlisted member whose size only its data descriptor says ends: found by the
descriptor's signature, when the rest of the file is here. -/
def descriptorAt (size data : ℕ) : RdE Miss (Option ℕ) := do
  match ← look data (size - data) with
  | some rest =>
    pure ((List.range (rest.length - 3)).find? fun k => startsWith (rest.drop k) (pk 7 8))
  | none => pure none

/-- What a walk of the local headers knows of the directories. -/
structure Walk where
  size : ℕ
  max : ℕ
  stops : List ℕ
  by_local : BTreeMap ℕ ℕ
  locals : BTreeMap ℕ Local
  primary : ℕ

/-- Where the next member is searched, after one at `p` that ends at `next`: past the descriptor,
if it has one; or why the walk stops here. -/
def Walk.nextAt (p next : ℕ) (l : Local) (wide : Bool) : RdE Miss (ℕ ⊕ List String) := do
  let past := [s!"a member at byte {commas p} that runs past the archive's end"]
  if l.flags &&& 8 ≠ 0 then
    match ← haveBytes next 4 with
    | .Here d => pure (.inl ((if d = pk 7 8 then 4 else 0) + if wide then 20 else 12))
    | .Asked => pure (.inr [])
    | .Past => pure (.inr past)
  else pure (.inl 0)

/-- The local headers walked from `p` on (a streaming unpacker's), after `walked` of them: the
members with those no directory lists, what is ambiguous, and the unlisted ones.  The end of a
member is not cut at `u64::MAX`: it is past the file's end then. -/
def Walk.from (C : Codec) (w : Walk) (p walked : ℕ) (out : List Entry)
    (amb unlisted : List String) : RdE Miss (List Entry × List String × List String) := do
  if p ∈ w.stops then return (out, amb, unlisted)
  let listedHere := (w.by_local.get p).bind fun k => out[k]?
  let hint := match listedHere with
    | some e => 30 + e.name.length + e.xlen + 128
    | none => 30 + 256
  let got ← match w.locals.get p with
    | some l => pure (.ok (some l))
    | none => ExceptT.lift (localAt C w.size p hint).run
  match got with
  | .ok none => return (out, amb, unlisted)
  | .error _ =>
    let why := if p = 0 then
        let first := match (out.map Entry.local_).min? with
          | some m => m
          | none => w.primary
        s!"{commas first} bytes before its first member"
      else s!"bytes at byte {commas p} that are neither a member nor its directory"
    return (out, amb ++ [why], unlisted)
  | .ok (some l) =>
    if w.max < walked + 1 then throw (.Bad s!"more than the {w.max} entries read")
    let csize ← if l.flags &&& 8 = 0 then pure (some l.csize)
      else match listedHere with
        | some e => pure (some e.csize)
        | none => descriptorAt w.size (p + 30 + l.name.length + l.xlen)
    let unlisted := if listedHere.isNone then
        unlisted ++ [s!"a member at byte {commas p} that no central directory lists " ++
          s!"({quoted C l.name})"]
      else unlisted
    match csize with
    | none =>
      return (out,
        amb ++ [s!"a member at byte {commas p} whose size only its data descriptor says"],
        unlisted)
    | some csize =>
      let out ← if listedHere.isNone then
          addEntry w.max out { name := l.name, flags := l.flags, method := l.method,
                               crc32 := l.crc32, csize, size := l.size, local_ := p,
                               xlen := l.xlen, made_by := 0, external := 0, listed := false }
        else pure out
      let next := p + 30 + l.name.length + l.xlen + csize
      match ← Walk.nextAt p next l (0xFFFFFFFF ≤ csize ∨ 0xFFFFFFFF ≤ l.size) with
      | .inr why => return (out, amb ++ why, unlisted)
      | .inl more =>
        if hnext : w.size ≤ p + 30 + l.name.length + l.xlen + csize + more then
          return (out,
            amb ++ [s!"a member at byte {commas p} that runs past the archive's end"], unlisted)
        else
          Walk.from C w (p + 30 + l.name.length + l.xlen + csize + more) (walked + 1) out amb
            unlisted
termination_by w.size - p
decreasing_by omega

/-- A listed member's data: where its local header starts, where its data ends, and its name. -/
abbrev Span := ℕ × ℕ × List UInt8

def spanLe (a b : Span) : Prop :=
  a.1 < b.1 ∨ a.1 = b.1 ∧ (a.2.1 < b.2.1 ∨ a.2.1 = b.2.1 ∧ a.2.2 ≤ b.2.2)

instance (a b : Span) : Decidable (spanLe a b) :=
  inferInstanceAs (Decidable (_ ∨ _ ∧ (_ ∨ _ ∧ _)))

/-- `dedup_by` of the place and the name. -/
def dedupSpans : List Span → List Span
  | a :: b :: rest =>
    if a.1 = b.1 ∧ a.2.2 = b.2.2 then dedupSpans (a :: rest) else a :: dedupSpans (b :: rest)
  | l => l
termination_by l => l.length
decreasing_by all_goals simp

/-- How many of the spans start before an earlier one ends. -/
def sharedSpans (spans : List Span) : ℕ :=
  (spans.foldl (fun (shared, reach) s =>
    (if s.1 < reach then shared + 1 else shared, if reach < s.2.1 then s.2.1 else reach))
    ((0, 0) : ℕ × ℕ)).1

/-- Where a member's data ends, by its local header if it was read. -/
def spanOf (locals : BTreeMap ℕ Local) (e : Entry) : Span :=
  let head := match locals.get e.local_ with
    | some l => 30 + l.name.length + l.xlen
    | none => 30 + e.name.length + e.xlen
  (e.local_, satAdd (satAdd e.local_ head) e.csize, e.name)

/-- The names that hold a NUL, at which zipfile cuts them. -/
def cutNames (C : Codec) (max : ℕ) :
    List Entry → List Entry → List String → RdE Miss (List Entry × List String)
  | [], out, nul => pure (out, nul)
  | e :: rest, out, nul =>
    match e.name.findIdx? (· = 0) with
    | none => cutNames C max rest out nul
    | some k => do
      let why := s!"a member's name holds a NUL byte: zipfile names {quoted C e.name} " ++
        quoted C (e.name.take k)
      let out ← addEntry max out { e with name := e.name.take k }
      cutNames C max rest out (nul ++ [why])

/-- What is wrong after the primary directory and after its end record. -/
def afterPrimary (size ep at_ : ℕ) (v : View) : RdE Miss (List String) := do
  let between := if at_ + v.size < v.stop then
      [s!"{commas (v.stop - at_ - v.size)} bytes between its central directory and its end record"]
    else []
  let after := match (← look (ep + 20) 2).bind fun c => u16At c 0 with
    | none => []
    | some c =>
      if ep + 22 + c < size then [s!"{commas (size - (ep + 22 + c))} bytes after its end record"]
      else if size < ep + 22 + c then ["its end record's comment runs past the file's end"]
      else []
  pure (between ++ after)

def byLocal (out : List Entry) : BTreeMap ℕ ℕ :=
  out.zipIdx.foldl (fun m (e, k) => if (m.get e.local_).isSome then m else m.insert e.local_ k)
    BTreeMap.empty

/-- The members of the directories that were read, each directory once, zipfile's view first. -/
def unionOf (max : ℕ) (f : Found) : RdE Miss (List Entry) :=
  let ks := (f.read.flatMap fun r => r.2.map fun d => d.2.2).eraseDups
  addEntries max [] (ks.flatMap fun k => f.dirs_read.getD k [])

/-- What the end records give: the directories that were read, for those that a reader takes. -/
def found (C : Codec) (size max maxDir last : ℕ) (taken : List ℕ) : RdE Miss Found := do
  if MAX_END_RECORDS < taken.length then
    throw (.Bad (s!"it has {taken.length} end records a reader may take, more than the " ++
      s!"{MAX_END_RECORDS} read"))
  let start : Found := { amb := [], read := [], dirs_read := [], seen_dirs := [],
                         budget := ⟨satMul max 2, satMul maxDir 2⟩, first_err :=
                           none, need := false }
  let f ← taken.foldlM (fun f ep => readEndRecord C size maxDir ep f) start
  if f.need then throw .Need
  match f.read with
  | [] => throw (f.first_err.getD (.Bad "no central directory where its end record says"))
  | (ep, _) :: _ =>
    let many := if 1 < f.read.length then
        [s!"it has {f.read.length} end records whose comments run to its end"] else []
    let other := if ep ≠ last then
        [s!"its last end record (byte {commas last}) is not one a reader can use"] else []
    pure { f with amb := f.amb ++ many ++ other }

/-- The listing, once the directories have been read. -/
def listing (C : Codec) (size max : ℕ) (f : Found) (ep at_ : ℕ) (v : View) : RdE Miss Listing := do
  let central ← unionOf max f
  -- each listed member's local header: its own name, method, flags and sizes
  let by_local := byLocal central
  let (locals, amb) ← localHeaders C size central by_local.entries
  let (out, differ) ← compareLocals C max central locals central central []
  let amb := f.amb ++ amb ++ firstOf differ "members' local headers"
  -- the directories' places, and the records after them: where a walk may stop
  let stops := (f.read.flatMap fun r => r.1 :: r.2.flatMap fun d => [d.1, d.2.1.stop]) ++ [size]
  let (out, amb, unlisted) ←
    Walk.from C ⟨size, max, stops, by_local, locals, at_⟩ 0 0 out amb []
  let amb := amb ++ firstOf unlisted "such members" ++ (← afterPrimary size ep at_ v)
  -- members whose data overlap, or that share it
  let spans := dedupSpans (((out.filter Entry.listed).map (spanOf locals)).insertionSort spanLe)
  let shared := sharedSpans spans
  let amb := if 0 < shared then
      amb ++ [s!"{shared} of its members' data overlap another's (each read is charged to the " ++
        "reader's inflate budget)"]
    else amb
  let (out, nul) ← cutNames C max out out []
  pure ⟨out, ((amb ++ firstOf nul "such names").eraseDups).take 16⟩

/-- The members of the zip archive (at most `max`, its directory at most `maxDir` bytes), as every
common unpacker finds them, and why they may not agree. -/
def entries (C : Codec) (size max maxDir : ℕ) : Rd (Except Miss Listing) :=
  ExceptT.run do
    -- the end records: within the last 65,535 + 22 bytes
    let lo := size - (65535 + 22)
    let window ← get lo (size - lo) ""
    let sigs := endRecords lo window
    match sigs with
    | [] => throw (.Bad "no end of central directory record")
    | last :: _ =>
      let taken ← takenRecords size last sigs
      let f ← found C size max maxDir last taken
      match f.read with
      | (ep, (at_, v, _) :: _) :: _ => listing C size max f ep at_ v
      | _ => throw (.Bad "no central directory where its end record says")

/-! ### Members -/

/-- The bytes past a stored entry's local header the reader asks for with the header. -/
def LOCAL_SLACK : ℕ := 1024

/-- An `.npy` member's stored bytes read for its header. -/
def PREFIX_RAW : ℕ := 2 ^ 17

/-- A failed prefix read, with the bytes the decoder produced before it failed. -/
structure PrefixError where
  miss : Miss
  produced : ℕ
  deriving DecidableEq

/-- The start of an entry's local header (30 bytes), asked for with the `want` bytes after it when
at most `fetch` of them are. -/
def header (size : ℕ) (e : Entry) (want fetch : ℕ) (tooMany : String) : RdE Miss (List UInt8) := do
  let room := size - e.local_
  if fetch < want then
    match ← look e.local_ (min 30 room) with
    | some h => pure h
    | none => throw (.Bad tooMany)
  else
    let more := min (satAdd (30 + e.name.length + e.xlen + LOCAL_SLACK) (min want e.csize)) room
    match ← haveMore e.local_ (min 30 room) more with
    | .Here h => pure h
    | _ => throw .Need

/-- The first `want` of an entry's stored or compressed bytes (after its local header), of which at
most `fetch` are asked for when they are not here. -/
def raw (size : ℕ) (e : Entry) (want fetch : ℕ) (tooMany : String) : RdE Miss (List UInt8) := do
  if e.flags &&& 1 ≠ 0 then throw (.Bad "it is encrypted")
  let wrong := Miss.Bad "its local header is not where the central directory says"
  if size ≤ e.local_ then throw wrong
  let hdr ← header size e want fetch tooMany
  if ¬ startsWith hdr (pk 3 4) then throw wrong
  let some nlen := u16At hdr 26 | throw (.Bad "a truncated local header")
  let some xlen := u16At hdr 28 | throw (.Bad "a truncated local header")
  let start := e.local_ + 30 + nlen + xlen
  if size < start ∨ size - start < e.csize then throw (.Bad "an entry past the archive's end")
  if fetch < min want e.csize then
    match ← look start (min want e.csize) with
    | some b => pure b
    | none => throw (.Bad tooMany)
  else get start (min want e.csize) "an entry past the archive's end"

def methodName : ℕ → String
  | 9 => "deflate64"
  | 12 => "bzip2"
  | 14 => "LZMA"
  | 93 => "zstd"
  | 95 => "xz"
  | 98 => "PPMd"
  | 99 => "AES encryption"
  | _ => "an unknown method"

def unknownMethod (m : ℕ) : Miss :=
  .Bad s!"it is compressed with {methodName m} (method {m}), which the reader cannot decompress"

/-- Inflate until `n` bytes are had, the stream ends or the input does: the bytes, and whether the
stream ended.  Each turn but the last consumes or produces a byte, so `fuel` turns are enough. -/
def inflatePrefix (C : Codec) (n : ℕ) :
    (fuel : ℕ) → C.Inflater → List UInt8 → List UInt8 → Except PrefixError (List UInt8 × Bool)
  | 0, _, _, out => .ok (out, false)
  | fuel + 1, inf, input, out =>
    if n ≤ out.length then .ok (out, false)
    else
      match C.inflate inf input (n - out.length) with
      | .error (why, produced) => .error ⟨.Bad why, produced⟩
      | .ok (pr, inf) =>
        let out := out ++ pr.produced
        if pr.status = .Done then .ok (out, true)
        else if pr.status = .NeedInput ∧ pr.produced = [] ∧ pr.consumed = 0 then .ok (out, false)
        else inflatePrefix C n fuel inf (input.drop pr.consumed) out

/-- An entry's first `n` bytes, decompressed (fewer when it is shorter). -/
def readPrefixCounted (C : Codec) (size : ℕ) (e : Entry) (n fetch : ℕ) :
    Rd (Except PrefixError (List UInt8)) :=
  ExceptT.run do
    let first := max PREFIX_RAW n
    let failed := fun miss : Miss => (⟨miss, 0⟩ : PrefixError)
    let inflate := fun b : List UInt8 => inflatePrefix C n (n + b.length + 1) C.newInflater b []
    match e.method with
    | 0 =>
      let b ← ExceptT.adapt failed (raw size e first U64_MAX "")
      pure (b.take n)
    | 8 =>
      let raw1 ← ExceptT.adapt failed (raw size e first U64_MAX "")
      let (out, ended) ← ExceptT.mk (pure (inflate raw1))
      if out.length < n ∧ ended = false ∧ raw1.length < e.csize then
        let all ← ExceptT.adapt failed
          (raw size e e.csize fetch s!"its first {n} bytes are not in the {fetch} bytes of it read")
        let (out, _) ← ExceptT.mk (pure (inflate all))
        pure out
      else pure out
    | m => throw ⟨unknownMethod m, 0⟩

def readPrefix (C : Codec) (size : ℕ) (e : Entry) (n fetch : ℕ) : Rd (Except Miss (List UInt8)) :=
  (readPrefixCounted C size e n fetch).bind fun r =>
    .done (match r with
      | .ok b => .ok b
      | .error err => .error err.miss)

/-- The most of an entry's stored bytes that `read` asks for: deflated bytes are at most about twice
what they hold. -/
def fetchBound (e : Entry) (limit : ℕ) : ℕ :=
  if e.method = 0 then limit else satAdd (satMul limit 2) (2 ^ 20)

/-- An entry's bytes, decompressed (at most `limit` of them), or why they cannot be read. -/
def read (C : Codec) (size : ℕ) (e : Entry) (limit : ℕ) : RdE Miss (List UInt8) := do
  let more := s!"it holds more than the {limit} bytes read"
  match e.method with
  | 0 =>
    let b ← raw size e e.csize (fetchBound e limit) more
    if limit < b.length then throw (.Bad more)
    pure b
  | 8 =>
    let b ← raw size e e.csize (fetchBound e limit) more
    match C.decodeAll b limit with
    | .ok out => pure out
    | .error why => throw (.Bad why)
  | m => throw (unknownMethod m)

/-- An entry's complete bytes, with its declared uncompressed size and CRC-32 verified. -/
def readChecked (C : Codec) (size : ℕ) (e : Entry) (limit : ℕ) : Rd (Except Miss (List UInt8)) :=
  ExceptT.run do
    let out ← read C size e limit
    if out.length ≠ e.size then
      throw (.Bad (s!"it expands to {commas out.length} bytes, not the {commas e.size} its " ++
        "directory declares"))
    if C.crc32 out ≠ e.crc32 then throw (.Bad "its CRC-32 does not match its directory")
    pure out

end Lazaret.Archive
