import Lazaret.Lib.BTreeMap
import Lazaret.Lib.Reading
import Mathlib.Data.Finset.Card

/-!
# A file's bytes, whole or in pieces

`Bytes` (`lazaret-archive`, `zip.rs`) is the whole file, or pieces of it.  A range that is not there
is noted as needed (`note`), within a bound on what a reading reads in all; the host fetches what
was noted (`needs`) and reads again.  A reading asks for a range and has it noted when it is missing
(`Query.fetch`, the shape of `get` and `have`), or it looks at a range only (`Query.look`, a bare
`peek`).  `u64` is `ℕ`: a range whose end passes `u64::MAX` is past every file's end.
-/

namespace Lazaret.Archive

def U64_MAX : ℕ := 2 ^ 64 - 1

/-- `saturating_add`. -/
def satAdd (a b : ℕ) : ℕ := min (a + b) U64_MAX

/-- `saturating_mul`. -/
def satMul (a b : ℕ) : ℕ := min (a * b) U64_MAX

/-- A number with a comma after every third digit from the right. -/
def commas (n : ℕ) : String :=
  let s := (Nat.repr n).toList
  String.ofList (s.zipIdx.flatMap fun (c, i) =>
    if i ≠ 0 ∧ (s.length - i) % 3 = 0 then [',', c] else [c])

/-- Why bytes could not be had: not given yet (noted as needed), or why the archive cannot be
read. -/
inductive Miss
  | Need
  | Bad (why : String)
  deriving DecidableEq

abbrev Piece := ℕ × List UInt8

def Piece.stop (p : Piece) : ℕ := p.1 + p.2.length

structure Bytes where
  size : ℕ
  /-- (offset, bytes), sorted, none overlapping or touching another -/
  pieces : List Piece
  given : ℕ
  /-- The ranges a reading asked for that are not here. -/
  need : List (ℕ × ℕ)
  /-- The bytes asked for that are not given, as disjoint ranges (start to end), and how many. -/
  asked : BTreeMap ℕ ℕ
  needed : ℕ
  /-- The most bytes, given and asked for, a reading reads of the file. -/
  cap : ℕ

/-- The order in which `Bytes::pieces` takes the pieces: by offset, the longest first. -/
def pieceLe (a b : Piece) : Prop := a.1 < b.1 ∨ a.1 = b.1 ∧ b.2.length ≤ a.2.length

instance (a b : Piece) : Decidable (pieceLe a b) :=
  inferInstanceAs (Decidable (_ ∨ _ ∧ _))

/-- The next piece, in the order of their offsets, beside those before it (the last first): it
grows the last one when it overlaps or touches it. -/
def absorb : List Piece → Piece → List Piece
  | [], p => [p]
  | (lo, b) :: rest, p =>
    if p.1 ≤ lo + b.length then
      if lo + b.length < p.stop then (lo, b ++ p.2.drop (lo + b.length - p.1)) :: rest
      else (lo, b) :: rest
    else p :: (lo, b) :: rest

def cutAt (size : ℕ) (p : Piece) : Piece := (p.1, p.2.take (min p.2.length (size - p.1)))

def rangeLe (a b : ℕ × ℕ) : Prop := a.1 < b.1 ∨ a.1 = b.1 ∧ a.2 ≤ b.2

instance (a b : ℕ × ℕ) : Decidable (rangeLe a b) :=
  inferInstanceAs (Decidable (_ ∨ _ ∧ _))

/-- The parts of `cur..stop` that none of the ranges (sorted) covers. -/
def gaps (stop : ℕ) : ℕ → List (ℕ × ℕ) → List (ℕ × ℕ)
  | cur, [] => if cur < stop then [(cur, stop)] else []
  | cur, (s, e) :: rest =>
    (if cur < s then [(cur, min s stop)] else []) ++
      if stop ≤ max cur e then [] else gaps stop (max cur e) rest

/-- A range is added to those asked for, merged with the ones it touches. -/
def addAsked (asked : BTreeMap ℕ ℕ) (r : ℕ × ℕ) : BTreeMap ℕ ℕ :=
  let (lo, hi) := match (asked.range (fun k => k ≤ r.1)).getLast? with
    | some (ps, pe) => if r.1 ≤ pe then (ps, max r.2 pe) else r
    | none => r
  let next := asked.range fun k => lo ≤ k ∧ k ≤ hi
  (next.foldl (fun m e => m.remove e.1) asked).insert lo (next.foldl (fun hi e => max hi e.2) hi)

/-- A range is added to those needed (the last first), merged with the last one. -/
def addNeed : List (ℕ × ℕ) → ℕ × ℕ → List (ℕ × ℕ)
  | [], r => [r]
  | (o, l) :: rest, (off, len) =>
    if off ≤ o + l then (o, max l (off + len - o)) :: rest else (off, len) :: (o, l) :: rest

namespace Bytes

def whole (data : List UInt8) : Bytes where
  size := data.length
  pieces := [(0, data)]
  given := data.length
  need := []
  asked := BTreeMap.empty
  needed := 0
  cap := U64_MAX

/-- The pieces in order, cut at the end of the file and merged where they touch. -/
def joined (size : ℕ) (given : List Piece) : List Piece :=
  let given := (given.filter fun p => p.1 < size ∧ p.2 ≠ []).insertionSort pieceLe
  ((given.map (cutAt size)).foldl absorb []).reverse

/-- Pieces of a file of `size` bytes, of which a reading reads at most `cap` bytes in all. -/
def ofPieces (size : ℕ) (given : List Piece) (cap : ℕ) : Bytes where
  size := size
  pieces := joined size given
  given := ((joined size given).map fun p => p.2.length).sum
  need := []
  asked := BTreeMap.empty
  needed := 0
  cap := cap

/-- Bytes `off..off + len` when they are here. -/
def peek (s : Bytes) (off len : ℕ) : Option (List UInt8) :=
  if s.size < off + len then none
  else
    match (s.pieces.takeWhile fun p => p.1 ≤ off).getLast? with
    | none => none
    | some (o, b) =>
      if o + b.length < off + len then none else some ((b.drop (off - o)).take len)

/-- Ask for bytes `off..off + len` (cut at the file's end), within the reading's bound: the union
of what is given and what is asked for, each byte counted once. -/
def note (s : Bytes) (off len : ℕ) : Except Miss Bytes :=
  let len := min len (s.size - off)
  if len = 0 then .ok s
  else
    let stop := off + len
    let covers := (((s.pieces.dropWhile fun p => p.stop ≤ off).map fun p => (p.1, p.stop)).takeWhile
        fun r => r.1 < stop) ++
      ((s.asked.range fun k => k ≤ off).getLast?.filter fun r => off < r.2).toList ++
      s.asked.range fun k => off ≤ k ∧ k < stop
    let new := gaps stop off (covers.insertionSort rangeLe)
    let add := (new.map fun r => r.2 - r.1).sum
    if s.cap < satAdd (satAdd s.given s.needed) add then
      .error (.Bad
        s!"it would take reading more than the {commas s.cap} bytes read of a model file")
    else
      .ok { s with
        needed := s.needed + add
        asked := new.foldl addAsked s.asked
        need := s.need ++ [(off, len)] }

/-- The ranges a reading asked for and was not given: (offset, length), sorted, merged. -/
def needs (s : Bytes) : List (ℕ × ℕ) :=
  (((s.need.filter fun r => 0 < r.2).insertionSort rangeLe).foldl addNeed []).reverse

end Bytes

/-! ### Questions to a file -/

inductive Query
  /-- Bytes `off..off + len`; when they are not here they are noted, with the bytes after them up to
  `off + more`. -/
  | fetch (off len more : ℕ)
  /-- Bytes `off..off + len` if they are here. -/
  | look (off len : ℕ)
  deriving DecidableEq

/-- What it is told: the bytes, that they were asked for, that they are not to be had, or that they
would take the reading past its bound. -/
inductive Answer
  | here (b : List UInt8)
  | asked
  | past
  | refused (why : Miss)
  deriving DecidableEq

def Bytes.answer (s : Bytes) : Query → Answer × Bytes
  | .look off len =>
    match s.peek off len with
    | some b => (.here b, s)
    | none => (.past, s)
  | .fetch off len more =>
    if s.size < off + len then (.past, s)
    else
      match s.peek off len with
      | some b => (.here b, s)
      | none =>
        match s.note off (if len = 0 then 0 else max len more) with
        | .ok s' => (.asked, s')
        | .error m => (.refused m, s)

abbrev Rd (α : Type) := Reading Query Answer α

abbrev Rd.on {α : Type} (p : Rd α) (s : Bytes) : α × Bytes := p.run Bytes.answer s

/-- Bytes `off..off + len`: `past` when they run past the file's end, `Need` when they are not here
(noted), or the reading's bound. -/
def get (off len : ℕ) (past : String) : ExceptT Miss (Reading Query Answer) (List UInt8) :=
  ExceptT.mk <| .ask (.fetch off len len) fun
    | .here b => .done (.ok b)
    | .asked => .done (.error .Need)
    | .past => .done (.error (.Bad past))
    | .refused m => .done (.error m)

/-- Bytes a view asks for: here, asked for, or past the end. -/
inductive Got
  | Here (b : List UInt8)
  | Asked
  | Past

/-- Bytes `off..off + len` for a view, noted up to `off + more` when they are not here. -/
def haveMore (off len more : ℕ) : ExceptT Miss (Reading Query Answer) Got :=
  ExceptT.mk <| .ask (.fetch off len more) fun
    | .here b => .done (.ok (.Here b))
    | .asked => .done (.ok .Asked)
    | .past => .done (.ok .Past)
    | .refused m => .done (.error m)

/-- Bytes `off..off + len` for a view. -/
def haveBytes (off len : ℕ) : ExceptT Miss (Reading Query Answer) Got := haveMore off len len

/-- Bytes `off..off + len` when they are here. -/
def look (off len : ℕ) : ExceptT Miss (Reading Query Answer) (Option (List UInt8)) :=
  ExceptT.mk <| .ask (.look off len) fun
    | .here b => .done (.ok (some b))
    | _ => .done (.ok none)

end Lazaret.Archive
