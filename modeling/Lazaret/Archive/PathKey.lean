import Mathlib.Data.Nat.Notation

/-!
# Path keys

The key that two member names share when some file system may store them as one path
(`lazaret-archive`, `fold.rs`): `\` and `/` both separate segments, `.` and empty segments are
dropped, and each segment is case-folded, brought to one normalization and stripped of what is
ignorable.
-/

namespace Lazaret.Archive.Extract

/-- A text: the characters of a `String`. -/
abbrev Text := List Char

/-- The tables of the Unicode Character Database, and `char::to_lowercase`. -/
structure Tables where
  /-- Code points with a combining class, as ranges. -/
  combining : List (ℕ × ℕ)
  ignorable : List (ℕ × ℕ)
  fold : List (ℕ × Text)
  toLowercase : Char → Text

/-- `in_ranges`: a binary search of ranges in order. -/
def inTable (table : List (ℕ × ℕ)) (c : ℕ) : Bool := table.any fun r => r.1 ≤ c ∧ c ≤ r.2

def S_BASE : ℕ := 0xAC00
def L_BASE : ℕ := 0x1100
def V_BASE : ℕ := 0x1161
def T_BASE : ℕ := 0x11A7
def V_COUNT : ℕ := 21
def T_COUNT : ℕ := 28
def S_COUNT : ℕ := 11172

/-- A key while it is made: the marks after its last base are still to be sorted. -/
structure Key where
  out : Text
  marks : Text

namespace Key

variable (T : Tables)

def flush (k : Key) : Key := ⟨k.out ++ k.marks.mergeSort (· ≤ ·), []⟩

def push (k : Key) (c : Char) : Key :=
  if inTable T.combining c.toNat then { k with marks := k.marks ++ [c] }
  else { k.flush with out := k.flush.out ++ [c] }

def fromU32 (jamo : ℕ) (c : Char) : Char := if jamo.isValidChar then Char.ofNat jamo else c

/-- The turn of the loop of `segment` for one character. -/
def pushChar (k : Key) (c : Char) : Key :=
  let cp := c.toNat
  if inTable T.ignorable cp then k
  else if S_BASE ≤ cp ∧ cp < S_BASE + S_COUNT then
    let s := cp - S_BASE
    [L_BASE + s / (V_COUNT * T_COUNT), V_BASE + s % (V_COUNT * T_COUNT) / T_COUNT,
      T_BASE + s % T_COUNT].foldl
      (fun k jamo => if jamo ≠ T_BASE then k.push T (fromU32 jamo c) else k) k
  else match T.fold.find? (·.1 = cp) with
    | some (_, folded) => folded.foldl (push T) k
    | none => (T.toLowercase c).foldl (push T) k

def segment (k : Key) (segment : Text) : Key := (segment.foldl (pushChar T) k).flush

end Key

def pathKey (T : Tables) (name : Text) : Text :=
  let segments := (name.splitOnP fun c => c = '/' || c = '\\').filter fun s => s ≠ [] ∧ s ≠ ['.']
  -- a `/` goes before each segment but the first
  (segments.foldl (fun (first, k) s =>
    let k : Key := if first then k else { k with out := k.out ++ ['/'] }
    (false, k.segment T s)) (true, (⟨[], []⟩ : Key))).2.out

end Lazaret.Archive.Extract
