import Lazaret.Archive.PathKey
import Lazaret.Lib.UnionFind
import Mathlib.Data.List.Dedup
import Mathlib.Data.List.Lex

/-!
# Colliding entries

Which entries of an archive some extractor or file system writes to one path (`lazaret-archive`,
`collisions`): those of one key with a file among them, and those below the key of a file.  In the
order of the keys both are ranges; what collides is joined, and the groups are what the joins
connect.
-/

namespace Lazaret.Archive.Extract

inductive EntryKind
  | File
  | Directory
deriving DecidableEq

structure Entry where
  name : Text
  kind : EntryKind
  data : List UInt8
  /-- The path on Windows, where it differs from the name. -/
  windowsName : Option Text
  /-- The index of the entry's group, when it collides. -/
  collision : Option ℕ
deriving DecidableEq

/-- Entries that some extractor or file system writes to one path. -/
structure Collision where
  entries : List ℕ
  duplicate : Bool
  alias_ : Bool
  fileDirectory : Bool
deriving DecidableEq

/-- The bits `DUPLICATE`, `ALIAS` and `FILE_DIRECTORY`. -/
structure Flags where
  duplicate : Bool
  alias_ : Bool
  fileDirectory : Bool
deriving DecidableEq

namespace Flags

def none : Flags := ⟨false, false, false⟩

/-- `|` -/
def or (f g : Flags) : Flags :=
  ⟨f.duplicate || g.duplicate, f.alias_ || g.alias_, f.fileDirectory || g.fileDirectory⟩

end Flags

/-- Sorted by their keys, those of one key by their index. -/
def keyLe (key : ℕ → Text) (a b : ℕ) : Bool := key a < key b ∨ (key a = key b ∧ a ≤ b)

def runs (key : ℕ → Text) : List ℕ → List (List ℕ)
  | [] => []
  | i :: rest =>
    (i :: rest.takeWhile fun j => key j = key i) :: runs key (rest.dropWhile fun j => key j = key i)
termination_by order => order.length
decreasing_by
  simp only [List.length_cons]
  have := (List.dropWhile_suffix (fun j => decide (key j = key i)) (l := rest)).length_le
  omega

/-- What the loops of `collisions` keep. -/
structure Joins where
  parent : UnionFind
  flags : ℕ → Flags
  fileKeys : List ℕ

namespace Joins

/-- An entry gets flags, and is joined with a file. -/
def join (s : Joins) (file i : ℕ) (f : Flags) : Joins :=
  { s with
    flags := Function.update s.flags i ((s.flags i).or f)
    parent := s.parent.union file i }

def runFlags (entry : ℕ → Entry) (run : List ℕ) : Flags :=
  let names := (run.map fun i => (entry i).name).dedup
  ⟨names.length < run.length, names.length > 1, run.any fun i => (entry i).kind = .Directory⟩

def joinRun (entry : ℕ → Entry) (s : Joins) (run : List ℕ) : Joins :=
  match run.find? fun i => (entry i).kind = .File with
  | none => s
  | some file =>
    let s := { s with fileKeys := s.fileKeys ++ [file] }
    if run.length > 1 then run.foldl (fun s i => s.join file i (runFlags entry run)) s else s

/-- `partition_point`: how many come before the first that is not so, in an order where those that
are so come first. -/
def partitionPoint (p : ℕ → Bool) (order : List ℕ) : ℕ := (order.takeWhile p).length

/-- The part of the order that is below a key: from `key/` up to `key0`. -/
def belowOf (key : ℕ → Text) (order : List ℕ) (file : ℕ) : List ℕ :=
  let lo := partitionPoint (fun i => key i < key file ++ ['/']) order
  let hi := partitionPoint (fun i => key i < key file ++ ['0']) order
  (order.take hi).drop lo

def joinBelow (key : ℕ → Text) (order : List ℕ) (s : Joins) (file : ℕ) : Joins :=
  let below := belowOf key order file
  let flag : Flags := ⟨false, false, true⟩
  let s := if below ≠ [] then
      { s with flags := Function.update s.flags file ((s.flags file).or flag) } else s
  below.foldl (fun s i => s.join file i flag) s

end Joins

/-- What the last loops keep: the groups, and the group of each root. -/
structure Groups where
  parent : UnionFind
  groupOfRoot : ℕ → Option ℕ
  groups : List Collision
  collision : ℕ → Option ℕ

def countRoots (n : ℕ) (parent : UnionFind) : UnionFind × (ℕ → ℕ) :=
  (List.range n).foldl (fun s i =>
    let (root, parent) := s.1.find i
    (parent, Function.update s.2 root (s.2 root + 1))) (parent, fun _ => 0)

/-- An entry is put into the group at `g`. -/
def addTo (groups : List Collision) (g i : ℕ) (f : Flags) : List Collision :=
  groups.modify g fun group =>
    { entries := group.entries ++ [i]
      duplicate := group.duplicate || f.duplicate
      alias_ := group.alias_ || f.alias_
      fileDirectory := group.fileDirectory || f.fileDirectory }

def group (size : ℕ → ℕ) (flags : ℕ → Flags) (s : Groups) (i : ℕ) : Groups :=
  let (root, parent) := s.parent.find i
  let s := { s with parent }
  if size root < 2 then s
  else
    -- the group of the root, which is a new one when there was none
    let g := (s.groupOfRoot root).getD s.groups.length
    let groups := if (s.groupOfRoot root).isSome then s.groups
      else s.groups ++ [⟨[], false, false, false⟩]
    { s with
      groupOfRoot := Function.update s.groupOfRoot root (some g)
      groups := addTo groups g i (flags i)
      collision := Function.update s.collision i (some g) }

def entryAt (entries : List Entry) (i : ℕ) : Entry := entries.getD i ⟨[], .File, [], none, none⟩

def keyAt (T : Tables) (entries : List Entry) (i : ℕ) : Text :=
  pathKey T ((entryAt entries i).windowsName.getD (entryAt entries i).name)

def joinAll (T : Tables) (entries : List Entry) : Joins :=
  let key := keyAt T entries
  let order := (List.range entries.length).mergeSort (keyLe key)
  let s := (runs key order).foldl (Joins.joinRun (entryAt entries)) ⟨.single, fun _ => .none, []⟩
  s.fileKeys.foldl (Joins.joinBelow key order) s

/-- `collisions`: the groups, and the entries with their groups. -/
def collisions (T : Tables) (entries : List Entry) : List Collision × List Entry :=
  let s := joinAll T entries
  let (parent, size) := countRoots entries.length s.parent
  let start : Groups := ⟨parent, fun _ => none, [], fun i => (entryAt entries i).collision⟩
  let r := (List.range entries.length).foldl (group size s.flags) start
  (r.groups, entries.mapIdx fun i e => { e with collision := r.collision i })

end Lazaret.Archive.Extract
