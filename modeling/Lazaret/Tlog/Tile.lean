import Lazaret.Lib.BTreeMap
import Lazaret.Lib.Merkle
import Lazaret.Lib.Outcome
import Mathlib.Data.Prod.Lex
import Mathlib.Tactic.NormNum

/-!
# Tiles of a transparency log

A log (`pratique/src/tlog.rs`) publishes the hashes of its Merkle tree in tiles: a tile of height
`h`, level `l` and number `k` lists up to `2 ^ h` consecutive hashes of tree level `h * l`, the
first at position `k * 2 ^ h`.  Bytes are an arbitrary type and the two hash functions the module
calls are a parameter (`Hashing`).
-/

namespace Lazaret.Tlog

open Merkle List

def HASH_SIZE : ℕ := 32

abbrev Hash (β : Type) := { bytes : List β // bytes.length = HASH_SIZE }

/-- What the hash function of the log gives: the hash of an interior node, and the root of the
empty tree. -/
structure Hashing (β : Type) where
  nodeHash : Hash β → Hash β → Hash β
  EMPTY_ROOT : Hash β

def MAX_TREE_SIZE : ℕ := 2 ^ 62

def MAX_TILE_HEIGHT : ℕ := 30

/-- A tree head: the number of leaves and the root hash. -/
structure Tree (β : Type) where
  size : ℕ
  root : Hash β
deriving DecidableEq

/-- A node: at level `l` the root of the `2 ^ l` leaves that start at leaf `index * 2 ^ l`. -/
structure Node where
  level : ℕ
  index : ℕ
deriving DecidableEq

structure Tile where
  height : ℕ
  level : ℕ
  index : ℕ
  width : ℕ
deriving DecidableEq

inductive Error (β : Type) where
  | Invalid (message : String)
  | BadProof
  | MissingTile (tile : Tile)
  | TilesDoNotMatchRoot
  | TileDoesNotMatchParent (tile : Tile)
  | RecordMismatch
  | Fork (size : ℕ) (expected computed : Hash β)
deriving DecidableEq

variable {β : Type}

namespace Tile

/-- Tiles are ordered by their fields, in the order of the declaration. -/
def key (t : Tile) : ℕ ×ₗ ℕ ×ₗ ℕ ×ₗ ℕ :=
  toLex (t.height, toLex (t.level, toLex (t.index, t.width)))

lemma key_injective : Function.Injective key := by
  rintro ⟨h, l, i, w⟩ ⟨h', l', i', w'⟩ heq
  simp only [key, toLex_inj, Prod.mk.injEq] at heq
  simp only [Tile.mk.injEq]
  exact heq

instance : LinearOrder Tile := LinearOrder.lift' key key_injective

/-- `2 ^ height` if it fits a tile's width. -/
def fullWidth (t : Tile) : Option ℕ :=
  if t.height < 64 then (if 2 ^ t.height < 2 ^ 32 then some (2 ^ t.height) else none) else none

/-- Whether the tile has all `2 ^ height` entries. -/
def isFull (t : Tile) : Bool := t.fullWidth == some t.width

def full (t : Tile) : Tile := { t with width := t.fullWidth.getD t.width }

def dataLen (t : Tile) : ℕ := t.width * HASH_SIZE

/-- Checks the fields against the limits of the module. -/
def validate (t : Tile) : Outcome (Error β) Unit :=
  if t.height < 1 ∨ t.height > MAX_TILE_HEIGHT then
    .err (.Invalid "tile height must be 1 to 30")
  else if t.width < 1 ∨ t.width > 1 <<< t.height then
    .err (.Invalid "tile width must be 1 to 2^height")
  else
    let lh := t.level * t.height
    if lh > 62 ∨ t.index <<< t.height ≥ 1 <<< (62 - lh) then
      .err (.Invalid "tile is outside the largest tree")
    else .ok ()

end Tile

structure TileSet (β : Type) where
  tiles : BTreeMap Tile (List β)

namespace TileSet

/-- The data of `tile`, or else the start of the data of the full tile of the same place. -/
def get (S : TileSet β) (tile : Tile) : Option (List β) :=
  match S.tiles.get tile with
  | some d => some d
  | none =>
    let n := tile.dataLen
    ((S.tiles.get tile.full).filter (fun d => d.length ≥ n)).map (fun d => d.take n)

end TileSet

/-- The root of the perfect subtree over `entries.length / 32` hashes.  Fewer than two bytes are
cut into nothing and themselves, so that the recursion has no end. -/
def subtreeHash (H : Hashing β) (entries : List β) : Outcome (Error β) (Hash β) :=
  if h : entries.length = HASH_SIZE then .ok ⟨entries, h⟩
  else if _h : entries.length < 2 then .fault
  else do
    let mid := entries.length / 2
    let left ← subtreeHash H (entries.take mid)
    let right ← subtreeHash H (entries.drop mid)
    .ok (H.nodeHash left right)
termination_by entries.length
decreasing_by
  all_goals
    simp only [List.length_take, List.length_drop]
    omega

/-- The loop of `subtrees` over the levels below `l`, from the highest down. -/
def subtreesBelow (size : ℕ) : ℕ → ℕ → List Node
  | 0, _ => []
  | level + 1, pos =>
    if size >>> level &&& 1 = 1 then
      ⟨level, pos >>> level⟩ :: subtreesBelow size level (pos + 1 <<< level)
    else subtreesBelow size level pos

/-- The maximal perfect subtrees that make up a tree of `size` leaves, largest first. -/
def subtrees (size : ℕ) : List Node := subtreesBelow size 63 0

/-- The root of a tree from the roots of its maximal perfect subtrees, leftmost first. -/
def foldSubtrees (H : Hashing β) (hashes : List (Hash β)) : Hash β :=
  match hashes.reverse with
  | [] => H.EMPTY_ROOT
  | h :: it => it.foldl (fun h x => H.nodeHash x h) h

/-- The smallest tile that holds `node`, and the range of entries of the tile that are the leaves
under the node. -/
def nodeTile (height : ℕ) (node : Node) : Tile × ℕ × ℕ :=
  let level := node.level / height
  let sub := node.level - level * height
  let index := (node.index <<< sub) >>> height
  let within := node.index - (index <<< height) >>> sub
  (⟨height, level, index, (within + 1) <<< sub⟩, within <<< sub, (within + 1) <<< sub)

/-- The tile `k` levels above `t` that holds `t`'s entry, widened to what a tree of `size` leaves
has of it. -/
def tileAncestor (t : Tile) (k size : ℕ) : Option Tile :=
  let level := t.level + k
  -- `checked_add`
  if level ≥ 2 ^ 32 then none
  else
    let lh := level * t.height
    if lh > 62 then none
    else
      let index := t.index >>> min (k * t.height) 63
      let max := size >>> lh
      let start := index <<< t.height
      let width := 1 <<< t.height
      if start + width ≥ max then
        if start ≥ max then none else some ⟨t.height, level, index, max - start⟩
      else some ⟨t.height, level, index, width⟩

/-! ### The tiles of a tree -/

/-- The number of nodes that a tree of `size` leaves has on tile level `level`. -/
def rowLen (height size level : ℕ) : ℕ := size / 2 ^ (level * height)

/-- A tree of `size` leaves has entries in the tile `index` of tile level `level`. -/
def HasTile (height size level index : ℕ) : Prop :=
  level * height ≤ 62 ∧ index * 2 ^ height < rowLen height size level

instance (height size level index : ℕ) : Decidable (HasTile height size level index) :=
  inferInstanceAs (Decidable (_ ∧ _))

/-- The tile of a place, as wide as a tree of `size` leaves has it. -/
def treeTile (height size level index : ℕ) : Tile :=
  ⟨height, level, index, min (2 ^ height) (rowLen height size level - index * 2 ^ height)⟩

variable {height size level index k : ℕ}

lemma tileAncestor_eq (t : Tile) (hlevel : t.level + k < 2 ^ 32) :
    tileAncestor t k size =
      if HasTile t.height size (t.level + k) (t.index / 2 ^ (k * t.height)) then
        some (treeTile t.height size (t.level + k) (t.index / 2 ^ (k * t.height)))
      else none := by
  simp only [tileAncestor, if_neg (Nat.not_le.2 hlevel), Nat.shiftRight_eq_div_pow,
    Nat.shiftLeft_eq, one_mul]
  by_cases hlh : (t.level + k) * t.height > 62
  · rw [if_pos hlh, if_neg fun h : HasTile _ _ _ _ => absurd h.1 (not_le.2 hlh)]
  · -- the shift is below 63 bits wherever the level is one that a tree has
    have hk : k * t.height ≤ (t.level + k) * t.height := Nat.mul_le_mul_right _ (by omega)
    rw [if_neg hlh, min_eq_left (a := k * t.height) (by omega)]
    by_cases hstart : t.index / 2 ^ (k * t.height) * 2 ^ t.height <
        rowLen t.height size (t.level + k)
    · rw [if_pos (show HasTile _ _ _ _ from ⟨not_lt.1 hlh, hstart⟩)]
      simp only [treeTile, rowLen] at hstart ⊢
      split_ifs
      · omega
      · rw [min_eq_right (by omega)]
      · rw [min_eq_left (by omega)]
    · rw [if_neg fun h : HasTile _ _ _ _ => hstart h.2]
      rw [rowLen] at hstart
      have hpos := Nat.two_pow_pos t.height
      rw [if_pos (by omega), if_pos (by omega)]

lemma validate_treeTile (h1 : 1 ≤ height) (h30 : height ≤ MAX_TILE_HEIGHT)
    (hsize : size ≤ MAX_TREE_SIZE) (h : HasTile height size level index) :
    (treeTile height size level index).validate = (.ok () : Outcome (Error β) Unit) := by
  obtain ⟨hlh, hstart⟩ := h
  have hpos := Nat.two_pow_pos height
  have hrow : rowLen height size level ≤ 2 ^ (62 - level * height) := by
    rw [rowLen]
    refine Nat.div_le_of_le_mul ?_
    rwa [← pow_add, Nat.add_sub_cancel' hlh]
  simp only [Tile.validate, treeTile, Nat.shiftLeft_eq, one_mul]
  rw [if_neg (by omega), if_neg (by omega), if_neg (by omega)]

lemma rowLen_succ : rowLen height size (level + 1) = rowLen height size level / 2 ^ height := by
  rw [rowLen, rowLen, Nat.div_div_eq_div_mul, ← pow_add, Nat.add_mul, one_mul]

lemma isFull_treeTile (h30 : height ≤ MAX_TILE_HEIGHT) :
    (treeTile height size level index).isFull = true ↔
      (index + 1) * 2 ^ height ≤ rowLen height size level := by
  have hlt : 2 ^ height < 2 ^ 32 := Nat.pow_lt_pow_right (by omega) (by
    rw [MAX_TILE_HEIGHT] at h30
    omega)
  rw [MAX_TILE_HEIGHT] at h30
  have hpos := Nat.two_pow_pos height
  rw [Tile.isFull, Tile.fullWidth, treeTile]
  simp only [if_pos (show height < 64 by omega), if_pos hlt, beq_iff_eq, Option.some.injEq]
  rw [add_mul, one_mul]
  omega

lemma HasTile.parent (h30 : height ≤ MAX_TILE_HEIGHT) (hsize : size ≤ MAX_TREE_SIZE)
    (hfull : (treeTile height size level index).isFull = true) :
    HasTile height size (level + 1) (index / 2 ^ height) := by
  rw [isFull_treeTile h30] at hfull
  have hpos := Nat.two_pow_pos height
  have hrow : index + 1 ≤ rowLen height size (level + 1) := by
    rwa [rowLen_succ, Nat.le_div_iff_mul_le hpos]
  have hone : 2 ^ ((level + 1) * height) ≤ size := by
    rw [rowLen] at hrow
    exact (Nat.div_pos_iff.1 (by omega)).2
  refine ⟨?_, ?_⟩
  · exact (Nat.pow_le_pow_iff_right (by omega)).1 (hone.trans hsize)
  · have := Nat.div_mul_le_self index (2 ^ height)
    omega

lemma HasTile.edge (h30 : height ≤ MAX_TILE_HEIGHT) (h : HasTile height size level index)
    (hfull : (treeTile height size level index).isFull = false) :
    index = rowLen height size level / 2 ^ height ∧
      (treeTile height size level index).width = rowLen height size level % 2 ^ height ∧
      rowLen height size level % 2 ^ height ≠ 0 := by
  have hnot : ¬ (index + 1) * 2 ^ height ≤ rowLen height size level := by
    rw [← isFull_treeTile h30, hfull]
    simp
  have hpos := Nat.two_pow_pos height
  obtain ⟨-, hstart⟩ := h
  have hindex : index = rowLen height size level / 2 ^ height := by
    refine (Nat.div_eq_of_lt_le ?_ ?_).symm
    · omega
    · omega
  have hmod := Nat.div_add_mod (rowLen height size level) (2 ^ height)
  rw [← hindex, mul_comm] at hmod
  refine ⟨hindex, ?_, ?_⟩
  · simp only [treeTile]
    omega
  · omega

/-! ### The tile of a node -/

namespace Node

/-- The node lies inside a tree of `size` leaves. -/
def Inside (size : ℕ) (x : Node) : Prop := (x.index + 1) * 2 ^ x.level ≤ size

def sub (height : ℕ) (x : Node) : ℕ := x.level % height

def tileIndex (height : ℕ) (x : Node) : ℕ := x.index / 2 ^ (height - x.sub height)

/-- The number of the node among those of its level in its tile. -/
def within (height : ℕ) (x : Node) : ℕ := x.index % 2 ^ (height - x.sub height)

/-- The tile that a tree of `size` leaves has for the node. -/
def tile (height size : ℕ) (x : Node) : Tile :=
  treeTile height size (x.level / height) (x.tileIndex height)

/-- The node is there in a tree of `size` leaves that has its tile. -/
def Placed (height size : ℕ) (x : Node) : Prop :=
  HasTile height size (x.level / height) (x.tileIndex height)

variable {x : Node}

lemma sub_lt (h1 : 1 ≤ height) : x.sub height < height := Nat.mod_lt _ h1

lemma level_eq (height : ℕ) (x : Node) : x.level / height * height + x.sub height = x.level :=
  Nat.div_add_mod' _ _

lemma pow_height (h1 : 1 ≤ height) :
    2 ^ height = 2 ^ (height - x.sub height) * 2 ^ x.sub height := by
  have := sub_lt (x := x) h1
  rw [← pow_add]
  congr 1
  omega

lemma start_eq (h1 : 1 ≤ height) :
    x.tileIndex height * 2 ^ height + x.within height * 2 ^ x.sub height =
      x.index * 2 ^ x.sub height := by
  rw [pow_height (x := x) h1, ← mul_assoc, ← Nat.add_mul, tileIndex, within, Nat.div_add_mod']

lemma within_succ_le (h1 : 1 ≤ height) : (x.within height + 1) * 2 ^ x.sub height ≤ 2 ^ height := by
  rw [pow_height (x := x) h1]
  exact Nat.mul_le_mul_right _ (Nat.mod_lt _ (Nat.two_pow_pos _))

end Node

lemma nodeTile_eq (h1 : 1 ≤ height) (x : Node) :
    nodeTile height x =
      (⟨height, x.level / height, x.tileIndex height, (x.within height + 1) * 2 ^ x.sub height⟩,
        x.within height * 2 ^ x.sub height, (x.within height + 1) * 2 ^ x.sub height) := by
  have hsub : x.level - x.level / height * height = x.sub height := by
    have := x.level_eq height
    omega
  have hindex : x.index * 2 ^ x.sub height / 2 ^ height = x.tileIndex height := by
    rw [Node.pow_height (x := x) h1, Nat.mul_div_mul_right _ _ (Nat.two_pow_pos _), Node.tileIndex]
  have hwithin : x.index - x.tileIndex height * 2 ^ height / 2 ^ x.sub height =
      x.within height := by
    rw [Node.pow_height (x := x) h1, ← mul_assoc, Nat.mul_div_cancel _ (Nat.two_pow_pos _)]
    have := Nat.div_add_mod' x.index (2 ^ (height - x.sub height))
    rw [Node.tileIndex, Node.within]
    omega
  simp only [nodeTile, Nat.shiftLeft_eq, Nat.shiftRight_eq_div_pow, hsub, hindex, hwithin]

lemma Node.Inside.row {x : Node} (height : ℕ) (h : x.Inside size) :
    (x.index + 1) * 2 ^ x.sub height ≤ rowLen height size (x.level / height) := by
  rw [rowLen, Nat.le_div_iff_mul_le (Nat.two_pow_pos _), mul_assoc, ← pow_add,
    Nat.add_comm (x.sub height), x.level_eq]
  exact h

lemma Node.Inside.placed {x : Node} (h1 : 1 ≤ height) (hsize : size ≤ MAX_TREE_SIZE)
    (h : x.Inside size) :
    x.Placed height size ∧ (x.within height + 1) * 2 ^ x.sub height ≤
      (x.tile height size).width := by
  have hrow := h.row height
  have hstart := x.start_eq h1
  have hle := x.within_succ_le h1
  have hpos := Nat.two_pow_pos (x.sub height)
  rw [Nat.add_mul, one_mul] at hrow hle
  rw [Node.Placed, Node.tile, treeTile, HasTile, Nat.add_mul, one_mul]
  dsimp only
  refine ⟨⟨?_, by omega⟩, by omega⟩
  have hlevel : 2 ^ x.level ≤ 2 ^ 62 := by
    have : 2 ^ x.level ≤ (x.index + 1) * 2 ^ x.level := Nat.le_mul_of_pos_left _ (by omega)
    exact this.trans (Nat.le_trans h hsize)
  have := (Nat.pow_le_pow_iff_right (a := 2) (by omega)).1 hlevel
  have := x.level_eq height
  omega

/-! ### The maximal perfect subtrees -/

lemma div_pow_succ_mul (size n : ℕ) :
    size / 2 ^ (n + 1) * 2 ^ (n + 1) + size / 2 ^ n % 2 * 2 ^ n = size / 2 ^ n * 2 ^ n := by
  have hdiv : size / 2 ^ (n + 1) = size / 2 ^ n / 2 := by
    rw [Nat.div_div_eq_div_mul, pow_succ]
  rw [hdiv, pow_succ, mul_comm (2 ^ n) 2, ← mul_assoc, ← Nat.add_mul, Nat.div_add_mod']

lemma mem_subtreesBelow (size n : ℕ) {x : Node} :
    x ∈ subtreesBelow size n (size / 2 ^ n * 2 ^ n) ↔
      x.level < n ∧ size / 2 ^ x.level % 2 = 1 ∧ x.index + 1 = size / 2 ^ x.level := by
  induction n with
  | zero => simp [subtreesBelow]
  | succ n ih =>
    have hdiv := div_pow_succ_mul size n
    rw [subtreesBelow, Nat.shiftRight_eq_div_pow, Nat.and_one_is_mod]
    by_cases hbit : size / 2 ^ n % 2 = 1
    · rw [hbit, one_mul] at hdiv
      have hindex : (size / 2 ^ (n + 1) * 2 ^ (n + 1)) / 2 ^ n + 1 = size / 2 ^ n := by
        rw [← Nat.add_div_right _ (Nat.two_pow_pos n), hdiv,
          Nat.mul_div_cancel _ (Nat.two_pow_pos n)]
      rw [if_pos hbit, Nat.shiftLeft_eq, one_mul, hdiv, mem_cons, ih, Nat.shiftRight_eq_div_pow]
      constructor
      · rintro (rfl | ⟨h1, h2, h3⟩)
        · exact ⟨Nat.lt_succ_self n, hbit, hindex⟩
        · exact ⟨by omega, h2, h3⟩
      · rintro ⟨h1, h2, h3⟩
        rcases Nat.lt_succ_iff_lt_or_eq.1 h1 with h | h
        · exact Or.inr ⟨h, h2, h3⟩
        · refine Or.inl ?_
          rcases x with ⟨level, index⟩
          dsimp only at h h3
          subst h
          rw [Node.mk.injEq]
          exact ⟨rfl, by omega⟩
    · have hzero : size / 2 ^ n % 2 = 0 := by omega
      rw [hzero, zero_mul, Nat.add_zero] at hdiv
      rw [if_neg hbit, hdiv, ih]
      constructor
      · rintro ⟨h1, h2, h3⟩
        exact ⟨by omega, h2, h3⟩
      · rintro ⟨h1, h2, h3⟩
        refine ⟨?_, h2, h3⟩
        rcases Nat.lt_succ_iff_lt_or_eq.1 h1 with h | h
        · exact h
        · rw [h] at h2
          omega

lemma mem_subtrees (hsize : size ≤ MAX_TREE_SIZE) {x : Node} :
    x ∈ subtrees size ↔ size / 2 ^ x.level % 2 = 1 ∧ x.index + 1 = size / 2 ^ x.level := by
  have hlt : size < 2 ^ 63 := Nat.lt_of_le_of_lt hsize (by rw [MAX_TREE_SIZE]; norm_num)
  have := mem_subtreesBelow size 63 (x := x)
  rw [Nat.div_eq_of_lt hlt, zero_mul] at this
  rw [subtrees, this]
  constructor
  · exact fun h => h.2
  · refine fun h => ⟨?_, h⟩
    by_contra hge
    have : size < 2 ^ x.level := Nat.lt_of_lt_of_le hlt (Nat.pow_le_pow_right (by omega) (by omega))
    rw [Nat.div_eq_of_lt this] at h
    omega

lemma inside_of_mem_subtrees (hsize : size ≤ MAX_TREE_SIZE) {x : Node} (h : x ∈ subtrees size) :
    x.Inside size := by
  rw [Node.Inside, ((mem_subtrees hsize).1 h).2]
  exact Nat.div_mul_le_self _ _

lemma subtreesBelow_eq_nil (n pos : ℕ) : subtreesBelow size n pos = [] ↔ size % 2 ^ n = 0 := by
  induction n generalizing pos with
  | zero => simp [subtreesBelow, Nat.mod_one]
  | succ n ih =>
    have hmod : size % 2 ^ (n + 1) = size % 2 ^ n + 2 ^ n * (size / 2 ^ n % 2) := by
      rw [pow_succ, Nat.mod_mul]
    have hpos := Nat.two_pow_pos n
    rw [subtreesBelow, Nat.shiftRight_eq_div_pow, Nat.and_one_is_mod, hmod]
    by_cases hbit : size / 2 ^ n % 2 = 1
    · rw [if_pos hbit, hbit]
      simp only [reduceCtorEq, false_iff]
      omega
    · rw [if_neg hbit, ih, show size / 2 ^ n % 2 = 0 by omega, mul_zero, add_zero]

lemma spine_subtreesBelow {α : Type*} (node : α → α → α) (empty : α) (xs : List α) (n : ℕ) :
    spine node empty ((subtreesBelow xs.length n (xs.length / 2 ^ n * 2 ^ n)).map
      (fun x => nodeAt node empty xs x.level x.index)) =
      mth node empty (xs.drop (xs.length / 2 ^ n * 2 ^ n)) := by
  induction n with
  | zero => simp [subtreesBelow, spine]
  | succ n ih =>
    have hdiv := div_pow_succ_mul xs.length n
    have hmod := Nat.div_add_mod' xs.length (2 ^ n)
    rw [subtreesBelow, Nat.shiftRight_eq_div_pow, Nat.and_one_is_mod]
    by_cases hbit : xs.length / 2 ^ n % 2 = 1
    · rw [hbit, one_mul] at hdiv
      rw [if_pos hbit, Nat.shiftLeft_eq, one_mul, hdiv, map_cons, Nat.shiftRight_eq_div_pow]
      generalize hpos : xs.length / 2 ^ (n + 1) * 2 ^ (n + 1) = pos at hdiv ⊢
      have halign : pos / 2 ^ n * 2 ^ n = pos := by
        rw [← hpos, pow_succ, mul_comm (2 ^ n) 2, ← mul_assoc,
          Nat.mul_div_cancel _ (Nat.two_pow_pos n)]
      have hhead : nodeAt node empty xs n (pos / 2 ^ n) =
          mth node empty ((xs.drop pos).take (2 ^ n)) := by
        rw [nodeAt, halign]
      rw [hhead]
      by_cases hrest : xs.length % 2 ^ n = 0
      · -- the subtree is the rest of the tree
        rw [(subtreesBelow_eq_nil _ _).2 hrest, map_nil, spine, take_of_length_le]
        rw [length_drop]
        omega
      · have hne : (subtreesBelow xs.length n (xs.length / 2 ^ n * 2 ^ n)).map
            (fun x => nodeAt node empty xs x.level x.index) ≠ [] := by
          rw [Ne, map_eq_nil_iff, subtreesBelow_eq_nil]
          exact hrest
        rw [spine_cons hne, ih, ← hdiv, ← drop_drop]
        refine (mth_split ?_ ?_).symm
        · rw [length_drop]
          omega
        · rw [length_drop, pow_succ]
          omega
    · have hzero : xs.length / 2 ^ n % 2 = 0 := by omega
      rw [hzero, zero_mul, Nat.add_zero] at hdiv
      rw [if_neg hbit, hdiv, ih]

lemma spine_subtrees {α : Type*} (node : α → α → α) (empty : α) (xs : List α)
    (hsize : xs.length ≤ MAX_TREE_SIZE) :
    spine node empty ((subtrees xs.length).map (fun x => nodeAt node empty xs x.level x.index)) =
      mth node empty xs := by
  have hlt : xs.length < 2 ^ 63 := Nat.lt_of_le_of_lt hsize (by rw [MAX_TREE_SIZE]; norm_num)
  have := spine_subtreesBelow node empty xs 63
  rwa [Nat.div_eq_of_lt hlt, zero_mul, drop_zero] at this

lemma foldSubtrees_eq (H : Hashing β) (hashes : List (Hash β)) :
    foldSubtrees H hashes = spine H.nodeHash H.EMPTY_ROOT hashes := by
  have hfold : ∀ (ys : List (Hash β)) (h : Hash β),
      spine H.nodeHash H.EMPTY_ROOT (ys ++ [h]) = ys.foldr H.nodeHash h := by
    intro ys h
    induction ys with
    | nil => rfl
    | cons y ys ih => rw [cons_append, spine_cons (by simp), ih, foldr_cons]
  rcases eq_nil_or_concat hashes with rfl | ⟨ys, h, rfl⟩
  · rfl
  · rw [concat_eq_append, hfold, foldSubtrees, reverse_append, reverse_singleton, singleton_append]
    dsimp only
    rw [foldl_reverse]

/-! ### The right edge -/

lemma exists_bit {j w : ℕ} (h : j < w) : ∃ l, w / 2 ^ l % 2 = 1 ∧ j / 2 ^ l + 1 = w / 2 ^ l := by
  induction w using Nat.strong_induction_on generalizing j with
  | _ w ih =>
    by_cases hhalf : j / 2 < w / 2
    · obtain ⟨l, h1, h2⟩ := ih (w / 2) (by omega) hhalf
      refine ⟨l + 1, ?_, ?_⟩
      · rwa [pow_succ', ← Nat.div_div_eq_div_mul]
      · rwa [pow_succ', ← Nat.div_div_eq_div_mul, ← Nat.div_div_eq_div_mul]
    · refine ⟨0, ?_, ?_⟩
      · rw [pow_zero, Nat.div_one]
        omega
      · rw [pow_zero, Nat.div_one, Nat.div_one]
        omega

lemma rowLen_div_sub (x : Node) :
    rowLen height size (x.level / height) / 2 ^ x.sub height = size / 2 ^ x.level := by
  rw [rowLen, Nat.div_div_eq_div_mul, ← pow_add, x.level_eq]

lemma isFull_of_mem_subtrees (h1 : 1 ≤ height) (h30 : height ≤ MAX_TILE_HEIGHT)
    (hsize : size ≤ MAX_TREE_SIZE) {x : Node} (h : x ∈ subtrees size) :
    (x.tile height size).isFull = false := by
  obtain ⟨hbit, hindex⟩ := (mem_subtrees hsize).1 h
  rw [Bool.eq_false_iff, Ne, Node.tile, isFull_treeTile h30, Node.tileIndex, Nat.not_le]
  have hsub := x.sub_lt h1
  -- an odd number and the one before it have the same half
  have hhalf : x.index / 2 ^ (height - x.sub height) =
      rowLen height size (x.level / height) / 2 ^ height := by
    have hpow : height = x.sub height + (height - x.sub height) := by omega
    rw [hpow, pow_add, ← Nat.div_div_eq_div_mul, ← hpow, rowLen_div_sub, ← hindex]
    obtain ⟨r, hr⟩ : ∃ r, height - x.sub height = r + 1 := ⟨height - x.sub height - 1, by omega⟩
    rw [hr, pow_succ', ← Nat.div_div_eq_div_mul, ← Nat.div_div_eq_div_mul]
    congr 1
    omega
  rw [hhalf]
  have := Nat.div_add_mod' (rowLen height size (x.level / height)) (2 ^ height)
  rw [add_mul, one_mul]
  omega

lemma exists_mem_subtrees (h30 : height ≤ MAX_TILE_HEIGHT)
    (hsize : size ≤ MAX_TREE_SIZE) (h : HasTile height size level index)
    (hfull : (treeTile height size level index).isFull = false) {j : ℕ}
    (hj : j < (treeTile height size level index).width) :
    ∃ x ∈ subtrees size, x.level / height = level ∧ x.tileIndex height = index ∧
      x.within height = j / 2 ^ x.sub height := by
  obtain ⟨hindex, hwidth, hne⟩ := h.edge h30 hfull
  set m := rowLen height size level with hm
  rw [hwidth] at hj
  obtain ⟨l, hbit, hblock⟩ := exists_bit hj
  have hlt : m % 2 ^ height < 2 ^ height := Nat.mod_lt _ (Nat.two_pow_pos _)
  have hl : l < height := by
    by_contra hge
    have : m % 2 ^ height < 2 ^ l :=
      Nat.lt_of_lt_of_le hlt (Nat.pow_le_pow_right (by omega) (by omega))
    rw [Nat.div_eq_of_lt this] at hbit
    omega
  obtain ⟨r, hr⟩ : ∃ r, height = l + (r + 1) := ⟨height - l - 1, by omega⟩
  -- the bits of the row below the height of the tile are those of its width
  have hdiv : m / 2 ^ l = m / 2 ^ height * 2 ^ (r + 1) + m % 2 ^ height / 2 ^ l := by
    have hpow : 2 ^ height = 2 ^ l * 2 ^ (r + 1) := by rw [hr, pow_add]
    conv_lhs => rw [← Nat.div_add_mod' m (2 ^ height)]
    rw [add_comm, hpow, mul_comm (2 ^ l), ← mul_assoc,
      Nat.add_mul_div_right _ _ (Nat.two_pow_pos l), Nat.add_comm]
  have hsmall : j / 2 ^ l + 1 ≤ 2 ^ (r + 1) := by
    rw [hblock, Nat.div_le_iff_le_mul_add_pred (Nat.two_pow_pos l), mul_comm, ← pow_add,
      add_comm (r + 1), ← hr]
    omega
  have hlevel : (level * height + l) / height = level := by
    rw [mul_comm, Nat.mul_add_div (by omega), Nat.div_eq_of_lt hl, Nat.add_zero]
  have hsub : (level * height + l) % height = l := by
    rw [mul_comm, Nat.mul_add_mod, Nat.mod_eq_of_lt hl]
  have hrow : size / 2 ^ (level * height + l) = m / 2 ^ l := by
    rw [hm, rowLen, Nat.div_div_eq_div_mul, ← pow_add]
  refine ⟨⟨level * height + l, m / 2 ^ height * 2 ^ (r + 1) + j / 2 ^ l⟩, ?_, hlevel, ?_, ?_⟩
  · rw [mem_subtrees hsize]
    dsimp only
    rw [hrow, hdiv, ← hblock]
    refine ⟨?_, by omega⟩
    rw [pow_succ, ← mul_assoc, Nat.add_comm, Nat.add_mul_mod_self_right, hblock]
    exact hbit
  · rw [Node.tileIndex, Node.sub]
    dsimp only
    rw [hsub, hr, Nat.add_sub_cancel_left, ← hr, Nat.add_comm,
      Nat.add_mul_div_right _ _ (Nat.two_pow_pos _), Nat.div_eq_of_lt (by omega), Nat.zero_add,
      hindex]
  · rw [Node.within, Node.sub]
    dsimp only
    rw [hsub, show height - l = r + 1 by omega, Nat.add_comm, Nat.add_mul_mod_self_right,
      Nat.mod_eq_of_lt (by omega)]

end Lazaret.Tlog
