import Lazaret.Tlog.Plan

/-!
# Reading nodes from untrusted tiles

`read_nodes` (`tlog.rs`) hands out hashes of a tree from tile data after checking every tile it
used: the tiles on the right edge must hash to the root of the tree head, and each other tile to
the entry that the tile above has for it.  With an injective node hash that makes every tile that
passes the log's own (`Authentic`), whoever sent it.
-/

namespace Lazaret.Tlog

open Merkle List Outcome BTreeMap

variable {β : Type}

/-- The bytes `start..stop`; out of bounds a slice panics. -/
def slice (data : List β) (start stop : ℕ) : Option (List β) :=
  if start ≤ stop ∧ stop ≤ data.length then some ((data.drop start).take (stop - start)) else none

/-- The hash of `node`, from tile `t` with data `data`. -/
def hashFromTile (H : Hashing β) (t : Tile) (data : List β) (node : Node) :
    Outcome (Error β) (Hash β) := do
  t.validate
  if data.length < t.dataLen then .err (.Invalid "tile data is too short")
  else
    let (need, start, stop) := nodeTile t.height node
    if t.level ≠ need.level ∨ t.index ≠ need.index ∨ t.width < need.width then
      .err (.Invalid "the node is not in this tile")
    else do
      let entries ← Outcome.orFault (slice data (start * HASH_SIZE) (stop * HASH_SIZE))
      subtreeHash H entries

def fetch (tiles : TileSet β) (t : Tile) : Outcome (Error β) (List β) := do
  let d ← Outcome.okOr (tiles.get t) (.MissingTile t)
  if d.length ≠ t.dataLen then .err (.Invalid "tile data is not width * 32 bytes") else .ok d

/-- The hash of the node `e.1` from the planned tile at the position `e.2`. -/
def hashAt (H : Hashing β) (p : Plan) (data : List (List β)) (e : Node × ℕ) :
    Outcome (Error β) (Hash β) := do
  let t ← Outcome.orFault p.tiles[e.2]?
  let d ← Outcome.orFault data[e.2]?
  hashFromTile H t d e.1

def positions (tiles : List Tile) : BTreeMap Tile ℕ :=
  tiles.zipIdx.foldl (fun m e => m.insert e.1 e.2) BTreeMap.empty

/-- Checks the tile at position `i` against the entry that the tile above has for it. -/
def checkParent [DecidableEq β] (H : Hashing β) (size height : ℕ) (p : Plan)
    (data : List (List β)) (i : ℕ) : Outcome (Error β) PUnit := do
  let t ← Outcome.orFault p.tiles[i]?
  let parent ← Outcome.okOr (tileAncestor t 1 size) (.Invalid "no parent tile")
  let pj ← Outcome.okOr (((positions p.tiles).get parent).filter (fun pj => pj < i))
    (.Invalid "a tile was planned before its parent")
  let dp ← Outcome.orFault data[pj]?
  let entry ← hashFromTile H parent dp ⟨parent.level * height, t.index⟩
  let d ← Outcome.orFault data[i]?
  let own ← subtreeHash H d
  if entry ≠ own then .err (.TileDoesNotMatchParent t) else .ok ⟨⟩

/-- Reads the hashes of `nodes` from tile data, after checking every tile that is used. -/
def readNodes [DecidableEq β] (H : Hashing β) (tree : Tree β) (height : ℕ) (nodes : List Node)
    (tiles : TileSet β) : Outcome (Error β) (List (Hash β)) := do
  let p ← plan tree height nodes
  let data ← p.tiles.mapM (fetch tiles)
  if p.edge.isEmpty then .ok []
  else do
    let edge_hashes ← p.edge.mapM (hashAt H p data)
    if foldSubtrees H edge_hashes ≠ tree.root then .err .TilesDoNotMatchRoot
    else do
      (List.range' p.edge_tiles (p.tiles.length - p.edge_tiles)).forM
        (checkParent H tree.size height p data)
      (nodes.zip p.node_tile).mapM (hashAt H p data)

/-- Checks that record number `index` of the log has the hash `leaf`. -/
def checkRecord [DecidableEq β] (H : Hashing β) (tree : Tree β) (height index : ℕ)
    (leaf : Hash β) (tiles : TileSet β) : Outcome (Error β) Unit :=
  if index ≥ tree.size then .err (.Invalid "record index is not inside the tree")
  else do
    let got ← readNodes H tree height [⟨0, index⟩] tiles
    if got.head? = some leaf then .ok () else .err .RecordMismatch

/-- The root that the tiles of `newer` give for a tree of the size of `older`. -/
def olderRoot [DecidableEq β] (H : Hashing β) (older newer : Tree β) (height : ℕ)
    (tiles : TileSet β) : Outcome (Error β) (Hash β) :=
  if older.size = 0 then .ok H.EMPTY_ROOT
  else if older.size = newer.size then .ok newer.root
  else do
    let hashes ← readNodes H newer height (subtrees older.size) tiles
    .ok (foldSubtrees H hashes)

/-- Checks that the tree `older` is a start of `newer`. -/
def checkPrefix [DecidableEq β] (H : Hashing β) (older newer : Tree β) (height : ℕ)
    (tiles : TileSet β) : Outcome (Error β) Unit :=
  if newer.size > MAX_TREE_SIZE then .err (.Invalid "tree is larger than 2^62 leaves")
  else if older.size > newer.size then
    .err (.Invalid "the older tree is larger than the newer one")
  else do
    let computed ← olderRoot H older newer height tiles
    if computed ≠ older.root then .err (.Fork older.size older.root computed) else .ok ()

/-! ### The entries of tile data -/

/-- The `j`-th hash of tile data (the root of the empty tree where the data ends before it). -/
def entryAt (H : Hashing β) (data : List β) (j : ℕ) : Hash β :=
  if h : ((data.drop (j * HASH_SIZE)).take HASH_SIZE).length = HASH_SIZE then ⟨_, h⟩
  else H.EMPTY_ROOT

section Entries

variable {H : Hashing β} {data : List β}

lemma entryAt_drop (n j : ℕ) :
    entryAt H (data.drop (n * HASH_SIZE)) j = entryAt H data (n + j) := by
  simp only [entryAt, drop_drop, add_mul]

lemma entryAt_take {n j : ℕ} (h : j < n) :
    entryAt H (data.take (n * HASH_SIZE)) j = entryAt H data j := by
  have hle : HASH_SIZE ≤ n * HASH_SIZE - j * HASH_SIZE := by
    rw [← Nat.sub_mul]
    exact Nat.le_mul_of_pos_left _ (by omega)
  simp only [entryAt, drop_take, take_take, min_eq_left hle]

lemma subtreeHash_eq {b : ℕ} (h : data.length = 2 ^ b * HASH_SIZE) :
    subtreeHash H data = (.ok (perfect H.nodeHash b (entryAt H data) 0) : Outcome (Error β) _) := by
  induction b generalizing data with
  | zero =>
    have h32 : data.length = HASH_SIZE := by simpa using h
    have hentry : entryAt H data 0 = ⟨data, h32⟩ := by
      have htake : (data.drop (0 * HASH_SIZE)).take HASH_SIZE = data := by
        rw [zero_mul, drop_zero, take_of_length_le h32.le]
      rw [entryAt, dif_pos (by rw [htake, h32])]
      exact Subtype.ext htake
    rw [subtreeHash, dif_pos h32, perfect, hentry]
  | succ b ih =>
    have hhalf : 2 ^ (b + 1) * HASH_SIZE = 2 ^ b * HASH_SIZE + 2 ^ b * HASH_SIZE := by ring
    have hpos : HASH_SIZE ≤ 2 ^ b * HASH_SIZE := Nat.le_mul_of_pos_left _ (Nat.two_pow_pos b)
    have h32 : HASH_SIZE = 32 := rfl
    have hmid : data.length / 2 = 2 ^ b * HASH_SIZE := by omega
    rw [subtreeHash, dif_neg (by omega), dif_neg (by omega)]
    dsimp only
    rw [hmid, ih (by rw [length_take, h]; omega), ih (by rw [length_drop, h]; omega),
      ok_bind, ok_bind, perfect]
    congr 2
    · refine perfect_congr fun j hj => ?_
      rw [zero_mul, zero_add, mul_zero, zero_mul, zero_add, entryAt_take hj]
    · refine perfect_congr fun j _ => ?_
      rw [zero_mul, zero_add, mul_zero, zero_add, one_mul, entryAt_drop]

lemma hashFromTile_eq {height size : ℕ} {x : Node} (h1 : 1 ≤ height)
    (h30 : height ≤ MAX_TILE_HEIGHT) (hsize : size ≤ MAX_TREE_SIZE) (hx : x.Inside size)
    (hdata : data.length = (x.tile height size).dataLen) :
    hashFromTile H (x.tile height size) data x =
      .ok (perfect H.nodeHash (x.sub height) (entryAt H data) (x.within height)) := by
  obtain ⟨hplaced, hwidth⟩ := hx.placed h1 hsize
  have hstop : (x.within height + 1) * 2 ^ x.sub height * HASH_SIZE ≤ data.length := by
    rw [hdata, Tile.dataLen]
    exact Nat.mul_le_mul_right _ hwidth
  have hle : x.within height * 2 ^ x.sub height * HASH_SIZE ≤
      (x.within height + 1) * 2 ^ x.sub height * HASH_SIZE :=
    Nat.mul_le_mul_right _ (Nat.mul_le_mul_right _ (by omega))
  have hdiff : (x.within height + 1) * 2 ^ x.sub height * HASH_SIZE -
      x.within height * 2 ^ x.sub height * HASH_SIZE = 2 ^ x.sub height * HASH_SIZE := by
    rw [← Nat.sub_mul, ← Nat.sub_mul, Nat.add_sub_cancel_left, one_mul]
  have hvalid : (x.tile height size).validate = (.ok () : Outcome (Error β) Unit) :=
    validate_treeTile h1 h30 hsize hplaced
  rw [hashFromTile, hvalid, ok_bind, if_neg (by omega),
    show (x.tile height size).height = height from rfl, nodeTile_eq h1]
  dsimp only
  rw [if_neg (by simp only [Node.tile, treeTile] at hwidth ⊢; omega), slice, if_pos ⟨hle, hstop⟩,
    hdiff, orFault_some, ok_bind, subtreeHash_eq]
  · congr 1
    refine perfect_congr fun j hj => ?_
    rw [zero_mul, zero_add, entryAt_take hj, entryAt_drop]
  · rw [length_take, length_drop]
    omega

end Entries

/-! ### Authentic tiles -/

section Authentic

variable {H : Hashing β} {L : List (Hash β)} {t : Tile} {data : List β}

/-- The hash of the perfect subtree `x` of the log `L`. -/
def trueHash (H : Hashing β) (L : List (Hash β)) (x : Node) : Hash β :=
  nodeAt H.nodeHash H.EMPTY_ROOT L x.level x.index

def trueRoot (H : Hashing β) (L : List (Hash β)) : Hash β := mth H.nodeHash H.EMPTY_ROOT L

/-- The entries of the data are the hashes of the log at the tile's place. -/
def Authentic (H : Hashing β) (L : List (Hash β)) (t : Tile) (data : List β) : Prop :=
  ∀ j < t.width, entryAt H data j =
    nodeAt H.nodeHash H.EMPTY_ROOT L (t.level * t.height) (t.index * 2 ^ t.height + j)

lemma trueHash_eq_perfect (height : ℕ) {x : Node} (hx : x.Inside L.length) :
    trueHash H L x = perfect H.nodeHash (x.sub height)
      (nodeAt H.nodeHash H.EMPTY_ROOT L (x.level / height * height)) x.index := by
  rw [trueHash, ← nodeAt_add, x.level_eq]
  rw [x.level_eq]
  exact hx

lemma Authentic.hash {height : ℕ} {x : Node} (h1 : 1 ≤ height) (hsize : L.length ≤ MAX_TREE_SIZE)
    (hx : x.Inside L.length) (h : Authentic H L (x.tile height L.length) data) :
    perfect H.nodeHash (x.sub height) (entryAt H data) (x.within height) = trueHash H L x := by
  rw [trueHash_eq_perfect height hx]
  refine perfect_congr fun j hj => ?_
  have hwidth := (hx.placed h1 hsize).2
  rw [add_mul, one_mul] at hwidth
  rw [h _ (by omega)]
  simp only [Node.tile, treeTile]
  rw [← add_assoc, x.start_eq h1]

lemma entry_of_hash (hinj : Function.Injective2 H.nodeHash) {height : ℕ} {x : Node}
    (h1 : 1 ≤ height) (hx : x.Inside L.length)
    (h : perfect H.nodeHash (x.sub height) (entryAt H data) (x.within height) = trueHash H L x)
    {j : ℕ} (hj : j < 2 ^ x.sub height) :
    entryAt H data (x.within height * 2 ^ x.sub height + j) =
      nodeAt H.nodeHash H.EMPTY_ROOT L (x.level / height * height)
        (x.tileIndex height * 2 ^ height + (x.within height * 2 ^ x.sub height + j)) := by
  rw [trueHash_eq_perfect height hx] at h
  rw [perfect_inj hinj h j hj, ← add_assoc, x.start_eq h1]

/-- The node that stands for a whole tile in the tile above it. -/
def Tile.root (height : ℕ) (t : Tile) : Node := ⟨(t.level + 1) * height, t.index⟩

variable {height : ℕ}

lemma Tile.tile_root (h1 : 1 ≤ height) (size : ℕ) :
    (t.root height).tile height size = t.parent height size := by
  simp only [Node.tile, Tile.root, Tile.parent, Node.tileIndex, Node.sub]
  rw [Nat.mul_mod_left, Nat.sub_zero, Nat.mul_div_cancel _ h1]

lemma IsTile.inside_root {size : ℕ} (h30 : height ≤ MAX_TILE_HEIGHT) (ht : IsTile height size t)
    (hfull : t.isFull = true) : (t.root height).Inside size := by
  rw [ht.2, isFull_treeTile h30, ← Nat.le_div_iff_mul_le (Nat.two_pow_pos _), ← rowLen_succ,
    rowLen, Nat.le_div_iff_mul_le (Nat.two_pow_pos _)] at hfull
  exact hfull

lemma IsTile.tileAncestor_one {size : ℕ} (h1 : 1 ≤ height) (h30 : height ≤ MAX_TILE_HEIGHT)
    (hsize : size ≤ MAX_TREE_SIZE) (ht : IsTile height size t) (hfull : t.isFull = true) :
    tileAncestor t 1 size = some (t.parent height size) := by
  have hheight : t.height = height := by rw [ht.2]; rfl
  have hhas : HasTile height size (t.level + 1) (t.index / 2 ^ height) :=
    HasTile.parent h30 hsize (by rwa [← ht.2])
  have hlevel : t.level + 1 ≤ 62 := (Nat.le_mul_of_pos_right _ h1).trans hhas.1
  rw [Tile.parent, tileAncestor_eq _ (by omega), hheight, one_mul, if_pos hhas]

lemma IsTile.width_of_full {size : ℕ} (h30 : height ≤ MAX_TILE_HEIGHT) (ht : IsTile height size t)
    (hfull : t.isFull = true) : t.width = 2 ^ height := by
  rw [ht.2, isFull_treeTile h30, add_mul, one_mul] at hfull
  rw [ht.2]
  simp only [treeTile]
  omega

lemma trueHash_root (hroot : (t.root height).Inside L.length) :
    trueHash H L (t.root height) =
      perfect H.nodeHash height (nodeAt H.nodeHash H.EMPTY_ROOT L (t.level * height)) t.index := by
  rw [trueHash, ← nodeAt_add]
  · rw [Tile.root]
    dsimp only
    rw [add_mul, one_mul]
  · rw [← Nat.succ_mul]
    exact hroot

lemma Authentic.perfect_eq (h30 : height ≤ MAX_TILE_HEIGHT) (ht : IsTile height L.length t)
    (hfull : t.isFull = true) (h : Authentic H L t data) :
    perfect H.nodeHash height (entryAt H data) 0 = trueHash H L (t.root height) := by
  have hheight : t.height = height := by rw [ht.2]; rfl
  rw [Authentic, ht.width_of_full h30 hfull, hheight] at h
  rw [trueHash_root (ht.inside_root h30 hfull)]
  refine perfect_congr fun j hj => ?_
  rw [zero_mul, zero_add, h j hj]

lemma authentic_of_perfect_eq (hinj : Function.Injective2 H.nodeHash)
    (h30 : height ≤ MAX_TILE_HEIGHT) (ht : IsTile height L.length t) (hfull : t.isFull = true)
    (h : perfect H.nodeHash height (entryAt H data) 0 = trueHash H L (t.root height)) :
    Authentic H L t data := by
  have hheight : t.height = height := by rw [ht.2]; rfl
  rw [trueHash_root (ht.inside_root h30 hfull)] at h
  rw [Authentic, ht.width_of_full h30 hfull, hheight]
  intro j hj
  have := perfect_inj hinj h j hj
  rwa [zero_mul, zero_add] at this

end Authentic

/-! ### What a read checks -/

section Checks

variable {H : Hashing β} {p : Plan} {data : List (List β)} {height size : ℕ} {nodes : List Node}

lemma fetch_eq_ok {tiles : TileSet β} {t : Tile} {d : List β} :
    fetch tiles t = .ok d ↔ tiles.get t = some d ∧ d.length = t.dataLen := by
  rw [fetch, bind_eq_ok]
  simp only [okOr_eq_ok]
  constructor
  · rintro ⟨d', hget, h⟩
    split_ifs at h with hlen
    cases h
    exact ⟨hget, by omega⟩
  · rintro ⟨hget, hlen⟩
    exact ⟨d, hget, if_neg (by omega)⟩

/-- There is data of the right length for each planned tile. -/
def Fetched (p : Plan) (data : List (List β)) : Prop :=
  List.Forall₂ (fun t d => d.length = t.dataLen) p.tiles data

lemma positions_get {tiles : List Tile} (h : tiles.Nodup) {t : Tile} {i : ℕ} :
    (positions tiles).get t = some i ↔ tiles[i]? = some t := by
  rw [get_eq_some, positions, mem_foldl_insert (by rwa [zipIdx_map_fst])]
  simp only [not_mem_empty, false_and, or_false]
  exact mk_mem_zipIdx_iff_getElem?

lemma hashAt_eq (h1 : 1 ≤ height) (h30 : height ≤ MAX_TILE_HEIGHT) (hsize : size ≤ MAX_TREE_SIZE)
    (hdata : Fetched p data) {x : Node} (hx : x.Inside size) {pos : ℕ}
    (hpos : p.tiles[pos]? = some (x.tile height size)) :
    ∃ d, data[pos]? = some d ∧ hashAt H p data (x, pos) =
      .ok (perfect H.nodeHash (x.sub height) (entryAt H d) (x.within height)) := by
  obtain ⟨d, hd, hlen⟩ := forall₂_getElem? hdata hpos
  refine ⟨d, hd, ?_⟩
  rw [hashAt]
  dsimp only
  rw [hpos, hd, orFault_some, orFault_some, ok_bind, ok_bind, hashFromTile_eq h1 h30 hsize hx hlen]

lemma checkParent_eq [DecidableEq β] (h1 : 1 ≤ height) (h30 : height ≤ MAX_TILE_HEIGHT)
    (hsize : size ≤ MAX_TREE_SIZE) (hp : PlanOk height size nodes p) (hdata : Fetched p data)
    {i : ℕ} (hi : p.edge_tiles ≤ i) {t : Tile} (ht : p.tiles[i]? = some t) :
    ∃ j < i, p.tiles[j]? = some ((t.root height).tile height size) ∧
      ∃ dp d, data[j]? = some dp ∧ data[i]? = some d ∧
        checkParent H size height p data i =
          if perfect H.nodeHash ((t.root height).sub height) (entryAt H dp)
              ((t.root height).within height) ≠ perfect H.nodeHash height (entryAt H d) 0 then
            .err (.TileDoesNotMatchParent t)
          else .ok ⟨⟩ := by
  obtain ⟨hfull, j, hj, hparent⟩ := hp.parents i hi t ht
  have hisTile := hp.isTile t (mem_of_getElem? ht)
  have hroot := hisTile.inside_root h30 hfull
  rw [← Tile.tile_root h1] at hparent
  obtain ⟨dp, hdp, hlenp⟩ := forall₂_getElem? hdata hparent
  obtain ⟨d, hd, hlen⟩ := forall₂_getElem? hdata ht
  refine ⟨j, hj, hparent, dp, d, hdp, hd, ?_⟩
  have hancestor : tileAncestor t 1 size = some ((t.root height).tile height size) := by
    rw [Tile.tile_root h1]
    exact hisTile.tileAncestor_one h1 h30 hsize hfull
  have hposition : ((positions p.tiles).get ((t.root height).tile height size)).filter
      (fun pj => pj < i) = some j := by
    rw [(positions_get hp.nodup).2 hparent]
    simp [hj]
  have hentry : (⟨((t.root height).tile height size).level * height, t.index⟩ : Node) =
      t.root height := by
    simp only [Node.tile, treeTile, Tile.root]
    rw [Nat.mul_div_cancel _ h1]
  have hown : d.length = 2 ^ height * HASH_SIZE := by
    rw [hlen, Tile.dataLen, hisTile.width_of_full h30 hfull]
  simp only [checkParent, ht, orFault_some, ok_bind, hancestor, okOr_some,
    hposition, hdp, hentry, hashFromTile_eq h1 h30 hsize hroot hlenp, hd, subtreeHash_eq hown]

end Checks

end Lazaret.Tlog
