import Lazaret.Tlog.Read
import Mathlib.Data.Nat.Pairing

/-!
# Tile authentication is sound and complete

Whatever data a server sends, the hashes that `read_nodes` returns are those of the log behind the
tree head: the right-edge tiles are pinned by the root, every other tile by its entry in a tile
planned before it (`authentic_of_checks`).  The log's own data is accepted for every list of nodes.
-/

namespace Lazaret.Tlog

open Merkle List Outcome

variable {β : Type}

def tileData (H : Hashing β) (L : List (Hash β)) (t : Tile) : List β :=
  ((List.range t.width).map fun j => nodeAt H.nodeHash H.EMPTY_ROOT L (t.level * t.height)
    (t.index * 2 ^ t.height + j)).flatMap Subtype.val

section Soundness

variable {H : Hashing β} {L : List (Hash β)} {p : Plan} {data : List (List β)} {height : ℕ}
  {nodes : List Node}

/-- The head of the log `L`. -/
def headOf (H : Hashing β) (L : List (Hash β)) : Tree β := ⟨L.length, trueRoot H L⟩

lemma readNodes_inv [DecidableEq β] {tree : Tree β} {tiles : TileSet β} {hs : List (Hash β)}
    (h : readNodes H tree height nodes tiles = .ok hs) :
    ∃ p data, plan tree height nodes = .ok p ∧ Fetched p data ∧
      ((p.edge = [] ∧ hs = []) ∨
        ∃ edge_hashes, Forall₂ (fun e v => hashAt H p data e = .ok v) p.edge edge_hashes ∧
          foldSubtrees H edge_hashes = tree.root ∧
          (∀ i, p.edge_tiles ≤ i → i < p.tiles.length →
            checkParent H tree.size height p data i = .ok ⟨⟩) ∧
          Forall₂ (fun e v => hashAt H p data e = .ok v) (nodes.zip p.node_tile) hs) := by
  rw [readNodes] at h
  obtain ⟨p, hp, h⟩ := bind_eq_ok.1 h
  obtain ⟨data, hdata, h⟩ := bind_eq_ok.1 h
  refine ⟨p, data, hp, (mapM_eq_ok.1 hdata).imp fun _ _ h => (fetch_eq_ok.1 h).2, ?_⟩
  split_ifs at h with hedge
  · cases h
    exact .inl ⟨isEmpty_iff.1 hedge, rfl⟩
  · obtain ⟨edge_hashes, hhashes, h⟩ := bind_eq_ok.1 h
    split_ifs at h with hroot
    obtain ⟨u, hchecks, h⟩ := bind_eq_ok.1 h
    refine .inr ⟨edge_hashes, mapM_eq_ok.1 hhashes, not_not.1 hroot, fun i hi hlt => ?_,
      mapM_eq_ok.1 h⟩
    refine forM_eq_ok.1 hchecks i (mem_range'_1.2 ⟨hi, ?_⟩)
    omega

lemma edge_hashes_true (hinj : Function.Injective2 H.nodeHash)
    (hsize : L.length ≤ MAX_TREE_SIZE) (hp : PlanOk height L.length nodes p)
    {edge_hashes : List (Hash β)}
    (hhashes : Forall₂ (fun e v => hashAt H p data e = .ok v) p.edge edge_hashes)
    (hroot : foldSubtrees H edge_hashes = trueRoot H L) :
    ∀ e ∈ p.edge, hashAt H p data e = .ok (trueHash H L e.1) := by
  have hlen : edge_hashes.length = (p.edge.map (fun e => trueHash H L e.1)).length := by
    rw [length_map, hhashes.length_eq]
  have hmap : (subtrees L.length).map (trueHash H L) = p.edge.map (fun e => trueHash H L e.1) := by
    rw [← hp.edge_nodes, map_map]
    rfl
  rw [foldSubtrees_eq, trueRoot, ← spine_subtrees _ _ _ hsize] at hroot
  have heq : edge_hashes = p.edge.map (fun e => trueHash H L e.1) := by
    rw [← hmap] at hlen ⊢
    exact spine_inj hinj hlen hroot
  intro e he
  obtain ⟨i, hi⟩ := mem_iff_getElem?.1 he
  obtain ⟨v, hv, hhash⟩ := forall₂_getElem? hhashes hi
  rw [heq, getElem?_map, hi] at hv
  rw [hhash, ← Option.some.inj hv]

/-- Every planned tile that passes is the log's own: those of the right edge by the root, the
others by the entry in a tile before them. -/
lemma authentic_of_checks [DecidableEq β] (hinj : Function.Injective2 H.nodeHash) (h1 : 1 ≤ height)
    (h30 : height ≤ MAX_TILE_HEIGHT) (hsize : L.length ≤ MAX_TREE_SIZE)
    (hp : PlanOk height L.length nodes p) (hdata : Fetched p data)
    (hedge : ∀ e ∈ p.edge, hashAt H p data e = .ok (trueHash H L e.1))
    (hchecks : ∀ i, p.edge_tiles ≤ i → i < p.tiles.length →
      checkParent H L.length height p data i = .ok ⟨⟩)
    {i : ℕ} {t : Tile} {d : List β} (ht : p.tiles[i]? = some t) (hd : data[i]? = some d) :
    Authentic H L t d := by
  induction i using Nat.strong_induction_on generalizing t d with
  | _ i ih =>
    have hisTile := hp.isTile t (mem_of_getElem? ht)
    have hheight : t.height = height := by rw [hisTile.2]; rfl
    rcases lt_or_ge i p.edge_tiles with hi | hi
    · -- every entry of a right-edge tile is under a right-edge node, which is read from it
      obtain ⟨t', ht', hpart⟩ := hp.edge_first i hi
      rw [ht] at ht'
      cases ht'
      intro j hj
      obtain ⟨x, hx, hlevel, hindex, hwithin⟩ := exists_mem_subtrees h30 hsize hisTile.1
        (by rwa [← hisTile.2]) (by rwa [← hisTile.2])
      have hxin := inside_of_mem_subtrees hsize hx
      have htile : x.tile height L.length = t := by
        rw [Node.tile, hlevel, hindex, ← hisTile.2]
      rw [← hp.edge_nodes, mem_map] at hx
      obtain ⟨⟨x, pos⟩, he, rfl⟩ := hx
      dsimp only at hlevel hindex hwithin hxin htile
      have hpos := hp.edge_pos _ he
      dsimp only at hpos
      have hsame : pos = i := by
        rw [htile] at hpos
        exact (List.getElem?_inj (List.getElem?_eq_some_iff.1 hpos).1 hp.nodup).1
          (hpos.trans ht.symm)
      obtain ⟨d', hd', hhash⟩ := hashAt_eq (H := H) h1 h30 hsize hdata hxin hpos
      rw [hsame, hd] at hd'
      cases hd'
      rw [hedge _ he, Outcome.ok.injEq] at hhash
      have hentry := entry_of_hash hinj h1 hxin hhash.symm (j := j % 2 ^ x.sub height)
        (Nat.mod_lt _ (Nat.two_pow_pos _))
      rw [hwithin, Nat.div_add_mod', hlevel, hindex] at hentry
      rw [hheight, hentry]
    · obtain ⟨j, hj, hparent, dp, d', hdp, hd', hcheck⟩ :=
        checkParent_eq (H := H) h1 h30 hsize hp hdata hi ht
      rw [hd] at hd'
      cases hd'
      rw [hchecks i hi (List.getElem?_eq_some_iff.1 ht).1] at hcheck
      split_ifs at hcheck with hne
      have hfull := (hp.parents i hi t ht).1
      refine authentic_of_perfect_eq hinj h30 hisTile hfull ?_
      rw [← not_not.1 hne, (ih j hj hparent hdp).hash h1 hsize (hisTile.inside_root h30 hfull)]

lemma PlanOk.nodes_eq_nil {size : ℕ} (hp : PlanOk height size nodes p)
    (hsize : size ≤ MAX_TREE_SIZE) (hnodes : ∀ x ∈ nodes, x.Inside size) (hempty : p.edge = []) :
    nodes = [] := by
  have hzero : size % 2 ^ 63 = 0 := by
    rw [← subtreesBelow_eq_nil 63 0, ← subtrees, ← hp.edge_nodes, hempty, map_nil]
  have hlt : size < 2 ^ 63 := Nat.lt_of_le_of_lt hsize (by rw [MAX_TREE_SIZE]; norm_num)
  rw [Nat.mod_eq_of_lt hlt] at hzero
  rw [eq_nil_iff_forall_not_mem]
  intro x hx
  have hpos : 0 < (x.index + 1) * 2 ^ x.level := Nat.mul_pos (by omega) (Nat.two_pow_pos _)
  have hin : (x.index + 1) * 2 ^ x.level ≤ size := hnodes x hx
  omega

lemma readNodes_sound [DecidableEq β] (hinj : Function.Injective2 H.nodeHash)
    (hsize : L.length ≤ MAX_TREE_SIZE) {tiles : TileSet β} {hs : List (Hash β)}
    (h : readNodes H (headOf H L) height nodes tiles = .ok hs) :
    hs = nodes.map (trueHash H L) := by
  obtain ⟨p, data, hplan, hdata, hcases⟩ := readNodes_inv h
  obtain ⟨h1, h30, -, hnodes⟩ := inside_of_plan hplan
  have hp : PlanOk height L.length nodes p := PlanOk.of_plan hplan
  rcases hcases with ⟨hempty, rfl⟩ | ⟨edge_hashes, hhashes, hroot, hchecks, hout⟩
  · rw [hp.nodes_eq_nil hsize hnodes hempty, map_nil]
  · have hedge := edge_hashes_true hinj hsize hp hhashes hroot
    have hauth := fun {i t d} => authentic_of_checks hinj h1 h30 hsize hp hdata hedge hchecks
      (i := i) (t := t) (d := d)
    have hvals : ∀ (i : ℕ) (x : Node) (pos : ℕ), (nodes.zip p.node_tile)[i]? = some (x, pos) →
        hashAt H p data (x, pos) = .ok (trueHash H L x) := by
      intro i x pos hi
      obtain ⟨hx, hpos⟩ := getElem?_zip_eq_some.1 hi
      have hin := hnodes x (mem_of_getElem? hx)
      obtain ⟨pos', hpos', htile⟩ := forall₂_getElem? hp.node_pos hx
      rw [hpos] at hpos'
      cases hpos'
      obtain ⟨d, hd, hhash⟩ := hashAt_eq (H := H) h1 h30 hsize hdata hin htile
      rw [hhash, (hauth htile hd).hash h1 hsize hin]
    have hlen : nodes.length = p.node_tile.length := hp.node_pos.length_eq
    refine ext_getElem? fun i => ?_
    cases hi : (nodes.zip p.node_tile)[i]? with
    | none =>
      have hle := getElem?_eq_none_iff.1 hi
      rw [length_zip, ← hlen, min_self] at hle
      have hlen' := hout.length_eq
      rw [length_zip, ← hlen, min_self] at hlen'
      rw [getElem?_eq_none_iff.2 (by omega),
        getElem?_eq_none_iff.2 (by rw [length_map]; omega)]
    | some e =>
      obtain ⟨v, hv, hhash⟩ := forall₂_getElem? hout hi
      rw [hvals i e.1 e.2 hi, Outcome.ok.injEq] at hhash
      rw [hv, getElem?_map, (getElem?_zip_eq_some.1 hi).1, Option.map_some, hhash]

lemma checkRecord_sound [DecidableEq β] (hinj : Function.Injective2 H.nodeHash)
    (hsize : L.length ≤ MAX_TREE_SIZE) {index : ℕ} {leaf : Hash β} {tiles : TileSet β}
    (h : checkRecord H (headOf H L) height index leaf tiles = .ok ()) : L[index]? = some leaf := by
  rw [checkRecord] at h
  split_ifs at h with hindex
  obtain ⟨got, hgot, h⟩ := bind_eq_ok.1 h
  split_ifs at h with hleaf
  have hlt : index < L.length := not_le.1 hindex
  rw [readNodes_sound hinj hsize hgot, map_singleton, head?_cons, trueHash,
    nodeAt_zero hlt] at hleaf
  rw [getElem?_eq_getElem hlt]
  exact hleaf

lemma trueHash_take {n : ℕ} (hn : n ≤ L.length) {x : Node} (hx : x.Inside n) :
    trueHash H (L.take n) x = trueHash H L x := by
  have hlen : (L.take n).length = n := length_take_of_le hn
  conv_rhs => rw [← take_append_drop n L]
  rw [trueHash, trueHash, nodeAt_append]
  rw [hlen]
  exact hx

lemma foldSubtrees_take (hsize : L.length ≤ MAX_TREE_SIZE) {n : ℕ} (hn : n ≤ L.length) :
    foldSubtrees H ((subtrees n).map (trueHash H L)) = trueRoot H (L.take n) := by
  have hlen : (L.take n).length = n := length_take_of_le hn
  have hspine := spine_subtrees H.nodeHash H.EMPTY_ROOT (L.take n) (by omega)
  rw [hlen] at hspine
  rw [foldSubtrees_eq, trueRoot, ← hspine]
  congr 1
  refine map_congr_left fun x hx => ?_
  exact (trueHash_take hn (inside_of_mem_subtrees (by omega) hx)).symm

lemma checkPrefix_sound [DecidableEq β] (hinj : Function.Injective2 H.nodeHash)
    (hsize : L.length ≤ MAX_TREE_SIZE) {older : Tree β} {tiles : TileSet β}
    (h : checkPrefix H older (headOf H L) height tiles = .ok ()) :
    older.size ≤ L.length ∧ older.root = trueRoot H (L.take older.size) := by
  rw [checkPrefix] at h
  split_ifs at h with hmax holder
  have hle : older.size ≤ L.length := not_lt.1 holder
  refine ⟨hle, ?_⟩
  obtain ⟨computed, hcomputed, h⟩ := bind_eq_ok.1 h
  split_ifs at h with hne
  rw [← not_not.1 hne]
  rw [olderRoot] at hcomputed
  split_ifs at hcomputed with hzero hequal
  · cases hcomputed
    rw [hzero, take_zero, trueRoot, mth_nil]
  · cases hcomputed
    rw [hequal, headOf, take_length]
  · obtain ⟨hashes, hread, hfold⟩ := bind_eq_ok.1 hcomputed
    cases hfold
    rw [readNodes_sound hinj hsize hread, foldSubtrees_take hsize hle]

/-- For every tile data the hashes that are read are those of the log's perfect subtrees, a record
that checks is in the log at its place, and an older tree that checks is the tree of its first
leaves. -/
theorem tile_authentication_sound [DecidableEq β] (H : Hashing β)
    (hinj : Function.Injective2 H.nodeHash) (L : List (Hash β)) (hsize : L.length ≤ MAX_TREE_SIZE)
    (height : ℕ) (tiles : TileSet β) :
    (∀ nodes hs, readNodes H (headOf H L) height nodes tiles = .ok hs →
      (∀ x ∈ nodes, x.Inside L.length) ∧ hs = nodes.map (trueHash H L)) ∧
    (∀ index leaf, checkRecord H (headOf H L) height index leaf tiles = .ok () →
      L[index]? = some leaf) ∧
    (∀ older, checkPrefix H older (headOf H L) height tiles = .ok () →
      older.size ≤ L.length ∧ older.root = trueRoot H (L.take older.size)) := by
  refine ⟨fun nodes hs h => ⟨?_, readNodes_sound hinj hsize h⟩, fun index leaf h => ?_,
    fun older h => ?_⟩
  · obtain ⟨p, data, hplan, -⟩ := readNodes_inv h
    exact (inside_of_plan hplan).2.2.2
  · exact checkRecord_sound hinj hsize h
  · exact checkPrefix_sound hinj hsize h

end Soundness

/-! A log of five leaves with tiles of height one, under a node hash that is injective. -/

/-- Bytes of any size, and nodes that pair the bytes of their children. -/
def pairing : Hashing ℕ where
  nodeHash a b :=
    ⟨List.zipWith Nat.pair a.1 b.1, by rw [List.length_zipWith, a.2, b.2, Nat.min_self]⟩
  EMPTY_ROOT := ⟨List.replicate HASH_SIZE 0, List.length_replicate⟩

lemma pairing_injective : Function.Injective2 pairing.nodeHash := by
  have key : ∀ {a b c d : List ℕ}, a.length = b.length → c.length = d.length →
      a.length = c.length → zipWith Nat.pair a b = zipWith Nat.pair c d →
      a = c ∧ b = d := by
    intro a
    induction a with
    | nil => intro b c d hb hd hc _; simp_all [eq_comm]
    | cons x a ih =>
      intro b c d hb hd hc h
      match b, c, d with
      | y :: b, z :: c, w :: d =>
        simp only [length_cons, Nat.add_right_cancel_iff] at hb hd hc
        simp only [zipWith_cons_cons, cons.injEq, Nat.pair_eq_pair] at h
        obtain ⟨rfl, rfl⟩ := ih hb hd hc h.2
        rw [h.1.1, h.1.2]
        exact ⟨rfl, rfl⟩
  intro a c b d h
  obtain ⟨h1, h2⟩ := key (a.2.trans b.2.symm) (c.2.trans d.2.symm) (a.2.trans c.2.symm)
    (congrArg Subtype.val h)
  exact ⟨Subtype.ext h1, Subtype.ext h2⟩

def flatHash (n : ℕ) : Hash ℕ := ⟨List.replicate HASH_SIZE n, List.length_replicate⟩

def fiveLeaves : List (Hash ℕ) := [flatHash 1, flatHash 2, flatHash 3, flatHash 4, flatHash 5]

/-- The tiles that the first two leaves and their parent need. -/
def fiveTiles : List Tile := [⟨1, 2, 0, 1⟩, ⟨1, 0, 2, 1⟩, ⟨1, 1, 0, 2⟩, ⟨1, 0, 0, 2⟩]

def tilesOf (L : List (Hash ℕ)) (ts : List Tile) : TileSet ℕ :=
  ⟨ts.foldl (fun m t => m.insert t (tileData pairing L t)) BTreeMap.empty⟩

theorem tile_authentication_sound_five :
    readNodes pairing (headOf pairing fiveLeaves) 1 [⟨0, 1⟩, ⟨1, 0⟩]
        (tilesOf fiveLeaves fiveTiles) = .ok [flatHash 2, flatHash 5] ∧
      [flatHash 2, flatHash 5] = [⟨0, 1⟩, ⟨1, 0⟩].map (trueHash pairing fiveLeaves) ∧
      fiveLeaves[1]? = some (flatHash 2) ∧
      flatHash 5 = trueRoot pairing (fiveLeaves.take 2) := by
  have hread : readNodes pairing (headOf pairing fiveLeaves) 1 [⟨0, 1⟩, ⟨1, 0⟩]
      (tilesOf fiveLeaves fiveTiles) = .ok [flatHash 2, flatHash 5] := by with_unfolding_all decide
  have hrecord : checkRecord pairing (headOf pairing fiveLeaves) 1 1 (flatHash 2)
      (tilesOf fiveLeaves fiveTiles) = .ok () := by with_unfolding_all decide
  have holder : checkPrefix pairing ⟨2, flatHash 5⟩ (headOf pairing fiveLeaves) 1
      (tilesOf fiveLeaves fiveTiles) = .ok () := by with_unfolding_all decide
  obtain ⟨h1, h2, h3⟩ := tile_authentication_sound pairing pairing_injective fiveLeaves
    (by decide) 1 (tilesOf fiveLeaves fiveTiles)
  exact ⟨hread, (h1 _ _ hread).2, h2 _ _ hrecord, (h3 _ holder).2⟩

/-! ### Honest tiles -/

section Completeness

variable {H : Hashing β} {L : List (Hash β)} {height : ℕ} {nodes : List Node}

/-- The set has the log's own data for the tile, or, for a tile that is not whole, only that of the
whole tile of the same place in a log that has grown to have it. -/
def Honest (H : Hashing β) (L : List (Hash β)) (tiles : TileSet β) (t : Tile) : Prop :=
  tiles.tiles.get t = some (tileData H L t) ∨
    t.isFull = false ∧ tiles.tiles.get t = none ∧
      ∃ M, IsTile t.height (L ++ M).length t.full ∧
        tiles.tiles.get t.full = some (tileData H (L ++ M) t.full)

lemma length_flatMap_val (l : List (Hash β)) :
    (l.flatMap Subtype.val).length = l.length * HASH_SIZE := by
  induction l with
  | nil => simp
  | cons a l ih =>
    rw [flatMap_cons, length_append, ih, a.2, length_cons, add_mul, one_mul, add_comm]

lemma entryAt_flatMap_val (l : List (Hash β)) {j : ℕ} (hj : j < l.length) :
    entryAt H (l.flatMap Subtype.val) j = l.get ⟨j, hj⟩ := by
  induction l generalizing j with
  | nil => exact absurd hj (by simp)
  | cons a l ih =>
    cases j with
    | zero =>
      have htake : ((a :: l).flatMap Subtype.val).take HASH_SIZE = a.1 := by
        rw [flatMap_cons, take_append_of_le_length a.2.ge, take_of_length_le a.2.le]
      simp only [entryAt, zero_mul, drop_zero, htake, a.2, dite_true]
      rfl
    | succ j =>
      have hdrop : ((a :: l).flatMap Subtype.val).drop (1 * HASH_SIZE) =
          l.flatMap Subtype.val := by
        rw [one_mul, flatMap_cons]
        exact drop_left' a.2
      have hentry : entryAt H (((a :: l).flatMap Subtype.val).drop (1 * HASH_SIZE)) j =
          entryAt H ((a :: l).flatMap Subtype.val) (1 + j) := entryAt_drop 1 j
      rw [add_comm, hdrop, ih (by simpa using hj)] at hentry
      exact hentry.symm

lemma length_tileData (t : Tile) : (tileData H L t).length = t.dataLen := by
  rw [tileData, length_flatMap_val, length_map, length_range, Tile.dataLen]

lemma authentic_tileData (t : Tile) : Authentic H L t (tileData H L t) := by
  intro j hj
  rw [tileData, entryAt_flatMap_val _ (by simpa using hj)]
  simp

lemma Honest.get {tiles : TileSet β} {t : Tile} (h30 : height ≤ MAX_TILE_HEIGHT)
    (ht : IsTile height L.length t) (h : Honest H L tiles t) :
    ∃ d, tiles.get t = some d ∧ d.length = t.dataLen ∧ Authentic H L t d := by
  rcases h with h | ⟨-, hnone, M, hfull, h⟩
  · exact ⟨_, by rw [TileSet.get, h], length_tileData t, authentic_tileData t⟩
  · have hheight : t.height = height := by rw [ht.2]; rfl
    have hle : t.width ≤ t.full.width := by
      have hlt : 2 ^ height < 2 ^ 32 := Nat.pow_lt_pow_right (by omega) (by
        rw [MAX_TILE_HEIGHT] at h30
        omega)
      have h64 : height < 64 := by
        rw [MAX_TILE_HEIGHT] at h30
        omega
      rw [Tile.full, Tile.fullWidth, hheight, if_pos h64, if_pos hlt, ht.2]
      exact min_le_left _ _
    have hlen : t.dataLen ≤ (tileData H (L ++ M) t.full).length := by
      rw [length_tileData]
      exact Nat.mul_le_mul_right _ hle
    refine ⟨(tileData H (L ++ M) t.full).take t.dataLen, ?_, ?_, fun j hj => ?_⟩
    · rw [TileSet.get, hnone]
      dsimp only
      rw [h]
      simp [hlen]
    · rw [length_take, min_eq_left hlen]
    · rw [Tile.dataLen, entryAt_take hj, authentic_tileData t.full j (by omega)]
      refine nodeAt_append ?_
      -- the entry is one of those that the shorter log has in full
      have hrow : t.index * 2 ^ height + j + 1 ≤ rowLen height L.length t.level := by
        have hwidth := hj
        rw [ht.2] at hwidth
        simp only [treeTile] at hwidth
        omega
      rw [rowLen, Nat.le_div_iff_mul_le (Nat.two_pow_pos _)] at hrow
      simpa only [Tile.full, hheight] using hrow

lemma readNodes_complete [DecidableEq β] (h1 : 1 ≤ height) (h30 : height ≤ MAX_TILE_HEIGHT)
    (hsize : L.length ≤ MAX_TREE_SIZE) (hnodes : ∀ x ∈ nodes, x.Inside L.length) {p : Plan}
    (hplan : plan (headOf H L) height nodes = .ok p) {tiles : TileSet β}
    (htiles : ∀ t ∈ p.tiles, Honest H L tiles t) :
    readNodes H (headOf H L) height nodes tiles = .ok (nodes.map (trueHash H L)) := by
  have hp : PlanOk height L.length nodes p := PlanOk.of_plan hplan
  obtain ⟨data, hfetch, hauth⟩ : ∃ data, Forall₂ (fun t d => fetch tiles t = .ok d)
      p.tiles data ∧ Forall₂ (fun t d => Authentic H L t d) p.tiles data := by
    have hget : ∀ t ∈ p.tiles, ∃ d, fetch tiles t = .ok d ∧ Authentic H L t d := by
      intro t ht
      obtain ⟨d, hd, hlen, hauth⟩ := (htiles t ht).get h30 (hp.isTile t ht)
      exact ⟨d, fetch_eq_ok.2 ⟨hd, hlen⟩, hauth⟩
    generalize p.tiles = ts at hget
    induction ts with
    | nil => exact ⟨[], .nil, .nil⟩
    | cons t ts ih =>
      obtain ⟨d, hd, ha⟩ := hget t mem_cons_self
      obtain ⟨ds, hds, has⟩ := ih fun u hu => hget u (mem_cons_of_mem _ hu)
      exact ⟨d :: ds, .cons hd hds, .cons ha has⟩
  have hdata : Fetched p data := hfetch.imp fun _ _ h => (fetch_eq_ok.1 h).2
  -- a planned node inside the log is read as it is in the log
  have hread : ∀ (x : Node) (pos : ℕ), x.Inside L.length →
      p.tiles[pos]? = some (x.tile height L.length) →
      hashAt H p data (x, pos) = .ok (trueHash H L x) := by
    intro x pos hx hpos
    obtain ⟨d, hd, hhash⟩ := hashAt_eq (H := H) h1 h30 hsize hdata hx hpos
    obtain ⟨d', hd', hauth'⟩ := forall₂_getElem? hauth hpos
    rw [hd] at hd'
    cases hd'
    rw [hhash, hauth'.hash h1 hsize hx]
  have hedge : p.edge.mapM (hashAt H p data) = .ok (p.edge.map fun e => trueHash H L e.1) := by
    rw [mapM_eq_ok, forall₂_map_right_iff, forall₂_same]
    intro e he
    refine hread e.1 e.2 (inside_of_mem_subtrees hsize ?_) (hp.edge_pos e he)
    rw [← hp.edge_nodes]
    exact mem_map_of_mem he
  have hroot : foldSubtrees H (p.edge.map fun e => trueHash H L e.1) = (headOf H L).root := by
    have hfold := foldSubtrees_take (H := H) hsize le_rfl
    rw [take_length, ← hp.edge_nodes, map_map] at hfold
    exact hfold
  have hchecks : (range' p.edge_tiles (p.tiles.length - p.edge_tiles)).forM
      (checkParent H L.length height p data) = .ok ⟨⟩ := by
    rw [forM_eq_ok]
    intro i hi
    obtain ⟨hlo, hhi⟩ := mem_range'_1.1 hi
    have hlt : i < p.tiles.length := by omega
    have ht := getElem?_eq_getElem hlt
    obtain ⟨j, hj, hparent, dp, d, hdp, hd, hcheck⟩ :=
      checkParent_eq (H := H) h1 h30 hsize hp hdata hlo ht
    have hfull := (hp.parents i hlo _ ht).1
    have hisTile := hp.isTile _ (mem_of_getElem? ht)
    obtain ⟨dp', hdp', hauthp⟩ := forall₂_getElem? hauth hparent
    obtain ⟨d', hd', hauthd⟩ := forall₂_getElem? hauth ht
    rw [hdp] at hdp'
    rw [hd] at hd'
    cases hdp'
    cases hd'
    rw [hcheck, if_neg]
    rw [not_not, hauthp.hash h1 hsize (hisTile.inside_root h30 hfull),
      hauthd.perfect_eq h30 hisTile hfull]
  have hout : (nodes.zip p.node_tile).mapM (hashAt H p data) = .ok (nodes.map (trueHash H L)) :=
    zip_mapM_eq_ok (((forall₂_and_left _ _).2 ⟨hnodes, hp.node_pos⟩).imp
      fun x pos h => hread x pos h.1 h.2)
  simp only [readNodes, hplan, ok_bind, mapM_eq_ok.2 hfetch]
  split_ifs with hempty
  · rw [hp.nodes_eq_nil hsize hnodes (isEmpty_iff.1 hempty), map_nil]
  · rw [hedge, ok_bind, if_neg (not_not.2 hroot)]
    simp only [headOf]
    rw [hchecks, ok_bind, hout]

/-- For every list of nodes inside the tree the tiles are planned without an error, and honest data
for them passes every check and gives the true hashes. -/
theorem tile_reading_complete [DecidableEq β] (H : Hashing β) (L : List (Hash β))
    (hsize : L.length ≤ MAX_TREE_SIZE) (height : ℕ) (h1 : 1 ≤ height)
    (h30 : height ≤ MAX_TILE_HEIGHT) (nodes : List Node) (hnodes : ∀ x ∈ nodes, x.Inside L.length) :
    ∃ p, plan (headOf H L) height nodes = .ok p ∧
      tilesFor (headOf H L) height nodes = .ok p.tiles ∧
      (∀ t ∈ p.tiles, t.validate = (.ok () : Outcome (Error β) Unit)) ∧
      (∀ i t, p.edge_tiles ≤ i → p.tiles[i]? = some t →
        ∃ j < i, ∃ parent, tileAncestor t 1 L.length = some parent ∧ p.tiles[j]? = some parent) ∧
      ∀ tiles, (∀ t ∈ p.tiles, Honest H L tiles t) →
        readNodes H (headOf H L) height nodes tiles = .ok (nodes.map (trueHash H L)) := by
  obtain ⟨p, hplan, hp⟩ := plan_spec (headOf H L) h1 h30 hsize hnodes
  refine ⟨p, hplan, by rw [tilesFor, hplan, ok_bind], fun t ht => ?_, fun i t hi ht => ?_,
    fun tiles htiles => readNodes_complete h1 h30 hsize hnodes hplan htiles⟩
  · obtain ⟨hhas, heq⟩ := hp.isTile t ht
    rw [heq]
    exact validate_treeTile h1 h30 hsize hhas
  · obtain ⟨hfull, j, hj, hparent⟩ := hp.parents i hi t ht
    have hisTile := hp.isTile t (mem_of_getElem? ht)
    exact ⟨j, hj, _, hisTile.tileAncestor_one h1 h30 hsize hfull, hparent⟩

end Completeness

/-- The five leaves read when the last tile has become whole by a sixth. -/
theorem tile_reading_complete_five :
    readNodes pairing (headOf pairing fiveLeaves) 1 [⟨0, 1⟩, ⟨1, 0⟩]
        ⟨(tilesOf fiveLeaves [⟨1, 2, 0, 1⟩, ⟨1, 1, 0, 2⟩, ⟨1, 0, 0, 2⟩]).tiles.insert ⟨1, 0, 2, 2⟩
          (tileData pairing (fiveLeaves ++ [flatHash 6]) ⟨1, 0, 2, 2⟩)⟩ =
      .ok ([⟨0, 1⟩, ⟨1, 0⟩].map (trueHash pairing fiveLeaves)) := by
  obtain ⟨p, -, hp, -, -, hread⟩ := tile_reading_complete pairing fiveLeaves (by decide) 1
    (by decide) (by decide) [⟨0, 1⟩, ⟨1, 0⟩]
    (by simp only [Node.Inside]; decide)
  have htiles : tilesFor (headOf pairing fiveLeaves) 1 [⟨0, 1⟩, ⟨1, 0⟩] = .ok fiveTiles := by
    decide
  rw [htiles, Outcome.ok.injEq] at hp
  refine hread _ fun t ht => ?_
  rw [← hp, fiveTiles] at ht
  simp only [mem_cons, not_mem_nil, or_false] at ht
  rcases ht with rfl | rfl | rfl | rfl
  · exact .inl (by with_unfolding_all decide)
  · exact .inr ⟨by decide, by decide, [flatHash 6], ⟨by decide, by decide⟩,
      by with_unfolding_all decide⟩
  · exact .inl (by with_unfolding_all decide)
  · exact .inl (by with_unfolding_all decide)

end Lazaret.Tlog
