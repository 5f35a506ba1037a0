import Lazaret.Tlog.Tile

/-!
# The plan of a tile read

`plan` (`tlog.rs`) works out the tiles that a read of nodes needs: first those of the right-edge
nodes, which recompute the root, then for each requested node its tile and whatever tiles above it
lead to one that is planned already.  `PlanOk` is what the reader relies on, and planning gives it
for every list of nodes inside the tree (`plan_spec`).
-/

namespace Lazaret.Tlog

open List Outcome BTreeMap

variable {β : Type}

/-- What `read_nodes` will look at. -/
structure Plan where
  tiles : List Tile
  /-- The right-edge nodes of the tree and the position in `tiles` of the tile of each. -/
  edge : List (Node × ℕ)
  edge_tiles : ℕ
  /-- The position in `tiles` of the tile of each requested node. -/
  node_tile : List ℕ
deriving DecidableEq

/-- The tiles planned so far, and the position of each. -/
structure Planned where
  tiles : List Tile
  order : BTreeMap Tile ℕ

namespace Planned

def new : Planned := ⟨[], BTreeMap.empty⟩

def push (P : Planned) (t : Tile) : Planned := ⟨P.tiles ++ [t], P.order.insert t P.tiles.length⟩

end Planned

def planEdge (height size : ℕ) :
    List Node → Planned → Outcome (Error β) (Planned × List (Node × ℕ))
  | [], P => .ok (P, [])
  | x :: xs, P => do
    let t ← Outcome.okOr (tileAncestor (nodeTile height x).1 0 size)
      (.Invalid "no tile for a right-edge node")
    let (P, pos) := match P.order.get t with
      | some pos => (P, pos)
      | none => (P.push t, P.tiles.length)
    let (P, edge) ← planEdge height size xs P
    .ok (P, (x, pos) :: edge)

/-- The loop that looks for the lowest tile above `t` that is planned: `k` levels up, at the
position `j`.  The first argument is how many more levels are tried (`k` stops at 64). -/
def climb (order : BTreeMap Tile ℕ) (t : Tile) (size : ℕ) :
    ℕ → ℕ → Outcome (Error β) (ℕ × ℕ)
  | 0, _ => .err (.Invalid "no parent tile")
  | n + 1, k => do
    let p ← Outcome.okOr (tileAncestor t k size) (.Invalid "no parent tile")
    match order.get p with
    | some j => .ok (k, j)
    | none => climb order t size n (k + 1)

/-- The loop that plans the tiles above `t` from `k` levels up down to `t` itself.  `mine` is the
position of the last of them. -/
def planDown (t : Tile) (size : ℕ) : ℕ → Planned → ℕ → Outcome (Error β) (Planned × ℕ)
  | 0, P, mine => .ok (P, mine)
  | k + 1, P, mine => do
    let p ← Outcome.okOr (tileAncestor t k size) (.Invalid "no parent tile")
    if !p.isFull then .err (.Invalid "a partial tile has a parent")
    else planDown t size k (P.push p) (if k = 0 then P.tiles.length else mine)

def planNode (height size : ℕ) (x : Node) (P : Planned) : Outcome (Error β) (Planned × ℕ) := do
  let t := (nodeTile height x).1
  let (top, j) ← climb P.order t size 65 0
  if top = 0 then .ok (P, j) else planDown t size top P 0

def planNodes (height size : ℕ) : List Node → Planned → Outcome (Error β) (Planned × List ℕ)
  | [], P => .ok (P, [])
  | x :: xs, P => do
    let (P, pos) ← planNode height size x P
    let (P, rest) ← planNodes height size xs P
    .ok (P, pos :: rest)

def checkNodes (size : ℕ) : List Node → Outcome (Error β) Unit
  | [] => .ok ()
  | n :: nodes =>
    if n.level > 62 ∨ (n.index + 1) <<< n.level > size then
      .err (.Invalid "node is not inside the tree")
    else checkNodes size nodes

def plan (tree : Tree β) (height : ℕ) (nodes : List Node) : Outcome (Error β) Plan :=
  if height < 1 ∨ height > MAX_TILE_HEIGHT then .err (.Invalid "tile height must be 1 to 30")
  else if tree.size > MAX_TREE_SIZE then .err (.Invalid "tree is larger than 2^62 leaves")
  else do
    checkNodes tree.size nodes
    let (P, edge) ← planEdge height tree.size (subtrees tree.size) Planned.new
    let edge_tiles := P.tiles.length
    let (P, node_tile) ← planNodes height tree.size nodes P
    .ok ⟨P.tiles, edge, edge_tiles, node_tile⟩

/-- The tiles needed to read `nodes` of the tree head `tree`. -/
def tilesFor (tree : Tree β) (height : ℕ) (nodes : List Node) :
    Outcome (Error β) (List Tile) := do
  let p ← plan tree height nodes
  .ok p.tiles

/-! ### What a plan is -/

/-- A tile of a tree of `size` leaves, as wide as the tree has it. -/
def IsTile (height size : ℕ) (t : Tile) : Prop :=
  HasTile height size t.level t.index ∧ t = treeTile height size t.level t.index

def Tile.parent (height size : ℕ) (t : Tile) : Tile :=
  treeTile height size (t.level + 1) (t.index / 2 ^ height)

/-- Each tile from position `n` on is whole and comes after the tile above it. -/
def ParentsFirst (height size n : ℕ) (tiles : List Tile) : Prop :=
  ∀ i, n ≤ i → ∀ t, tiles[i]? = some t →
    t.isFull = true ∧ ∃ j < i, tiles[j]? = some (t.parent height size)

/-- What a plan for `nodes` has to be. -/
structure PlanOk (height size : ℕ) (nodes : List Node) (p : Plan) : Prop where
  nodup : p.tiles.Nodup
  isTile : ∀ t ∈ p.tiles, IsTile height size t
  edge_nodes : p.edge.map Prod.fst = subtrees size
  edge_pos : ∀ e ∈ p.edge, p.tiles[e.2]? = some (e.1.tile height size)
  edge_first : ∀ i < p.edge_tiles, ∃ t, p.tiles[i]? = some t ∧ t.isFull = false
  parents : ParentsFirst height size p.edge_tiles p.tiles
  node_pos : List.Forall₂ (fun x pos => p.tiles[pos]? = some (x.tile height size)) nodes p.node_tile

/-! ### Planned tiles -/

variable {height size n : ℕ}

namespace Planned

def Wf (P : Planned) : Prop := ∀ t i, P.order.get t = some i ↔ P.tiles[i]? = some t

variable {P : Planned}

lemma wf_new : new.Wf := by
  intro t i
  simp [new]

lemma Wf.get_eq_none (h : P.Wf) {t : Tile} : P.order.get t = none ↔ t ∉ P.tiles := by
  rw [mem_iff_getElem?]
  constructor
  · rintro hnone ⟨i, hi⟩
    rw [(h t i).2 hi] at hnone
    cases hnone
  · intro hnot
    cases hget : P.order.get t with
    | none => rfl
    | some i => exact absurd ⟨i, (h t i).1 hget⟩ hnot

lemma Wf.nodup (h : P.Wf) : P.tiles.Nodup := by
  rw [nodup_iff_injective_get]
  intro a b hab
  have ha := (h _ a.1).2 (getElem?_eq_getElem a.2)
  have hb := (h _ b.1).2 (getElem?_eq_getElem b.2)
  rw [← get_eq_getElem, hab, get_eq_getElem, hb] at ha
  exact Fin.ext (Option.some.inj ha).symm

lemma Wf.push (h : P.Wf) {t : Tile} (ht : t ∉ P.tiles) : (P.push t).Wf := by
  intro u i
  simp only [Planned.push, get_eq_some, mem_insert, Prod.mk.injEq]
  rw [← get_eq_some, h u i, getElem?_append, getElem?_singleton]
  constructor
  · rintro (⟨rfl, rfl⟩ | ⟨hu, -⟩)
    · simp
    · rw [if_pos (List.getElem?_eq_some_iff.1 hu).1, hu]
  · split_ifs with hi hi'
    · intro hu
      refine .inr ⟨hu, ?_⟩
      rintro rfl
      exact ht (mem_of_getElem? hu)
    · intro hu
      exact .inl ⟨(Option.some.inj hu).symm, by omega⟩
    · exact fun hu => absurd hu (by simp)

lemma getElem?_push_last (P : Planned) (t : Tile) :
    (P.push t).tiles[P.tiles.length]? = some t := by
  simp [Planned.push]

lemma getElem?_mono {Q : Planned} {u : Tile} {i : ℕ} (hpre : P.tiles <+: Q.tiles)
    (h : P.tiles[i]? = some u) : Q.tiles[i]? = some u := by
  obtain ⟨rest, hrest⟩ := hpre
  rw [← hrest, List.getElem?_append_left (List.getElem?_eq_some_iff.1 h).1, h]

lemma prefix_push (P : Planned) (t : Tile) : P.tiles <+: (P.push t).tiles := prefix_append _ _

end Planned

/-- What the tiles planned so far have to be, `n` of them on the right edge. -/
structure Good (height size n : ℕ) (P : Planned) : Prop where
  wf : P.Wf
  isTile : ∀ t ∈ P.tiles, IsTile height size t
  edge : ∀ t, IsTile height size t → t.isFull = false → t ∈ P.tiles
  parents : ParentsFirst height size n P.tiles

lemma Good.push {P : Planned} (h : Good height size n P) {t : Tile} (ht : IsTile height size t)
    (hnot : t ∉ P.tiles) (hparent : t.parent height size ∈ P.tiles) :
    Good height size n (P.push t) := by
  have hfull : t.isFull = true := by
    cases hf : t.isFull with
    | true => rfl
    | false => exact absurd (h.edge t ht hf) hnot
  refine ⟨h.wf.push hnot, ?_, fun u hu hpart => ?_, ?_⟩
  · intro u hu
    rcases mem_append.1 hu with hu | hu
    · exact h.isTile u hu
    · rwa [mem_singleton.1 hu]
  · exact mem_append_left _ (h.edge u hu hpart)
  · intro i hi u hu
    rw [Planned.push, getElem?_append] at hu
    split_ifs at hu with hlt
    · obtain ⟨hf, j, hj, hpj⟩ := h.parents i hi u hu
      exact ⟨hf, j, hj, Planned.getElem?_mono (P.prefix_push t) hpj⟩
    · rw [getElem?_singleton] at hu
      split_ifs at hu with hzero
      cases hu
      obtain ⟨j, hj⟩ := mem_iff_getElem?.1 hparent
      have := (List.getElem?_eq_some_iff.1 hj).1
      exact ⟨hfull, j, by omega, Planned.getElem?_mono (P.prefix_push _) hj⟩

/-! ### The tiles above a node -/

namespace Node

/-- The tile `k` levels above that of the node. -/
def above (height size : ℕ) (x : Node) (k : ℕ) : Tile :=
  treeTile height size (x.level / height + k) (x.tileIndex height / 2 ^ (k * height))

def HasAbove (height size : ℕ) (x : Node) (k : ℕ) : Prop :=
  HasTile height size (x.level / height + k) (x.tileIndex height / 2 ^ (k * height))

variable {x : Node} {k : ℕ}

lemma above_zero : x.above height size 0 = x.tile height size := by
  simp [above, tile]

lemma hasAbove_zero : x.HasAbove height size 0 ↔ x.Placed height size := by
  simp [HasAbove, Placed]

lemma parent_above :
    (x.above height size k).parent height size = x.above height size (k + 1) := by
  simp only [above, Tile.parent, treeTile]
  rw [Nat.add_assoc, Nat.div_div_eq_div_mul, ← pow_add, Nat.add_mul k, one_mul]

lemma HasAbove.isTile (h : x.HasAbove height size k) : IsTile height size (x.above height size k) :=
  ⟨h, rfl⟩

lemma HasAbove.succ (h30 : height ≤ MAX_TILE_HEIGHT) (hsize : size ≤ MAX_TREE_SIZE)
    (hfull : (x.above height size k).isFull = true) : x.HasAbove height size (k + 1) := by
  have := HasTile.parent h30 hsize hfull
  rwa [Nat.div_div_eq_div_mul, ← pow_add, ← Nat.succ_mul, Nat.add_assoc] at this

lemma HasAbove.tileAncestor (h1 : 1 ≤ height) (h : x.HasAbove height size k) :
    tileAncestor (nodeTile height x).1 k size = some (x.above height size k) := by
  have hle : x.level / height + k ≤ (x.level / height + k) * height := Nat.le_mul_of_pos_right _ h1
  have hlt : x.level / height + k < 2 ^ 32 := by
    have := h.1
    omega
  rw [nodeTile_eq h1, tileAncestor_eq _ hlt]
  exact if_pos h

end Node

lemma climb_spec {x : Node} {P : Planned} (h1 : 1 ≤ height) (h30 : height ≤ MAX_TILE_HEIGHT)
    (hsize : size ≤ MAX_TREE_SIZE) (hP : Good height size n P) {m k : ℕ} (hmk : m + k = 65)
    (hk : x.HasAbove height size k)
    (hbelow : ∀ i < k, x.HasAbove height size i ∧ x.above height size i ∉ P.tiles) :
    ∃ top j, climb P.order (nodeTile height x).1 size m k = (.ok (top, j) : Outcome (Error β) _) ∧
      P.tiles[j]? = some (x.above height size top) ∧
      ∀ i < top, x.HasAbove height size i ∧ x.above height size i ∉ P.tiles := by
  induction m generalizing k with
  | zero =>
    -- sixty-five levels do not fit in the tree
    exfalso
    have hle : k ≤ (x.level / height + k) * height :=
      (Nat.le_add_left _ _).trans (Nat.le_mul_of_pos_right _ h1)
    exact absurd (hle.trans hk.1) (by omega)
  | succ m ih =>
    rw [climb, hk.tileAncestor h1, okOr_some, ok_bind]
    cases hget : P.order.get (x.above height size k) with
    | some j => exact ⟨k, j, rfl, (hP.wf _ _).1 hget, hbelow⟩
    | none =>
      have hnot := hP.wf.get_eq_none.1 hget
      have hfull : (x.above height size k).isFull = true := by
        cases hf : (x.above height size k).isFull with
        | true => rfl
        | false => exact absurd (hP.edge _ hk.isTile hf) hnot
      refine ih (by omega) (.succ h30 hsize hfull) fun i hi => ?_
      rcases Nat.lt_succ_iff_lt_or_eq.1 hi with hi | rfl
      · exact hbelow i hi
      · exact ⟨hk, hnot⟩

lemma planDown_spec {x : Node} (h1 : 1 ≤ height) {k : ℕ} {P : Planned} (mine : ℕ)
    (hP : Good height size n P) (htop : x.above height size k ∈ P.tiles)
    (hbelow : ∀ i < k, x.HasAbove height size i ∧ x.above height size i ∉ P.tiles) :
    ∃ P' pos, planDown (nodeTile height x).1 size k P mine =
        (.ok (P', pos) : Outcome (Error β) _) ∧
      Good height size n P' ∧ P.tiles <+: P'.tiles ∧
      (0 < k → P'.tiles[pos]? = some (x.tile height size)) := by
  induction k generalizing P mine with
  | zero => exact ⟨P, mine, rfl, hP, prefix_rfl, fun h => absurd h (by omega)⟩
  | succ k ih =>
    obtain ⟨hk, hnot⟩ := hbelow k (by omega)
    have hP' := hP.push hk.isTile hnot (by rwa [Node.parent_above])
    have hfull : (x.above height size k).isFull = true := by
      cases hf : (x.above height size k).isFull with
      | true => rfl
      | false => exact absurd (hP.edge _ hk.isTile hf) hnot
    have hmem : x.above height size k ∈ (P.push (x.above height size k)).tiles :=
      mem_append_right _ (mem_singleton_self _)
    have hbelow' : ∀ i < k, x.HasAbove height size i ∧
        x.above height size i ∉ (P.push (x.above height size k)).tiles := by
      intro i hi
      refine ⟨(hbelow i (by omega)).1, fun hin => ?_⟩
      rcases mem_append.1 hin with hin | hin
      · exact (hbelow i (by omega)).2 hin
      · have hlevel := congrArg Tile.level (mem_singleton.1 hin)
        simp only [Node.above, treeTile] at hlevel
        omega
    rw [planDown, hk.tileAncestor h1, okOr_some, ok_bind, hfull]
    obtain ⟨P', pos, hrun, hgood, hpre, hpos⟩ :=
      ih (if k = 0 then P.tiles.length else mine) hP' hmem hbelow'
    refine ⟨P', pos, hrun, hgood, (prefix_append _ _).trans hpre, fun _ => ?_⟩
    rcases eq_zero_or_pos k with rfl | hk0
    · rw [planDown, if_pos rfl] at hrun
      cases hrun
      rw [Planned.getElem?_push_last, Node.above_zero]
    · exact hpos hk0

/-! ### Planning -/

lemma exists_edge_tile (h30 : height ≤ MAX_TILE_HEIGHT) (hsize : size ≤ MAX_TREE_SIZE) {t : Tile}
    (ht : IsTile height size t) (hpart : t.isFull = false) :
    ∃ x ∈ subtrees size, x.tile height size = t := by
  obtain ⟨hhas, heq⟩ := ht
  rw [heq] at hpart
  obtain ⟨-, hwidth, hne⟩ := hhas.edge h30 hpart
  obtain ⟨x, hx, hlevel, hindex, -⟩ :=
    exists_mem_subtrees h30 hsize hhas hpart (j := 0) (by omega)
  exact ⟨x, hx, by rw [Node.tile, hlevel, hindex, ← heq]⟩

lemma planEdge_spec (h1 : 1 ≤ height) (h30 : height ≤ MAX_TILE_HEIGHT)
    (hsize : size ≤ MAX_TREE_SIZE) (xs : List Node) (hxs : ∀ x ∈ xs, x ∈ subtrees size)
    {P : Planned} (hwf : P.Wf)
    (hP : ∀ t ∈ P.tiles, IsTile height size t ∧ t.isFull = false) :
    ∃ P' edge, planEdge height size xs P = (.ok (P', edge) : Outcome (Error β) _) ∧
      P'.Wf ∧ (∀ t ∈ P'.tiles, IsTile height size t ∧ t.isFull = false) ∧
      P.tiles <+: P'.tiles ∧ edge.map Prod.fst = xs ∧
      ∀ e ∈ edge, P'.tiles[e.2]? = some (e.1.tile height size) := by
  induction xs generalizing P with
  | nil => exact ⟨P, [], rfl, hwf, hP, prefix_rfl, rfl, by simp⟩
  | cons x xs ih =>
    have hx := hxs x mem_cons_self
    have hplaced := ((inside_of_mem_subtrees hsize hx).placed h1 hsize).1
    have hanc := (Node.hasAbove_zero.2 hplaced).tileAncestor h1
    rw [Node.above_zero] at hanc
    -- the tile of `x` is planned, now or before
    obtain ⟨Q, pos, hQ, hQwf, hQall, hpre, hpos⟩ : ∃ Q pos,
        (match P.order.get (x.tile height size) with
          | some pos => (P, pos)
          | none => (P.push (x.tile height size), P.tiles.length)) = (Q, pos) ∧ Q.Wf ∧
        (∀ t ∈ Q.tiles, IsTile height size t ∧ t.isFull = false) ∧ P.tiles <+: Q.tiles ∧
        Q.tiles[pos]? = some (x.tile height size) := by
      cases hget : P.order.get (x.tile height size) with
      | some pos => exact ⟨P, pos, rfl, hwf, hP, prefix_rfl, (hwf _ _).1 hget⟩
      | none =>
        refine ⟨_, _, rfl, hwf.push (hwf.get_eq_none.1 hget), fun t ht => ?_,
          prefix_append _ _, Planned.getElem?_push_last _ _⟩
        rcases mem_append.1 ht with ht | ht
        · exact hP t ht
        · rw [mem_singleton.1 ht]
          exact ⟨⟨hplaced, rfl⟩, isFull_of_mem_subtrees h1 h30 hsize hx⟩
    obtain ⟨P', edge, hrun, hwf', hall, hpre', hmap, hedge⟩ :=
      ih (fun y hy => hxs y (mem_cons_of_mem _ hy)) hQwf hQall
    refine ⟨P', (x, pos) :: edge, ?_, hwf', hall, hpre.trans hpre', by simp [hmap], ?_⟩
    · rw [planEdge, hanc, okOr_some, ok_bind]
      simp only [hQ, hrun, ok_bind]
    · intro e he
      rcases mem_cons.1 he with rfl | he
      · exact Planned.getElem?_mono hpre' hpos
      · exact hedge e he

lemma planNode_spec (h1 : 1 ≤ height) (h30 : height ≤ MAX_TILE_HEIGHT)
    (hsize : size ≤ MAX_TREE_SIZE) {x : Node} (hx : x.Inside size) {P : Planned}
    (hP : Good height size n P) :
    ∃ P' pos, planNode height size x P = (.ok (P', pos) : Outcome (Error β) _) ∧
      Good height size n P' ∧ P.tiles <+: P'.tiles ∧
      P'.tiles[pos]? = some (x.tile height size) := by
  obtain ⟨top, j, hclimb, hj, hbelow⟩ := climb_spec (β := β) h1 h30 hsize hP (m := 65) (k := 0)
    (by omega) (Node.hasAbove_zero.2 (hx.placed h1 hsize).1) (fun i hi => absurd hi (by omega))
  simp only [planNode, hclimb, ok_bind]
  rcases eq_zero_or_pos top with rfl | htop
  · rw [Node.above_zero] at hj
    exact ⟨P, j, if_pos rfl, hP, prefix_rfl, hj⟩
  · obtain ⟨Q, pos, hrun, hgood, hpre, hpos⟩ :=
      planDown_spec (β := β) h1 0 hP (mem_of_getElem? hj) hbelow
    exact ⟨Q, pos, by rw [if_neg (by omega), hrun], hgood, hpre, hpos htop⟩

lemma planNodes_spec (h1 : 1 ≤ height) (h30 : height ≤ MAX_TILE_HEIGHT)
    (hsize : size ≤ MAX_TREE_SIZE) {xs : List Node} (hxs : ∀ x ∈ xs, x.Inside size)
    {P : Planned} (hP : Good height size n P) :
    ∃ P' poss, planNodes height size xs P = (.ok (P', poss) : Outcome (Error β) _) ∧
      Good height size n P' ∧ P.tiles <+: P'.tiles ∧
      Forall₂ (fun x pos => P'.tiles[pos]? = some (x.tile height size)) xs poss := by
  induction xs generalizing P with
  | nil => exact ⟨P, [], rfl, hP, prefix_rfl, Forall₂.nil⟩
  | cons x xs ih =>
    obtain ⟨Q, pos, hQ, hQgood, hpre, hpos⟩ :=
      planNode_spec (β := β) h1 h30 hsize (hxs x mem_cons_self) hP
    obtain ⟨P', poss, hrun, hgood, hpre', hall⟩ :=
      ih (fun y hy => hxs y (mem_cons_of_mem _ hy)) hQgood
    refine ⟨P', pos :: poss, ?_, hgood, hpre.trans hpre',
      Forall₂.cons (Planned.getElem?_mono hpre' hpos) hall⟩
    simp only [planNodes, hQ, hrun, ok_bind]

lemma checkNodes_eq_ok (hsize : size ≤ MAX_TREE_SIZE) {nodes : List Node} {u : Unit} :
    checkNodes size nodes = (.ok u : Outcome (Error β) _) ↔ ∀ x ∈ nodes, x.Inside size := by
  induction nodes with
  | nil => simp [checkNodes]
  | cons x nodes ih =>
    rw [checkNodes, forall_mem_cons, Node.Inside, Nat.shiftLeft_eq]
    by_cases hx : (x.index + 1) * 2 ^ x.level ≤ size
    · have hlevel : 2 ^ x.level ≤ 2 ^ 62 :=
        (Nat.le_mul_of_pos_left _ (by omega)).trans (Nat.le_trans hx hsize)
      have := (Nat.pow_le_pow_iff_right (a := 2) (by omega)).1 hlevel
      rw [if_neg (by omega), ih]
      simp [hx]
    · rw [if_pos (by omega)]
      simp [hx]

theorem plan_spec (tree : Tree β) {nodes : List Node} (h1 : 1 ≤ height)
    (h30 : height ≤ MAX_TILE_HEIGHT) (hsize : tree.size ≤ MAX_TREE_SIZE)
    (hnodes : ∀ x ∈ nodes, x.Inside tree.size) :
    ∃ p, plan tree height nodes = .ok p ∧ PlanOk height tree.size nodes p := by
  obtain ⟨P, edge, hedge, hwf, hall, -, hmap, hpos⟩ := planEdge_spec (β := β) h1 h30 hsize
    (subtrees tree.size) (fun _ h => h) Planned.wf_new (by simp [Planned.new])
  have hgood : Good height tree.size P.tiles.length P := by
    refine ⟨hwf, fun t ht => (hall t ht).1, fun t ht hpart => ?_, fun i hi t ht => ?_⟩
    · obtain ⟨x, hx, rfl⟩ := exists_edge_tile h30 hsize ht hpart
      rw [← hmap, mem_map] at hx
      obtain ⟨e, he, rfl⟩ := hx
      exact mem_of_getElem? (hpos e he)
    · exact absurd (List.getElem?_eq_some_iff.1 ht).1 (by omega)
  obtain ⟨P', poss, hrun, hgood', hpre, hnode⟩ := planNodes_spec (β := β) h1 h30 hsize hnodes hgood
  refine ⟨⟨P'.tiles, edge, P.tiles.length, poss⟩, ?_, hgood'.wf.nodup, hgood'.isTile, hmap,
    fun e he => Planned.getElem?_mono hpre (hpos e he), fun i hi => ?_, hgood'.parents, hnode⟩
  · rw [plan, if_neg (by omega), if_neg (by omega), (checkNodes_eq_ok (u := ()) hsize).2 hnodes]
    simp only [hedge, hrun, ok_bind]
  · refine ⟨P.tiles.get ⟨i, hi⟩, Planned.getElem?_mono hpre (getElem?_eq_getElem hi), ?_⟩
    exact (hall _ (get_mem _ _)).2

lemma inside_of_plan {tree : Tree β} {nodes : List Node} {p : Plan}
    (h : plan tree height nodes = .ok p) :
    1 ≤ height ∧ height ≤ MAX_TILE_HEIGHT ∧ tree.size ≤ MAX_TREE_SIZE ∧
      ∀ x ∈ nodes, x.Inside tree.size := by
  rw [plan] at h
  split_ifs at h with hheight hsize
  obtain ⟨u, hcheck, -⟩ := bind_eq_ok.1 h
  have hsize' : tree.size ≤ MAX_TREE_SIZE := by omega
  exact ⟨by omega, by omega, hsize', (checkNodes_eq_ok hsize').1 hcheck⟩

lemma PlanOk.of_plan {tree : Tree β} {nodes : List Node} {p : Plan}
    (h : plan tree height nodes = .ok p) : PlanOk height tree.size nodes p := by
  obtain ⟨h1, h30, hsize, hnodes⟩ := inside_of_plan h
  obtain ⟨p', hp', hok⟩ := plan_spec tree h1 h30 hsize hnodes
  rw [h, Outcome.ok.injEq] at hp'
  rwa [hp']

end Lazaret.Tlog
