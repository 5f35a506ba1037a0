import Lazaret.Archive.CollisionJoins
import Mathlib.Data.List.GetD

/-!
# The groups of what collides

The last loops of `collisions` make a group of every root that has two entries at least, in the
order of the roots (`grouped_foldl`).  The root of a group is its smallest entry, so the groups are
the connected entries in the order of their smallest ones (`path_collisions_exact`).
-/

namespace Lazaret.Archive.Extract

open List

/-! ## The loops over the entries -/

section Grouped

variable (r : ℕ → ℕ) (size : ℕ → ℕ) (flags : ℕ → Flags) (start : ℕ → Option ℕ)

def rootsTo (m : ℕ) : List ℕ := (List.range m).filter fun k => r k = k ∧ 2 ≤ size k

def groupAt (m k : ℕ) : Collision :=
  let l := (List.range m).filter fun i => r i = k
  ⟨l, l.any fun i => (flags i).duplicate, l.any fun i => (flags i).alias_,
    l.any fun i => (flags i).fileDirectory⟩

structure Grouped (m : ℕ) (s : Groups) : Prop where
  roots : ∀ j, s.parent.root j = r j
  groupOfRoot : ∀ k, s.groupOfRoot k =
    if k ∈ rootsTo r size m then some ((rootsTo r size m).idxOf k) else none
  groups : s.groups = (rootsTo r size m).map (groupAt r flags m)
  collision : ∀ i, s.collision i =
    if i < m ∧ 2 ≤ size (r i) then some ((rootsTo r size m).idxOf (r i)) else start i

variable {r size flags start} {m k : ℕ}

lemma mem_rootsTo : k ∈ rootsTo r size m ↔ k < m ∧ r k = k ∧ 2 ≤ size k := by
  simp [rootsTo]

lemma nodup_rootsTo : (rootsTo r size m).Nodup := nodup_range.filter _

lemma rootsTo_succ : rootsTo r size (m + 1) =
    rootsTo r size m ++ if r m = m ∧ 2 ≤ size m then [m] else [] := by
  rw [rootsTo, rootsTo, range_succ, filter_append]
  congr 1
  by_cases h : r m = m ∧ 2 ≤ size m <;> simp [h]

lemma groupAt_succ : groupAt r flags (m + 1) k =
    if r m = k then
      ⟨(groupAt r flags m k).entries ++ [m],
        (groupAt r flags m k).duplicate || (flags m).duplicate,
        (groupAt r flags m k).alias_ || (flags m).alias_,
        (groupAt r flags m k).fileDirectory || (flags m).fileDirectory⟩
    else groupAt r flags m k := by
  simp only [groupAt, range_succ, filter_append]
  by_cases h : r m = k <;> simp [h]

lemma modify_map_idxOf {β : Type} {l : List ℕ} (hn : l.Nodup) (hk : k ∈ l) (f : ℕ → β)
    (h : β → β) :
    (l.map f).modify (l.idxOf k) h = l.map fun x => if x = k then h (f x) else f x := by
  induction l with
  | nil => cases hk
  | cons a l ih =>
    obtain ⟨ha, hl⟩ := nodup_cons.1 hn
    by_cases hak : a = k
    · subst hak
      have hrest : l.map (fun x => if x = a then h (f x) else f x) = l.map f := by
        refine map_congr_left fun x hx => if_neg ?_
        rintro rfl
        exact ha hx
      simp [hrest]
    · have hkl : k ∈ l := (mem_cons.1 hk).resolve_left fun h => hak h.symm
      rw [idxOf_cons_ne _ hak, map_cons, map_cons, modify_succ_cons, ih hl hkl, if_neg hak]

lemma groupAt_self (hle : ∀ i, r i ≤ i) : groupAt r flags m m = ⟨[], false, false, false⟩ := by
  have hnone : (range m).filter (fun i => r i = m) = [] := by
    rw [filter_eq_nil_iff]
    intro i hi
    have := hle i
    have := mem_range.1 hi
    rw [decide_eq_true_eq]
    omega
  rw [groupAt, hnone]
  rfl

lemma Grouped.step {s : Groups} (h : Grouped r size flags start m s) (hle : ∀ i, r i ≤ i)
    (hroot : ∀ i, r (r i) = r i) :
    Grouped r size flags start (m + 1) (group size flags s m) := by
  obtain ⟨hroots, hof, hgroups, hcollision⟩ := h
  have hfind : ∀ j, (s.parent.find m).2.root j = r j := fun j => by
    rw [UnionFind.root_find, hroots]
  rw [group]
  dsimp only
  rw [UnionFind.find_fst, hroots]
  by_cases hsmall : size (r m) < 2
  · have hsame : rootsTo r size (m + 1) = rootsTo r size m := by
      rw [rootsTo_succ, if_neg, append_nil]
      rintro ⟨hm, hbig⟩
      rw [hm] at hsmall
      omega
    rw [if_pos hsmall]
    refine ⟨hfind, by rw [hsame]; exact hof, ?_, fun i => ?_⟩
    · show s.groups = _
      rw [hgroups, hsame]
      refine map_congr_left fun k hk => ?_
      rw [groupAt_succ, if_neg]
      rintro rfl
      have := (mem_rootsTo.1 hk).2.2
      omega
    · show s.collision i = _
      rw [hcollision, hsame]
      by_cases him : i = m
      · subst him
        rw [if_neg (by omega), if_neg (by omega)]
      · have hlt : i < m + 1 ↔ i < m := by omega
        simp only [hlt]
  · rw [if_neg hsmall]
    have hbig : 2 ≤ size (r m) := by omega
    have hmem : r m ∈ rootsTo r size (m + 1) :=
      mem_rootsTo.2 ⟨Nat.lt_succ_of_le (hle m), hroot m, hbig⟩
    -- the group is the last one when the entry is its own root, and is there already when it is not
    have hnew : (if (s.groupOfRoot (r m)).isSome then s.groups
          else s.groups ++ [⟨[], false, false, false⟩]) =
        (rootsTo r size (m + 1)).map (groupAt r flags m) ∧
        (s.groupOfRoot (r m)).getD s.groups.length = (rootsTo r size (m + 1)).idxOf (r m) := by
      by_cases hself : r m = m
      · have hnot : m ∉ rootsTo r size m := fun hm => lt_irrefl _ (mem_rootsTo.1 hm).1
        have hsucc : rootsTo r size (m + 1) = rootsTo r size m ++ [m] := by
          rw [rootsTo_succ, if_pos ⟨hself, hself ▸ hbig⟩]
        rw [hof, hself, if_neg hnot, hsucc, hgroups, map_append, map_singleton,
          groupAt_self hle, idxOf_append_of_notMem hnot]
        simp
      · have hlt : r m < m := lt_of_le_of_ne (hle m) hself
        have hold : r m ∈ rootsTo r size m := mem_rootsTo.2 ⟨hlt, hroot m, hbig⟩
        have hsucc : rootsTo r size (m + 1) = rootsTo r size m := by
          rw [rootsTo_succ, if_neg (fun h => hself h.1), append_nil]
        rw [hof, if_pos hold, hsucc, hgroups]
        simp
    obtain ⟨hlist, hindex⟩ := hnew
    have hidx : ∀ k ∈ rootsTo r size m,
        (rootsTo r size (m + 1)).idxOf k = (rootsTo r size m).idxOf k := fun k hk => by
      rw [rootsTo_succ, idxOf_append_of_mem hk]
    refine ⟨hfind, fun k => ?_, ?_, fun i => ?_⟩
    · dsimp only
      rw [hindex]
      by_cases hk : k = r m
      · rw [hk, Function.update_self, if_pos hmem]
      · rw [Function.update_of_ne hk, hof]
        have hiff : k ∈ rootsTo r size (m + 1) ↔ k ∈ rootsTo r size m := by
          rw [rootsTo_succ, mem_append, or_iff_left]
          split_ifs with hm
          · rw [mem_singleton]
            exact fun hkm => hk (hkm.trans hm.1.symm)
          · exact not_mem_nil
        by_cases hmemk : k ∈ rootsTo r size m
        · rw [if_pos hmemk, if_pos (hiff.2 hmemk), hidx k hmemk]
        · rw [if_neg hmemk, if_neg (mt hiff.1 hmemk)]
    · dsimp only
      rw [hlist, hindex, addTo, modify_map_idxOf nodup_rootsTo hmem]
      refine map_congr_left fun k _ => ?_
      rw [groupAt_succ]
      by_cases hk : k = r m
      · rw [if_pos hk, if_pos hk.symm]
      · rw [if_neg hk, if_neg (Ne.symm hk)]
    · dsimp only
      rw [hindex]
      by_cases him : i = m
      · rw [him, Function.update_self, if_pos ⟨by omega, hbig⟩]
      · rw [Function.update_of_ne him, hcollision]
        have hlt : i < m + 1 ↔ i < m := by omega
        simp only [hlt]
        split_ifs with hi
        · have hmemi : r i ∈ rootsTo r size m :=
            mem_rootsTo.2 ⟨(hle i).trans_lt hi.1, hroot i, hi.2⟩
          rw [hidx _ hmemi]
        · rfl

lemma grouped_foldl {parent : UnionFind} (hroots : ∀ j, parent.root j = r j) (hle : ∀ i, r i ≤ i)
    (hroot : ∀ i, r (r i) = r i) (m : ℕ) :
    Grouped r size flags start m
      ((range m).foldl (group size flags) ⟨parent, fun _ => none, [], start⟩) := by
  induction m with
  | zero => exact ⟨hroots, fun k => by simp [rootsTo], by simp [rootsTo], fun i => by simp⟩
  | succ m ih =>
    rw [range_succ, foldl_append]
    exact ih.step hle hroot

end Grouped

lemma countRoots_eq (n : ℕ) (p : UnionFind) :
    (∀ j, (countRoots n p).1.root j = p.root j) ∧
      ∀ k, (countRoots n p).2 k = ((range n).filter fun i => p.root i = k).length := by
  induction n with
  | zero => exact ⟨fun j => rfl, fun k => by simp [countRoots]⟩
  | succ n ih =>
    obtain ⟨hroots, hsize⟩ := ih
    have hstep : countRoots (n + 1) p = (((countRoots n p).1.find n).2,
        Function.update (countRoots n p).2 ((countRoots n p).1.find n).1
          ((countRoots n p).2 ((countRoots n p).1.find n).1 + 1)) := by
      rw [countRoots, range_succ, foldl_append]
      rfl
    rw [hstep]
    refine ⟨fun j => by rw [UnionFind.root_find, hroots], fun k => ?_⟩
    dsimp only
    rw [UnionFind.find_fst, hroots, range_succ, filter_append, length_append]
    by_cases hk : k = p.root n
    · rw [hk, Function.update_self, hsize]
      simp
    · rw [Function.update_of_ne hk, hsize]
      simp [Ne.symm hk]

/-! ## The groups -/

section Exact

variable (T : Tables) (entries : List Entry)

/-- The groups are what collides, each as the entries that are connected. -/
structure Exact (groups : List Collision) : Prop where
  many : ∀ g ∈ groups, 2 ≤ g.entries.length ∧ g.entries.Pairwise (· < ·)
  /-- The entries of a group are all that are connected with one of them. -/
  component : ∀ g ∈ groups, ∀ i ∈ g.entries, i < entries.length ∧
    ∀ j, j ∈ g.entries ↔ j < entries.length ∧ Connected T entries i j
  /-- Entries that are connected with others are in a group. -/
  all : ∀ i j, i < entries.length → j < entries.length → i ≠ j → Connected T entries i j →
    ∃ g ∈ groups, i ∈ g.entries
  /-- The groups are in the order of their smallest entries. -/
  ordered : groups.Pairwise fun g h => ∃ i ∈ g.entries, ∀ j ∈ h.entries, i < j
  duplicate : ∀ g ∈ groups, g.duplicate = true ↔ ∃ i ∈ g.entries, ∃ j ∈ g.entries, i ≠ j ∧
    SharesKey T entries i j ∧ (entryAt entries i).name = (entryAt entries j).name
  alias_ : ∀ g ∈ groups, g.alias_ = true ↔ ∃ i ∈ g.entries, ∃ j ∈ g.entries,
    SharesKey T entries i j ∧ (entryAt entries i).name ≠ (entryAt entries j).name
  fileDirectory : ∀ g ∈ groups, g.fileDirectory = true ↔ ∃ i ∈ g.entries, ∃ j ∈ g.entries,
    InPlaceOf T entries i j

/-- The root of each entry, as `collisions` finds it. -/
abbrev rootOf (i : ℕ) : ℕ := (joinAll T entries).parent.root i

abbrev sizeOf (k : ℕ) : ℕ :=
  ((List.range entries.length).filter fun i => rootOf T entries i = k).length

variable {T entries} {i j k : ℕ}

variable (T entries) in
lemma collisions_eq : ∃ s, collisions T entries =
      (s.groups, entries.mapIdx fun i e => { e with collision := s.collision i }) ∧
    Grouped (rootOf T entries) (sizeOf T entries) (joinAll T entries).flags
      (fun i => (entryAt entries i).collision) entries.length s := by
  obtain ⟨hroots, hsize⟩ := countRoots_eq entries.length (joinAll T entries).parent
  have hfun : (countRoots entries.length (joinAll T entries).parent).2 = sizeOf T entries :=
    funext hsize
  refine ⟨_, rfl, ?_⟩
  rw [← hfun]
  exact grouped_foldl hroots (UnionFind.root_le _) (UnionFind.root_root _) _

lemma root_iff : rootOf T entries i = rootOf T entries j ↔ Connected T entries i j := root_joinAll

abbrev groupOf (T : Tables) (entries : List Entry) (k : ℕ) : Collision :=
  groupAt (rootOf T entries) (joinAll T entries).flags entries.length k

lemma mem_groupOf : i ∈ (groupOf T entries k).entries ↔ i < entries.length ∧
    rootOf T entries i = k := by
  simp [groupAt]

lemma mem_groupOf_of_connected (hj : j < entries.length) (h : Connected T entries i j)
    (hi : i ∈ (groupOf T entries k).entries) : j ∈ (groupOf T entries k).entries := by
  rw [mem_groupOf] at hi ⊢
  exact ⟨hj, (root_iff.2 h).symm.trans hi.2⟩

lemma SharesKey.connected (h : SharesKey T entries i j) : Connected T entries i j :=
  .rel _ _ (.inl h)

lemma SharesKey.trans (h : SharesKey T entries i j) (h' : SharesKey T entries i k) :
    SharesKey T entries j k := by
  obtain ⟨hi, hj, hij, f, hf, hfi⟩ := h
  obtain ⟨-, hk, hik, -⟩ := h'
  exact ⟨hj, hk, hij.symm.trans hik, f, hf, hfi.trans hij⟩

lemma InPlaceOf.lt (h : InPlaceOf T entries i j) : i < entries.length ∧ j < entries.length := by
  rcases h with ⟨-, h, -⟩ | h
  · exact ⟨h.1, h.2.1⟩
  · exact ⟨h.1.1, h.2.1⟩

lemma groupOf_runFlag {b : Flags → Bool} {P : ℕ → ℕ → Prop}
    (hflag : ∀ i, b ((joinAll T entries).flags i) = true ↔
      ∃ j k, SharesKey T entries i j ∧ SharesKey T entries i k ∧ P j k) :
    ((groupOf T entries k).entries.any fun i => b ((joinAll T entries).flags i)) = true ↔
      ∃ i ∈ (groupOf T entries k).entries, ∃ j ∈ (groupOf T entries k).entries,
        SharesKey T entries i j ∧ P i j := by
  rw [any_eq_true]
  constructor
  · rintro ⟨i, hi, h⟩
    obtain ⟨a, c, ha, hc, hP⟩ := (hflag i).1 h
    exact ⟨a, mem_groupOf_of_connected ha.2.1 ha.connected hi, c,
      mem_groupOf_of_connected hc.2.1 hc.connected hi, ha.trans hc, hP⟩
  · rintro ⟨i, hi, j, -, hshares, hP⟩
    exact ⟨i, hi, (hflag i).2 ⟨i, j, hshares.symm.trans hshares.symm, hshares, hP⟩⟩

lemma groupOf_fileDirectory : (groupOf T entries k).fileDirectory = true ↔
    ∃ i ∈ (groupOf T entries k).entries, ∃ j ∈ (groupOf T entries k).entries,
      InPlaceOf T entries i j := by
  show ((groupOf T entries k).entries.any fun i => _) = true ↔ _
  rw [any_eq_true]
  constructor
  · rintro ⟨i, hi, hflag⟩
    obtain ⟨file, j, hplace, hfile, hj⟩ := inPlaceOf_of_fileDirectory hflag
    exact ⟨file, mem_groupOf_of_connected hplace.lt.1 hfile hi, j,
      mem_groupOf_of_connected hplace.lt.2 hj hi, hplace⟩
  · rintro ⟨i, -, j, hj, hplace⟩
    exact ⟨j, hj, fileDirectory_of_inPlaceOf hplace⟩

lemma exact_groups : Exact T entries
    ((rootsTo (rootOf T entries) (sizeOf T entries) entries.length).map (groupOf T entries)) where
  many := by
    rw [forall_mem_map]
    intro k hk
    exact ⟨(mem_rootsTo.1 hk).2.2, pairwise_lt_range.filter _⟩
  component := by
    rw [forall_mem_map]
    intro k _ i hi
    refine ⟨(mem_groupOf.1 hi).1, fun j => ?_⟩
    rw [mem_groupOf, ← root_iff, (mem_groupOf.1 hi).2, eq_comm]
  all := by
    intro i j hi hj hne h
    have hroot := root_iff.2 h
    have hle : rootOf T entries i ≤ i := UnionFind.root_le _ i
    refine ⟨groupOf T entries (rootOf T entries i), mem_map_of_mem ?_, mem_groupOf.2 ⟨hi, rfl⟩⟩
    refine mem_rootsTo.2 ⟨by omega, UnionFind.root_root _ i, ?_⟩
    exact one_lt_length (mem_groupOf.2 ⟨hi, rfl⟩) (mem_groupOf.2 ⟨hj, hroot.symm⟩) hne
  ordered := by
    rw [pairwise_map]
    have hsorted : (rootsTo (rootOf T entries) (sizeOf T entries) entries.length).Pairwise
      (· < ·) :=
      pairwise_lt_range.filter _
    refine hsorted.imp_of_mem fun {a b} ha _ hab => ?_
    obtain ⟨hlt, hroot, -⟩ := mem_rootsTo.1 ha
    refine ⟨a, mem_groupOf.2 ⟨hlt, hroot⟩, fun j hj => ?_⟩
    have hle : rootOf T entries j ≤ j := UnionFind.root_le _ j
    rw [(mem_groupOf.1 hj).2] at hle
    omega
  duplicate := by
    rw [forall_mem_map]
    refine fun k _ => (groupOf_runFlag (b := (·.duplicate)) fun _ => duplicate_joinAll).trans ?_
    simp only [and_left_comm (a := SharesKey ..)]
  alias_ := by
    rw [forall_mem_map]
    exact fun k _ => groupOf_runFlag (b := (·.alias_)) fun _ => alias_joinAll
  fileDirectory := by
    rw [forall_mem_map]
    exact fun k _ => groupOf_fileDirectory

/-- Path collisions are found exactly: the groups are the entries that collide, connected, and each
entry has the index of its group, or none when it collides with no other. -/
theorem path_collisions_exact (T : Tables) (entries : List Entry)
    (h : ∀ e ∈ entries, e.collision = none) :
    Exact T entries (collisions T entries).1 ∧
      (collisions T entries).2.length = entries.length ∧
      ∀ i < entries.length, ∃ x, (collisions T entries).2[i]? =
          some { entryAt entries i with collision := x } ∧
        ∀ g, x = some g ↔ ∃ group, (collisions T entries).1[g]? = some group ∧
          i ∈ group.entries := by
  obtain ⟨s, hs, hgrouped⟩ := collisions_eq T entries
  rw [hs]
  dsimp only
  rw [hgrouped.groups]
  refine ⟨exact_groups, length_mapIdx, fun i hi => ⟨s.collision i, ?_, fun g => ?_⟩⟩
  · rw [getElem?_mapIdx, getElem?_eq_getElem hi, Option.map_some, entryAt,
      getD_eq_getElem _ _ hi]
  · have hgroup : (∃ group, ((rootsTo (rootOf T entries) (sizeOf T entries) entries.length).map
        (groupOf T entries))[g]? = some group ∧ i ∈ group.entries) ↔
        (rootsTo (rootOf T entries) (sizeOf T entries) entries.length)[g]? =
          some (rootOf T entries i) := by
      simp only [getElem?_map, Option.map_eq_some_iff]
      constructor
      · rintro ⟨-, ⟨k, hk, rfl⟩, hmem⟩
        rw [hk, (mem_groupOf.1 hmem).2]
      · intro hk
        exact ⟨_, ⟨_, hk, rfl⟩, mem_groupOf.2 ⟨hi, rfl⟩⟩
    have hnone : (entryAt entries i).collision = none := by
      rw [entryAt, getD_eq_getElem _ _ hi]
      exact h _ (getElem_mem hi)
    have hle : rootOf T entries i ≤ i := UnionFind.root_le _ i
    rw [hgroup, hgrouped.collision]
    split_ifs with hbig
    · have hmem : rootOf T entries i ∈
          rootsTo (rootOf T entries) (sizeOf T entries) entries.length :=
        mem_rootsTo.2 ⟨by omega, UnionFind.root_root _ i, hbig.2⟩
      rw [Option.some.injEq]
      constructor
      · rintro rfl
        exact getElem?_idxOf hmem
      · intro hk
        obtain ⟨hlt, hk⟩ := List.getElem?_eq_some_iff.1 hk
        rw [← hk, nodup_rootsTo.idxOf_getElem]
    · rw [hnone]
      simp only [reduceCtorEq, false_iff]
      intro hk
      exact hbig ⟨hi, (mem_rootsTo.1 (mem_of_getElem? hk)).2.2⟩

def plainTables : Tables := ⟨[], [], [], fun c => [c]⟩

/-- Two files of one name, and a file below their key. -/
def colliding : List Entry :=
  [⟨['a'], .File, [1], none, none⟩, ⟨['b'], .File, [], none, none⟩,
    ⟨['a'], .File, [2], none, none⟩, ⟨['a', '/', 'c'], .File, [], none, none⟩]

theorem path_collisions_exact_colliding :
    Exact plainTables colliding (collisions plainTables colliding).1 ∧
      (collisions plainTables colliding).2.length = 4 := by
  obtain ⟨hexact, hlength, -⟩ := path_collisions_exact plainTables colliding (by decide)
  exact ⟨hexact, hlength⟩

end Exact

end Lazaret.Archive.Extract
