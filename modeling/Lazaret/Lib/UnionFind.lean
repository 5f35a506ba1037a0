import Mathlib.Order.MinMax
import Mathlib.Data.List.Induction

/-!
# Union-find

Parents of numbers, each no larger than what it is the parent of, with the way up halved while it is
gone (`find`) and the larger of two roots put under the smaller one (`union`).  The root of a number
is the smallest that it was joined with: two numbers have one root just when the joins connect them
(`root_eq_root_iff`).
-/

namespace Lazaret

open List

/-- Parents: none is larger than what it is the parent of, so every way up ends. -/
structure UnionFind where
  parent : ℕ → ℕ
  le : ∀ i, parent i ≤ i

namespace UnionFind

def single : UnionFind := ⟨id, fun _ => le_rfl⟩

lemma parent_lt (p : UnionFind) {i : ℕ} (h : p.parent i ≠ i) : p.parent i < i :=
  lt_of_le_of_ne (p.le i) h

def root (p : UnionFind) (i : ℕ) : ℕ := if _h : p.parent i = i then i else p.root (p.parent i)
termination_by i
decreasing_by exact p.parent_lt _h

/-- The parent of the parent of a number becomes its parent. -/
def halve (p : UnionFind) (i : ℕ) : UnionFind where
  parent := Function.update p.parent i (p.parent (p.parent i))
  le := by
    intro j
    by_cases h : j = i
    · rw [h, Function.update_self]
      exact (p.le _).trans (p.le i)
    · rw [Function.update_of_ne h]
      exact p.le j

def find (p : UnionFind) (i : ℕ) : ℕ × UnionFind :=
  if _h : p.parent i = i then (i, p) else (p.halve i).find (p.parent (p.parent i))
termination_by i
decreasing_by exact (p.le _).trans_lt (p.parent_lt _h)

def link (p : UnionFind) (a b : ℕ) (h : b ≤ a) : UnionFind where
  parent := Function.update p.parent a b
  le := by
    intro j
    by_cases hj : j = a
    · rw [hj, Function.update_self]
      exact h
    · rw [Function.update_of_ne hj]
      exact p.le j

/-- The larger of the two roots is put under the smaller one. -/
def union (p : UnionFind) (a b : ℕ) : UnionFind :=
  let (ra, p) := p.find a
  let (rb, p) := p.find b
  if ra ≠ rb then p.link (max ra rb) (min ra rb) min_le_max else p

variable {p q : UnionFind} {i j a b : ℕ}

/-! ### Roots -/

lemma root_of_parent_eq (h : p.parent i = i) : p.root i = i := by
  rw [root, dif_pos h]

@[simp] lemma root_parent (p : UnionFind) (i : ℕ) : p.root (p.parent i) = p.root i := by
  by_cases h : p.parent i = i
  · rw [h]
  · conv_rhs => rw [root, dif_neg h]

lemma parent_root (p : UnionFind) (i : ℕ) : p.parent (p.root i) = p.root i := by
  induction i using Nat.strong_induction_on with
  | _ i ih =>
    by_cases h : p.parent i = i
    · rw [root_of_parent_eq h, h]
    · rw [← root_parent]
      exact ih _ (p.parent_lt h)

@[simp] lemma root_root (p : UnionFind) (i : ℕ) : p.root (p.root i) = p.root i :=
  root_of_parent_eq (p.parent_root i)

lemma root_le (p : UnionFind) (i : ℕ) : p.root i ≤ i := by
  induction i using Nat.strong_induction_on with
  | _ i ih =>
    by_cases h : p.parent i = i
    · rw [root_of_parent_eq h]
    · rw [← root_parent]
      exact (ih _ (p.parent_lt h)).trans (p.le i)

lemma parent_halve_self (p : UnionFind) (i : ℕ) :
    (p.halve i).parent i = p.parent (p.parent i) :=
  Function.update_self ..

lemma parent_halve_of_ne (h : j ≠ i) : (p.halve i).parent j = p.parent j :=
  Function.update_of_ne h ..

lemma root_halve (p : UnionFind) (i j : ℕ) : (p.halve i).root j = p.root j := by
  induction j using Nat.strong_induction_on with
  | _ j ih =>
    by_cases hself : p.parent j = j
    · have hhalf : (p.halve i).parent j = j := by
        by_cases hj : j = i
        · rw [← hj, parent_halve_self, hself, hself]
        · rw [parent_halve_of_ne hj, hself]
      rw [root_of_parent_eq hself, root_of_parent_eq hhalf]
    · rw [← (p.halve i).root_parent]
      by_cases hj : j = i
      · subst hj
        rw [parent_halve_self, ih _ ((p.le _).trans_lt (p.parent_lt hself)), root_parent,
          root_parent]
      · rw [parent_halve_of_ne hj, ih _ (p.parent_lt hself), root_parent]

lemma find_eq (p : UnionFind) (i : ℕ) :
    (p.find i).1 = p.root i ∧ ∀ j, (p.find i).2.root j = p.root j := by
  induction i using Nat.strong_induction_on generalizing p with
  | _ i ih =>
    rw [find]
    split
    · rename_i h
      exact ⟨(root_of_parent_eq h).symm, fun _ => rfl⟩
    · rename_i h
      obtain ⟨hroot, hsame⟩ := ih _ ((p.le _).trans_lt (p.parent_lt h)) (p.halve i)
      constructor
      · rw [hroot, root_halve, root_parent, root_parent]
      · intro j
        rw [hsame, root_halve]

@[simp] lemma find_fst (p : UnionFind) (i : ℕ) : (p.find i).1 = p.root i := (p.find_eq i).1

@[simp] lemma root_find (p : UnionFind) (i j : ℕ) : (p.find i).2.root j = p.root j :=
  (p.find_eq i).2 j

lemma root_link (ha : p.root a = a) (hb : p.root b = b) (h : b < a) (j : ℕ) :
    (p.link a b h.le).root j = if p.root j = a then b else p.root j := by
  have hparenta : (p.link a b h.le).parent a = b := Function.update_self ..
  have hparent : ∀ k, k ≠ a → (p.link a b h.le).parent k = p.parent k := fun k hk =>
    Function.update_of_ne hk ..
  have hrootb : (p.link a b h.le).root b = b := by
    apply root_of_parent_eq
    rw [hparent b h.ne, ← hb, parent_root]
  induction j using Nat.strong_induction_on with
  | _ j ih =>
    by_cases hj : j = a
    · rw [hj, ← root_parent, hparenta, hrootb, if_pos ha]
    · by_cases hself : p.parent j = j
      · rw [root_of_parent_eq (by rw [hparent j hj, hself]), root_of_parent_eq hself, if_neg hj]
      · rw [← root_parent, hparent j hj, ih _ (p.parent_lt hself), root_parent]

lemma root_union (p : UnionFind) (a b j : ℕ) :
    (p.union a b).root j =
      if p.root j = p.root a ∨ p.root j = p.root b then min (p.root a) (p.root b)
      else p.root j := by
  rw [union]
  dsimp only
  simp only [find_fst, root_find]
  have hsame : ∀ k, ((p.find a).2.find b).2.root k = p.root k := by simp
  by_cases h : p.root a = p.root b
  · rw [if_neg (not_not_intro h), hsame, h, min_self]
    split_ifs with hj
    · exact hj.elim id id
    · rfl
  · rw [if_pos h, root_link]
    · rw [hsame]
      rcases lt_or_gt_of_ne h with hlt | hlt
      · rw [max_eq_right hlt.le, min_eq_left hlt.le]
        split_ifs <;> simp_all
      · rw [max_eq_left hlt.le, min_eq_right hlt.le]
        split_ifs <;> simp_all
    · rw [hsame]
      rcases max_choice (p.root a) (p.root b) with hm | hm <;> rw [hm, root_root]
    · rw [hsame]
      rcases min_choice (p.root a) (p.root b) with hm | hm <;> rw [hm, root_root]
    · exact min_lt_max.2 h

/-! ### Joins -/

def Joined (pairs : List (ℕ × ℕ)) : ℕ → ℕ → Prop := Relation.EqvGen fun a b => (a, b) ∈ pairs

/-- The parents after these joins, one after another. -/
def unions (p : UnionFind) (pairs : List (ℕ × ℕ)) : UnionFind :=
  pairs.foldl (fun p e => p.union e.1 e.2) p

lemma unions_concat (p : UnionFind) (pairs : List (ℕ × ℕ)) (a b : ℕ) :
    p.unions (pairs ++ [(a, b)]) = (p.unions pairs).union a b := by
  rw [unions, foldl_append]
  rfl

lemma root_union_eq_iff :
    (p.union a b).root i = (p.union a b).root j ↔
      p.root i = p.root j ∨ (p.root i = p.root a ∧ p.root j = p.root b) ∨
        (p.root i = p.root b ∧ p.root j = p.root a) := by
  rw [root_union, root_union]
  have hmin := min_choice (p.root a) (p.root b)
  constructor
  · intro h
    split_ifs at h with hi hj hj
    · rcases hi with hi | hi <;> rcases hj with hj | hj <;> simp [hi, hj]
    · rcases hmin with hm | hm <;> rw [hm] at h <;> simp_all
    · rcases hmin with hm | hm <;> rw [hm] at h <;> simp_all
    · exact .inl h
  · rintro (h | ⟨hi, hj⟩ | ⟨hi, hj⟩)
    · rw [h]
    · rw [if_pos (.inl hi), if_pos (.inr hj)]
    · rw [if_pos (.inr hi), if_pos (.inl hj)]

lemma joined_of_mem {pairs : List (ℕ × ℕ)} (h : (a, b) ∈ pairs) : Joined pairs a b :=
  Relation.EqvGen.rel _ _ h

lemma joined_mono {pairs more : List (ℕ × ℕ)} (h : pairs ⊆ more) (hij : Joined pairs i j) :
    Joined more i j :=
  Relation.EqvGen.mono (fun _ _ hab => h hab) _ _ hij

theorem root_eq_root_iff (pairs : List (ℕ × ℕ)) (i j : ℕ) :
    (single.unions pairs).root i = (single.unions pairs).root j ↔ Joined pairs i j := by
  induction pairs using List.reverseRecOn generalizing i j with
  | nil =>
    have hroot : ∀ k, (single.unions []).root k = k := fun k => root_of_parent_eq rfl
    rw [hroot, hroot]
    constructor
    · rintro rfl
      exact Relation.EqvGen.refl _
    · intro h
      induction h with
      | rel a b hab => cases hab
      | refl a => rfl
      | symm a b _ ih => exact ih.symm
      | trans a b c _ _ ih ih' => exact ih.trans ih'
  | append_singleton pairs e ih =>
    obtain ⟨a, b⟩ := e
    rw [unions_concat]
    constructor
    · have hmono : ∀ {x y : ℕ}, Joined pairs x y → Joined (pairs ++ [(a, b)]) x y :=
        joined_mono (subset_append_left _ _)
      have hab : Joined (pairs ++ [(a, b)]) a b := joined_of_mem (by simp)
      rw [root_union_eq_iff, ih, ih, ih, ih, ih]
      rintro (h | ⟨hi, hj⟩ | ⟨hi, hj⟩)
      · exact hmono h
      · exact .trans _ _ _ (hmono hi) (.trans _ _ _ hab (.symm _ _ (hmono hj)))
      · exact .trans _ _ _ (hmono hi) (.trans _ _ _ (.symm _ _ hab) (.symm _ _ (hmono hj)))
    · intro h
      induction h with
      | rel x y hxy =>
        rw [root_union_eq_iff]
        rcases mem_append.1 hxy with hxy | hxy
        · exact .inl ((ih x y).2 (joined_of_mem hxy))
        · rw [mem_singleton, Prod.mk.injEq] at hxy
          obtain ⟨rfl, rfl⟩ := hxy
          exact .inr (.inl ⟨rfl, rfl⟩)
      | refl x => rfl
      | symm x y _ hxy => exact hxy.symm
      | trans x y z _ _ hxy hyz => exact hxy.trans hyz

end UnionFind

end Lazaret
