import Mathlib.Data.List.Sort

/-!
# Sorting by a key

Lists of keyed things: their order by the key does not depend on the order they were in, as long as
no key occurs twice (`insertionSort_eq_of_perm`), and whether one does can be told from the
neighbours in that order alone (`adjacent_iff`).
-/

namespace Lazaret.Keyed

open List

variable {K V : Type*}

section Sorted

variable (le : K → K → Prop)

lemma pairwise_insertionSort [DecidableRel le] [Std.Total le] [IsTrans K le] (l : List (K × V)) :
    (l.insertionSort fun a b => le a.1 b.1).Pairwise fun a b => le a.1 b.1 := by
  have : Std.Total fun a b : K × V => le a.1 b.1 := ⟨fun a b => Std.Total.total a.1 b.1⟩
  have : IsTrans (K × V) fun a b => le a.1 b.1 :=
    ⟨fun a b c hab hbc => IsTrans.trans a.1 b.1 c.1 hab hbc⟩
  exact List.pairwise_insertionSort _ l

lemma eq_of_pairwise [Std.Antisymm le] {l l' : List (K × V)} (hperm : l.Perm l')
    (hkeys : (l.map Prod.fst).Nodup) (hl : l.Pairwise fun a b => le a.1 b.1)
    (hl' : l'.Pairwise fun a b => le a.1 b.1) : l = l' := by
  refine List.Perm.eq_of_pairwise ?_ hl hl' hperm
  intro a b ha hb hab hba
  exact inj_on_of_nodup_map hkeys ha (hperm.mem_iff.2 hb) (antisymm hab hba)

lemma insertionSort_map [DecidableRel le] {V' : Type*} (g : K × V → V') (l : List (K × V)) :
    ((l.map fun m => (m.1, g m)).insertionSort fun a b => le a.1 b.1) =
      (l.insertionSort fun a b => le a.1 b.1).map fun m => (m.1, g m) :=
  (map_insertionSort (r := fun a b : K × V => le a.1 b.1)
    (s := fun a b : K × V' => le a.1 b.1) (fun m => (m.1, g m)) l fun _ _ _ _ => Iff.rfl).symm

variable [DecidableRel le] [Std.Total le] [IsTrans K le] [Std.Antisymm le]

lemma insertionSort_eq_of_perm {l l' : List (K × V)} (hperm : l.Perm l')
    (hkeys : (l.map Prod.fst).Nodup) :
    (l.insertionSort fun a b => le a.1 b.1) = l'.insertionSort fun a b => le a.1 b.1 := by
  refine eq_of_pairwise le ?_ ?_ (pairwise_insertionSort le l) (pairwise_insertionSort le l')
  · exact (perm_insertionSort _ l).trans (hperm.trans (perm_insertionSort _ l').symm)
  · exact (((perm_insertionSort _ l).map Prod.fst).nodup_iff).2 hkeys

end Sorted

section Adjacent

variable [LinearOrder K]

def adjacent : List K → Bool
  | a :: b :: rest => a = b ∨ adjacent (b :: rest)
  | _ => false

lemma adjacent_iff {l : List K} (hl : l.Pairwise (· ≤ ·)) : adjacent l = true ↔ ¬ l.Nodup := by
  induction l with
  | nil => simp [adjacent]
  | cons a l ih =>
    cases l with
    | nil => simp [adjacent]
    | cons b rest =>
      rw [pairwise_cons] at hl
      rw [adjacent, decide_eq_true_iff, ih hl.2, nodup_cons (a := a)]
      constructor
      · rintro (rfl | h)
        · exact fun hn => hn.1 mem_cons_self
        · exact fun hn => h hn.2
      · intro h
        by_contra hcon
        rw [not_or, not_not] at hcon
        refine h ⟨?_, hcon.2⟩
        intro hmem
        -- what is further on is not less than the neighbour
        rcases mem_cons.1 hmem with rfl | hmem
        · exact hcon.1 rfl
        · exact hcon.1 (le_antisymm (hl.1 b mem_cons_self)
            ((pairwise_cons.1 hl.2).1 a hmem))

end Adjacent

end Lazaret.Keyed
