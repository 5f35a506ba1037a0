import Mathlib.Algebra.Group.Nat.Defs
import Mathlib.Data.List.Sort
import Mathlib.Data.Prod.Lex

/-!
# Sets of code points

Every item of a pattern that takes a character becomes the set of those it takes, written as ranges:
sorted, disjoint, none next to another, over all values of 32 bits.  The operations keep that form
and do what their names say to the members, and as a set has one such form, two sets are equal as
values exactly when they hold the same characters (`char_set_algebra`).
-/

namespace Lazaret.Linre

open List

def MAX : ℕ := 2 ^ 32 - 1

abbrev U32 := Fin (MAX + 1)

/-- `c` is in one of the inclusive ranges. -/
def Holds (l : List (ℕ × ℕ)) (c : ℕ) : Prop := ∃ r ∈ l, r.1 ≤ c ∧ c ≤ r.2

/-- The ranges are sorted, disjoint and not adjacent. -/
structure Canonical (l : List (ℕ × ℕ)) : Prop where
  ordered : ∀ r ∈ l, r.1 ≤ r.2 ∧ r.2 ≤ MAX
  apart : l.Pairwise fun r s => r.2 + 1 < s.1

@[ext]
structure CharSet where
  ranges : List (ℕ × ℕ)
  canonical : Canonical ranges

instance : Membership ℕ CharSet := ⟨fun s c => Holds s.ranges c⟩

variable {l m : List (ℕ × ℕ)} {r : ℕ × ℕ} {c next : ℕ} {s t : CharSet}

lemma CharSet.mem_def : c ∈ s ↔ Holds s.ranges c := Iff.rfl

@[simp]
lemma holds_nil : ¬Holds [] c := by simp [Holds]

@[simp]
lemma holds_cons : Holds (r :: l) c ↔ (r.1 ≤ c ∧ c ≤ r.2) ∨ Holds l c := by simp [Holds]

lemma canonical_nil : Canonical [] := ⟨by simp, Pairwise.nil⟩

lemma Canonical.tail (h : Canonical (r :: l)) : Canonical l :=
  ⟨fun s hs => h.ordered s (mem_cons_of_mem r hs), (pairwise_cons.1 h.apart).2⟩

lemma Canonical.head (h : Canonical (r :: l)) : r.1 ≤ r.2 ∧ r.2 ≤ MAX := h.ordered r mem_cons_self

lemma Canonical.lt_of_holds (h : Canonical (r :: l)) (hc : Holds l c) : r.2 + 1 < c := by
  obtain ⟨s, hs, hle, -⟩ := hc
  have := (pairwise_cons.1 h.apart).1 s hs
  omega

lemma Canonical.le_max (h : Canonical l) (hc : Holds l c) : c ≤ MAX := by
  obtain ⟨s, hs, -, hle⟩ := hc
  exact hle.trans (h.ordered s hs).2

lemma canonical_cons (hr : r.1 ≤ r.2 ∧ r.2 ≤ MAX) (h : Canonical l)
    (hl : ∀ c, Holds l c → r.2 + 1 < c) : Canonical (r :: l) where
  ordered := forall_mem_cons.2 ⟨hr, h.ordered⟩
  apart := pairwise_cons.2 ⟨fun s hs => hl s.1 ⟨s, hs, le_refl _, (h.ordered s hs).1⟩, h.apart⟩

theorem Canonical.eq_of_holds (hl : Canonical l) (hm : Canonical m)
    (h : ∀ c, Holds l c ↔ Holds m c) : l = m := by
  induction l generalizing m with
  | nil =>
    cases m with
    | nil => rfl
    | cons s m => exact absurd ((h s.1).2 (holds_cons.2 (.inl ⟨le_refl _, hm.head.1⟩))) holds_nil
  | cons r l ih =>
    cases m with
    | nil => exact absurd ((h r.1).1 (holds_cons.2 (.inl ⟨le_refl _, hl.head.1⟩))) holds_nil
    | cons s m =>
      simp only [holds_cons] at h
      have hr := hl.head
      have hs := hm.head
      have hl' := fun c => hl.lt_of_holds (c := c)
      have hm' := fun c => hm.lt_of_holds (c := c)
      have hfirst : r.1 = s.1 := by grind
      -- a shorter range would be followed by a character that only the other list holds
      have hlast : r.2 = s.2 := by
        rcases Nat.lt_trichotomy r.2 s.2 with hlt | heq | hlt
        · grind
        · exact heq
        · grind
      have hrest : ∀ c, Holds l c ↔ Holds m c := by grind
      rw [Prod.ext hfirst hlast, ih hl.tail hm.tail hrest]

/-! ### Out of any ranges -/

/-- The loop of `from_ranges`, with the last range written. -/
def merge (last : ℕ × ℕ) : List (ℕ × ℕ) → List (ℕ × ℕ)
  | [] => [last]
  | (a, b) :: l =>
    -- `last.1.saturating_add(1)`
    if a ≤ min (last.2 + 1) MAX then merge (last.1, if b > last.2 then b else last.2) l
    else last :: merge (a, b) l

def sorted (v : List (ℕ × ℕ)) : List (ℕ × ℕ) :=
  (v.filter fun r => r.1 ≤ r.2).mergeSort fun r s => toLex r ≤ toLex s

def canonicalRanges (v : List (ℕ × ℕ)) : List (ℕ × ℕ) :=
  match sorted v with
  | [] => []
  | r :: l => merge r l

lemma merge_spec {last : ℕ × ℕ} (hlast : last.1 ≤ last.2 ∧ last.2 ≤ MAX)
    (hl : ∀ r ∈ l, r.1 ≤ r.2 ∧ r.2 ≤ MAX) (hsorted : (last :: l).Pairwise fun r s => r.1 ≤ s.1) :
    Canonical (merge last l) ∧ ∀ c, Holds (merge last l) c ↔ Holds (last :: l) c := by
  induction l generalizing last with
  | nil => exact ⟨canonical_cons hlast canonical_nil (by simp), fun c => Iff.rfl⟩
  | cons r l ih =>
    obtain ⟨a, b⟩ := r
    simp only [forall_mem_cons, pairwise_cons] at hl hsorted
    rw [merge]
    split_ifs with htouch hlonger
    · obtain ⟨hc, hh⟩ := @ih (last.1, b) (by dsimp only; omega) hl.2
        (pairwise_cons.2 ⟨hsorted.1.2, hsorted.2.2⟩)
      refine ⟨hc, fun c => (hh c).trans ?_⟩
      simp only [holds_cons, ← or_assoc]
      exact or_congr_left (by omega)
    · obtain ⟨hc, hh⟩ := @ih (last.1, last.2) hlast hl.2
        (pairwise_cons.2 ⟨hsorted.1.2, hsorted.2.2⟩)
      refine ⟨hc, fun c => (hh c).trans ?_⟩
      simp only [holds_cons, ← or_assoc]
      exact or_congr_left (by omega)
    · obtain ⟨hc, hh⟩ := @ih (a, b) hl.1 hl.2 (pairwise_cons.2 hsorted.2)
      refine ⟨canonical_cons hlast hc fun c hheld => ?_, fun c => by
        rw [holds_cons, hh, holds_cons (l := (a, b) :: l)]⟩
      rcases holds_cons.1 ((hh c).1 hheld) with hin | ⟨s, hs, hle, -⟩
      · omega
      · have := hsorted.2.1 s hs
        omega

lemma mem_sorted {v : List (ℕ × ℕ)} : r ∈ sorted v ↔ r ∈ v ∧ r.1 ≤ r.2 := by
  rw [sorted, mem_mergeSort, mem_filter, decide_eq_true_eq]

lemma pairwise_sorted (v : List (ℕ × ℕ)) : (sorted v).Pairwise fun r s => r.1 ≤ s.1 := by
  have h : (sorted v).Pairwise fun r s => decide (toLex r ≤ toLex s) = true :=
    pairwise_mergeSort (by simpa using fun a b c d e f => le_trans)
      (by simpa using fun a b c d => le_total _ _) _
  refine h.imp fun {r s} hrs => ?_
  rw [decide_eq_true_eq, Prod.Lex.toLex_le_toLex] at hrs
  omega

lemma canonicalRanges_spec {v : List (ℕ × ℕ)} (hv : ∀ r ∈ v, r.2 ≤ MAX) :
    Canonical (canonicalRanges v) ∧ ∀ c, Holds (canonicalRanges v) c ↔ Holds v c := by
  have hmem : ∀ c, Holds (sorted v) c ↔ Holds v c := by
    intro c
    simp only [Holds, mem_sorted]
    grind
  have hordered : ∀ r ∈ sorted v, r.1 ≤ r.2 ∧ r.2 ≤ MAX := fun r hr =>
    ⟨(mem_sorted.1 hr).2, hv r (mem_sorted.1 hr).1⟩
  have hsorted := pairwise_sorted v
  simp only [← hmem, canonicalRanges]
  cases hs : sorted v with
  | nil => exact ⟨canonical_nil, fun c => Iff.rfl⟩
  | cons r l =>
    rw [hs] at hordered hsorted
    rw [forall_mem_cons] at hordered
    exact merge_spec hordered.1 hordered.2 hsorted

/-! ### The other operations, on the ranges -/

/-- Where the elements that `p` holds of end, in a list that begins with them. -/
def partitionPoint {α : Type*} (p : α → Bool) (l : List α) : ℕ := (l.takeWhile p).length

/-- The loop of `complement`, from `next` on. -/
def gaps (next : ℕ) : List (ℕ × ℕ) → List (ℕ × ℕ)
  | [] => [(next, MAX)]
  | (a, b) :: l =>
    let rest := if b = MAX then [] else gaps (b + 1) l
    if a > next then (next, a - 1) :: rest else rest

/-- The loop of `intersect`. -/
def common : List (ℕ × ℕ) → List (ℕ × ℕ) → List (ℕ × ℕ)
  | [], _ | _ :: _, [] => []
  | (a₁, b₁) :: l, (a₂, b₂) :: m =>
    let lo := max a₁ a₂
    let hi := min b₁ b₂
    let rest := if b₁ < b₂ then common l ((a₂, b₂) :: m) else common ((a₁, b₁) :: l) m
    if lo ≤ hi then (lo, hi) :: rest else rest
termination_by l m => l.length + m.length

lemma gaps_spec (hl : Canonical l) (hnext : next ≤ MAX) (hle : ∀ c, Holds l c → next ≤ c) :
    Canonical (gaps next l) ∧
      ∀ c, Holds (gaps next l) c ↔ (next ≤ c ∧ c ≤ MAX) ∧ ¬Holds l c := by
  induction l generalizing next with
  | nil => exact ⟨canonical_cons ⟨hnext, le_refl _⟩ canonical_nil (by simp), by simp [gaps]⟩
  | cons r l ih =>
    obtain ⟨a, b⟩ := r
    have hlt := fun c => hl.lt_of_holds (c := c)
    have hab := hl.head
    have ha := hle a (holds_cons.2 (.inl ⟨le_refl _, hab.1⟩))
    -- what is written after the range
    obtain ⟨hrest, hholds⟩ : Canonical (if b = MAX then [] else gaps (b + 1) l) ∧
        ∀ c, Holds (if b = MAX then [] else gaps (b + 1) l) c ↔
          (b + 1 ≤ c ∧ c ≤ MAX) ∧ ¬Holds l c := by
      split_ifs with hb
      · exact ⟨canonical_nil, fun c => by simp only [holds_nil, false_iff]; omega⟩
      · exact ih hl.tail (by omega) fun c hc => (by have := hlt c hc; omega)
    rw [gaps]
    generalize (if b = MAX then [] else gaps (b + 1) l) = rest at hrest hholds
    split_ifs with hgap
    · refine ⟨canonical_cons ⟨by dsimp only; omega, by dsimp only; omega⟩ hrest fun c hc => ?_,
        fun c => ?_⟩
      · have := (hholds c).1 hc
        dsimp only
        omega
      · simp only [holds_cons, hholds]
        have := hlt c
        grind
    · refine ⟨hrest, fun c => ?_⟩
      simp only [holds_cons, hholds]
      have := hlt c
      grind

-- The range that ends first is done: what comes after holds what both lists hold past its end.
lemma rest_spec {r₁ r₂ : ℕ × ℕ} {p q : List (ℕ × ℕ)} (hl : Canonical (r₁ :: l))
    (hm : Canonical (r₂ :: m))
    (hp : Canonical p ∧ ∀ c, Holds p c ↔ Holds l c ∧ Holds (r₂ :: m) c)
    (hq : Canonical q ∧ ∀ c, Holds q c ↔ Holds (r₁ :: l) c ∧ Holds m c) :
    Canonical (if r₁.2 < r₂.2 then p else q) ∧ ∀ c, Holds (if r₁.2 < r₂.2 then p else q) c ↔
      (Holds (r₁ :: l) c ∧ Holds (r₂ :: m) c) ∧ min r₁.2 r₂.2 + 1 < c := by
  have hl' := fun c => hl.lt_of_holds (c := c)
  have hm' := fun c => hm.lt_of_holds (c := c)
  simp only [holds_cons] at *
  split_ifs with hlt
  · refine ⟨hp.1, fun c => (hp.2 c).trans ?_⟩
    have := hl' c
    have := hm' c
    grind
  · refine ⟨hq.1, fun c => (hq.2 c).trans ?_⟩
    have := hl' c
    have := hm' c
    grind

lemma common_spec (hl : Canonical l) (hm : Canonical m) :
    Canonical (common l m) ∧ ∀ c, Holds (common l m) c ↔ Holds l c ∧ Holds m c := by
  fun_induction common l m with
  | case1 | case2 => exact ⟨canonical_nil, by simp⟩
  | case3 a₁ b₁ l a₂ b₂ m lo hi rest hle ihl ihm =>
    obtain ⟨hrest, hholds⟩ := rest_spec hl hm (ihl hl.tail hm) (ihm hl hm.tail)
    have hr₁ := hl.head
    have hr₂ := hm.head
    refine ⟨canonical_cons ⟨hle, by omega⟩ hrest fun c hc => ((hholds c).1 hc).2, fun c => ?_⟩
    have := hholds c
    have hl' := hl.lt_of_holds (c := c)
    have hm' := hm.lt_of_holds (c := c)
    simp only [holds_cons] at *
    grind
  | case4 a₁ b₁ l a₂ b₂ m lo hi rest hle ihl ihm =>
    obtain ⟨hrest, hholds⟩ := rest_spec hl hm (ihl hl.tail hm) (ihm hl hm.tail)
    refine ⟨hrest, fun c => ?_⟩
    have := hholds c
    have hl' := hl.lt_of_holds (c := c)
    have hm' := hm.lt_of_holds (c := c)
    simp only [holds_cons] at *
    grind

/-! ### Sets -/

namespace CharSet

lemma le_max_of_mem_map {v : List (U32 × U32)} :
    ∀ r ∈ v.map fun r => (r.1.val, r.2.val), r.2 ≤ MAX :=
  forall_mem_map.2 fun r _ => Nat.lt_succ_iff.1 r.2.isLt

def fromRanges (v : List (U32 × U32)) : CharSet where
  ranges := canonicalRanges (v.map fun r => (r.1, r.2))
  canonical := (canonicalRanges_spec le_max_of_mem_map).1

lemma le_max_of_mem_append : ∀ r ∈ s.ranges ++ t.ranges, r.2 ≤ MAX := fun _ hr =>
  (mem_append.1 hr).elim (fun h => (s.canonical.ordered _ h).2) fun h => (t.canonical.ordered _ h).2

def union (s t : CharSet) : CharSet where
  ranges := canonicalRanges (s.ranges ++ t.ranges)
  canonical := (canonicalRanges_spec le_max_of_mem_append).1

def complement (s : CharSet) : CharSet where
  ranges := gaps 0 s.ranges
  canonical := (gaps_spec s.canonical (Nat.zero_le MAX) fun c _ => Nat.zero_le c).1

def intersect (s t : CharSet) : CharSet where
  ranges := common s.ranges t.ranges
  canonical := (common_spec s.canonical t.canonical).1

def minus (s t : CharSet) : CharSet := s.intersect t.complement

/-- The scan of `contains`. -/
def scan (c : ℕ) : List (ℕ × ℕ) → Bool
  | [] => false
  | r :: l => if c < r.1 then false else if c ≤ r.2 then true else scan c l

/-- The search of `contains`. -/
def search (c : ℕ) (l : List (ℕ × ℕ)) : Bool :=
  let i := partitionPoint (fun r => r.1 ≤ c) l
  0 < i && l[i - 1]?.any fun r => c ≤ r.2

def contains (s : CharSet) (c : ℕ) : Bool :=
  -- most sets are a few ranges: a scan beats a search
  if s.ranges.length ≤ 8 then scan c s.ranges else search c s.ranges

lemma scan_iff (hl : Canonical l) : scan c l = true ↔ Holds l c := by
  induction l with
  | nil => simp [scan]
  | cons r l ih =>
    have := hl.lt_of_holds (c := c)
    have := hl.head
    have := ih hl.tail
    rw [scan, holds_cons]
    grind

lemma search_iff (hl : Canonical l) : search c l = true ↔ Holds l c := by
  induction l with
  | nil => simp [search, partitionPoint]
  | cons r l ih =>
    have hlt := hl.lt_of_holds (c := c)
    have hr := hl.head
    have ih := ih hl.tail
    simp only [search, Bool.and_eq_true, decide_eq_true_eq] at ih ⊢
    simp only [partitionPoint, takeWhile_cons, decide_eq_true_eq, holds_cons] at ih ⊢
    split_ifs with hle
    · rw [length_cons, Nat.add_sub_cancel]
      cases hk : (takeWhile (fun r => decide (r.1 ≤ c)) l).length with
      | zero => simp_all
      | succ k =>
        -- a range that begins up to `c` is past `r`, so `c` is too
        have hpast : r.2 < c := by
          cases l with
          | nil => cases hk
          | cons s l =>
            have hs := hl.lt_of_holds (holds_cons.2 (.inl ⟨le_refl s.1, hl.tail.head.1⟩))
            rw [takeWhile_cons] at hk
            grind
        rw [hk] at ih
        grind
    · simp only [length_nil]
      grind

lemma contains_iff : s.contains c = true ↔ c ∈ s := by
  rw [contains]
  split
  · exact scan_iff s.canonical
  · exact search_iff s.canonical

lemma mem_fromRanges {v : List (U32 × U32)} {c : U32} :
    c.val ∈ fromRanges v ↔ ∃ r ∈ v, r.1 ≤ c ∧ c ≤ r.2 := by
  rw [mem_def, fromRanges, (canonicalRanges_spec le_max_of_mem_map).2, Holds]
  simp only [mem_map, exists_exists_and_eq_and, Fin.val_fin_le]

lemma mem_union : c ∈ s.union t ↔ c ∈ s ∨ c ∈ t := by
  rw [mem_def, union, (canonicalRanges_spec le_max_of_mem_append).2]
  simp only [Holds, mem_append, or_and_right, exists_or, mem_def]

lemma mem_complement : c ∈ s.complement ↔ c ≤ MAX ∧ c ∉ s := by
  rw [mem_def, complement, (gaps_spec s.canonical (Nat.zero_le MAX) fun c _ => Nat.zero_le c).2,
    and_iff_right (Nat.zero_le c), mem_def]

lemma mem_intersect : c ∈ s.intersect t ↔ c ∈ s ∧ c ∈ t :=
  (common_spec s.canonical t.canonical).2 c

lemma mem_minus : c ∈ s.minus t ↔ c ∈ s ∧ c ∉ t := by
  rw [minus, mem_intersect, mem_complement]
  exact and_congr_right fun h => and_iff_right (s.canonical.le_max h)

lemma eq_of_mem_iff (h : ∀ c : U32, c.val ∈ s ↔ c.val ∈ t) : s = t := by
  refine CharSet.ext (s.canonical.eq_of_holds t.canonical fun c => ?_)
  by_cases hc : c ≤ MAX
  · exact h ⟨c, Nat.lt_succ_of_le hc⟩
  · exact iff_of_false (mt s.canonical.le_max hc) (mt t.canonical.le_max hc)

/-- The sets are an algebra of sets of characters, each in its one canonical form. -/
theorem char_set_algebra :
    (∀ v : List (U32 × U32), Canonical (fromRanges v).ranges ∧
      ∀ c : U32, c.val ∈ fromRanges v ↔ ∃ r ∈ v, r.1 ≤ c ∧ c ≤ r.2) ∧
    (∀ s t : CharSet, Canonical (s.union t).ranges ∧ Canonical s.complement.ranges ∧
      Canonical (s.intersect t).ranges ∧ Canonical (s.minus t).ranges) ∧
    (∀ (s t : CharSet) (c : U32), (c.val ∈ s.union t ↔ c.val ∈ s ∨ c.val ∈ t) ∧
      (c.val ∈ s.complement ↔ c.val ∉ s) ∧
      (c.val ∈ s.intersect t ↔ c.val ∈ s ∧ c.val ∈ t) ∧
      (c.val ∈ s.minus t ↔ c.val ∈ s ∧ c.val ∉ t)) ∧
    (∀ (s : CharSet) (c : U32), s.contains c = true ↔ c.val ∈ s) ∧
    ∀ s t : CharSet, (∀ c : U32, c.val ∈ s ↔ c.val ∈ t) → s = t := by
  refine ⟨fun v => ⟨(fromRanges v).canonical, fun c => mem_fromRanges⟩,
    fun s t => ⟨canonical _, canonical _, canonical _, canonical _⟩,
    fun s t c => ⟨mem_union, ?_, mem_intersect, mem_minus⟩, fun s c => contains_iff,
    fun s t => eq_of_mem_iff⟩
  rw [mem_complement]
  exact and_iff_right (Nat.lt_succ_iff.1 c.isLt)

end CharSet

end Lazaret.Linre
