import Lazaret.Lib.BTreeMap
import Mathlib.Tactic.Cases

/-!
# Sets of numbers as ranges

`RangeSet` (`quic/rangeset.rs`) keeps a set of `u64` as the fewest ranges that hold it: the
packet numbers received, and the parts of a stream that are acknowledged or lost.  A range is
stored as its start and the number after its end.  `Canonical` is what the source says of the
map: no range is empty and no two touch.
-/

namespace Lazaret.Quic

open List BTreeMap

/-- A half-open range of numbers, `start..stop`. -/
structure Range where
  start : ℕ
  stop : ℕ
deriving DecidableEq

instance : Membership ℕ Range := ⟨fun r x => r.start ≤ x ∧ x < r.stop⟩

lemma Range.mem_def {r : Range} {x : ℕ} : x ∈ r ↔ r.start ≤ x ∧ x < r.stop := Iff.rfl

/-- A set of numbers as the fewest ranges that hold it. -/
structure RangeSet where
  /-- start -> end, with a number that is in none of them between one range and the next. -/
  ranges : BTreeMap ℕ ℕ
deriving DecidableEq

namespace RangeSet

def new : RangeSet := ⟨BTreeMap.empty⟩

def isEmpty (R : RangeSet) : Bool := R.ranges.isEmpty

def min (R : RangeSet) : Option ℕ := R.ranges.first.map Prod.fst

def first (R : RangeSet) : Option Range := R.ranges.first.map (fun e => ⟨e.1, e.2⟩)

/-- The range that holds `v`, if there is one. -/
def containing (R : RangeSet) (v : ℕ) : Option (ℕ × ℕ) :=
  (R.ranges.range (fun k => k ≤ v)).getLast?.filter (fun e => v < e.2)

def contains (R : RangeSet) (v : ℕ) : Bool := (R.containing v).isSome

/-- Whether every number of `r` is in the set (an empty range is). -/
def covers (R : RangeSet) (r : Range) : Bool :=
  decide (r.start ≥ r.stop) || (R.containing r.start).any (fun e => r.stop ≤ e.2)

/-- The parts of the ranges that lie within `r`, from the lowest up. -/
def within (R : RangeSet) (r : Range) : List Range :=
  if r.start ≥ r.stop then []
  else
    let first := ((R.containing r.start).map Prod.fst).getD r.start
    ((R.ranges.range (fun k => first ≤ k ∧ k < r.stop)).map
      (fun e => (⟨max e.1 r.start, Min.min e.2 r.stop⟩ : Range))).filter
      (fun x => x.start < x.stop)

/-- The loop of `insert`: the ranges that begin in `start..=stop` are taken out, and `stop` grows
to their ends.  The fuel is the number of ranges: each turn takes one out. -/
def absorb : ℕ → BTreeMap ℕ ℕ → ℕ → ℕ → BTreeMap ℕ ℕ × ℕ
  | 0, m, _, stop => (m, stop)
  | n + 1, m, start, stop =>
    match (m.range (fun k => start ≤ k ∧ k ≤ stop)).head? with
    | none => (m, stop)
    | some (s, e) => absorb n (m.remove s) start (max stop e)

def insert (R : RangeSet) (r : Range) : Bool × RangeSet :=
  if r.start ≥ r.stop then (false, R)
  else if R.covers r then (false, R)
  else
    -- a range that ends where this one begins, or reaches into it
    let (start, stop, m) :=
      match (R.ranges.range (fun k => k ≤ r.start)).getLast? with
      | some (s, e) =>
        if e ≥ r.start then (s, max r.stop e, R.ranges.remove s) else (r.start, r.stop, R.ranges)
      | none => (r.start, r.stop, R.ranges)
    -- the ranges that begin inside this one or where it ends
    let (m, stop) := absorb m.len m start stop
    (true, ⟨m.insert start stop⟩)

/-- What `remove` does with one range that reaches into `r`. -/
def cut (r : Range) (m : BTreeMap ℕ ℕ) (e : ℕ × ℕ) : BTreeMap ℕ ℕ :=
  let m := m.remove e.1
  let m := if e.1 < r.start then m.insert e.1 r.start else m
  if e.2 > r.stop then m.insert r.stop e.2 else m

def remove (R : RangeSet) (r : Range) : RangeSet :=
  if r.start ≥ r.stop then R
  else
    let touching := (R.ranges.range (fun k => k < r.stop)).reverse.takeWhile
      (fun e => e.2 > r.start)
    ⟨touching.foldl (cut r) R.ranges⟩

def removeBelow (R : RangeSet) (v : ℕ) : RangeSet := R.remove ⟨0, v⟩

/-! ### The numbers of a set -/

instance : Membership ℕ RangeSet := ⟨fun R x => ∃ e ∈ R.ranges, e.1 ≤ x ∧ x < e.2⟩

lemma mem_def {R : RangeSet} {x : ℕ} : x ∈ R ↔ ∃ e ∈ R.ranges, e.1 ≤ x ∧ x < e.2 := Iff.rfl

/-- No range of the map is empty, and no two touch. -/
structure Canonical (m : BTreeMap ℕ ℕ) : Prop where
  nonempty : ∀ e ∈ m, e.1 < e.2
  apart : ∀ a ∈ m, ∀ b ∈ m, a.1 < b.1 → a.2 < b.1

def Wf (R : RangeSet) : Prop := Canonical R.ranges

variable {R : RangeSet} {r : Range} {x : ℕ}

lemma wf_new : new.Wf := ⟨by simp [new], by simp [new]⟩

@[simp] lemma not_mem_new : x ∉ new := by
  simp [mem_def, new]

lemma containing_eq_some (hR : R.Wf) {e : ℕ × ℕ} :
    R.containing x = some e ↔ e ∈ R.ranges ∧ e.1 ≤ x ∧ x < e.2 := by
  simp only [containing, Option.filter_eq_some_iff, range_getLast?_eq_some, decide_eq_true_eq]
  constructor
  · rintro ⟨⟨he, hle, -⟩, hlt⟩
    exact ⟨he, hle, hlt⟩
  · rintro ⟨he, hle, hlt⟩
    refine ⟨⟨he, hle, fun a ha hax => ?_⟩, hlt⟩
    rcases eq_or_lt ha he with h | h | h
    · exact .inl h
    · exact .inr h
    · exact absurd (hR.apart e he a ha h) (by omega)

lemma contains_iff (hR : R.Wf) : R.contains x = true ↔ x ∈ R := by
  rw [contains, Option.isSome_iff_exists]
  constructor
  · rintro ⟨e, he⟩
    exact ⟨e, (containing_eq_some hR).1 he⟩
  · rintro ⟨e, he⟩
    exact ⟨e, (containing_eq_some hR).2 he⟩

lemma isEmpty_iff (hR : R.Wf) : R.isEmpty = true ↔ ∀ x, x ∉ R := by
  rw [isEmpty, BTreeMap.isEmpty_iff]
  constructor
  · rintro h x ⟨e, he, -⟩
    exact h e he
  · intro h e he
    exact h e.1 ⟨e, he, le_refl _, hR.nonempty e he⟩

lemma first_eq_some (hR : R.Wf) (h : R.first = some r) :
    (r.start, r.stop) ∈ R.ranges ∧ r.start < r.stop ∧ (∀ x ∈ R, r.start ≤ x) ∧
    (∀ x ∈ r, x ∈ R) := by
  simp only [first, Option.map_eq_some_iff, BTreeMap.first_eq_some] at h
  obtain ⟨⟨s, e⟩, ⟨he, hmin⟩, rfl⟩ := h
  refine ⟨he, hR.nonempty _ he, ?_, fun x hx => ⟨_, he, hx⟩⟩
  rintro x ⟨a, ha, hax, -⟩
  rcases hmin a ha with rfl | h
  · exact hax
  · exact h.le.trans hax

lemma first_eq_none (hR : R.Wf) : R.first = none ↔ ∀ x, x ∉ R := by
  rw [← isEmpty_iff hR, isEmpty, BTreeMap.isEmpty_iff, first, Option.map_eq_none_iff,
    BTreeMap.first_eq_none]

lemma covers_iff (hR : R.Wf) : R.covers r = true ↔ ∀ x ∈ r, x ∈ R := by
  simp only [covers, Bool.or_eq_true, decide_eq_true_eq, Option.any_eq_true]
  constructor
  · rintro (h | ⟨e, he, hle⟩) x hx
    · have := Range.mem_def.1 hx
      omega
    · obtain ⟨hmem, h1, h2⟩ := (containing_eq_some hR).1 he
      have := Range.mem_def.1 hx
      exact ⟨e, hmem, by omega, by omega⟩
  · intro h
    by_cases hr : r.start ≥ r.stop
    · exact .inl hr
    · right
      obtain ⟨e, he, h1, h2⟩ := h r.start ⟨le_refl _, by omega⟩
      refine ⟨e, (containing_eq_some hR).2 ⟨he, h1, h2⟩, ?_⟩
      by_contra hlt
      rw [not_le] at hlt
      -- the number after the range that holds the start of `r` is in no range
      obtain ⟨a, ha, h3, h4⟩ := h e.2 ⟨by omega, hlt⟩
      rcases eq_or_lt he ha with rfl | hlt' | hlt'
      · omega
      · exact absurd (hR.apart e he a ha hlt') (by omega)
      · exact absurd (hR.apart a ha e he hlt') (by omega)

/-! ### Insertion -/

/-- What the loop of `insert` leaves: the ranges that do not begin in `start..=stop'`, where `stop'`
is past the ends of those that do, and nothing between `stop` and `stop'` is new. -/
lemma absorb_spec (fuel : ℕ) (m : BTreeMap ℕ ℕ) (start stop : ℕ) (hfuel : m.len ≤ fuel)
    (hm : Canonical m) (hle : start ≤ stop) :
    stop ≤ (absorb fuel m start stop).2 ∧
      (∀ e, e ∈ (absorb fuel m start stop).1 ↔
        e ∈ m ∧ ¬(start ≤ e.1 ∧ e.1 ≤ (absorb fuel m start stop).2)) ∧
      (∀ e ∈ m, start ≤ e.1 → e.1 ≤ (absorb fuel m start stop).2 →
        e.2 ≤ (absorb fuel m start stop).2) ∧
      (∀ x, stop ≤ x → x < (absorb fuel m start stop).2 → ∃ e ∈ m, e.1 ≤ x ∧ x < e.2) := by
  induction fuel generalizing m stop with
  | zero =>
    have hnone := len_eq_zero.1 (Nat.le_zero.1 hfuel)
    refine ⟨le_refl _, fun e => ?_, fun e he => absurd he (hnone e), fun x h1 h2 => ?_⟩
    · simp [absorb, hnone e]
    · simp only [absorb] at h2
      omega
  | succ n ih =>
    rw [absorb]
    cases hhead : (m.range (fun k => start ≤ k ∧ k ≤ stop)).head? with
    | none =>
      rw [range_head?_eq_none] at hhead
      have hout : ∀ e ∈ m, ¬(start ≤ e.1 ∧ e.1 ≤ stop) := by
        intro e he
        simpa using hhead e he
      refine ⟨le_refl _, fun e => ⟨fun he => ⟨he, hout e he⟩, fun he => he.1⟩, ?_, ?_⟩
      · intro e he h1 h2
        exact absurd ⟨h1, h2⟩ (hout e he)
      · intro x h1 h2
        simp only at h2
        omega
    | some e =>
      obtain ⟨s, e⟩ := e
      dsimp only
      simp only [range_head?_eq_some, decide_eq_true_eq] at hhead
      obtain ⟨hse, ⟨hs1, hs2⟩, -⟩ := hhead
      have hlen := len_remove hse
      have hcan : Canonical (m.remove s) :=
        ⟨fun a ha => hm.nonempty a (mem_remove.1 ha).1,
          fun a ha b hb => hm.apart a (mem_remove.1 ha).1 b (mem_remove.1 hb).1⟩
      obtain ⟨h1, h2, h3, h4⟩ :=
        ih (m.remove s) (max stop e) (by omega) hcan (by omega)
      have hkey : ∀ a ∈ m, a.1 = s → a = (s, e) := by
        intro a ha has
        rcases eq_or_lt ha hse with h | h | h
        · exact h
        · simp only at h
          omega
        · simp only at h
          omega
      refine ⟨by omega, fun a => ?_, fun a ha ha1 ha2 => ?_, fun x hx1 hx2 => ?_⟩
      · rw [h2, mem_remove]
        constructor
        · rintro ⟨⟨ha, -⟩, hout⟩
          exact ⟨ha, hout⟩
        · rintro ⟨ha, hout⟩
          refine ⟨⟨ha, fun has => hout ?_⟩, hout⟩
          omega
      · by_cases has : a.1 = s
        · rw [hkey a ha has]
          simp only
          omega
        · exact h3 a (mem_remove.2 ⟨ha, has⟩) ha1 ha2
      · by_cases hxe : max stop e ≤ x
        · obtain ⟨a, ha, hax⟩ := h4 x hxe hx2
          exact ⟨a, (mem_remove.1 ha).1, hax⟩
        · exact ⟨(s, e), hse, by simp only; omega, by simp only; omega⟩

/-- The map that `insert` builds from the range `start..stop` and the ranges apart from its left
end: canonical, and with the numbers of both. -/
lemma insert_absorb (m : BTreeMap ℕ ℕ) (start stop : ℕ) (hm : Canonical m) (hlt : start < stop)
    (hleft : ∀ e ∈ m, e.1 ≤ start → e.2 < start) :
    let a := absorb m.len m start stop
    Canonical (a.1.insert start a.2) ∧
      ∀ x, (∃ e ∈ a.1.insert start a.2, e.1 ≤ x ∧ x < e.2) ↔
        (∃ e ∈ m, e.1 ≤ x ∧ x < e.2) ∨ (start ≤ x ∧ x < stop) := by
  intro a
  obtain ⟨h1, h2, h3, h4⟩ := absorb_spec m.len m start stop le_rfl hm hlt.le
  change stop ≤ a.2 at h1
  change ∀ e, e ∈ a.1 ↔ e ∈ m ∧ ¬(start ≤ e.1 ∧ e.1 ≤ a.2) at h2
  change ∀ e ∈ m, start ≤ e.1 → e.1 ≤ a.2 → e.2 ≤ a.2 at h3
  change ∀ x, stop ≤ x → x < a.2 → ∃ e ∈ m, e.1 ≤ x ∧ x < e.2 at h4
  have hside : ∀ e ∈ a.1, e ∈ m ∧ (e.2 < start ∨ a.2 < e.1) := by
    intro e he
    obtain ⟨hem, hout⟩ := (h2 e).1 he
    refine ⟨hem, ?_⟩
    by_cases hs : e.1 ≤ start
    · exact .inl (hleft e hem hs)
    · exact .inr (by omega)
  refine ⟨⟨?_, ?_⟩, fun x => ⟨?_, ?_⟩⟩
  · intro e he
    rcases mem_insert.1 he with rfl | ⟨he, -⟩
    · simp only
      omega
    · exact hm.nonempty e (hside e he).1
  · intro e he f hf hef
    rcases mem_insert.1 he with rfl | ⟨he, -⟩ <;>
      rcases mem_insert.1 hf with rfl | ⟨hf, -⟩
    · exact absurd hef (lt_irrefl _)
    · have hf1 := hm.nonempty f (hside f hf).1
      rcases (hside f hf).2 with h | h
      · simp only at hef
        omega
      · exact h
    · have he1 := hm.nonempty e (hside e he).1
      rcases (hside e he).2 with h | h
      · exact h
      · simp only at hef
        omega
    · exact hm.apart e (hside e he).1 f (hside f hf).1 hef
  · rintro ⟨e, he, hx⟩
    rcases mem_insert.1 he with rfl | ⟨he, -⟩
    · by_cases hxs : x < stop
      · exact .inr ⟨hx.1, hxs⟩
      · exact .inl (h4 x (by omega) hx.2)
    · exact .inl ⟨e, (hside e he).1, hx⟩
  · rintro (⟨e, he, hx⟩ | hx)
    · by_cases hin : start ≤ e.1 ∧ e.1 ≤ a.2
      · have := h3 e he hin.1 hin.2
        exact ⟨(start, a.2), mem_insert.2 (.inl rfl), by simp only; omega,
          by simp only; omega⟩
      · refine ⟨e, mem_insert.2 (.inr ⟨(h2 e).2 ⟨he, hin⟩, ?_⟩), hx⟩
        rintro hes
        exact hin ⟨hes.ge, by omega⟩
    · exact ⟨(start, a.2), mem_insert.2 (.inl rfl), hx.1, by simp only; omega⟩

lemma insert_spec (hR : R.Wf) (r : Range) :
    (R.insert r).2.Wf ∧ ∀ x, x ∈ (R.insert r).2 ↔ x ∈ R ∨ x ∈ r := by
  rw [insert]
  split_ifs with hempty hcov
  · refine ⟨hR, fun x => ⟨.inl, ?_⟩⟩
    rintro (h | h)
    · exact h
    · have := Range.mem_def.1 h
      omega
  · refine ⟨hR, fun x => ⟨.inl, ?_⟩⟩
    rintro (h | h)
    · exact h
    · exact (covers_iff hR).1 hcov x h
  · -- no range reaches `r` from the left
    have hplain : (∀ e ∈ R.ranges, e.1 ≤ r.start → e.2 < r.start) →
        Wf ⟨(absorb R.ranges.len R.ranges r.start r.stop).1.insert r.start
            (absorb R.ranges.len R.ranges r.start r.stop).2⟩ ∧
          ∀ x, x ∈ (⟨(absorb R.ranges.len R.ranges r.start r.stop).1.insert r.start
            (absorb R.ranges.len R.ranges r.start r.stop).2⟩ : RangeSet) ↔ x ∈ R ∨ x ∈ r :=
      fun hleft => insert_absorb R.ranges r.start r.stop hR (by omega) hleft
    cases hlast : (R.ranges.range (fun k => k ≤ r.start)).getLast? with
    | none =>
      rw [range_getLast?_eq_none] at hlast
      refine hplain fun e he hle => ?_
      simpa [hle] using hlast e he
    | some e =>
      obtain ⟨s, e⟩ := e
      simp only [range_getLast?_eq_some, decide_eq_true_eq] at hlast
      obtain ⟨hse, hs, hmax⟩ := hlast
      by_cases he : e ≥ r.start
      · simp only [if_pos he]
        have hcan : Canonical (R.ranges.remove s) :=
          ⟨fun a ha => hR.nonempty a (mem_remove.1 ha).1,
            fun a ha b hb =>
              hR.apart a (mem_remove.1 ha).1 b (mem_remove.1 hb).1⟩
        have hleft : ∀ a ∈ R.ranges.remove s, a.1 ≤ s → a.2 < s := by
          intro a ha has
          obtain ⟨ha, hne⟩ := mem_remove.1 ha
          exact hR.apart a ha (s, e) hse (by simp only; omega)
        have hlt := hR.nonempty _ hse
        obtain ⟨hwf, hmem⟩ := insert_absorb (R.ranges.remove s) s (max r.stop e) hcan
          (by simp only at hlt; omega) hleft
        refine ⟨hwf, fun x => ?_⟩
        rw [mem_def, hmem x, mem_def, Range.mem_def]
        constructor
        · rintro (⟨a, ha, hx⟩ | hx)
          · exact .inl ⟨a, (mem_remove.1 ha).1, hx⟩
          · by_cases hxe : x < e
            · exact .inl ⟨(s, e), hse, hx.1, hxe⟩
            · exact .inr (by omega)
        · rintro (⟨a, ha, hx⟩ | hx)
          · by_cases has : a.1 = s
            · have hae : a = (s, e) := by
                rcases eq_or_lt ha hse with h | h | h
                · exact h
                · simp only at h
                  omega
                · simp only at h
                  omega
              subst hae
              exact .inr ⟨hx.1, by simp only at hx; omega⟩
            · exact .inl ⟨a, mem_remove.2 ⟨ha, has⟩, hx⟩
          · exact .inr (by omega)
      · simp only [if_neg he]
        refine hplain fun a ha hle => ?_
        rcases hmax a ha hle with rfl | h
        · simp only
          omega
        · have := hR.apart a ha (s, e) hse h
          simp only at this
          omega

@[simp] lemma mem_insert (hR : R.Wf) : x ∈ (R.insert r).2 ↔ x ∈ R ∨ x ∈ r :=
  (insert_spec hR r).2 x

lemma wf_insert (hR : R.Wf) : (R.insert r).2.Wf := (insert_spec hR r).1

/-! ### Removal -/

/-- What is left of the range `e` when `r` is taken out, as the entries of the map. -/
def Remains (r : Range) (e f : ℕ × ℕ) : Prop :=
  (f = (e.1, r.start) ∧ e.1 < r.start) ∨ (f = (r.stop, e.2) ∧ r.stop < e.2)

lemma mem_cut {m : BTreeMap ℕ ℕ} {e f : ℕ × ℕ} (hlow : e.1 < r.stop)
    (hfree : r.stop < e.2 → ∀ g ∈ m, g.1 ≠ r.stop) :
    f ∈ cut r m e ↔ (f ∈ m ∧ f.1 ≠ e.1) ∨ Remains r e f := by
  unfold cut Remains
  by_cases h1 : e.1 < r.start <;> by_cases h2 : e.2 > r.stop
  · simp only [if_pos h1, if_pos h2, BTreeMap.mem_insert, BTreeMap.mem_remove]
    constructor
    · rintro (rfl | ⟨rfl | ⟨⟨h, h3⟩, h4⟩, h5⟩)
      · exact .inr (.inr ⟨rfl, h2⟩)
      · exact .inr (.inl ⟨rfl, h1⟩)
      · exact .inl ⟨h, h4⟩
    · rintro (⟨h, h3⟩ | ⟨rfl, -⟩ | ⟨rfl, -⟩)
      · exact .inr ⟨.inr ⟨⟨h, h3⟩, h3⟩, hfree h2 f h⟩
      · exact .inr ⟨.inl rfl, by simp only; omega⟩
      · exact .inl rfl
  · simp only [if_pos h1, if_neg h2, BTreeMap.mem_insert, BTreeMap.mem_remove]
    constructor
    · rintro (rfl | ⟨⟨h, h3⟩, h4⟩)
      · exact .inr (.inl ⟨rfl, h1⟩)
      · exact .inl ⟨h, h4⟩
    · rintro (⟨h, h3⟩ | ⟨rfl, -⟩ | ⟨-, h3⟩)
      · exact .inr ⟨⟨h, h3⟩, h3⟩
      · exact .inl rfl
      · exact absurd h3 h2
  · simp only [if_neg h1, if_pos h2, BTreeMap.mem_insert, BTreeMap.mem_remove]
    constructor
    · rintro (rfl | ⟨⟨h, h3⟩, h4⟩)
      · exact .inr (.inr ⟨rfl, h2⟩)
      · exact .inl ⟨h, h3⟩
    · rintro (⟨h, h3⟩ | ⟨-, h3⟩ | ⟨rfl, -⟩)
      · exact .inr ⟨⟨h, h3⟩, hfree h2 f h⟩
      · exact absurd h3 h1
      · exact .inl rfl
  · simp only [if_neg h1, if_neg h2, BTreeMap.mem_remove]
    constructor
    · exact .inl
    · rintro (h | ⟨-, h3⟩ | ⟨-, h3⟩)
      · exact h
      · exact absurd h3 h1
      · exact absurd h3 h2

/-- Cutting the ranges of a list, each apart from and below the one before, leaves what is left of
each and the entries of the other keys. -/
lemma mem_foldl_cut (l : List (ℕ × ℕ)) (m : BTreeMap ℕ ℕ)
    (hl : l.Pairwise (fun a b => b.2 < a.1)) (hlow : ∀ e ∈ l, e.1 < r.stop ∧ e.1 < e.2)
    (hfree : ∀ e ∈ l, r.stop < e.2 → ∀ g ∈ m, g.1 ≠ r.stop) (f : ℕ × ℕ) :
    f ∈ l.foldl (cut r) m ↔ (f ∈ m ∧ ∀ e ∈ l, f.1 ≠ e.1) ∨ ∃ e ∈ l, Remains r e f := by
  induction l generalizing m with
  | nil => simp
  | cons a l ih =>
    rw [pairwise_cons] at hl
    have ha := hlow a (by simp)
    have hcut := fun g => mem_cut (m := m) (f := g) ha.1 (hfree a (by simp))
    rw [foldl_cons, ih (cut r m a) hl.2 (fun e he => hlow e (by simp [he])) ?_, hcut]
    · constructor
      · rintro (⟨⟨hf, hfa⟩ | hrem, hne⟩ | ⟨e, he, hrem⟩)
        · refine .inl ⟨hf, fun e he => ?_⟩
          rcases mem_cons.1 he with rfl | he
          · exact hfa
          · exact hne e he
        · exact .inr ⟨a, by simp, hrem⟩
        · exact .inr ⟨e, by simp [he], hrem⟩
      · rintro (⟨hf, hne⟩ | ⟨e, he, hrem⟩)
        · exact .inl ⟨.inl ⟨hf, hne a (by simp)⟩, fun e he => hne e (by simp [he])⟩
        · rcases mem_cons.1 he with rfl | he
          · refine .inl ⟨.inr hrem, fun b hb => ?_⟩
            have hb1 := hlow b (by simp [hb])
            have hb2 := hl.1 b hb
            rcases hrem with ⟨rfl, -⟩ | ⟨rfl, -⟩ <;> simp only <;> omega
          · exact .inr ⟨e, he, hrem⟩
    · -- a range that reaches past `r` is the first: the others end below where it begins
      intro e he hlong g hg
      have h1 := hl.1 e he
      rcases (hcut g).1 hg with ⟨hg, -⟩ | hrem
      · exact hfree e (by simp [he]) hlong g hg
      · omega

lemma mem_touching (hR : R.Wf) (e : ℕ × ℕ) :
    e ∈ (R.ranges.range (fun k => k < r.stop)).reverse.takeWhile (fun e => e.2 > r.start) ↔
      e ∈ R.ranges ∧ e.1 < r.stop ∧ r.start < e.2 := by
  have hdesc : (R.ranges.range (fun k => k < r.stop)).reverse.Pairwise (fun a b => b.2 < a.2) := by
    rw [pairwise_reverse]
    refine (R.ranges.range_sorted _).imp_of_mem ?_
    intro a b ha hb hab
    have ha := (mem_range.1 ha).1
    have hb := (mem_range.1 hb).1
    exact (hR.apart a ha b hb hab).trans (hR.nonempty b hb)
  have hsplit : ∀ l : List (ℕ × ℕ), l.Pairwise (fun a b => b.2 < a.2) →
      (e ∈ l.takeWhile (fun e => e.2 > r.start) ↔ e ∈ l ∧ r.start < e.2) := by
    intro l hl
    induction l with
    | nil => simp
    | cons a l ih =>
      rw [pairwise_cons] at hl
      by_cases ha : r.start < a.2
      · simp only [gt_iff_lt, takeWhile_cons, ha, decide_true, if_true, mem_cons, ih hl.2]
        constructor
        · rintro (rfl | h)
          · exact ⟨.inl rfl, ha⟩
          · exact ⟨.inr h.1, h.2⟩
        · rintro ⟨rfl | h, h2⟩
          · exact .inl rfl
          · exact .inr ⟨h, h2⟩
      · simp only [gt_iff_lt, takeWhile_cons, ha, decide_false, Bool.false_eq_true, if_false,
          not_mem_nil, mem_cons, false_iff, not_and]
        rintro (rfl | h)
        · exact ha
        · have := hl.1 e h
          omega
  rw [hsplit _ hdesc, mem_reverse, BTreeMap.mem_range, decide_eq_true_eq, and_assoc]

lemma remove_spec (hR : R.Wf) (r : Range) :
    (R.remove r).Wf ∧ ∀ x, x ∈ R.remove r ↔ x ∈ R ∧ x ∉ r := by
  rw [remove]
  split_ifs with hempty
  · refine ⟨hR, fun x => ⟨fun h => ⟨h, fun hx => ?_⟩, fun h => h.1⟩⟩
    have := Range.mem_def.1 hx
    omega
  · set l := (R.ranges.range (fun k => k < r.stop)).reverse.takeWhile (fun e => e.2 > r.start)
      with hl
    have hmem : ∀ e, e ∈ l ↔ e ∈ R.ranges ∧ e.1 < r.stop ∧ r.start < e.2 := mem_touching hR
    have hdesc : l.Pairwise (fun a b => b.2 < a.1) := by
      refine Pairwise.sublist (takeWhile_sublist _) ?_
      rw [pairwise_reverse]
      refine (R.ranges.range_sorted _).imp_of_mem ?_
      intro a b ha hb hab
      exact hR.apart a (mem_range.1 ha).1 b (mem_range.1 hb).1 hab
    have hent := mem_foldl_cut l R.ranges hdesc
      (fun e he => ⟨((hmem e).1 he).2.1, hR.nonempty e ((hmem e).1 he).1⟩) (by
        intro e he hlong g hg heq
        obtain ⟨he, h1, -⟩ := (hmem e).1 he
        exact absurd (hR.apart e he g hg (by omega)) (by omega))
    -- an entry of the result is a range clear of `r`, or what is left of one that is not
    have hkept : ∀ f, f ∈ l.foldl (cut r) R.ranges → ∃ e ∈ R.ranges,
        (f = e ∧ (e.2 ≤ r.start ∨ r.stop ≤ e.1)) ∨
          ((e.1 < r.stop ∧ r.start < e.2) ∧ Remains r e f) := by
      intro f hf
      rcases (hent f).1 hf with ⟨hf, hne⟩ | ⟨e, he, hrem⟩
      · refine ⟨f, hf, .inl ⟨rfl, ?_⟩⟩
        by_contra hcon
        exact hne f ((hmem f).2 ⟨hf, by omega, by omega⟩) rfl
      · exact ⟨e, ((hmem e).1 he).1, .inr ⟨((hmem e).1 he).2, hrem⟩⟩
    -- and lies inside it
    have hin : ∀ f e : ℕ × ℕ, e ∈ R.ranges → ((f = e ∧ (e.2 ≤ r.start ∨ r.stop ≤ e.1)) ∨
        ((e.1 < r.stop ∧ r.start < e.2) ∧ Remains r e f)) →
        e.1 ≤ f.1 ∧ f.1 < f.2 ∧ f.2 ≤ e.2 ∧ (f.2 ≤ r.start ∨ r.stop ≤ f.1) := by
      intro f e he hfe
      have hlt := hR.nonempty e he
      rcases hfe with ⟨rfl, h⟩ | ⟨h, ⟨rfl, h'⟩ | ⟨rfl, h'⟩⟩
      · omega
      · simp only
        omega
      · simp only
        omega
    refine ⟨⟨fun f hf => ?_, fun f hf g hg hfg => ?_⟩, fun x => ⟨?_, ?_⟩⟩
    · obtain ⟨e, he, hfe⟩ := hkept f hf
      exact (hin f e he hfe).2.1
    · obtain ⟨e, he, hfe⟩ := hkept f hf
      obtain ⟨e', he', hge⟩ := hkept g hg
      have h1 := hin f e he hfe
      have h2 := hin g e' he' hge
      rcases eq_or_lt he he' with rfl | h | h
      · -- two pieces of one range: `r` lies between them
        rcases hfe with ⟨rfl, h⟩ | ⟨h, ⟨rfl, h'⟩ | ⟨rfl, h'⟩⟩ <;>
          rcases hge with ⟨rfl, k⟩ | ⟨k, ⟨rfl, k'⟩ | ⟨rfl, k'⟩⟩ <;> simp only at * <;> omega
      · have := hR.apart e he e' he' h
        omega
      · have := hR.apart e' he' e he h
        omega
    · rintro ⟨f, hf, hx⟩
      obtain ⟨e, he, hfe⟩ := hkept f hf
      have h1 := hin f e he hfe
      refine ⟨⟨e, he, by omega, by omega⟩, fun hxr => ?_⟩
      have := Range.mem_def.1 hxr
      omega
    · rintro ⟨⟨e, he, hx⟩, hxr⟩
      rw [Range.mem_def] at hxr
      by_cases hel : e ∈ l
      · rcases lt_or_ge x r.start with hlt | hge
        · exact ⟨(e.1, r.start), (hent _).2 (.inr ⟨e, hel, .inl ⟨rfl, by omega⟩⟩), hx.1, hlt⟩
        · exact ⟨(r.stop, e.2), (hent _).2 (.inr ⟨e, hel, .inr ⟨rfl, by omega⟩⟩),
            by simp only; omega, hx.2⟩
      · refine ⟨e, (hent e).2 (.inl ⟨he, fun a ha hea => hel ?_⟩), hx⟩
        have hae : a = e := by
          rcases eq_or_lt ((hmem a).1 ha).1 he with h | h | h
          · exact h
          · omega
          · omega
        exact hae ▸ ha

lemma remove_of_le (h : r.stop ≤ r.start) : R.remove r = R := if_pos h

@[simp] lemma mem_remove (hR : R.Wf) : x ∈ R.remove r ↔ x ∈ R ∧ x ∉ r := (remove_spec hR r).2 x

lemma wf_remove (hR : R.Wf) : (R.remove r).Wf := (remove_spec hR r).1

lemma wf_removeBelow {v : ℕ} (hR : R.Wf) : (R.removeBelow v).Wf := wf_remove hR

@[simp] lemma mem_removeBelow {v : ℕ} (hR : R.Wf) : x ∈ R.removeBelow v ↔ x ∈ R ∧ v ≤ x := by
  rw [removeBelow, mem_remove hR, Range.mem_def]
  simp

/-! ### The parts within a range -/

lemma mem_within (hR : R.Wf) : (∃ a ∈ R.within r, x ∈ a) ↔ x ∈ R ∧ x ∈ r := by
  rw [within]
  split_ifs with hempty
  · rw [Range.mem_def]
    simp only [not_mem_nil, false_and, exists_false, false_iff, not_and]
    omega
  · have hfirst : ∀ e ∈ R.ranges, r.start < e.2 →
        ((R.containing r.start).map Prod.fst).getD r.start ≤ e.1 := by
      intro e he hlt
      cases hc : R.containing r.start with
      | none =>
        simp only [Option.map_none, Option.getD_none]
        by_contra hcon
        have := (containing_eq_some hR).2 ⟨he, by omega, hlt⟩
        rw [hc] at this
        exact absurd this (by simp)
      | some b =>
        obtain ⟨hb, h1, h2⟩ := (containing_eq_some hR).1 hc
        simp only [Option.map_some, Option.getD_some]
        rcases BTreeMap.eq_or_lt he hb with rfl | h | h
        · exact le_refl _
        · exact absurd (hR.apart e he b hb h) (by omega)
        · exact h.le
    simp only [mem_filter, mem_map, BTreeMap.mem_range, decide_eq_true_eq, Range.mem_def]
    constructor
    · rintro ⟨a, ⟨⟨e, ⟨he, -⟩, rfl⟩, -⟩, h1, h2⟩
      simp only at h1 h2
      exact ⟨⟨e, he, by omega, by omega⟩, by omega, by omega⟩
    · rintro ⟨⟨e, he, h1, h2⟩, h3, h4⟩
      have hmin : x < Min.min e.2 r.stop := by omega
      refine ⟨_, ⟨⟨e, ⟨he, hfirst e he (by omega), by omega⟩, rfl⟩, ?_⟩, ?_, hmin⟩
      · simp only
        omega
      · simp only
        omega

lemma foldl_remove_spec (hR : R.Wf) (l : List Range) :
    (l.foldl remove R).Wf ∧ ∀ x, x ∈ l.foldl remove R ↔ x ∈ R ∧ ∀ a ∈ l, x ∉ a := by
  induction l generalizing R with
  | nil => simp [hR]
  | cons a l ih =>
    obtain ⟨h1, h2⟩ := ih (wf_remove (r := a) hR)
    refine ⟨h1, fun x => ?_⟩
    rw [foldl_cons, h2, mem_remove hR]
    simp [and_assoc]

/-! ### One set, one form -/

variable {S : RangeSet} {e : ℕ × ℕ}

lemma stop_not_mem (hR : R.Wf) (he : e ∈ R.ranges) : e.2 ∉ R := by
  rintro ⟨f, hf, hle, hlt⟩
  have hne := hR.nonempty e he
  rcases eq_or_lt hf he with rfl | h | h
  · exact lt_irrefl _ hlt
  · have := hR.apart f hf e he h
    omega
  · have := hR.apart e he f hf h
    omega

lemma not_mem_before (hR : R.Wf) (he : e ∈ R.ranges) (hx : x + 1 = e.1) : x ∉ R := by
  rintro ⟨f, hf, hle, hlt⟩
  rcases eq_or_lt hf he with rfl | h | h
  · omega
  · have := hR.apart f hf e he h
    omega
  · omega

lemma mem_ranges_of_same (hR : R.Wf) (hS : S.Wf) (he : e ∈ R.ranges)
    (h : ∀ x, e.1 ≤ x + 1 → (x ∈ R ↔ x ∈ S)) : e ∈ S.ranges := by
  have hne := hR.nonempty e he
  obtain ⟨f, hf, hle, hlt⟩ := (h e.1 (Nat.le_succ _)).1 ⟨e, he, le_rfl, hne⟩
  -- a range of `S` with a number of `e` begins and ends with it, as nothing is next to a range
  have hstart : f.1 = e.1 := by
    by_contra hne'
    obtain ⟨x, hx⟩ : ∃ x, x + 1 = e.1 := ⟨e.1 - 1, by omega⟩
    exact not_mem_before hR he hx ((h x hx.ge).2 ⟨f, hf, by omega, by omega⟩)
  have hstop : f.2 = e.2 := by
    rcases lt_trichotomy f.2 e.2 with hfe | heq | hef
    · exact absurd ((h f.2 (by omega)).1 ⟨e, he, hlt.le, hfe⟩) (stop_not_mem hS hf)
    · exact heq
    · exact absurd ((h e.2 (by omega)).2 ⟨f, hf, by omega, hef⟩) (stop_not_mem hR he)
  have hef : f = e := Prod.ext hstart hstop
  exact hef ▸ hf

end RangeSet

end Lazaret.Quic
