import Lazaret.Lib.History
import Lazaret.Lib.Spans
import Lazaret.Quic.RangeSet

/-!
# What a set of ranges answers

The operations of `RangeSet` that the connection's own books do not need, and what holds of a set
after any operations on numbers of 64 bits: its ranges are canonical, and what it answers and does
is what a set of numbers would (`range_set_of_numbers`).
-/

namespace Lazaret.Quic.RangeSet

open List BTreeMap

def rangeCount (R : RangeSet) : ℕ := R.ranges.len

def count (R : RangeSet) : ℕ := (R.ranges.entries.map fun e => e.2 - e.1).sum

def max (R : RangeSet) : Option ℕ := R.ranges.last.map fun e => e.2 - 1

def intersects (R : RangeSet) (r : Range) : Bool :=
  if r.start ≥ r.stop then false
  else if (R.containing r.start).isSome then true
  else (R.ranges.range fun k => r.start ≤ k ∧ k < r.stop).head?.isSome

/-- Puts `v` in.  Says too whether it was not there. -/
def insertOne (R : RangeSet) (v : ℕ) : Bool × RangeSet := R.insert ⟨v, v + 1⟩

/-- Takes the lowest numbers out, up to `most` of them, from the lowest range. -/
def popFirst (R : RangeSet) (most : ℕ) : Option Range × RangeSet :=
  if most = 0 then (none, R)
  else
    match R.ranges.first with
    | none => (none, R)
    | some (s, e) =>
      let stop := Min.min e (Min.min (s + most) (2 ^ 64 - 1))
      let m := R.ranges.remove s
      (some ⟨s, stop⟩, ⟨if stop < e then m.insert stop e else m⟩)

/-- The loop of `keepHighest`; the fuel is the number of ranges. -/
def dropLowest (n : ℕ) : ℕ → BTreeMap ℕ ℕ → BTreeMap ℕ ℕ
  | 0, m => m
  | fuel + 1, m =>
    if m.len > n then
      match m.first with
      | none => m
      | some e => dropLowest n fuel (m.remove e.1)
    else m

/-- Keeps only the `n` highest ranges. -/
def keepHighest (R : RangeSet) (n : ℕ) : RangeSet := ⟨dropLowest n R.ranges.len R.ranges⟩

inductive Op
  | insert (r : Range)
  | insertOne (v : ℕ)
  | remove (r : Range)
  | removeBelow (v : ℕ)
  | popFirst (most : ℕ)
  | keepHighest (n : ℕ)

/-- The numbers of a call have 64 bits, and a single one is not the last of them. -/
def Op.InRange : Op → Prop
  | .insert r => r.stop < 2 ^ 64
  | .insertOne v => v < 2 ^ 64 - 1
  | _ => True

def apply (R : RangeSet) : Op → RangeSet
  | .insert r => (R.insert r).2
  | .insertOne v => (R.insertOne v).2
  | .remove r => R.remove r
  | .removeBelow v => R.removeBelow v
  | .popFirst most => (R.popFirst most).2
  | .keepHighest n => R.keepHighest n

variable {R : RangeSet} {r : Range} {x : ℕ}

/-! ### What a set answers -/

lemma intersects_iff (hR : R.Wf) : R.intersects r = true ↔ ∃ x ∈ r, x ∈ R := by
  rw [intersects]
  split_ifs with hempty hhas
  · simp only [false_iff, Range.mem_def]
    rintro ⟨x, hx, -⟩
    omega
  · refine ⟨fun _ => ⟨r.start, ⟨le_refl _, by omega⟩, (contains_iff hR).1 hhas⟩, fun _ => rfl⟩
  · rw [Option.isSome_iff_exists]
    constructor
    · rintro ⟨e, he⟩
      simp only [range_head?_eq_some, decide_eq_true_eq] at he
      exact ⟨e.1, he.2.1, e, he.1, le_refl _, hR.nonempty e he.1⟩
    · rintro ⟨x, hx, e, he, h1, h2⟩
      rw [Range.mem_def] at hx
      -- the range that holds `x` begins in `r`, as the start of `r` is in none
      have hstart : r.start ≤ e.1 := by
        by_contra hlt
        exact hhas ((contains_iff hR).2 ⟨e, he, by omega, by omega⟩)
      rw [← Option.isSome_iff_exists, Option.isSome_iff_ne_none, Ne, range_head?_eq_none]
      intro hnone
      simpa using (hnone e he).symm.trans (decide_eq_true ⟨hstart, by omega⟩)

lemma min_eq_some (hR : R.Wf) : R.min = some x ↔ IsLeast {y | y ∈ R} x := by
  rw [min, Option.map_eq_some_iff]
  constructor
  · rintro ⟨e, he, rfl⟩
    rw [BTreeMap.first_eq_some] at he
    refine ⟨⟨e, he.1, le_refl _, hR.nonempty e he.1⟩, ?_⟩
    rintro y ⟨a, ha, hay, -⟩
    rcases he.2 a ha with rfl | hlt
    · exact hay
    · omega
  · rintro ⟨⟨e, he, hle, hlt⟩, hleast⟩
    have hx : x = e.1 := le_antisymm (hleast ⟨e, he, le_refl _, hR.nonempty e he⟩) hle
    refine ⟨e, BTreeMap.first_eq_some.2 ⟨he, fun a ha => ?_⟩, hx.symm⟩
    have hax : x ≤ a.1 := hleast ⟨a, ha, le_refl _, hR.nonempty a ha⟩
    rcases BTreeMap.eq_or_lt ha he with h | h | h
    · exact .inl h
    · omega
    · exact .inr h

lemma max_eq_some (hR : R.Wf) : R.max = some x ↔ IsGreatest {y | y ∈ R} x := by
  rw [max, Option.map_eq_some_iff]
  constructor
  · rintro ⟨e, he, rfl⟩
    rw [last_eq_some] at he
    have hne := hR.nonempty e he.1
    refine ⟨⟨e, he.1, by omega, by omega⟩, ?_⟩
    rintro y ⟨a, ha, -, hya⟩
    rcases he.2 a ha with rfl | hlt
    · omega
    · have := hR.apart a ha e he.1 hlt
      omega
  · rintro ⟨⟨e, he, hle, hlt⟩, hgreatest⟩
    have hne := hR.nonempty e he
    have hx : e.2 - 1 ≤ x := hgreatest ⟨e, he, by omega, by omega⟩
    refine ⟨e, last_eq_some.2 ⟨he, fun a ha => ?_⟩, by omega⟩
    have hane := hR.nonempty a ha
    have hax : a.2 - 1 ≤ x := hgreatest ⟨a, ha, by omega, by omega⟩
    rcases eq_or_lt ha he with h | h | h
    · exact .inl h
    · exact .inr h
    · have := hR.apart e he a ha h
      omega

lemma within_apart (hR : R.Wf) :
    (R.within r).Pairwise (fun a b => a.stop < b.start) ∧ ∀ a ∈ R.within r, a.start < a.stop := by
  rw [within]
  split_ifs
  · simp
  · refine ⟨Pairwise.filter _ (pairwise_map.2 ?_), fun a ha => ?_⟩
    · refine (R.ranges.range_sorted _).imp_of_mem fun {a b} ha hb hab => ?_
      have := hR.apart a (mem_range.1 ha).1 b (mem_range.1 hb).1 hab
      simp only
      omega
    · simpa using (mem_filter.1 ha).2

lemma card_eq_count (hR : R.Wf) {n : ℕ} (hn : ∀ e ∈ R.ranges, e.2 ≤ n) :
    ((Finset.range n).filter (InSpans R.ranges.entries)).card = R.count :=
  card_inSpans (R.ranges.sorted.imp_of_mem fun {a b} ha hb hab =>
    (hR.apart a ha b hb hab).le) hn

/-! ### What a call does -/

lemma insert_grew (hR : R.Wf) : (R.insert r).1 = true ↔ ∃ x ∈ r, x ∉ R := by
  have hcov := covers_iff (r := r) hR
  rw [insert]
  split_ifs with hempty hc
  · simp only [false_iff, Range.mem_def]
    rintro ⟨x, hx, -⟩
    omega
  · rw [false_iff]
    rintro ⟨x, hx, hno⟩
    exact hno (hcov.1 hc x hx)
  · simp only [true_iff]
    by_contra hall
    exact hc (hcov.2 fun x hx => by_contra fun hno => hall ⟨x, hx, hno⟩)

lemma mem_popped {m : BTreeMap ℕ ℕ} (hm : Canonical m) {e f : ℕ × ℕ} (he : e ∈ m)
    (hfirst : ∀ a ∈ m, a = e ∨ e.1 < a.1) {stop : ℕ} (hstop : stop ≤ e.2) :
    f ∈ (if stop < e.2 then (m.remove e.1).insert stop e.2 else m.remove e.1) ↔
      (f ∈ m ∧ e.2 < f.1) ∨ (f = (stop, e.2) ∧ stop < e.2) := by
  have hrest : f ∈ m.remove e.1 ↔ f ∈ m ∧ e.2 < f.1 := by
    rw [BTreeMap.mem_remove]
    refine and_congr_right fun hf => ⟨fun hne => ?_, fun hlt => ?_⟩
    · rcases hfirst f hf with rfl | hlt
      · exact absurd rfl hne
      · exact hm.apart e he f hf hlt
    · have := hm.nonempty e he
      omega
  split_ifs with hlt
  · rw [BTreeMap.mem_insert, hrest]
    constructor
    · rintro (rfl | ⟨hf, -⟩)
      · exact .inr ⟨rfl, hlt⟩
      · exact .inl hf
    · rintro (hf | ⟨rfl, -⟩)
      · exact .inr ⟨hf, by omega⟩
      · exact .inl rfl
  · rw [hrest]
    exact ⟨.inl, fun h => h.resolve_right fun h' => hlt h'.2⟩

/-- The numbers of `t` are the lowest of a set, and `most` at the most. -/
structure Lowest (R : RangeSet) (most : ℕ) (t : Range) : Prop where
  nonempty : t.start < t.stop
  most : t.stop ≤ t.start + most
  mem : ∀ x ∈ t, x ∈ R
  lowest : ∀ x ∈ R, x ∉ t → t.stop ≤ x

/-- The ranges are canonical and their ends have 64 bits. -/
structure Good (R : RangeSet) : Prop where
  wf : R.Wf
  lt : ∀ x ∈ R, x < 2 ^ 64 - 1

lemma Good.stop_lt (h : R.Good) {e : ℕ × ℕ} (he : e ∈ R.ranges) : e.2 < 2 ^ 64 := by
  have hne := h.wf.nonempty e he
  have := h.lt (e.2 - 1) ⟨e, he, by omega, by omega⟩
  omega

def Popped (R : RangeSet) (most : ℕ) : Option Range × RangeSet → Prop
  | (none, R') => R' = R ∧ (most = 0 ∨ ∀ x, x ∉ R)
  | (some t, R') => Lowest R most t ∧ ∀ x, x ∈ R' ↔ x ∈ R ∧ x ∉ t

lemma popFirst_spec (h : R.Good) (most : ℕ) :
    (R.popFirst most).2.Wf ∧ Popped R most (R.popFirst most) := by
  rw [popFirst]
  split_ifs with h0
  · exact ⟨h.wf, rfl, .inl h0⟩
  · cases hfirst : R.ranges.first with
    | none =>
      refine ⟨h.wf, rfl, .inr ?_⟩
      rintro x ⟨e, he, -⟩
      exact BTreeMap.first_eq_none.1 hfirst e he
    | some e =>
      obtain ⟨s, e⟩ := e
      rw [BTreeMap.first_eq_some] at hfirst
      obtain ⟨he, hall⟩ := hfirst
      have hne := h.wf.nonempty _ he
      have hlt := h.stop_lt he
      dsimp only at hne hlt hall ⊢
      generalize hstop : Min.min e (Min.min (s + most) (2 ^ 64 - 1)) = stop
      have hstop' : stop ≤ e := by omega
      have hmem := fun f => mem_popped (f := f) h.wf he hall hstop'
      refine ⟨⟨fun f hf => ?_, fun f hf g hg hfg => ?_⟩, ?_⟩
      · rcases (hmem f).1 hf with ⟨hf, -⟩ | ⟨rfl, hlt'⟩
        · exact h.wf.nonempty f hf
        · exact hlt'
      · rcases (hmem f).1 hf with ⟨hf, hf'⟩ | ⟨rfl, -⟩ <;>
          rcases (hmem g).1 hg with ⟨hg, hg'⟩ | ⟨rfl, -⟩
        · exact h.wf.apart f hf g hg hfg
        · dsimp only at hf' hfg
          omega
        · exact hg'
        · exact absurd hfg (lt_irrefl _)
      · have hlow : ∀ x ∈ R, x ∉ (⟨s, stop⟩ : Range) → stop ≤ x := by
          rintro x ⟨a, ha, hax, -⟩ hout
          rw [Range.mem_def] at hout
          rcases hall a ha with rfl | hlow <;> dsimp only at * <;> omega
        refine ⟨⟨by dsimp only; omega, by dsimp only; omega, fun x hx => ?_, hlow⟩, fun x => ?_⟩
        · rw [Range.mem_def] at hx
          exact ⟨_, he, hx.1, by dsimp only at hx ⊢; omega⟩
        · constructor
          · rintro ⟨f, hf, h1, h2⟩
            rw [Range.mem_def]
            rcases (hmem f).1 hf with ⟨hf, hf'⟩ | ⟨rfl, -⟩
            · exact ⟨⟨f, hf, h1, h2⟩, by dsimp only at hf' ⊢; omega⟩
            · exact ⟨⟨_, he, by dsimp only at h1 ⊢; omega, h2⟩, by dsimp only at h1 ⊢; omega⟩
          · rintro ⟨⟨a, ha, h1, h2⟩, hout⟩
            have hle := hlow x ⟨a, ha, h1, h2⟩ hout
            rcases hall a ha with rfl | hafter
            · exact ⟨(stop, e), (hmem _).2 (.inr ⟨rfl, by dsimp only at h2 ⊢; omega⟩), hle, h2⟩
            · exact ⟨a, (hmem a).2 (.inl ⟨ha, h.wf.apart _ he a ha hafter⟩), h1, h2⟩

lemma entries_remove_first {m : BTreeMap ℕ ℕ} {e : ℕ × ℕ} (h : m.first = some e) :
    (m.remove e.1).entries = m.entries.tail := by
  obtain ⟨l, hl⟩ : ∃ l, m.entries = e :: l := head?_eq_some_iff.1 h
  have hsorted := m.sorted
  rw [hl, pairwise_cons] at hsorted
  have hrest : l.filter (fun a => a.1 ≠ e.1) = l :=
    filter_eq_self.2 fun a ha => by simpa using (hsorted.1 a ha).ne'
  have htail : (m.remove e.1).entries = m.entries.filter (fun a => a.1 ≠ e.1) := rfl
  rw [htail, hl, filter_cons_of_neg (by simp), hrest, tail_cons]

lemma entries_dropLowest (n fuel : ℕ) (m : BTreeMap ℕ ℕ) (hfuel : m.len ≤ fuel) :
    (dropLowest n fuel m).entries = m.entries.drop (m.len - n) := by
  induction fuel generalizing m with
  | zero =>
    rw [dropLowest, Nat.le_zero.1 hfuel, Nat.zero_sub, drop_zero]
  | succ fuel ih =>
    rw [dropLowest]
    split_ifs with hmore
    · cases hfirst : m.first with
      | none => rw [BTreeMap.len_eq_zero.2 (BTreeMap.first_eq_none.1 hfirst)] at hmore; omega
      | some e =>
        have htail := entries_remove_first hfirst
        have hlen : (m.remove e.1).len = m.len - 1 := by
          rw [BTreeMap.len, htail, length_tail, BTreeMap.len]
        dsimp only
        rw [ih _ (by omega), htail, hlen, drop_tail, (by omega : m.len - 1 - n + 1 = m.len - n)]
    · rw [Nat.sub_eq_zero_of_le (by omega), drop_zero]

lemma entries_keepHighest (R : RangeSet) (n : ℕ) :
    (R.keepHighest n).ranges.entries = R.ranges.entries.drop (R.rangeCount - n) :=
  entries_dropLowest n _ _ (le_refl _)

/-! ### After any calls -/

/-- What is asked of a set is answered as of the numbers in it. -/
structure Answers (R : RangeSet) : Prop where
  contains : ∀ x, R.contains x = true ↔ x ∈ R
  covers : ∀ r, R.covers r = true ↔ ∀ x ∈ r, x ∈ R
  intersects : ∀ r, R.intersects r = true ↔ ∃ x ∈ r, x ∈ R
  within : ∀ r x, (∃ a ∈ R.within r, x ∈ a) ↔ x ∈ R ∧ x ∈ r
  parts : ∀ r, (R.within r).Pairwise (fun a b => a.stop < b.start) ∧
    ∀ a ∈ R.within r, a.start < a.stop
  min : ∀ x, R.min = some x ↔ IsLeast {y | y ∈ R} x
  max : ∀ x, R.max = some x ↔ IsGreatest {y | y ∈ R} x
  count : ∃ s : Finset ℕ, (∀ x, x ∈ s ↔ x ∈ R) ∧ R.count = s.card ∧ R.count < 2 ^ 64

/-- What a call does to a set is what it does to the numbers in it. -/
structure Acts (R : RangeSet) : Prop where
  insert : ∀ r, (∀ x, x ∈ (R.insert r).2 ↔ x ∈ R ∨ x ∈ r) ∧
    ((R.insert r).1 = true ↔ ∃ x ∈ r, x ∉ R)
  insertOne : ∀ v, (∀ x, x ∈ (R.insertOne v).2 ↔ x ∈ R ∨ x = v) ∧
    ((R.insertOne v).1 = true ↔ v ∉ R)
  remove : ∀ r x, x ∈ R.remove r ↔ x ∈ R ∧ x ∉ r
  removeBelow : ∀ v x, x ∈ R.removeBelow v ↔ x ∈ R ∧ v ≤ x
  popFirst : ∀ most, Popped R most (R.popFirst most)
  keepHighest : ∀ n, (R.keepHighest n).ranges.entries =
    R.ranges.entries.drop (R.rangeCount - n)

lemma mem_one {v : ℕ} : x ∈ (⟨v, v + 1⟩ : Range) ↔ x = v := by
  rw [Range.mem_def]
  dsimp only
  omega

lemma Good.answers (h : R.Good) : Answers R where
  contains _ := contains_iff h.wf
  covers _ := covers_iff h.wf
  intersects _ := intersects_iff h.wf
  within _ _ := mem_within h.wf
  parts _ := within_apart h.wf
  min _ := min_eq_some h.wf
  max _ := max_eq_some h.wf
  count := by
    have hcard := card_eq_count h.wf (n := 2 ^ 64 - 1) fun e he => Nat.le_pred_of_lt (h.stop_lt he)
    have hle := Finset.card_filter_le (Finset.range (2 ^ 64 - 1)) (InSpans R.ranges.entries)
    rw [Finset.card_range] at hle
    refine ⟨_, fun x => ?_, hcard.symm, by omega⟩
    rw [Finset.mem_filter, Finset.mem_range]
    exact ⟨fun hx => hx.2, fun hx => ⟨h.lt x hx, hx⟩⟩

lemma Good.acts (h : R.Good) : Acts R where
  insert _ := ⟨fun _ => mem_insert h.wf, insert_grew h.wf⟩
  insertOne v := by
    refine ⟨fun x => (mem_insert h.wf).trans (or_congr_right mem_one), (insert_grew h.wf).trans ?_⟩
    simp only [mem_one, exists_eq_left]
  remove _ _ := mem_remove h.wf
  removeBelow _ _ := mem_removeBelow h.wf
  popFirst most := (popFirst_spec h most).2
  keepHighest n := entries_keepHighest R n

lemma Good.apply (h : R.Good) {op : Op} (hop : op.InRange) : (R.apply op).Good := by
  cases op with
  | insert r =>
    refine ⟨wf_insert h.wf, fun x hx => ?_⟩
    rcases (mem_insert h.wf).1 hx with hx | hx
    · exact h.lt x hx
    · exact hx.2.trans_le (Nat.le_pred_of_lt hop)
  | insertOne v =>
    refine ⟨wf_insert h.wf, fun x hx => ?_⟩
    rcases (h.acts.insertOne v).1 x |>.1 hx with hx | rfl
    · exact h.lt x hx
    · exact hop
  | remove r => exact ⟨wf_remove h.wf, fun x hx => h.lt x ((mem_remove h.wf).1 hx).1⟩
  | removeBelow v => exact ⟨wf_removeBelow h.wf, fun x hx => h.lt x ((mem_removeBelow h.wf).1 hx).1⟩
  | popFirst most =>
    obtain ⟨hwf, hpop⟩ := popFirst_spec h most
    refine ⟨hwf, fun x hx => h.lt x ?_⟩
    rw [RangeSet.apply] at hx
    generalize R.popFirst most = p at hpop hx
    obtain ⟨_ | t, R'⟩ := p
    · exact hpop.1 ▸ hx
    · exact ((hpop.2 x).1 hx).1
  | keepHighest n =>
    have hsub : ∀ e ∈ (R.keepHighest n).ranges, e ∈ R.ranges := fun e he => by
      rw [BTreeMap.mem_def, entries_keepHighest] at he
      exact mem_of_mem_drop he
    exact ⟨⟨fun e he => h.wf.nonempty e (hsub e he), fun a ha b hb =>
      h.wf.apart a (hsub a ha) b (hsub b hb)⟩, fun x ⟨e, he, hx⟩ => h.lt x ⟨e, hsub e he, hx⟩⟩

/-- After any calls with numbers of 64 bits the ranges are not empty, in order and do not touch, and
the set answers and acts as a set of numbers. -/
theorem range_set_of_numbers (ops : List {op : Op // op.InRange}) :
    (after (fun R op => R.apply op.1) new ops).Wf ∧
      Answers (after (fun R op => R.apply op.1) new ops) ∧
      Acts (after (fun R op => R.apply op.1) new ops) := by
  have h : (after (fun R (op : {op : Op // op.InRange}) => R.apply op.1) new ops).Good :=
    after_invariant Good (fun _ op hR => hR.apply op.2) ⟨wf_new, fun _ hx => absurd hx not_mem_new⟩
      ops
  exact ⟨h.wf, h.answers, h.acts⟩

/-! ### One set, one form -/

/-- A set has one form, whatever calls led to it: two are equal exactly if they hold the same
numbers. -/
theorem eq_iff_same_numbers (ops ops' : List {op : Op // op.InRange}) :
    after (fun R op => R.apply op.1) new ops = after (fun R op => R.apply op.1) new ops' ↔
      ∀ x, x ∈ after (fun R op => R.apply op.1) new ops ↔
        x ∈ after (fun R op => R.apply op.1) new ops' := by
  have hwf : ∀ ops : List {op : Op // op.InRange},
      (after (fun R op => R.apply op.1) new ops).Wf := fun ops =>
    (after_invariant Good (fun _ op hR => hR.apply op.2)
      ⟨wf_new, fun _ hx => absurd hx not_mem_new⟩ ops).wf
  refine ⟨fun heq _ => by rw [heq], fun h => congrArg mk (BTreeMap.ext_mem fun e => ?_)⟩
  exact ⟨fun he => mem_ranges_of_same (hwf ops) (hwf ops') he fun x _ => h x,
    fun he => mem_ranges_of_same (hwf ops') (hwf ops) he fun x _ => (h x).symm⟩

end Lazaret.Quic.RangeSet
