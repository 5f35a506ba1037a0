import Mathlib.Tactic.Ring
import Mathlib.Data.List.Sort

/-!
# Ordered maps

An ordered map is the list of its entries by ascending key.  The operations are those of an
ordered map with range queries: lookup, insertion, removal, the entries whose keys satisfy a
predicate, and the last of them.  Every operation is described by its entries, which is all
that a map is (`ext_mem`).
-/

namespace Lazaret

open List

variable {κ : Type*} [LinearOrder κ] {α : Type*}

structure BTreeMap (κ : Type*) [LinearOrder κ] (α : Type*) where
  entries : List (κ × α)
  sorted : entries.Pairwise (fun a b => a.1 < b.1)

namespace BTreeMap

instance [DecidableEq α] : DecidableEq (BTreeMap κ α) := fun a b =>
  decidable_of_iff (a.entries = b.entries)
  ⟨fun h => by cases a; cases b; simp_all, fun h => h ▸ rfl⟩

instance : Membership (κ × α) (BTreeMap κ α) := ⟨fun m e => e ∈ m.entries⟩

variable {e : κ × α}

lemma mem_def {m : BTreeMap κ α} : e ∈ m ↔ e ∈ m.entries := Iff.rfl

def empty : BTreeMap κ α := ⟨[], List.Pairwise.nil⟩

def len (m : BTreeMap κ α) : ℕ := m.entries.length

def isEmpty (m : BTreeMap κ α) : Bool := m.entries.isEmpty

def first (m : BTreeMap κ α) : Option (κ × α) := m.entries.head?

def last (m : BTreeMap κ α) : Option (κ × α) := m.entries.getLast?

/-- The entries whose keys satisfy `p`, in order. -/
def range (m : BTreeMap κ α) (p : κ → Bool) : List (κ × α) := m.entries.filter (fun e => p e.1)

/-- The value under `k`. -/
def get (m : BTreeMap κ α) (k : κ) : Option α := (m.entries.find? (fun e => e.1 = k)).map Prod.snd

/-- The map without the entry of `k`. -/
def remove (m : BTreeMap κ α) (k : κ) : BTreeMap κ α :=
  ⟨m.entries.filter (fun e => e.1 ≠ k), m.sorted.filter _⟩

/-- The map with `v` under `k`, in place of what was there. -/
def insert (m : BTreeMap κ α) (k : κ) (v : α) : BTreeMap κ α where
  entries := m.entries.filter (fun e => e.1 < k) ++ (k, v) :: m.entries.filter (fun e => k < e.1)
  sorted := by
    rw [List.pairwise_append, List.pairwise_cons]
    refine ⟨m.sorted.filter _, ⟨?_, m.sorted.filter _⟩, ?_⟩
    · intro e he
      simpa using (List.mem_filter.1 he).2
    · intro a ha b hb
      have hak : a.1 < k := by simpa using (List.mem_filter.1 ha).2
      rcases List.mem_cons.1 hb with rfl | hb
      · exact hak
      · exact hak.trans (by simpa using (List.mem_filter.1 hb).2)

/-- The map with `f k v` in the place of each `v`. -/
def map (m : BTreeMap κ α) (f : κ → α → α) : BTreeMap κ α :=
  ⟨m.entries.map fun e => (e.1, f e.1 e.2), by
    rw [List.pairwise_map]
    exact m.sorted⟩

/-! ### Entries -/

variable {m m' : BTreeMap κ α} {k k' : κ} {v v' : α}

@[simp] lemma not_mem_empty : e ∉ (empty : BTreeMap κ α) := by
  simp [mem_def, empty]

lemma eq_or_lt {a b : κ × α} (ha : a ∈ m) (hb : b ∈ m) : a = b ∨ a.1 < b.1 ∨ b.1 < a.1 := by
  have key : ∀ l : List (κ × α), l.Pairwise (fun a b => a.1 < b.1) →
      a ∈ l → b ∈ l → a = b ∨ a.1 < b.1 ∨ b.1 < a.1 := by
    intro l hl
    induction l with
    | nil => simp
    | cons c l ih =>
      rw [pairwise_cons] at hl
      rw [mem_cons, mem_cons]
      rintro (rfl | h1) (rfl | h2)
      · exact .inl rfl
      · exact .inr (.inl (hl.1 _ h2))
      · exact .inr (.inr (hl.1 _ h1))
      · exact ih hl.2 h1 h2
  exact key m.entries m.sorted ha hb

lemma value_unique (h : (k, v) ∈ m) (h' : (k, v') ∈ m) : v = v' := by
  rcases eq_or_lt h h' with h | h | h
  · exact (Prod.mk.injEq _ _ _ _ ▸ h).2
  · exact absurd h (lt_irrefl _)
  · exact absurd h (lt_irrefl _)

lemma ext_mem (h : ∀ e, e ∈ m ↔ e ∈ m') : m = m' := by
  have hlist : m.entries = m'.entries := by
    refine @List.Perm.eq_of_pairwise _ (fun a b => a.1 < b.1) _ _ ?_ m.sorted m'.sorted ?_
    · intro a b _ _ hab hba
      exact absurd (hab.trans hba) (lt_irrefl _)
    · refine (perm_ext_iff_of_nodup ?_ ?_).2 h
      · exact m.sorted.imp (fun hab he => absurd hab (by simp [he]))
      · exact m'.sorted.imp (fun hab he => absurd hab (by simp [he]))
  cases m
  cases m'
  simp_all

@[simp] lemma mem_remove : e ∈ m.remove k ↔ e ∈ m ∧ e.1 ≠ k := by
  simp [mem_def, remove]

@[simp] lemma mem_insert : e ∈ m.insert k v ↔ e = (k, v) ∨ (e ∈ m ∧ e.1 ≠ k) := by
  simp only [mem_def, insert, mem_append, mem_filter, mem_cons, decide_eq_true_eq]
  constructor
  · rintro (⟨h, hlt⟩ | h | ⟨h, hlt⟩)
    · exact .inr ⟨h, hlt.ne⟩
    · exact .inl h
    · exact .inr ⟨h, hlt.ne'⟩
  · rintro (h | ⟨h, hne⟩)
    · exact .inr (.inl h)
    · rcases lt_or_gt_of_ne hne with hlt | hlt
      · exact .inl ⟨h, hlt⟩
      · exact .inr (.inr ⟨h, hlt⟩)

variable {p : κ → Bool}

@[simp] lemma mem_range : e ∈ m.range p ↔ e ∈ m ∧ p e.1 = true := by
  simp [mem_def, range]

lemma range_sorted (m : BTreeMap κ α) (p : κ → Bool) :
    (m.range p).Pairwise (fun a b => a.1 < b.1) := m.sorted.filter _

lemma get_eq_some : m.get k = some v ↔ (k, v) ∈ m := by
  simp only [get, Option.map_eq_some_iff]
  constructor
  · rintro ⟨⟨k', v'⟩, hf, rfl⟩
    have hk : k' = k := by simpa using List.find?_some hf
    subst hk
    exact mem_of_find?_eq_some hf
  · intro h
    cases hf : m.entries.find? (fun e => e.1 = k) with
    | none => exact absurd (List.find?_eq_none.1 hf _ h) (by simp)
    | some e =>
      refine ⟨e, rfl, ?_⟩
      have hk : e.1 = k := by simpa using List.find?_some hf
      have he : (k, e.2) ∈ m := by
        have := mem_of_find?_eq_some hf
        rwa [← hk]
      exact value_unique he h

lemma get_eq_none : m.get k = none ↔ ∀ v, (k, v) ∉ m := by
  constructor
  · intro h v hv
    rw [get_eq_some.2 hv] at h
    exact absurd h (by simp)
  · intro h
    cases hg : m.get k with
    | none => rfl
    | some v => exact absurd (get_eq_some.1 hg) (h v)

lemma len_remove (h : (k, v) ∈ m) : (m.remove k).len < m.len := by
  have hlt := length_filter_lt_length_iff_exists (p := fun e : κ × α => decide (e.1 ≠ k))
    (l := m.entries)
  exact hlt.2 ⟨(k, v), h, by simp⟩

lemma len_eq_zero : m.len = 0 ↔ ∀ e, e ∉ m := by
  simp [len, mem_def, eq_nil_iff_forall_not_mem]

lemma mem_foldl_insert {es : List (κ × α)} (hes : (es.map Prod.fst).Nodup) :
    e ∈ es.foldl (fun m e => m.insert e.1 e.2) m ↔ e ∈ es ∨ (e ∈ m ∧ e.1 ∉ es.map Prod.fst) := by
  induction es generalizing m with
  | nil => simp
  | cons a es ih =>
    rw [map_cons, nodup_cons] at hes
    rw [foldl_cons, ih hes.2, mem_insert, mem_cons, map_cons, mem_cons, not_or]
    constructor
    · rintro (h | ⟨rfl | ⟨h, hne⟩, hnot⟩)
      · exact .inl (.inr h)
      · exact .inl (.inl rfl)
      · exact .inr ⟨h, hne, hnot⟩
    · rintro ((rfl | h) | ⟨h, hne, hnot⟩)
      · exact .inr ⟨.inl rfl, hes.1⟩
      · exact .inl h
      · exact .inr ⟨.inr ⟨h, hne⟩, hnot⟩

/-! ### Lookups after a change -/

lemma get_insert (m : BTreeMap κ α) (k : κ) (v : α) (k' : κ) :
    (m.insert k v).get k' = if k' = k then some v else m.get k' := by
  split_ifs with h
  · exact get_eq_some.2 (mem_insert.2 (.inl (by rw [h])))
  · cases hg : m.get k' with
    | none =>
      rw [get_eq_none] at hg ⊢
      intro v' hv'
      rcases mem_insert.1 hv' with he | ⟨he, -⟩
      · exact h (congrArg Prod.fst he)
      · exact hg v' he
    | some v' => exact get_eq_some.2 (mem_insert.2 (.inr ⟨get_eq_some.1 hg, h⟩))

lemma get_remove (m : BTreeMap κ α) (k k' : κ) :
    (m.remove k).get k' = if k' = k then none else m.get k' := by
  split_ifs with h
  · rw [get_eq_none]
    intro v' hv'
    exact (mem_remove.1 hv').2 h
  · cases hg : m.get k' with
    | none =>
      rw [get_eq_none] at hg ⊢
      intro v' hv'
      exact hg v' (mem_remove.1 hv').1
    | some v' => exact get_eq_some.2 (mem_remove.2 ⟨get_eq_some.1 hg, h⟩)

lemma get_insert_eq_some {k' : κ} {v' : α} : (m.insert k v).get k' = some v' ↔
    k' = k ∧ v' = v ∨ k' ≠ k ∧ m.get k' = some v' := by
  rw [get_insert]
  split_ifs with h
  · simp [h, eq_comm]
  · simp [h]

lemma get_remove_eq_some {k' : κ} :
    (m.remove k).get k' = some v ↔ k' ≠ k ∧ m.get k' = some v := by
  rw [get_remove]
  split_ifs with h <;> simp [h]

lemma mem_map {f : κ → α → α} : (k, v) ∈ m.map f ↔ ∃ v', (k, v') ∈ m ∧ f k v' = v := by
  simp only [mem_def, map, List.mem_map, Prod.mk.injEq]
  constructor
  · rintro ⟨⟨k', v'⟩, hm, rfl, rfl⟩
    exact ⟨v', hm, rfl⟩
  · rintro ⟨v', hm, rfl⟩
    exact ⟨(k, v'), hm, rfl, rfl⟩

lemma get_map (m : BTreeMap κ α) (f : κ → α → α) (k : κ) :
    (m.map f).get k = (m.get k).map (f k) := by
  cases hg : m.get k with
  | none =>
    rw [Option.map_none, get_eq_none]
    intro v' hv'
    obtain ⟨v, hv, -⟩ := mem_map.1 hv'
    exact get_eq_none.1 hg v hv
  | some v =>
    rw [Option.map_some]
    exact get_eq_some.2 (mem_map.2 ⟨v, get_eq_some.1 hg, rfl⟩)

@[simp] lemma get_empty (k : κ) : (empty : BTreeMap κ α).get k = none := rfl

lemma ext_get (h : ∀ k, m.get k = m'.get k) : m = m' := by
  refine ext_mem fun e => ?_
  obtain ⟨k, v⟩ := e
  rw [← get_eq_some, ← get_eq_some, h k]

/-! ### Sums over the values -/

/-- The sum of `f` over the values. -/
def sum (m : BTreeMap κ α) (f : α → ℕ) : ℕ := (m.entries.map fun e => f e.2).sum

lemma nodup_entries (m : BTreeMap κ α) : m.entries.Nodup :=
  m.sorted.imp fun hab he => absurd hab (by simp [he])

@[simp] lemma sum_empty (f : α → ℕ) : (empty : BTreeMap κ α).sum f = 0 := rfl

lemma entries_remove (h : m.get k = some v) : m.entries.Perm ((k, v) :: (m.remove k).entries) := by
  refine (perm_ext_iff_of_nodup m.nodup_entries ?_).2 fun e => ?_
  · refine nodup_cons.2 ⟨fun hmem => ?_, (m.remove k).nodup_entries⟩
    exact (mem_remove.1 hmem).2 rfl
  · obtain ⟨k', v'⟩ := e
    have hrem : (k', v') ∈ (m.remove k).entries ↔ (k', v') ∈ m.entries ∧ k' ≠ k := mem_remove
    rw [mem_cons, hrem]
    constructor
    · intro he
      rcases eq_or_ne k' k with rfl | hne
      · exact .inl (by rw [value_unique (get_eq_some.1 h) he])
      · exact .inr ⟨he, hne⟩
    · rintro (he | ⟨he, -⟩)
      · rw [he]
        exact get_eq_some.1 h
      · exact he

lemma sum_remove (f : α → ℕ) (h : m.get k = some v) : (m.remove k).sum f + f v = m.sum f := by
  have hsum := ((entries_remove h).map fun e : κ × α => f e.2).sum_nat
  rw [map_cons, sum_cons] at hsum
  rw [sum, sum, hsum, add_comm]

lemma sum_insert (m : BTreeMap κ α) (f : α → ℕ) (k : κ) (v : α) :
    (m.insert k v).sum f = (m.remove k).sum f + f v := by
  have hrem : (m.insert k v).remove k = m.remove k := by
    refine ext_get fun k' => ?_
    rw [get_remove, get_remove, get_insert]
    split_ifs <;> rfl
  rw [← hrem, sum_remove f (by rw [get_insert, if_pos rfl])]

lemma remove_of_get_none (h : m.get k = none) : m.remove k = m := by
  refine ext_get fun k' => ?_
  rw [get_remove]
  split_ifs with hk
  · rw [hk, h]
  · rfl

lemma entries_insert (v : α) (h : m.get k = none) :
    (m.insert k v).entries.Perm ((k, v) :: m.entries) := by
  have hrem : (m.insert k v).remove k = m := by
    refine ext_get fun k' => ?_
    rw [get_remove, get_insert]
    split_ifs with hk
    · rw [hk, h]
    · rfl
  have hperm := entries_remove (m := m.insert k v) (k := k) (v := v)
    (by rw [get_insert, if_pos rfl])
  rwa [hrem] at hperm

lemma len_insert (v : α) (h : m.get k = none) : (m.insert k v).len = m.len + 1 :=
  (entries_insert v h).length_eq

lemma len_remove_add_one (h : m.get k = some v) : (m.remove k).len + 1 = m.len :=
  (entries_remove h).length_eq.symm

lemma sum_map (m : BTreeMap κ α) (f : α → ℕ) (g : κ → α → α) (h : ∀ k v, f (g k v) = f v) :
    (m.map g).sum f = m.sum f := by
  rw [sum, sum, map, map_map]
  congr 1
  exact map_congr_left fun e _ => h e.1 e.2

/-! ### The ends of a range -/

lemma getLast?_eq_some_of_sorted {l : List (κ × α)} (hl : l.Pairwise (fun a b => a.1 < b.1))
    : l.getLast? = some e ↔ e ∈ l ∧ ∀ a ∈ l, a = e ∨ a.1 < e.1 := by
  constructor
  · intro h
    obtain ⟨ys, rfl⟩ := getLast?_eq_some_iff.1 h
    rw [pairwise_append] at hl
    refine ⟨by simp, fun a ha => ?_⟩
    rcases mem_append.1 ha with ha | ha
    · exact .inr (hl.2.2 a ha e (by simp))
    · exact .inl (by simpa using ha)
  · rintro ⟨he, hmax⟩
    cases hlast : l.getLast? with
    | none =>
      rw [getLast?_eq_none_iff] at hlast
      simp [hlast] at he
    | some b =>
      obtain ⟨ys, rfl⟩ := getLast?_eq_some_iff.1 hlast
      rw [pairwise_append] at hl
      rcases mem_append.1 he with he | he
      · have h1 := hl.2.2 e he b (by simp)
        rcases hmax b (by simp) with h2 | h2
        · rw [h2]
        · exact absurd (h1.trans h2) (lt_irrefl _)
      · rw [show e = b by simpa using he]

lemma head?_eq_some_of_sorted {l : List (κ × α)} (hl : l.Pairwise (fun a b => a.1 < b.1))
    : l.head? = some e ↔ e ∈ l ∧ ∀ a ∈ l, a = e ∨ e.1 < a.1 := by
  cases l with
  | nil => simp
  | cons b l =>
    rw [pairwise_cons] at hl
    simp only [head?_cons, Option.some.injEq]
    constructor
    · rintro rfl
      refine ⟨by simp, fun a ha => ?_⟩
      rcases mem_cons.1 ha with rfl | ha
      · exact .inl rfl
      · exact .inr (hl.1 a ha)
    · rintro ⟨he, hmin⟩
      rcases mem_cons.1 he with rfl | he
      · rfl
      · rcases hmin b (by simp) with h | h
        · exact h
        · exact absurd (h.trans (hl.1 e he)) (lt_irrefl _)

lemma first_eq_some : m.first = some e ↔ e ∈ m ∧ ∀ a ∈ m, a = e ∨ e.1 < a.1 :=
  head?_eq_some_of_sorted m.sorted

lemma first_eq_none : m.first = none ↔ ∀ e, e ∉ m := by
  simp [first, mem_def, eq_nil_iff_forall_not_mem]

lemma last_eq_some : m.last = some e ↔ e ∈ m ∧ ∀ a ∈ m, a = e ∨ a.1 < e.1 :=
  getLast?_eq_some_of_sorted m.sorted

lemma isEmpty_iff : m.isEmpty = true ↔ ∀ e, e ∉ m := by
  simp [isEmpty, mem_def, eq_nil_iff_forall_not_mem]

lemma range_getLast?_eq_some : (m.range p).getLast? = some e ↔
      e ∈ m ∧ p e.1 = true ∧ ∀ a ∈ m, p a.1 = true → a = e ∨ a.1 < e.1 := by
  rw [getLast?_eq_some_of_sorted (m.range_sorted p), mem_range]
  constructor
  · rintro ⟨⟨he, hp⟩, hmax⟩
    exact ⟨he, hp, fun a ha hpa => hmax a (mem_range.2 ⟨ha, hpa⟩)⟩
  · rintro ⟨he, hp, hmax⟩
    exact ⟨⟨he, hp⟩, fun a ha => hmax a (mem_range.1 ha).1 (mem_range.1 ha).2⟩

lemma range_getLast?_eq_none : (m.range p).getLast? = none ↔ ∀ a ∈ m, p a.1 = false := by
  rw [getLast?_eq_none_iff, eq_nil_iff_forall_not_mem]
  constructor
  · intro h a ha
    by_contra hp
    exact h a (mem_range.2 ⟨ha, by simpa using hp⟩)
  · intro h a ha
    have := h a (mem_range.1 ha).1
    simp [(mem_range.1 ha).2] at this

lemma range_head?_eq_some : (m.range p).head? = some e ↔
      e ∈ m ∧ p e.1 = true ∧ ∀ a ∈ m, p a.1 = true → a = e ∨ e.1 < a.1 := by
  rw [head?_eq_some_of_sorted (m.range_sorted p), mem_range]
  constructor
  · rintro ⟨⟨he, hp⟩, hmin⟩
    exact ⟨he, hp, fun a ha hpa => hmin a (mem_range.2 ⟨ha, hpa⟩)⟩
  · rintro ⟨he, hp, hmin⟩
    exact ⟨⟨he, hp⟩, fun a ha => hmin a (mem_range.1 ha).1 (mem_range.1 ha).2⟩

lemma range_head?_eq_none : (m.range p).head? = none ↔ ∀ a ∈ m, p a.1 = false := by
  rw [head?_eq_none_iff, ← getLast?_eq_none_iff, range_getLast?_eq_none]

end BTreeMap

end Lazaret
