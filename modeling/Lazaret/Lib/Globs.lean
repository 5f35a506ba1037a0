import Mathlib.Computability.Language

/-!
# Patterns with stars

A pattern is a list of pieces, each of which stands for one letter of some kind or for any run of
letters (`lang`).  Where a star stands before a stretch without one and another star behind it, the
first place where the stretch fits is as good as any (`many_plain_many_iff`): a match has to go back
to the last star only.
-/

namespace Lazaret.Glob

open List Language

variable {α : Type*}

/-- A piece of a pattern: one letter of a kind, or any run of letters. -/
inductive Piece (α : Type*)
  | one (kind : Set α)
  | many

def Piece.lang : Piece α → Language α
  | one kind => {w | ∃ c ∈ kind, w = [c]}
  | many => ⊤

def lang (ps : List (Piece α)) : Language α := (ps.map Piece.lang).prod

def Plain (ps : List (Piece α)) : Prop := Piece.many ∉ ps

variable {ps qs seg : List (Piece α)} {kind : Set α} {c : α} {w v : List α}

/-! ### Membership -/

lemma lang_cons (p : Piece α) (ps : List (Piece α)) : lang (p :: ps) = p.lang * lang ps := by
  simp [lang]

lemma lang_append (ps qs : List (Piece α)) : lang (ps ++ qs) = lang ps * lang qs := by
  simp [lang]

@[simp] lemma mem_lang_nil : w ∈ lang ([] : List (Piece α)) ↔ w = [] := Iff.rfl

lemma mem_lang_one : w ∈ lang (.one kind :: ps) ↔ ∃ c v, w = c :: v ∧ c ∈ kind ∧ v ∈ lang ps := by
  rw [lang_cons, mem_mul]
  constructor
  · rintro ⟨_, ⟨c, hc, rfl⟩, v, hv, rfl⟩
    exact ⟨c, v, rfl, hc, hv⟩
  · rintro ⟨c, v, rfl, hc, hv⟩
    exact ⟨[c], ⟨c, hc, rfl⟩, v, hv, rfl⟩

@[simp] lemma cons_mem_lang_one : c :: w ∈ lang (.one kind :: ps) ↔ c ∈ kind ∧ w ∈ lang ps := by
  rw [mem_lang_one]
  constructor
  · rintro ⟨_, _, heq, hc, hv⟩
    cases heq
    exact ⟨hc, hv⟩
  · rintro ⟨hc, hw⟩
    exact ⟨c, w, rfl, hc, hw⟩

@[simp] lemma nil_notMem_lang_one : [] ∉ lang (.one kind :: ps) := by
  rw [mem_lang_one]
  rintro ⟨c, v, heq, -⟩
  cases heq

lemma mem_lang_many : w ∈ lang (.many :: ps) ↔ ∃ v, v <:+ w ∧ v ∈ lang ps := by
  rw [lang_cons, mem_mul]
  constructor
  · rintro ⟨u, -, v, hv, rfl⟩
    exact ⟨v, suffix_append u v, hv⟩
  · rintro ⟨v, ⟨u, rfl⟩, hv⟩
    exact ⟨u, trivial, v, hv, rfl⟩

lemma mem_lang_many_of_mem (h : w ∈ lang ps) : w ∈ lang (.many :: ps) :=
  mem_lang_many.2 ⟨w, suffix_rfl, h⟩

lemma mem_lang_many_of_suffix (hv : v ∈ lang (.many :: ps)) (h : v <:+ w) :
    w ∈ lang (.many :: ps) := by
  obtain ⟨x, hx, hmem⟩ := mem_lang_many.1 hv
  exact mem_lang_many.2 ⟨x, hx.trans h, hmem⟩

lemma mem_lang_many_tail (h : w ∉ lang ps) :
    w ∈ lang (.many :: ps) ↔ w.tail ∈ lang (.many :: ps) ∧ w ≠ [] := by
  constructor
  · intro hw
    obtain ⟨v, hv, hmem⟩ := mem_lang_many.1 hw
    cases w with
    | nil =>
      rw [suffix_nil] at hv
      exact absurd (hv ▸ hmem) h
    | cons c w =>
      rcases suffix_cons_iff.1 hv with rfl | hv
      · exact absurd hmem h
      · exact ⟨mem_lang_many.2 ⟨v, hv, hmem⟩, cons_ne_nil c w⟩
  · rintro ⟨hw, -⟩
    exact mem_lang_many_of_suffix hw (tail_suffix w)

lemma lang_many_many (ps : List (Piece α)) : lang (.many :: .many :: ps) = lang (.many :: ps) := by
  ext w
  constructor
  · intro hw
    obtain ⟨v, hv, hmem⟩ := mem_lang_many.1 hw
    exact mem_lang_many_of_suffix hmem hv
  · exact mem_lang_many_of_mem

lemma nil_mem_lang : [] ∈ lang ps ↔ ∀ p ∈ ps, p = Piece.many := by
  induction ps with
  | nil => simp
  | cons p ps ih =>
    cases p with
    | one kind => simp
    | many =>
      rw [mem_lang_many]
      simp [suffix_nil, ih]

/-! ### Stretches without a star -/

lemma Plain.nil : Plain ([] : List (Piece α)) := not_mem_nil

lemma Plain.concat (h : Plain seg) (kind : Set α) : Plain (seg ++ [.one kind]) := by
  intro hmem
  rcases mem_append.1 hmem with hmem | hmem
  · exact h hmem
  · simp at hmem

lemma length_of_plain (h : Plain seg) (hw : w ∈ lang seg) : w.length = seg.length := by
  induction seg generalizing w with
  | nil => simp_all
  | cons p seg ih =>
    rw [Plain, mem_cons, not_or] at h
    cases p with
    | many => exact absurd rfl h.1
    | one kind =>
      obtain ⟨c, v, rfl, -, hv⟩ := mem_lang_one.1 hw
      rw [length_cons, length_cons, ih h.2 hv]

lemma mem_lang_plain_append (h : Plain seg) :
    w ∈ lang (seg ++ ps) ↔ w.take seg.length ∈ lang seg ∧ w.drop seg.length ∈ lang ps := by
  rw [lang_append, mem_mul]
  constructor
  · rintro ⟨u, hu, v, hv, rfl⟩
    rw [← length_of_plain h hu, take_left, drop_left]
    exact ⟨hu, hv⟩
  · rintro ⟨hu, hv⟩
    exact ⟨_, hu, _, hv, take_append_drop _ w⟩

lemma many_plain_iff_of_length (h : Plain seg) (hw : w ∈ lang seg) :
    w ∈ lang (.many :: (seg ++ ps)) ↔ ∀ p ∈ ps, p = Piece.many := by
  rw [← nil_mem_lang]
  constructor
  · intro hmem
    obtain ⟨v, hv, hvmem⟩ := mem_lang_many.1 hmem
    obtain ⟨htake, hdrop⟩ := (mem_lang_plain_append h).1 hvmem
    -- the stretch needs all of the text, so the star before it takes nothing
    have hlen := length_of_plain h htake
    have hle := hv.length_le
    rw [length_of_plain h hw] at hle
    rw [length_take] at hlen
    rwa [drop_eq_nil_of_le (by omega)] at hdrop
  · intro hnil
    refine mem_lang_many_of_mem ?_
    rw [lang_append, mem_mul]
    exact ⟨w, hw, [], hnil, append_nil w⟩

/-- **Earlier stars can be forgotten.**  Where the stretch between two stars fits at the start, what
follows the second star decides, on what is left. -/
theorem many_plain_many_iff (h : Plain seg) (hw : w.take seg.length ∈ lang seg) :
    w ∈ lang (.many :: (seg ++ .many :: ps)) ↔ w.drop seg.length ∈ lang (.many :: ps) := by
  constructor
  · intro hmem
    obtain ⟨v, ⟨u, rfl⟩, hv⟩ := mem_lang_many.1 hmem
    have hdrop := ((mem_lang_plain_append h).1 hv).2
    -- a later place of the stretch leaves an end of what the first place leaves
    have hv' : v.drop seg.length <:+ u ++ v := (drop_suffix _ v).trans (suffix_append u v)
    refine mem_lang_many_of_suffix hdrop (suffix_of_suffix_length_le hv' (drop_suffix _ _) ?_)
    simp only [length_drop, length_append]
    omega
  · intro hmem
    exact mem_lang_many_of_mem ((mem_lang_plain_append h).2 ⟨hw, hmem⟩)

end Lazaret.Glob
