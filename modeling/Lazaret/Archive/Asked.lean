import Lazaret.Archive.Pieces
import Lazaret.Lib.Spans

/-!
# Asking for a range of a file

A request for a range (`Bytes::note`, `zip.rs`) is cut at the pieces that are there and at the
ranges asked for before: its gaps are what is new (`gaps_spec`), and each is added to the ranges
asked for, which stay apart (`addAsked_spec`).
-/

namespace Lazaret.Archive

open List BTreeMap

/-! ### Asking for a range -/

lemma foldl_max_spec (l : List (ℕ × ℕ)) (hi : ℕ) :
    hi ≤ l.foldl (fun hi e => max hi e.2) hi ∧
      (∀ r ∈ l, r.2 ≤ l.foldl (fun hi e => max hi e.2) hi) ∧
      (l.foldl (fun hi e => max hi e.2) hi = hi ∨
        ∃ r ∈ l, l.foldl (fun hi e => max hi e.2) hi = r.2) := by
  induction l generalizing hi with
  | nil => simp
  | cons r l ih =>
    obtain ⟨h1, h2, h3⟩ := ih (max hi r.2)
    rw [foldl_cons]
    refine ⟨by omega, ?_, ?_⟩
    · intro q hq
      rcases mem_cons.1 hq with rfl | hq
      · omega
      · exact h2 q hq
    · rcases h3 with h3 | ⟨q, hq, h3⟩
      · rcases le_total hi r.2 with h | h
        · exact .inr ⟨r, mem_cons_self .., by rw [h3]; omega⟩
        · exact .inl (by rw [h3]; omega)
      · exact .inr ⟨q, mem_cons_of_mem _ hq, h3⟩

lemma mem_foldl_remove {l : List (ℕ × ℕ)} {m : BTreeMap ℕ ℕ} {e : ℕ × ℕ} :
    e ∈ l.foldl (fun m e => m.remove e.1) m ↔ e ∈ m ∧ ∀ r ∈ l, e.1 ≠ r.1 := by
  induction l generalizing m with
  | nil => simp
  | cons r l ih =>
    rw [foldl_cons, ih, mem_remove, and_assoc, forall_mem_cons]

variable {m : BTreeMap ℕ ℕ} {r : ℕ × ℕ} {n : ℕ}

lemma asked_start (h : Spans n m) (hfree : ∀ i, r.1 ≤ i → i < r.2 → ¬ InMap m i)
    (hpos : r.1 < r.2) :
    ∃ lo, addAsked m r =
        ((m.range fun k => lo ≤ k ∧ k ≤ r.2).foldl (fun m e => m.remove e.1) m).insert lo
          ((m.range fun k => lo ≤ k ∧ k ≤ r.2).foldl (fun hi e => max hi e.2) r.2) ∧
      lo ≤ r.1 ∧ (∀ i, lo ≤ i → i < r.1 → InMap m i) ∧ ∀ q ∈ m, q.1 < lo → q.2 < lo := by
  cases hlast : (m.range (fun k => k ≤ r.1)).getLast? with
  | none =>
    refine ⟨r.1, by rw [addAsked, hlast], le_rfl, fun i h1 h2 => by omega, fun q hq hlt => ?_⟩
    have hno := range_getLast?_eq_none.1 hlast q hq
    simp only [decide_eq_false_iff_not] at hno
    omega
  | some p =>
    obtain ⟨ps, pe⟩ := p
    obtain ⟨hp, hle, hmax⟩ := range_getLast?_eq_some.1 hlast
    simp only [decide_eq_true_eq] at hle hmax
    have hend : pe ≤ r.1 := by
      by_contra hlt
      exact hfree r.1 le_rfl hpos ⟨(ps, pe), hp, hle, Nat.lt_of_not_le hlt⟩
    by_cases htouch : r.1 ≤ pe
    · have hmaxe : max r.2 pe = r.2 := max_eq_left (by omega)
      refine ⟨ps, by simp only [addAsked, hlast, if_pos htouch, hmaxe], hle, ?_,
        fun q hq hlt => ?_⟩
      · intro i h1 h2
        exact ⟨(ps, pe), hp, h1, by dsimp only; omega⟩
      · exact h.apart q hq _ hp hlt
    · refine ⟨r.1, by simp only [addAsked, hlast, if_neg htouch], le_rfl, fun i h1 h2 => by omega,
        fun q hq hlt => ?_⟩
      rcases hmax q hq hlt.le with rfl | hbefore
      · exact Nat.lt_of_not_le htouch
      · have hapart := h.apart q hq _ hp hbefore
        dsimp only at hapart
        omega

theorem addAsked_spec (h : Spans n m) (hpos : r.1 < r.2) (hn : r.2 ≤ n)
    (hfree : ∀ i, r.1 ≤ i → i < r.2 → ¬ InMap m i) :
    Spans n (addAsked m r) ∧
      ∀ i, InMap (addAsked m r) i ↔ InMap m i ∨ (r.1 ≤ i ∧ i < r.2) := by
  obtain ⟨lo, hstart, hlo, hbefore, hleft⟩ := asked_start h hfree hpos
  set next := m.range fun k => lo ≤ k ∧ k ≤ r.2
  set hi := next.foldl (fun hi e => max hi e.2) r.2
  have hmem : ∀ q, q ∈ addAsked m r ↔ q = (lo, hi) ∨ (q ∈ m ∧ (q.1 < lo ∨ r.2 < q.1)) := by
    intro q
    rw [hstart, mem_insert, mem_foldl_remove, and_assoc]
    refine or_congr_right (and_congr_right fun hq => ⟨?_, ?_⟩)
    · rintro ⟨hno, -⟩
      by_contra hin
      exact hno q (mem_range.2 ⟨hq, by simp; omega⟩) rfl
    · intro hout
      refine ⟨fun e he heq => ?_, by omega⟩
      obtain ⟨-, hin⟩ := mem_range.1 he
      simp only [decide_eq_true_eq] at hin
      omega
  obtain ⟨hge, hall, hmax⟩ :
      r.2 ≤ hi ∧ (∀ q ∈ next, q.2 ≤ hi) ∧ (hi = r.2 ∨ ∃ q ∈ next, hi = q.2) :=
    foldl_max_spec next r.2
  -- past `r`, the new range goes on only with the one that starts where `r` ends
  have hgrown : hi = r.2 ∨ (r.2, hi) ∈ m := by
    rcases hmax with heq | ⟨q, hq, heq⟩
    · exact .inl heq
    · obtain ⟨hqm, hin⟩ := mem_range.1 hq
      simp only [decide_eq_true_eq] at hin
      rcases hge.eq_or_lt with hsame | hlt
      · exact .inl hsame.symm
      · rcases hin.2.eq_or_lt with hat | hlt'
        · exact .inr (by rw [heq, ← hat]; exact hqm)
        · exact absurd ⟨q, hqm, le_max_left .., by omega⟩
            (hfree (max q.1 r.1) (le_max_right ..) (by omega))
  constructor
  · refine ⟨?_, ?_, ?_⟩
    · intro q hq
      rcases (hmem q).1 hq with rfl | ⟨hq, -⟩
      · dsimp only
        omega
      · exact h.nonempty q hq
    · intro q hq q' hq' hlt
      rcases (hmem q).1 hq with rfl | ⟨hq, hout⟩ <;> rcases (hmem q').1 hq' with rfl | ⟨hq', hout'⟩
      · exact absurd hlt (lt_irrefl _)
      · dsimp only at hlt ⊢
        rcases hgrown with heq | hgrown
        · omega
        · exact h.apart _ hgrown q' hq' (by dsimp only; omega)
      · exact hleft q hq hlt
      · exact h.apart q hq q' hq' hlt
    · intro q hq
      rcases (hmem q).1 hq with rfl | ⟨hq, -⟩
      · rcases hgrown with heq | hgrown
        · exact heq.trans_le hn
        · exact (h.le _ hgrown : hi ≤ n)
      · exact h.le q hq
  · intro i
    constructor
    · rintro ⟨q, hq, h1, h2⟩
      rcases (hmem q).1 hq with rfl | ⟨hq, -⟩
      · dsimp only at h1 h2
        rcases lt_or_ge i r.1 with hi1 | hi1
        · exact .inl (hbefore i h1 hi1)
        · rcases lt_or_ge i r.2 with hi2 | hi2
          · exact .inr ⟨hi1, hi2⟩
          · rcases hgrown with heq | hgrown
            · omega
            · exact .inl ⟨_, hgrown, hi2, h2⟩
      · exact .inl ⟨q, hq, h1, h2⟩
    · rintro (⟨q, hq, h1, h2⟩ | ⟨h1, h2⟩)
      · by_cases hout : q.1 < lo ∨ r.2 < q.1
        · exact ⟨q, (hmem q).2 (.inr ⟨hq, hout⟩), h1, h2⟩
        · have hle := hall q (mem_range.2 ⟨hq, by simp; omega⟩)
          exact ⟨_, (hmem _).2 (.inl rfl), by dsimp only; omega, by dsimp only; omega⟩
      · exact ⟨_, (hmem _).2 (.inl rfl), by dsimp only; omega, by dsimp only; omega⟩

lemma foldl_addAsked {rs : List (ℕ × ℕ)} (h : Spans n m) (hpos : ∀ r ∈ rs, r.1 < r.2 ∧ r.2 ≤ n)
    (hrs : rs.Pairwise fun a b => a.2 ≤ b.1) (hfree : ∀ i, InSpans rs i → ¬ InMap m i) :
    Spans n (rs.foldl addAsked m) ∧
      ∀ i, InMap (rs.foldl addAsked m) i ↔ InMap m i ∨ InSpans rs i := by
  induction rs generalizing m with
  | nil => exact ⟨h, fun i => by simp⟩
  | cons r rs ih =>
    rw [pairwise_cons] at hrs
    obtain ⟨hr, hle⟩ := hpos r (mem_cons_self ..)
    obtain ⟨hspans, hin⟩ := addAsked_spec h hr hle fun i h1 h2 =>
      hfree i (inSpans_cons.2 (.inl ⟨h1, h2⟩))
    obtain ⟨h1, h2⟩ := ih hspans (fun q hq => hpos q (mem_cons_of_mem _ hq)) hrs.2 fun i hi => by
      rw [hin]
      rintro (hm | hri)
      · exact hfree i (inSpans_cons.2 (.inr hi)) hm
      · obtain ⟨q, hq, hlo, -⟩ := hi
        have hafter := hrs.1 q hq
        omega
    refine ⟨h1, fun i => ?_⟩
    rw [foldl_cons, h2, hin, inSpans_cons, or_assoc]

theorem gaps_spec {stop cur : ℕ} {covers : List (ℕ × ℕ)} (hcur : cur < stop)
    (hpos : ∀ r ∈ covers, r.1 ≤ r.2) (hsort : covers.Pairwise fun a b => a.1 ≤ b.1) :
    (∀ r ∈ gaps stop cur covers, cur ≤ r.1 ∧ r.1 < r.2 ∧ r.2 ≤ stop) ∧
      (gaps stop cur covers).Pairwise (fun a b => a.2 ≤ b.1) ∧
      ∀ i, InSpans (gaps stop cur covers) i ↔ cur ≤ i ∧ i < stop ∧ ¬ InSpans covers i := by
  induction covers generalizing cur with
  | nil =>
    rw [gaps, if_pos hcur]
    refine ⟨by simpa using hcur, pairwise_singleton .., fun i => ?_⟩
    simp [InSpans]
  | cons q covers ih =>
    obtain ⟨s, e⟩ := q
    rw [pairwise_cons] at hsort
    have hse : s ≤ e := hpos (s, e) (mem_cons_self ..)
    -- the part before the first range
    have hhead : ∀ i, InSpans (if cur < s then [(cur, min s stop)] else []) i ↔
        cur ≤ i ∧ i < min s stop := by
      intro i
      split_ifs with hlt
      · simp [InSpans]
      · simp only [not_inSpans_nil, false_iff, not_and]
        omega
    have hheadpos : ∀ r ∈ (if cur < s then [(cur, min s stop)] else []),
        cur ≤ r.1 ∧ r.1 < r.2 ∧ r.2 ≤ min s stop := by
      split_ifs with hlt
      · simp only [mem_singleton, forall_eq]
        omega
      · simp
    have hheadpair : (if cur < s then [(cur, min s stop)] else []).Pairwise
        (fun a b : ℕ × ℕ => a.2 ≤ b.1) := by
      split_ifs
      · exact pairwise_singleton ..
      · exact Pairwise.nil
    -- no later range starts before the first one
    have hlater : ∀ i, InSpans covers i → s ≤ i := by
      rintro i ⟨r, hr, hlo, -⟩
      exact (hsort.1 r hr).trans hlo
    rw [gaps]
    by_cases hdone : stop ≤ max cur e
    · rw [if_pos hdone, append_nil]
      refine ⟨fun r hr => ?_, hheadpair, fun i => ?_⟩
      · obtain ⟨h1, h2, h3⟩ := hheadpos r hr
        exact ⟨h1, h2, by omega⟩
      · rw [hhead, inSpans_cons]
        constructor
        · rintro ⟨h1, h2⟩
          refine ⟨h1, by omega, ?_⟩
          rintro (h | h)
          · dsimp only at h
            omega
          · have hge := hlater i h
            omega
        · rintro ⟨h1, h2, h3⟩
          refine ⟨h1, ?_⟩
          by_contra hge
          exact h3 (.inl (by dsimp only; omega))
    · rw [if_neg hdone]
      obtain ⟨h1, h2, h3⟩ := ih (by omega : max cur e < stop)
        (fun r hr => hpos r (mem_cons_of_mem _ hr)) hsort.2
      refine ⟨fun r hr => ?_, ?_, fun i => ?_⟩
      · rcases mem_append.1 hr with hr | hr
        · obtain ⟨h1, h2, h3⟩ := hheadpos r hr
          exact ⟨h1, h2, by omega⟩
        · obtain ⟨h1, h2, h3⟩ := h1 r hr
          exact ⟨by omega, h2, h3⟩
      · refine pairwise_append.2 ⟨hheadpair, h2, fun a ha b hb => ?_⟩
        have hale := (hheadpos a ha).2.2
        have hble := (h1 b hb).1
        omega
      · rw [inSpans_append, hhead, h3, inSpans_cons]
        constructor
        · rintro (⟨h1, h2⟩ | ⟨h1, h2, h3⟩)
          · refine ⟨h1, by omega, ?_⟩
            rintro (h | h)
            · dsimp only at h
              omega
            · have hge := hlater i h
              omega
          · refine ⟨by omega, h2, ?_⟩
            rintro (h | h)
            · dsimp only at h
              omega
            · exact h3 h
        · rintro ⟨h1, h2, h3⟩
          rw [not_or] at h3
          rcases lt_or_ge i s with h | h
          · exact .inl ⟨h1, by omega⟩
          · refine .inr ⟨?_, h2, h3.2⟩
            have h4 := h3.1
            dsimp only at h4
            omega

/-! ### Where the pieces are -/

/-- A piece of the same place, whose bytes are all zero. -/
def blank (p : Piece) : Piece := (p.1, replicate p.2.length 0)

@[simp] lemma blank_fst (p : Piece) : (blank p).1 = p.1 := rfl

@[simp] lemma length_blank (p : Piece) : (blank p).2.length = p.2.length := by
  simp [blank]

@[simp] lemma blank_stop (p : Piece) : (blank p).stop = p.stop := by
  simp [Piece.stop]

lemma absorb_blank (l : List Piece) (p : Piece) :
    absorb (l.map blank) (blank p) = (absorb l p).map blank := by
  rcases l with _ | ⟨⟨lo, b⟩, rest⟩
  · rfl
  · rw [map_cons, absorb]
    simp only [blank, absorb, length_replicate]
    rw [show Piece.stop (p.1, replicate p.2.length 0) = p.stop from blank_stop p]
    by_cases h1 : p.1 ≤ lo + b.length
    · rw [if_pos h1, if_pos h1]
      by_cases h2 : lo + b.length < p.stop
      · rw [if_pos h2, if_pos h2]
        simp only [map_cons, blank, length_append, length_drop, drop_replicate,
          replicate_append_replicate]
      · rw [if_neg h2, if_neg h2]
        rfl
    · rw [if_neg h1, if_neg h1]
      rfl

lemma foldl_absorb_blank (ps l : List Piece) :
    (ps.map blank).foldl absorb (l.map blank) = (ps.foldl absorb l).map blank := by
  induction ps generalizing l with
  | nil => rfl
  | cons p ps ih => rw [map_cons, foldl_cons, foldl_cons, absorb_blank, ih]

lemma joined_blank (size : ℕ) (given : List Piece) :
    Bytes.joined size (given.map blank) = (Bytes.joined size given).map blank := by
  have hfilter : (given.map blank).filter (fun p => p.1 < size ∧ p.2 ≠ []) =
      (given.filter fun p => p.1 < size ∧ p.2 ≠ []).map blank := by
    rw [filter_map]
    congr 1
    refine filter_congr fun p _ => ?_
    have hnil : (blank p).2 = [] ↔ p.2 = [] := by
      rw [← length_eq_zero_iff, ← length_eq_zero_iff, length_blank]
    simp only [Function.comp, blank_fst, ne_eq, hnil]
  have hcut : ∀ p, cutAt size (blank p) = blank (cutAt size p) := by
    intro p
    simp [cutAt, blank]
  have hle : ∀ a b : Piece, pieceLe a b ↔ pieceLe (blank a) (blank b) := by
    intro a b
    simp only [pieceLe, blank_fst, length_blank]
  rw [Bytes.joined, Bytes.joined, hfilter, ← map_insertionSort _ _ _ _ fun a _ b _ => hle a b,
    map_map, map_reverse, ← foldl_absorb_blank, map_map, map_nil]
  congr 2
  exact map_congr_left fun p _ => hcut p

/-- The pieces kept neither overlap nor touch, end by the end of the file, and have the bytes of the
file that were given. -/
theorem joined_apart (size : ℕ) (given : List Piece) :
    (Bytes.joined size given).Pairwise (fun p q => p.stop < q.1) ∧
      (∀ p ∈ Bytes.joined size given, p.stop ≤ size) ∧
      ∀ i, Covers (Bytes.joined size given) i ↔ i < size ∧ Covers given i := by
  -- pieces of zeros are pieces of a file of zeros
  have hzero : PiecesOf (replicate size 0) (given.map blank) := by
    intro p hp i hi hlt
    obtain ⟨q, -, rfl⟩ := mem_map.1 hp
    rw [length_replicate] at hlt
    simp only [length_blank] at hi
    rw [getElem?_replicate_of_lt hlt]
    exact getElem?_replicate_of_lt hi
  have hcov : ∀ (l : List Piece) i, Covers (l.map blank) i ↔ Covers l i := by
    intro l i
    simp only [Covers, mem_map, exists_exists_and_eq_and, blank_fst, blank_stop]
  obtain ⟨hstack, hin⟩ := joined_spec hzero
  simp only [length_replicate, joined_blank, hcov] at hstack hin
  refine ⟨?_, fun p hp => ?_, hin⟩
  · have hpair := hstack.apart
    rw [pairwise_reverse, pairwise_map] at hpair
    exact hpair.imp fun h => by simpa using h
  · have hend := (hstack.agrees _ (mem_reverse.2 (mem_map_of_mem hp))).2
    simpa using hend

end Lazaret.Archive
