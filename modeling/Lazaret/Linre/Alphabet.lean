import Lazaret.Lib.Firsts
import Lazaret.Lib.Outcome
import Lazaret.Linre.CharSet
import Mathlib.Data.Set.Card
import Mathlib.Data.Set.Finite.Range

/-!
# The alphabet of a program

Characters that no set of a program tells apart share a class.  The boundaries of the sets cut all
values into ranges, and the ranges with one signature (the sets that hold them) get one class.  The
numbers of the classes have 16 bits, so the classes are exact when the sets tell at most 65,536
kinds of characters apart, and only then (`alphabet_exact_iff`).
-/

namespace Lazaret.Linre

open List

/-- `class_of_range` has the class of each range that begins at one of the `bounds`. -/
structure Alphabet where
  bounds : List ℕ
  classOfRange : List ℕ
  ascii : List ℕ
  classes : ℕ
  rep : List ℕ

namespace Alphabet

def points (sets : List CharSet) : List ℕ :=
  ((0 :: (sets.flatMap CharSet.ranges).flatMap fun r =>
    if r.2 < MAX then [r.1, r.2 + 1] else [r.1]).mergeSort).dedup

/-- The word `w` of the signature of the range `r`, as the loop over the ranges of the sets leaves
it. -/
def word (sets : List CharSet) (points : List ℕ) (r w : ℕ) : ℕ :=
  (sets.zipIdx.flatMap fun e => e.1.ranges.map fun ab => (ab, e.2)).foldl (fun x e =>
    let i := partitionPoint (· < e.1.1) points
    let j := if e.1.2 = MAX then points.length else partitionPoint (· ≤ e.1.2) points
    if (i ≤ r ∧ r < j) ∧ e.2 / 64 = w then x ||| 1 <<< (e.2 % 64) else x) 0

/-- The signature of the range `r`. -/
def key (sets : List CharSet) (points : List ℕ) (r : ℕ) : List ℕ :=
  (range (max ((sets.length + 63) / 64) 1)).map (word sets points r)

/-- What the loop over the ranges keeps: the class of each signature, a character of each class, and
the class of each range. -/
structure Classes where
  ids : List (List ℕ × ℕ)
  rep : List ℕ
  classOfRange : List ℕ

/-- One turn of the loop, for the range that begins at a point and has a signature. -/
def Classes.enter (C : Classes) (e : ℕ × List ℕ) : Classes :=
  -- `ids.len() as u16`
  let next := C.ids.length % 2 ^ 16
  let old := (C.ids.find? fun i => i.1 = e.2).map Prod.snd
  let id := old.getD next
  { ids := if old.isSome then C.ids else C.ids ++ [(e.2, next)]
    rep := if id = C.rep.length then C.rep ++ [e.1] else C.rep
    classOfRange := C.classOfRange ++ [id] }

def merged (last : Option ℕ) : List (ℕ × ℕ) → List (ℕ × ℕ)
  | [] => []
  | (p, k) :: l => if last = some k then merged last l else (p, k) :: merged (some k) l

/-- The class of the range that holds `c`; `none` where the index would be below 0. -/
def search (bounds cls : List ℕ) (c : ℕ) : Option ℕ :=
  match partitionPoint (· ≤ c) bounds with
  | 0 => none
  | i + 1 => cls[i]?

def keyed (sets : List CharSet) : List (ℕ × List ℕ) :=
  (points sets).zipIdx.map fun e => (e.1, key sets (points sets) e.2)

def new (sets : List CharSet) : Option Alphabet := do
  let C := (keyed sets).foldl Classes.enter ⟨[], [], []⟩
  let m := merged none ((points sets).zip C.classOfRange)
  let bounds := m.map Prod.fst
  let cls := m.map Prod.snd
  let ascii ← (range 128).mapM (search bounds cls)
  some ⟨bounds, cls, ascii, C.rep.length, C.rep⟩

def classOf (A : Alphabet) (c : ℕ) : Option ℕ :=
  if c < 128 then A.ascii[c]? else search A.bounds A.classOfRange c

/-- Every character has a class, found in the table as by the search; characters with one class are
in the same sets; and each class has its representative. -/
def Exact (sets : List CharSet) : Prop :=
  ∃ A, new sets = some A ∧
    (∀ c : U32, ∃ k, A.classOf c = some k ∧ search A.bounds A.classOfRange c = some k) ∧
    (∀ c d : U32, A.classOf c = A.classOf d → ∀ s ∈ sets, c.val ∈ s ↔ d.val ∈ s) ∧
    ∀ k < A.classes, ∃ c : U32, A.rep[k]? = some c.val ∧ A.classOf c = some k

def pattern (sets : List CharSet) (c : U32) : List Bool := sets.map fun s => s.contains c

variable {sets : List CharSet} {l : List ℕ} {p c r : ℕ}

/-! ### The boundaries -/

lemma mem_points : p ∈ points sets ↔
    p = 0 ∨ ∃ s ∈ sets, ∃ r ∈ s.ranges, p = r.1 ∨ (r.2 < MAX ∧ p = r.2 + 1) := by
  rw [points, mem_dedup, mem_mergeSort, mem_cons, mem_flatMap]
  simp only [mem_flatMap]
  grind

lemma pairwise_points (sets : List CharSet) : (points sets).Pairwise (· < ·) := by
  have hsorted := pairwise_mergeSort' (· ≤ ·) (0 :: (sets.flatMap CharSet.ranges).flatMap fun r =>
    if r.2 < MAX then [r.1, r.2 + 1] else [r.1])
  exact (((hsorted.sublist (dedup_sublist _)).and (nodup_dedup _)).imp fun h =>
    lt_of_le_of_ne h.1 h.2)

lemma le_max_of_mem_points (h : p ∈ points sets) : p ≤ MAX := by
  rcases mem_points.1 h with rfl | ⟨s, hs, r, hr, rfl | ⟨hlt, rfl⟩⟩
  · exact Nat.zero_le _
  · have := s.canonical.ordered r hr
    omega
  · omega

lemma mem_iff_of_last (hp : p ≤ c) (hc : c ≤ MAX) (hlast : ∀ q ∈ points sets, q ≤ c → q ≤ p)
    {s : CharSet} (hs : s ∈ sets) : c ∈ s ↔ p ∈ s := by
  constructor
  · rintro ⟨r, hr, hle, hge⟩
    exact ⟨r, hr, hlast r.1 (mem_points.2 (.inr ⟨s, hs, r, hr, .inl rfl⟩)) hle, hp.trans hge⟩
  · rintro ⟨r, hr, hle, hge⟩
    refine ⟨r, hr, hle.trans hp, Nat.le_of_not_lt fun hlt => ?_⟩
    -- the boundary after the range would be past `p`
    have := hlast (r.2 + 1) (mem_points.2 (.inr ⟨s, hs, r, hr, .inr ⟨by omega, rfl⟩⟩)) hlt
    omega

/-! ### The signatures -/

lemma partitionPoint_le_iff {q : ℕ → Bool} (hl : l.Pairwise fun x y => q y = true → q x = true)
    (hr : l[r]? = some p) : partitionPoint q l ≤ r ↔ ¬q p = true := by
  induction l generalizing r with
  | nil => cases hr
  | cons x l ih =>
    rw [pairwise_cons] at hl
    rw [partitionPoint, takeWhile_cons]
    cases r with
    | zero =>
      obtain rfl : x = p := by simpa using hr
      split_ifs with hx <;> simp [hx]
    | succ r =>
      have hp : p ∈ l := mem_of_getElem? hr
      split_ifs with hx
      · rw [length_cons, Nat.add_le_add_iff_right]
        exact ih hl.2 hr
      · exact ⟨fun _ hq => hx (hl.1 p hp hq), fun _ => Nat.zero_le _⟩

lemma testBit_foldl {α : Type*} (l : List α) (P : α → Prop) [DecidablePred P] (f : α → ℕ)
    (x b : ℕ) : (l.foldl (fun x e => if P e then x ||| 1 <<< f e else x) x).testBit b = true ↔
      x.testBit b = true ∨ ∃ e ∈ l, P e ∧ f e = b := by
  induction l generalizing x with
  | nil => simp
  | cons e l ih =>
    rw [foldl_cons, ih]
    split_ifs with he
    · simp only [Nat.testBit_or, Nat.one_shiftLeft, Nat.testBit_two_pow, Bool.or_eq_true,
        decide_eq_true_eq, exists_mem_cons_iff, he, true_and, or_assoc]
    · simp only [exists_mem_cons_iff, he, false_and, false_or]

lemma testBit_word (hr : (points sets)[r]? = some p) {w b : ℕ} :
    (word sets (points sets) r w).testBit b = true ↔
      ∃ k s, sets[k]? = some s ∧ k / 64 = w ∧ k % 64 = b ∧ p ∈ s := by
  have hp := pairwise_points sets
  have hmax := le_max_of_mem_points (mem_of_getElem? hr)
  have hlt : r < (points sets).length := (List.getElem?_eq_some_iff.1 hr).1
  have hin : ∀ s : CharSet, ∀ ab ∈ s.ranges, (partitionPoint (· < ab.1) (points sets) ≤ r ∧
      r < if ab.2 = MAX then (points sets).length else partitionPoint (· ≤ ab.2) (points sets)) ↔
      ab.1 ≤ p ∧ p ≤ ab.2 := by
    intro s ab hab
    have hlow := partitionPoint_le_iff (q := (· < ab.1)) (hp.imp fun h => by simp; omega) hr
    have hhigh := partitionPoint_le_iff (q := (· ≤ ab.2)) (hp.imp fun h => by simp; omega) hr
    rw [decide_eq_true_eq] at hlow hhigh
    split_ifs
    · omega
    · omega
  rw [word, testBit_foldl, Nat.zero_testBit, or_iff_right (by simp)]
  constructor
  · rintro ⟨e, he, ⟨hcell, hw⟩, hb⟩
    obtain ⟨⟨s, k⟩, hk, he⟩ := mem_flatMap.1 he
    obtain ⟨ab, hab, rfl⟩ := mem_map.1 he
    exact ⟨k, s, mem_zipIdx_iff_getElem?.1 hk, hw, hb, ab, hab, (hin s ab hab).1 hcell⟩
  · rintro ⟨k, s, hk, hw, hb, ab, hab, hmem⟩
    exact ⟨(ab, k), mem_flatMap.2 ⟨(s, k), mem_zipIdx_iff_getElem?.2 hk, mem_map.2 ⟨ab, hab, rfl⟩⟩,
      ⟨(hin s ab hab).2 hmem, hw⟩, hb⟩

lemma key_eq_iff {r' p' : ℕ} (hr : (points sets)[r]? = some p)
    (hr' : (points sets)[r']? = some p') :
    key sets (points sets) r = key sets (points sets) r' ↔ ∀ s ∈ sets, p ∈ s ↔ p' ∈ s := by
  rw [key, key, map_inj_left]
  constructor
  · intro h s hs
    obtain ⟨k, hk⟩ := mem_iff_getElem?.1 hs
    have hlt : k < sets.length := (List.getElem?_eq_some_iff.1 hk).1
    have hword := h (k / 64) (mem_range.2 (by omega))
    have hbit : ∀ {r p}, (points sets)[r]? = some p →
        ((word sets (points sets) r (k / 64)).testBit (k % 64) = true ↔ p ∈ s) := by
      intro r p hr
      rw [testBit_word hr]
      constructor
      · rintro ⟨k', s', hk', hdiv, hmod, hmem⟩
        obtain rfl : k' = k := by omega
        cases hk.symm.trans hk'
        exact hmem
      · exact fun hmem => ⟨k, s, hk, rfl, rfl, hmem⟩
    rw [← hbit hr, ← hbit hr', hword]
  · intro h w _
    refine Nat.eq_of_testBit_eq fun b => Bool.eq_iff_iff.2 ?_
    rw [testBit_word hr, testBit_word hr']
    refine exists_congr fun k => exists_congr fun s => and_congr_right fun hk => ?_
    rw [h s (mem_of_getElem? hk)]

/-! ### The classes of the ranges -/

lemma find?_zipIdx {κ : Type*} [BEq κ] [LawfulBEq κ] [DecidableEq κ] (l : List κ) (k : κ) (n : ℕ) :
    ((l.zipIdx n).find? fun i => i.1 = k).map Prod.snd =
      if k ∈ l then some (n + l.idxOf k) else none := by
  induction l generalizing n with
  | nil => rfl
  | cons x l ih =>
    rw [zipIdx_cons, find?_cons]
    by_cases hx : x = k
    · simp [hx]
    · rw [show decide ((x, n).1 = k) = false by simpa using hx, ih, idxOf_cons_ne l hx]
      simp only [mem_cons, Ne.symm hx, false_or, Nat.add_assoc, Nat.add_comm 1]

lemma foldl_enter {l : List (ℕ × List ℕ)} (hl : (firsts Prod.snd l).length ≤ 2 ^ 16) :
    l.foldl Classes.enter ⟨[], [], []⟩ = ⟨((firsts Prod.snd l).map Prod.snd).zipIdx,
      (firsts Prod.snd l).map Prod.fst,
      l.map fun e => ((firsts Prod.snd l).map Prod.snd).idxOf e.2⟩ := by
  induction l using reverseRecOn with
  | nil => rfl
  | append_singleton l e ih =>
    rw [firsts_append_singleton] at hl ⊢
    rw [foldl_append, foldl_cons, foldl_nil]
    split_ifs at hl ⊢ with hmem
    · rw [ih hl, Classes.enter]
      dsimp only
      have hin := mem_map_firsts.2 hmem
      have hlt := idxOf_lt_length_of_mem hin
      rw [length_map] at hlt
      rw [find?_zipIdx, if_pos hin]
      simp only [Option.isSome_some, if_true, Option.getD_some, Nat.zero_add, length_map,
        map_append, map_singleton]
      rw [if_neg hlt.ne]
    · rw [length_append, length_singleton] at hl
      rw [ih (by omega), Classes.enter]
      dsimp only
      have hout := mt mem_map_firsts.1 hmem
      have hold : ∀ e' ∈ l, idxOf e'.2 ((firsts Prod.snd l).map Prod.snd ++ [e.2]) =
          idxOf e'.2 ((firsts Prod.snd l).map Prod.snd) := fun e' he' =>
        idxOf_append_of_mem (mem_map_firsts.2 (mem_map_of_mem he'))
      have hnext : (firsts Prod.snd l).length % 2 ^ 16 = (firsts Prod.snd l).length :=
        Nat.mod_eq_of_lt (by omega)
      rw [find?_zipIdx, if_neg hout]
      simp only [Option.isSome_none, Bool.false_eq_true, if_false, Option.getD_none, length_zipIdx,
        length_map, hnext, if_true, map_append, map_singleton, map_congr_left hold, zipIdx_append,
        zipIdx_singleton, idxOf_append_of_notMem hout, idxOf_cons_self, Nat.zero_add, Nat.add_zero]

lemma lt_of_mem_classOfRange {l : List (ℕ × List ℕ)} {C : Classes}
    (hC : (∀ i ∈ C.ids, i.2 < 2 ^ 16) ∧ ∀ k ∈ C.classOfRange, k < 2 ^ 16) :
    ∀ k ∈ (l.foldl Classes.enter C).classOfRange, k < 2 ^ 16 := by
  induction l generalizing C with
  | nil => exact hC.2
  | cons e l ih =>
    have hnext : C.ids.length % 2 ^ 16 < 2 ^ 16 := Nat.mod_lt _ (by decide)
    refine ih ⟨fun i hi => ?_, fun k hk => ?_⟩
    · rw [Classes.enter] at hi
      dsimp only at hi
      split_ifs at hi
      · exact hC.1 i hi
      · rcases mem_append.1 hi with hi | hi
        · exact hC.1 i hi
        · exact mem_singleton.1 hi ▸ hnext
    · rcases mem_append.1 hk with hk | hk
      · exact hC.2 k hk
      · rw [mem_singleton.1 hk]
        cases hold : C.ids.find? fun i => i.1 = e.2 with
        | none => exact hnext
        | some i => exact hC.1 i (mem_of_find?_eq_some hold)

/-! ### The class of a character -/

/-- The value at the last of the positions up to `c`, if any. -/
def lastAt (c : ℕ) (d : Option ℕ) : List (ℕ × ℕ) → Option ℕ
  | [] => d
  | (p, k) :: l => if p ≤ c then lastAt c (some k) l else d

lemma search_eq (l : List (ℕ × ℕ)) (c : ℕ) :
    search (l.map Prod.fst) (l.map Prod.snd) c = lastAt c none l := by
  have hgen : ∀ d, (match partitionPoint (· ≤ c) (l.map Prod.fst) with
      | 0 => d
      | i + 1 => (l.map Prod.snd)[i]?) = lastAt c d l := by
    induction l with
    | nil => exact fun d => rfl
    | cons e l ih =>
      intro d
      rw [map_cons, partitionPoint, takeWhile_cons, lastAt]
      by_cases hle : e.1 ≤ c
      · rw [if_pos (decide_eq_true hle), if_pos hle, ← ih (some e.2), length_cons, map_cons]
        change (e.2 :: l.map Prod.snd)[partitionPoint _ (l.map Prod.fst)]? = _
        cases partitionPoint (fun x => decide (x ≤ c)) (l.map Prod.fst) <;> rfl
      · rw [if_neg (by simpa using hle), if_neg hle]
        rfl
  exact hgen none

lemma lastAt_of_lt {l : List (ℕ × ℕ)} (h : ∀ e ∈ l, c < e.1) (d : Option ℕ) : lastAt c d l = d := by
  cases l with
  | nil => rfl
  | cons e l => exact if_neg (not_le_of_gt (h e mem_cons_self))

lemma exists_of_lastAt {l : List (ℕ × ℕ)} {d : Option ℕ} {k : ℕ} (h : lastAt c d l = some k) :
    d = some k ∨ ∃ p, (p, k) ∈ l := by
  induction l generalizing d with
  | nil => exact .inl h
  | cons e l ih =>
    rw [lastAt] at h
    split_ifs at h
    · rcases ih h with heq | ⟨p, hp⟩
      · cases heq
        exact .inr ⟨e.1, mem_cons_self⟩
      · exact .inr ⟨p, mem_cons_of_mem e hp⟩
    · exact .inl h

lemma lastAt_merged {l : List (ℕ × ℕ)} (hl : l.Pairwise fun e f => e.1 < f.1) (c : ℕ)
    (d : Option ℕ) : lastAt c d (merged d l) = lastAt c d l := by
  fun_induction merged d l with
  | case1 => rfl
  | case2 p k l ih =>
    rw [pairwise_cons] at hl
    rw [ih hl.2, lastAt]
    split_ifs with hle
    · rfl
    · exact lastAt_of_lt (fun e he => lt_of_not_ge fun h => hle ((hl.1 e he).le.trans h)) _
  | case3 d p k l hne ih =>
    rw [lastAt, lastAt, ih (pairwise_cons.1 hl).2]

lemma lastAt_spec (f : ℕ → ℕ) {l : List ℕ} (hl : l.Pairwise (· < ·)) (h : ∃ q ∈ l, q ≤ c)
    (d : Option ℕ) : ∃ p ∈ l, (p ≤ c ∧ ∀ q ∈ l, q ≤ c → q ≤ p) ∧
      lastAt c d (l.map fun p => (p, f p)) = some (f p) := by
  induction l generalizing d with
  | nil => simp at h
  | cons x l ih =>
    rw [pairwise_cons] at hl
    have hx : x ≤ c := by
      obtain ⟨q, hq, hle⟩ := h
      rcases mem_cons.1 hq with rfl | hq
      · exact hle
      · exact (hl.1 q hq).le.trans hle
    rw [map_cons, lastAt, if_pos hx]
    by_cases hmore : ∃ q ∈ l, q ≤ c
    · obtain ⟨p, hp, ⟨hle, hlast⟩, heq⟩ := ih hl.2 hmore (some (f x))
      refine ⟨p, mem_cons_of_mem x hp, ⟨hle, fun q hq hqc => ?_⟩, heq⟩
      rcases mem_cons.1 hq with rfl | hq
      · exact (hl.1 p hp).le
      · exact hlast q hq hqc
    · simp only [not_exists, not_and, Nat.not_le] at hmore
      refine ⟨x, mem_cons_self, ⟨hx, fun q hq hqc => ?_⟩, lastAt_of_lt (by simpa using hmore) _⟩
      rcases mem_cons.1 hq with rfl | hq
      · exact le_rfl
      · exact absurd hqc (Nat.not_le.2 (hmore q hq))

/-! ### Characters with one class -/

/-- The signature of the range that begins at a boundary. -/
def signature (sets : List CharSet) (p : ℕ) : List ℕ :=
  key sets (points sets) ((points sets).idxOf p)

lemma keyed_eq (sets : List CharSet) :
    keyed sets = (points sets).map fun p => (p, signature sets p) := by
  have hnodup : (points sets).Nodup := (pairwise_points sets).imp fun h => h.ne
  refine ext_getElem (by simp [keyed]) fun r h₁ h₂ => ?_
  simp only [keyed, getElem_map, getElem_zipIdx, signature, hnodup.idxOf_getElem, Nat.zero_add]

lemma signature_eq_iff {p' : ℕ} (hp : p ∈ points sets) (hp' : p' ∈ points sets) :
    signature sets p = signature sets p' ↔ ∀ s ∈ sets, p ∈ s ↔ p' ∈ s :=
  key_eq_iff (getElem?_idxOf hp) (getElem?_idxOf hp')

lemma pattern_eq_iff {c d : U32} :
    pattern sets c = pattern sets d ↔ ∀ s ∈ sets, c.val ∈ s ↔ d.val ∈ s := by
  rw [pattern, pattern, map_inj_left]
  refine forall₂_congr fun s _ => ?_
  rw [Bool.eq_iff_iff, CharSet.contains_iff, CharSet.contains_iff]

def classed (sets : List CharSet) : Classes := (keyed sets).foldl Classes.enter ⟨[], [], []⟩

/-- The boundaries, each with the class of the range that begins there. -/
def table (sets : List CharSet) : List (ℕ × ℕ) := (points sets).zip (classed sets).classOfRange

lemma search_merged (sets : List CharSet) (c : ℕ) :
    search ((merged none (table sets)).map Prod.fst) ((merged none (table sets)).map Prod.snd) c =
      lastAt c none (table sets) := by
  rw [search_eq, lastAt_merged]
  refine pairwise_iff_getElem.2 fun i j hi hj hij => ?_
  simp only [table, getElem_zip]
  exact pairwise_iff_getElem.1 (pairwise_points sets) i j _ _ hij

lemma new_spec {A : Alphabet} (h : new sets = some A) :
    (∀ c, search A.bounds A.classOfRange c = lastAt c none (table sets)) ∧
    (∀ c, A.classOf c = lastAt c none (table sets)) ∧
    A.classes = (classed sets).rep.length ∧ A.rep = (classed sets).rep := by
  rw [new] at h
  obtain ⟨ascii, hascii, h⟩ := Option.bind_eq_some_iff.1 h
  cases h
  refine ⟨search_merged sets, fun c => ?_, rfl, rfl⟩
  rw [classOf]
  split_ifs with hc
  · obtain ⟨k, hk, hsearch⟩ := forall₂_getElem? (option_mapM_eq_some.1 hascii) (getElem?_range hc)
    exact hk.trans (hsearch.symm.trans (search_merged sets c))
  · exact search_merged sets c

lemma exists_new (h : ∀ c, ∃ k, lastAt c none (table sets) = some k) : ∃ A, new sets = some A := by
  choose f hf using h
  have hascii : (range 128).mapM (search ((merged none (table sets)).map Prod.fst)
      ((merged none (table sets)).map Prod.snd)) = some ((range 128).map f) :=
    option_mapM_eq_some.2 (forall₂_map_right_iff.2
      (forall₂_same.2 fun c _ => (search_merged sets c).trans (hf c)))
  exact ⟨_, Option.bind_eq_some_iff.2 ⟨_, hascii, rfl⟩⟩

lemma ncard_range_le {α β γ : Type*} [Inhabited β] {f : α → β} {g : α → γ}
    (h : f.FactorsThrough g) (hg : (Set.range g).Finite) :
    (Set.range f).ncard ≤ (Set.range g).ncard := by
  have hf : Set.range f = Function.extend g f default '' Set.range g := by
    rw [← Set.range_comp]
    exact congrArg Set.range (funext fun a => (h.extend_apply default a).symm)
  rw [hf]
  exact Set.ncard_image_le hg

lemma ncard_pattern_le (h : Exact sets) : (Set.range (pattern sets)).ncard ≤ 2 ^ 16 := by
  obtain ⟨A, hnew, hclass, hsame, -⟩ := h
  have hsub : Set.range (fun c : U32 => A.classOf c) ⊆ some '' (Finset.range (2 ^ 16) : Set ℕ) := by
    rintro _ ⟨c, rfl⟩
    obtain ⟨k, hk, -⟩ := hclass c
    obtain ⟨p, hp⟩ := (exists_of_lastAt (((new_spec hnew).2.1 c).symm.trans hk)).resolve_left
      (by simp)
    refine ⟨k, Finset.mem_coe.2 (Finset.mem_range.2 ?_), hk.symm⟩
    exact lt_of_mem_classOfRange ⟨by simp, by simp⟩ k (of_mem_zip hp).2
  calc (Set.range (pattern sets)).ncard
      ≤ (Set.range fun c : U32 => A.classOf c).ncard :=
        ncard_range_le (fun c d hcd => pattern_eq_iff.2 (hsame c d hcd)) (Set.finite_range _)
    _ ≤ (some '' (Finset.range (2 ^ 16) : Set ℕ)).ncard :=
        Set.ncard_le_ncard hsub ((Finset.finite_toSet _).image _)
    _ ≤ 2 ^ 16 := by
        refine (Set.ncard_image_le (Finset.finite_toSet _)).trans ?_
        rw [Set.ncard_coe_finset, Finset.card_range]

lemma length_firsts_le (sets : List CharSet) :
    (firsts Prod.snd (keyed sets)).length ≤ (Set.range (pattern sets)).ncard := by
  let sig : {p // p ∈ points sets} → List ℕ := fun p => signature sets p
  let pat : {p // p ∈ points sets} → List Bool := fun p =>
    pattern sets ⟨p, Nat.lt_succ_of_le (le_max_of_mem_points p.2)⟩
  have hfin : Finite {p // p ∈ points sets} := (points sets).finite_toSet
  have hsub : (((firsts Prod.snd (keyed sets)).map Prod.snd).toFinset : Set (List ℕ)) ⊆
      Set.range sig := by
    intro k hk
    rw [Finset.mem_coe, mem_toFinset, mem_map_firsts, keyed_eq, map_map] at hk
    obtain ⟨p, hp, rfl⟩ := mem_map.1 hk
    exact ⟨⟨p, hp⟩, rfl⟩
  calc (firsts Prod.snd (keyed sets)).length
      = (((firsts Prod.snd (keyed sets)).map Prod.snd).toFinset : Set (List ℕ)).ncard := by
        rw [Set.ncard_coe_finset, toFinset_card_of_nodup nodup_map_firsts, length_map]
    _ ≤ (Set.range sig).ncard := Set.ncard_le_ncard hsub (Set.finite_range _)
    _ ≤ (Set.range pat).ncard :=
        ncard_range_le (fun p q hpq => (signature_eq_iff p.2 q.2).2 (pattern_eq_iff.1 hpq))
          (Set.finite_range _)
    _ ≤ (Set.range (pattern sets)).ncard :=
        Set.ncard_le_ncard (Set.range_comp_subset_range _ (pattern sets)) (Set.finite_range _)

lemma exact_of_le (h : (Set.range (pattern sets)).ncard ≤ 2 ^ 16) : Exact sets := by
  have hclassed := foldl_enter ((length_firsts_le sets).trans h)
  -- the class of a signature
  set sigs := (firsts Prod.snd (keyed sets)).map Prod.snd with hsigs
  have hmem : ∀ {p}, p ∈ points sets → signature sets p ∈ sigs := fun hp => by
    rw [hsigs, mem_map_firsts, keyed_eq, map_map]
    exact mem_map_of_mem hp
  have htable : table sets = (points sets).map fun p => (p, sigs.idxOf (signature sets p)) := by
    rw [table, classed, hclassed, keyed_eq, map_map]
    exact ext_getElem (by simp) fun r h₁ h₂ => by simp
  have hlast : ∀ c, ∃ p ∈ points sets, (p ≤ c ∧ ∀ q ∈ points sets, q ≤ c → q ≤ p) ∧
      lastAt c none (table sets) = some (sigs.idxOf (signature sets p)) := by
    intro c
    rw [htable]
    exact lastAt_spec _ (pairwise_points sets) ⟨0, mem_points.2 (.inl rfl), Nat.zero_le c⟩ none
  obtain ⟨A, hA⟩ := exists_new fun c => by
    obtain ⟨p, -, -, hp⟩ := hlast c
    exact ⟨_, hp⟩
  obtain ⟨hsearch, hclass, hclasses, hrep⟩ := new_spec hA
  refine ⟨A, hA, fun c => ?_, fun c d hcd s hs => ?_, fun k hk => ?_⟩
  · obtain ⟨p, -, -, hp⟩ := hlast c
    exact ⟨_, (hclass c).trans hp, (hsearch c).trans hp⟩
  · obtain ⟨p, hp, ⟨hpc, hplast⟩, hcp⟩ := hlast c
    obtain ⟨q, hq, ⟨hqd, hqlast⟩, hdq⟩ := hlast d
    rw [hclass, hclass, hcp, hdq, Option.some.injEq, idxOf_inj (hmem hp)] at hcd
    rw [mem_iff_of_last hpc (Nat.lt_succ_iff.1 c.isLt) hplast hs,
      mem_iff_of_last hqd (Nat.lt_succ_iff.1 d.isLt) hqlast hs]
    exact (signature_eq_iff hp hq).1 hcd s hs
  · rw [hclasses, classed, hclassed, length_map] at hk
    have hk := getElem?_eq_getElem hk
    generalize (firsts Prod.snd (keyed sets))[k] = e at hk
    have hkeyed := mem_of_mem_firsts (mem_of_getElem? hk)
    rw [keyed_eq] at hkeyed
    obtain ⟨p, hp, rfl⟩ := mem_map.1 hkeyed
    obtain ⟨q, hq, ⟨hqp, hqlast⟩, hclassp⟩ := hlast p
    obtain rfl : q = p := le_antisymm hqp (hqlast p hp le_rfl)
    refine ⟨⟨q, Nat.lt_succ_of_le (le_max_of_mem_points hp)⟩, ?_, ?_⟩
    · rw [hrep, classed, hclassed, getElem?_map, hk]
      rfl
    · have hnodup : sigs.Nodup := nodup_map_firsts
      have hsig : sigs[k]? = some (signature sets q) := by
        rw [hsigs, getElem?_map, hk]
        rfl
      obtain ⟨hlt, hget⟩ := List.getElem?_eq_some_iff.1 hsig
      rw [hclass, hclassp, ← hget, hnodup.idxOf_getElem]

/-- The classes are exact when the sets tell at most 65,536 kinds of characters apart, and only
then. -/
theorem alphabet_exact_iff (sets : List CharSet) :
    Exact sets ↔ (Set.range (pattern sets)).ncard ≤ 2 ^ 16 :=
  ⟨ncard_pattern_le, exact_of_le⟩

/-- The characters below 2¹⁷ whose bit `k` is set. -/
def bitSet (k : ℕ) : CharSet :=
  CharSet.fromRanges (((range (2 ^ 17)).filter (·.testBit k)).map fun c =>
    (Fin.ofNat (MAX + 1) c, Fin.ofNat (MAX + 1) c))

lemma mem_bitSet {c : U32} {k : ℕ} (hc : c.val < 2 ^ 17) :
    c.val ∈ bitSet k ↔ c.val.testBit k = true := by
  rw [bitSet, CharSet.mem_fromRanges]
  simp only [mem_map, mem_filter, mem_range, exists_exists_and_eq_and]
  constructor
  · rintro ⟨n, ⟨hn, hbit⟩, hle, hge⟩
    have hval : (Fin.ofNat (MAX + 1) n).val = n := Nat.mod_eq_of_lt (hn.trans (by decide))
    have heq : c.val = n := hval ▸ congrArg Fin.val (le_antisymm hge hle)
    exact heq ▸ hbit
  · intro hbit
    have heq : Fin.ofNat (MAX + 1) c.val = c := Fin.ext (Nat.mod_eq_of_lt c.isLt)
    exact ⟨c.val, ⟨hc, hbit⟩, heq.le, heq.ge⟩

/-- Seventeen sets that tell 131,072 characters apart: some of them get one class all the same. -/
theorem alphabet_wraps : ¬Exact ((range 17).map bitSet) := by
  intro h
  have hbits : ∀ c d : Fin (2 ^ 17), pattern ((range 17).map bitSet) (c.castLE (by decide)) =
      pattern ((range 17).map bitSet) (d.castLE (by decide)) → c = d := by
    intro c d hcd
    refine Fin.ext (Nat.eq_of_testBit_eq fun k => ?_)
    by_cases hk : k < 17
    · have := pattern_eq_iff.1 hcd (bitSet k) (mem_map_of_mem (mem_range.2 hk))
      rw [mem_bitSet c.isLt, mem_bitSet d.isLt] at this
      exact Bool.eq_iff_iff.2 this
    · have hpow : 2 ^ 17 ≤ 2 ^ k := Nat.pow_le_pow_right (by decide) (Nat.le_of_not_lt hk)
      rw [Nat.testBit_lt_two_pow (c.isLt.trans_le hpow),
        Nat.testBit_lt_two_pow (d.isLt.trans_le hpow)]
  have hle : (Set.range (id : Fin (2 ^ 17) → Fin (2 ^ 17))).ncard ≤ 2 ^ 16 :=
    ((ncard_range_le (fun c d => hbits c d) (Set.finite_range _)).trans (Set.ncard_le_ncard
      (Set.range_comp_subset_range _ (pattern _)) (Set.finite_range _))).trans (ncard_pattern_le h)
  rw [Set.range_id, Set.ncard_univ, Nat.card_fin] at hle
  exact absurd hle (by decide)

/-- The alphabet is the smallest there is: where its classes are exact, there are as many of them as
kinds of characters that the sets tell apart. -/
theorem classes_eq_ncard (h : (Set.range (pattern sets)).ncard ≤ 2 ^ 16) :
    ∃ A, new sets = some A ∧ A.classes = (Set.range (pattern sets)).ncard := by
  obtain ⟨A, hnew, hclass, hsame, -⟩ := exact_of_le h
  have hclassed := foldl_enter ((length_firsts_le sets).trans h)
  have hclasses : A.classes = (firsts Prod.snd (keyed sets)).length := by
    rw [(new_spec hnew).2.2.1, classed, hclassed, length_map]
  refine ⟨A, hnew, le_antisymm (hclasses ▸ length_firsts_le sets) ?_⟩
  have hsub : Set.range (fun c : U32 => A.classOf c) ⊆
      some '' (Finset.range A.classes : Set ℕ) := by
    rintro _ ⟨c, rfl⟩
    obtain ⟨k, hk, -⟩ := hclass c
    obtain ⟨p, hp⟩ := (exists_of_lastAt (((new_spec hnew).2.1 c).symm.trans hk)).resolve_left
      (by simp)
    have hk' := (of_mem_zip hp).2
    rw [classed, hclassed] at hk'
    obtain ⟨e, he, rfl⟩ := mem_map.1 hk'
    refine ⟨_, Finset.mem_coe.2 (Finset.mem_range.2 ?_), hk.symm⟩
    rw [hclasses, ← length_map Prod.snd]
    exact idxOf_lt_length_of_mem (mem_map_firsts.2 (mem_map_of_mem he))
  calc (Set.range (pattern sets)).ncard
      ≤ (Set.range fun c : U32 => A.classOf c).ncard :=
        ncard_range_le (fun c d hcd => pattern_eq_iff.2 (hsame c d hcd)) (Set.finite_range _)
    _ ≤ (some '' (Finset.range A.classes : Set ℕ)).ncard :=
        Set.ncard_le_ncard hsub ((Finset.finite_toSet _).image _)
    _ ≤ A.classes := by
        refine (Set.ncard_image_le (Finset.finite_toSet _)).trans ?_
        rw [Set.ncard_coe_finset, Finset.card_range]

/-- The letters up to m and the letters from g on, which share seven. -/
def halves : List CharSet := [.fromRanges [(97, 109)], .fromRanges [(103, 122)]]

theorem classes_eq_ncard_halves : ∃ A, new halves = some A ∧ A.classes = 4 := by
  have hrange : Set.range (pattern halves) =
      ({[false, false], [true, false], [true, true], [false, true]} : Finset (List Bool)) := by
    refine Set.Subset.antisymm ?_ fun l hl => ?_
    · rintro _ ⟨c, rfl⟩
      rw [pattern, halves, map_cons, map_cons, map_nil]
      generalize CharSet.contains (.fromRanges [(97, 109)]) c = x
      generalize CharSet.contains (.fromRanges [(103, 122)]) c = y
      revert x y
      decide
    · simp only [Finset.mem_coe, Finset.mem_insert, Finset.mem_singleton] at hl
      rcases hl with rfl | rfl | rfl | rfl
      · exact ⟨0, by decide +kernel⟩
      · exact ⟨97, by decide +kernel⟩
      · exact ⟨103, by decide +kernel⟩
      · exact ⟨122, by decide +kernel⟩
  have hfour : (Set.range (pattern halves)).ncard = 4 := by
    rw [hrange, Set.ncard_coe_finset]
    decide
  obtain ⟨A, hA, hclasses⟩ := classes_eq_ncard (hfour.trans_le (by decide))
  exact ⟨A, hA, hclasses.trans hfour⟩

end Alphabet

end Lazaret.Linre
