import Mathlib.Data.List.Basic
import Mathlib.Data.List.InsertIdx
import Mathlib.Order.Lattice

/-!
# Lists as sequences of insertions

A list whose elements have keys, taken apart into the insertions that make it of the elements with
small keys: in the order of the keys, and from left to right where they are the same (`insertions`).
They make the list (`build_insertions`), and they are the only insertions in that order that do
(`insertions_build`).
-/

namespace Lazaret.Insertions

open List

/-- An element, and how many of the elements so far come before it. -/
structure Insertion (α : Type*) where
  item : α
  place : ℕ

/-- Where a sequence of insertions is: the last key, the place after the last element, and how many
elements there are. -/
structure Position where
  n : ℕ
  i : ℕ
  h : ℕ

section Defs

variable {α : Type*} (key : α → ℕ)

/-- The elements with the key `m`, each with the number of elements up to that key before it. -/
def scan (m k : ℕ) : List α → List (Insertion α)
  | [] => []
  | c :: cs =>
    if key c < m then scan m (k + 1) cs
    else if key c = m then ⟨c, k⟩ :: scan m (k + 1) cs
    else scan m k cs

/-- The elements with the next `len` keys from `n` on. -/
def insertions (n len : ℕ) (s : List α) : List (Insertion α) :=
  (List.range' n len).flatMap fun m => scan key m 0 s

def build : List (Insertion α) → List α → List α
  | [], out => out
  | x :: xs, out => build xs (out.insertIdx x.place x.item)

def Position.next (p : Position) (x : Insertion α) : Position := ⟨key x.item, x.place + 1, p.h + 1⟩

def Position.after : Position → List (Insertion α) → Position
  | p, [] => p
  | p, x :: xs => Position.after (p.next key x) xs

/-- Insertions in the order of the keys, and from left to right where they are the same. -/
def Ordered : Position → List (Insertion α) → Prop
  | _, [] => True
  | p, x :: xs =>
    p.n ≤ key x.item ∧ x.place ≤ p.h ∧ (key x.item = p.n → p.i ≤ x.place) ∧
      Ordered (p.next key x) xs

end Defs

variable {α : Type*} {key : α → ℕ} {m n k len : ℕ} {s t : List α} {p : Position}
  {xs ys : List (Insertion α)} {x : Insertion α}

/-! ## Sequences -/

lemma insertIdx_length_append (s t : List α) (c : α) :
    (s ++ t).insertIdx s.length c = s ++ c :: t := by
  induction s with
  | nil => rfl
  | cons d s ih =>
    rw [cons_append, length_cons, insertIdx_succ_cons, ih]
    rfl

lemma build_append (out : List α) : build (xs ++ ys) out = build ys (build xs out) := by
  induction xs generalizing out with
  | nil => rfl
  | cons x xs ih => exact ih _

lemma ordered_append : Ordered key p (xs ++ ys) ↔ Ordered key p xs ∧ Ordered key
    (p.after key xs) ys := by
  induction xs generalizing p with
  | nil => exact (iff_of_eq (true_and _)).symm
  | cons x xs ih =>
    simp only [cons_append, Ordered, Position.after, ih, and_assoc]

lemma filter_insertIdx {q : α → Bool} {c : α} (hc : q c = false) (k : ℕ) :
    (s.insertIdx k c).filter q = s.filter q := by
  induction s generalizing k with
  | nil =>
    cases k with
    | zero => rw [insertIdx_zero, filter_cons_of_neg (by rw [hc]; exact Bool.noConfusion)]
    | succ k => rw [insertIdx_succ_nil]
  | cons d s ih =>
    cases k with
    | zero => rw [insertIdx_zero, filter_cons_of_neg (by rw [hc]; exact Bool.noConfusion)]
    | succ k => rw [insertIdx_succ_cons, filter_cons, filter_cons, ih]

lemma filter_build {q : α → Bool} (h : ∀ x ∈ xs, q x.item = false) (out : List α) :
    (build xs out).filter q = out.filter q := by
  induction xs generalizing out with
  | nil => rfl
  | cons x xs ih =>
    obtain ⟨hx, hxs⟩ := forall_mem_cons.1 h
    rw [build, ih hxs, filter_insertIdx hx]

lemma length_build (h : Ordered key p xs) (hs : s.length = p.h) :
    (build xs s).length = s.length + xs.length := by
  induction xs generalizing p s with
  | nil => rfl
  | cons x xs ih =>
    have hlen : (s.insertIdx x.place x.item).length = s.length + 1 :=
      length_insertIdx_of_le_length (h.2.1.trans hs.ge) _
    rw [build, ih h.2.2.2 (by rw [hlen, hs]; rfl), hlen, length_cons]
    omega

/-! ## The elements with one key -/

lemma scan_append :
    scan key m k (s ++ t) = scan key m k s ++ scan key m (k + (s.filter (key · ≤ m)).length) t := by
  induction s generalizing k with
  | nil => rfl
  | cons c s ih =>
    rw [cons_append, scan, scan, filter_cons]
    rcases lt_trichotomy (key c) m with hlt | heq | hgt
    · rw [if_pos hlt, if_pos hlt, if_pos (decide_eq_true hlt.le), ih, length_cons, Nat.add_assoc,
        Nat.add_comm 1]
    · rw [if_neg heq.not_lt, if_neg heq.not_lt, if_pos heq, if_pos heq,
        if_pos (decide_eq_true heq.le), ih, length_cons, Nat.add_assoc, Nat.add_comm 1]
      rfl
    · rw [if_neg hgt.not_gt, if_neg hgt.not_gt, if_neg hgt.ne', if_neg hgt.ne',
        if_neg (by simpa using hgt), ih]

lemma scan_of_lt (h : ∀ c ∈ s, key c < m) : scan key m k s = [] := by
  induction s generalizing k with
  | nil => rfl
  | cons c s ih =>
    obtain ⟨hc, hs⟩ := forall_mem_cons.1 h
    rw [scan, if_pos hc]
    exact ih hs

lemma scan_of_ne (h : ∀ c ∈ s, key c ≠ m) : scan key m k s = [] := by
  induction s generalizing k with
  | nil => rfl
  | cons c s ih =>
    obtain ⟨hc, hs⟩ := forall_mem_cons.1 h
    rw [scan, if_neg hc]
    split
    · exact ih hs
    · exact ih hs

lemma build_scan (front : List α) :
    build (scan key m front.length s) (front ++ s.filter (key · < m)) =
      front ++ s.filter (key · ≤ m) := by
  induction s generalizing front with
  | nil => rfl
  | cons c s ih =>
    have hfront : ∀ rest, front ++ c :: rest = (front ++ [c]) ++ rest := by
      intro rest
      rw [append_assoc]
      rfl
    have ih' := ih (front ++ [c])
    rw [length_append, length_singleton] at ih'
    rw [scan, filter_cons, filter_cons]
    rcases lt_trichotomy (key c) m with hlt | heq | hgt
    · rw [if_pos hlt, if_pos (decide_eq_true hlt), if_pos (decide_eq_true hlt.le),
        hfront (s.filter _), hfront (s.filter _)]
      exact ih'
    · rw [if_neg heq.not_lt, if_pos heq, if_neg (by simp [heq]), if_pos (decide_eq_true heq.le),
        build, hfront (s.filter (key · ≤ m))]
      show build _ ((front ++ _).insertIdx front.length c) = _
      rw [insertIdx_length_append, hfront]
      exact ih'
    · rw [if_neg hgt.not_gt, if_neg hgt.ne', if_neg (by simpa using hgt.le),
        if_neg (by simpa using hgt)]
      exact ih front

lemma ordered_scan (hn : p.n ≤ m) (hi : p.n = m → p.i ≤ k)
    (hh : p.h = k + (s.filter (key · < m)).length) :
    Ordered key p (scan key m k s) ∧ (p.after key (scan key m k s)).n ≤ m ∧
      (p.after key (scan key m k s)).h = k + (s.filter (key · ≤ m)).length := by
  induction s generalizing k p with
  | nil => exact ⟨trivial, hn, hh⟩
  | cons c s ih =>
    rw [scan, filter_cons]
    rw [filter_cons] at hh
    rcases lt_trichotomy (key c) m with hlt | heq | hgt
    · rw [if_pos (decide_eq_true hlt), length_cons] at hh
      rw [if_pos hlt, if_pos (decide_eq_true hlt.le), length_cons]
      obtain ⟨hord, hafter, hlen⟩ := ih (k := k + 1) hn (fun h => (hi h).trans (Nat.le_succ k))
        (by omega)
      exact ⟨hord, hafter, by omega⟩
    · rw [if_neg (by simp [heq])] at hh
      rw [if_neg heq.not_lt, if_pos heq, if_pos (decide_eq_true heq.le), length_cons]
      obtain ⟨hord, hafter, hlen⟩ := ih (k := k + 1) (p := p.next key ⟨c, k⟩) heq.le
        (fun _ => le_rfl) (by show p.h + 1 = _; omega)
      refine ⟨⟨hn.trans heq.ge, ?_, fun h => hi (h.symm.trans heq), hord⟩, hafter, ?_⟩
      · show k ≤ p.h
        omega
      · exact hlen.trans (by omega)
    · rw [if_neg (by simpa using hgt.le)] at hh
      rw [if_neg hgt.not_gt, if_neg hgt.ne', if_neg (by simpa using hgt)]
      exact ih hn hi hh

lemma after_scan (h : ∃ c ∈ s, key c = m) :
    (p.after key (scan key m k s)).n = m ∧ 0 < (p.after key (scan key m k s)).i ∧
      (p.after key (scan key m k s)).i ≤ k + (s.filter (key · ≤ m)).length ∧
        p.h < (p.after key (scan key m k s)).h := by
  induction s generalizing k p with
  | nil =>
    obtain ⟨c, hc, -⟩ := h
    cases hc
  | cons c s ih =>
    have hrest : key c ≠ m → ∃ c ∈ s, key c = m := by
      obtain ⟨d, hd, hkey⟩ := h
      intro hne
      rcases mem_cons.1 hd with rfl | hd
      · exact absurd hkey hne
      · exact ⟨d, hd, hkey⟩
    rw [scan, filter_cons]
    rcases lt_trichotomy (key c) m with hlt | heq | hgt
    · rw [if_pos hlt, if_pos (decide_eq_true hlt.le), length_cons]
      obtain ⟨hn, hpos, hle, hgrows⟩ := ih (p := p) (k := k + 1) (hrest hlt.ne)
      exact ⟨hn, hpos, by omega, hgrows⟩
    · rw [if_neg heq.not_lt, if_pos heq, if_pos (decide_eq_true heq.le), length_cons]
      by_cases hs : ∃ c ∈ s, key c = m
      · obtain ⟨hn, hpos, hle, hgrows⟩ := ih (p := p.next key ⟨c, k⟩) (k := k + 1) hs
        exact ⟨hn, hpos, hle.trans (by omega), (Nat.lt_succ_self p.h).trans hgrows⟩
      · rw [scan_of_ne fun d hd hkey => hs ⟨d, hd, hkey⟩]
        exact ⟨heq, Nat.succ_pos k, by show k + 1 ≤ _; omega, Nat.lt_succ_self p.h⟩
    · rw [if_neg hgt.not_gt, if_neg hgt.ne', if_neg (by simpa using hgt)]
      exact ih (hrest hgt.ne')

/-! ## The elements with many keys -/

lemma insertions_succ : insertions key n (len + 1) s =
    scan key n 0 s ++ insertions key (n + 1) len s := by
  rw [insertions, List.range'_succ, flatMap_cons, insertions]

lemma insertions_add (a b : ℕ) :
    insertions key n (a + b) s = insertions key n a s ++ insertions key (n + a) b s := by
  rw [insertions, ← List.range'_append_1, flatMap_append]
  rfl

lemma insertions_of_forall (h : ∀ c ∈ s, key c < n ∨ n + len ≤ key c) :
    insertions key n len s = [] := by
  rw [insertions, flatMap_eq_nil_iff]
  intro m hm
  rw [mem_range'_1] at hm
  refine scan_of_ne fun c hc => ?_
  rcases h c hc with hlt | hge <;> omega

lemma filter_lt_succ : s.filter (key · < n + 1) = s.filter (key · ≤ n) :=
  filter_congr fun _ _ => decide_eq_decide.2 Nat.lt_succ_iff

theorem build_insertions :
    build (insertions key n len s) (s.filter (key · < n)) = s.filter (key · < n + len) := by
  induction len generalizing n with
  | zero => rfl
  | succ len ih =>
    have hscan : build (scan key n 0 s) (s.filter (key · < n)) = s.filter (key · ≤ n) :=
      build_scan []
    rw [insertions_succ, build_append, hscan, ← filter_lt_succ, ih, Nat.add_assoc, Nat.add_comm 1]

theorem ordered_insertions (hn : p.n ≤ n) (hi : p.n = n → p.i = 0)
    (hh : p.h = (s.filter (key · < n)).length) : Ordered key p (insertions key n len s) := by
  induction len generalizing n p with
  | zero => exact trivial
  | succ len ih =>
    rw [insertions_succ, ordered_append]
    obtain ⟨hord, hafter, hlen⟩ :=
      ordered_scan (k := 0) hn (fun h => (hi h).le) (by rw [hh, Nat.zero_add])
    refine ⟨hord, ih (by omega) (fun h => by omega) ?_⟩
    rw [hlen, filter_lt_succ, Nat.zero_add]

/-! ## The only insertions in order -/

structure Behind (key : α → ℕ) (p : Position) (s : List α) : Prop where
  length : s.length = p.h
  le : ∀ c ∈ s, key c ≤ p.n
  lt : ∀ c ∈ s.drop p.i, key c < p.n

lemma Behind.lt_key (h : Behind key p s) (hx : Ordered key p (x :: xs)) :
    ∀ c ∈ s.drop x.place, key c < key x.item := by
  obtain ⟨hn, -, hi, -⟩ := hx
  intro c hc
  rcases hn.lt_or_eq with hlt | heq
  · exact (h.le c (mem_of_mem_drop hc)).trans_lt hlt
  · rw [← heq]
    refine h.lt c ?_
    rw [show x.place = p.i + (x.place - p.i) by have := hi heq.symm; omega, ← drop_drop] at hc
    exact mem_of_mem_drop hc

lemma insertIdx_eq (h : x.place ≤ s.length) :
    s.insertIdx x.place x.item = s.take x.place ++ x.item :: s.drop x.place := by
  have hinsert := insertIdx_length_append (s.take x.place) (s.drop x.place) x.item
  rwa [take_append_drop, length_take_of_le h] at hinsert

lemma Behind.next (h : Behind key p s) (hx : Ordered key p (x :: xs)) :
    Behind key (p.next key x) (s.insertIdx x.place x.item) := by
  have hlt := h.lt_key hx
  obtain ⟨hn, hplace, -, -⟩ := hx
  rw [insertIdx_eq (hplace.trans h.length.ge)]
  refine ⟨?_, ?_, ?_⟩
  · rw [length_append, length_cons, length_take, length_drop]
    show _ = p.h + 1
    have := h.length
    omega
  · intro c hc
    rcases mem_append.1 hc with hc | hc
    · exact (h.le c (mem_of_mem_take hc)).trans hn
    rcases mem_cons.1 hc with rfl | hc
    · exact le_rfl
    · exact (hlt c hc).le
  · intro c hc
    have hdrop : (s.take x.place ++ x.item :: s.drop x.place).drop (x.place + 1) =
      s.drop x.place := by
      rw [drop_append, length_take, min_eq_left (hplace.trans h.length.ge),
        drop_eq_nil_of_le (by rw [length_take]; omega), Nat.add_sub_cancel_left]
      rfl
    exact hlt c (hdrop ▸ hc)

lemma insertions_insertIdx (h : Behind key p s) (hx : Ordered key p (x :: xs)) (hn : n ≤ key x.item)
    (hlen : key x.item < n + len) :
    insertions key n len (s.insertIdx x.place x.item) = insertions key n len s ++ [x] := by
  have hlt := h.lt_key hx
  obtain ⟨hpn, hplace, -, -⟩ := hx
  have hle : ∀ c ∈ s, key c ≤ key x.item := fun c hc => (h.le c hc).trans hpn
  obtain ⟨a, ha⟩ := Nat.exists_eq_add_of_le hn
  obtain ⟨b, rfl⟩ : ∃ b, len = a + (b + 1) := ⟨len - a - 1, by omega⟩
  rw [insertIdx_eq (hplace.trans h.length.ge)]
  -- smaller keys are where they were
  have hsmall : insertions key n a (s.take x.place ++ x.item :: s.drop x.place) =
      insertions key n a s := by
    refine flatMap_congr fun m hm => ?_
    rw [mem_range'_1] at hm
    rw [scan_append, scan, if_neg (by omega), if_neg (by omega), ← scan_append, take_append_drop]
  -- there are no larger ones
  have hlarge : ∀ t : List α, (∀ c ∈ t, key c ≤ key x.item) →
      insertions key (n + a + 1) b t = [] := by
    intro t ht
    refine insertions_of_forall fun c hc => Or.inl ?_
    have := ht c hc
    omega
  have htake : ((s.take x.place).filter (key · ≤ n + a)).length = x.place := by
    rw [filter_eq_self.2, length_take, min_eq_left (hplace.trans h.length.ge)]
    intro c hc
    exact decide_eq_true (ha ▸ hle c (mem_of_mem_take hc))
  have hscan : scan key (n + a) 0 (s.take x.place ++ x.item :: s.drop x.place) =
      scan key (n + a) 0 s ++ [x] := by
    have hnone : ∀ k, scan key (n + a) k (s.drop x.place) = [] := fun k =>
      scan_of_lt fun c hc => ha ▸ hlt c hc
    have hs : scan key (n + a) 0 s = scan key (n + a) 0 (s.take x.place) := by
      conv_lhs => rw [← take_append_drop x.place s]
      rw [scan_append, hnone, append_nil]
    rw [scan_append, Nat.zero_add, htake, scan, if_neg (by omega), if_pos ha, hnone, hs]
  rw [insertions_add a (b + 1), insertions_add a (b + 1), hsmall, insertions_succ, insertions_succ,
    hlarge s hle, hlarge, hscan, append_nil, append_nil, append_assoc]
  intro c hc
  rcases mem_append.1 hc with hc | hc
  · exact hle c (mem_of_mem_take hc)
  rcases mem_cons.1 hc with rfl | hc
  · exact le_rfl
  · exact (hlt c hc).le

theorem insertions_build (h : Behind key p s) (hxs : Ordered key p xs) (hn : n ≤ p.n)
    (hlen : ∀ x ∈ xs, key x.item < n + len) :
    insertions key n len (build xs s) = insertions key n len s ++ xs := by
  induction xs generalizing p s with
  | nil => exact (append_nil _).symm
  | cons x xs ih =>
    obtain ⟨hx, hrest⟩ := forall_mem_cons.1 hlen
    have hkey : n ≤ key x.item := hn.trans hxs.1
    rw [build, ih (h.next hxs) hxs.2.2.2 hkey hrest, insertions_insertIdx h hxs hkey hx,
      append_assoc]
    rfl

end Lazaret.Insertions
