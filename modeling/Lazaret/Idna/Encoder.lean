import Lazaret.Idna.Digits
import Lazaret.Lib.Insertions

/-!
# What the encoder writes

`punycodeEncode` writes the insertions of a text in digits (`spell`): how far each is from the one
before it (`gap`).  It does exactly if there are less than `2 ^ 32` characters and every such
distance has 32 bits (`punycodeEncode_eq_some`).
-/

namespace Lazaret.Idna

open List

open Insertions (Insertion Position scan insertions build Ordered)

variable {p : Position} {x : Insertion Char} {xs ys : List (Insertion Char)} {s cs : Text} {n k : ℕ}

/-! ## The distances -/

/-- The number that a decoder gets to at an insertion: from the place after the last one it counts
the places of each code point. -/
def number (p : Position) (x : Insertion Char) : ℕ := (x.item.toNat - p.n) * (p.h + 1) + x.place

def gap (p : Position) (x : Insertion Char) : ℕ := number p x - p.i

def nextBias (p : Position) (x : Insertion Char) : ℕ := adapt (gap p x) (p.h + 1) (p.i = 0)

def spell : Position → ℕ → List (Insertion Char) → Text
  | _, _, [] => []
  | p, bias, x :: xs =>
    digits bias BASE (gap p x) ++ spell (p.next Char.toNat x) (nextBias p x) xs

def biasAfter : Position → ℕ → List (Insertion Char) → ℕ
  | _, bias, [] => bias
  | p, _, x :: xs => biasAfter (p.next Char.toNat x) (nextBias p x) xs

def Gaps : Position → List (Insertion Char) → Prop
  | _, [] => True
  | p, x :: xs => gap p x < 2 ^ 32 ∧ Gaps (p.next Char.toNat x) xs

lemma spell_append (bias : ℕ) :
    spell p bias (xs ++ ys) = spell p bias xs ++
      spell (p.after Char.toNat xs) (biasAfter p bias xs) ys := by
  induction xs generalizing p bias with
  | nil => rfl
  | cons x xs ih =>
    rw [cons_append, spell, ih, spell, append_assoc]
    rfl

lemma gaps_append : Gaps p (xs ++ ys) ↔ Gaps p xs ∧ Gaps (p.after Char.toNat xs) ys := by
  induction xs generalizing p with
  | nil => exact (iff_of_eq (true_and _)).symm
  | cons x xs ih =>
    rw [cons_append, Gaps, Gaps, ih, and_assoc]
    rfl

/-! ## A pass -/

/-- The distance at a character in the pass of a code point, after `k` places. -/
def dist (p : Position) (n k : ℕ) : ℕ := (n - p.n) * (p.h + 1) + k - p.i

lemma gap_eq {c : Char} (h : c.toNat = n) : gap p ⟨c, k⟩ = dist p n k := by
  rw [gap, number, dist, ← h]

lemma scan_cases (c : Char) (cs : Text) (n k : ℕ) :
    (c.toNat < n ∧ scan Char.toNat n k (c :: cs) = scan Char.toNat n (k + 1) cs ∧
        ((c :: cs).filter (Char.toNat · ≤ n)).length = (cs.filter (Char.toNat · ≤ n)).length + 1) ∨
      (c.toNat = n ∧ scan Char.toNat n k (c :: cs) = ⟨c, k⟩ :: scan Char.toNat n (k + 1) cs ∧
        ((c :: cs).filter (Char.toNat · ≤ n)).length = (cs.filter (Char.toNat · ≤ n)).length + 1) ∨
      (n < c.toNat ∧ scan Char.toNat n k (c :: cs) = scan Char.toNat n k cs ∧
        ((c :: cs).filter (Char.toNat · ≤ n)).length = (cs.filter (Char.toNat · ≤ n)).length) := by
  rw [scan, filter_cons]
  rcases lt_trichotomy c.toNat n with hlt | heq | hgt
  · rw [if_pos hlt, if_pos (decide_eq_true hlt.le)]
    exact .inl ⟨hlt, rfl, rfl⟩
  · rw [if_neg heq.not_lt, if_pos heq, if_pos (decide_eq_true heq.le)]
    exact .inr (.inl ⟨heq, rfl, rfl⟩)
  · rw [if_neg hgt.not_gt, if_neg hgt.ne', if_neg (by simpa using hgt)]
    exact .inr (.inr ⟨hgt, rfl, rfl⟩)

lemma dist_lt (hgaps : Gaps p (scan Char.toNat n k cs))
    (hlast : dist (p.after Char.toNat (scan Char.toNat n k cs)) n
      (k + (cs.filter (Char.toNat · ≤ n)).length) < 2 ^ 32) : dist p n k < 2 ^ 32 := by
  induction cs generalizing k with
  | nil => exact hlast
  | cons c cs ih =>
    rcases scan_cases c cs n k with ⟨-, hscan, hlen⟩ | ⟨heq, hscan, hlen⟩ | ⟨-, hscan, hlen⟩
    · have hk : k + ((c :: cs).filter (Char.toNat · ≤ n)).length =
          k + 1 + (cs.filter (Char.toNat · ≤ n)).length := by omega
      rw [hscan] at hgaps
      rw [hscan, hk] at hlast
      refine lt_of_le_of_lt ?_ (ih hgaps hlast)
      rw [dist, dist]
      omega
    · rw [hscan] at hgaps
      rw [← gap_eq heq]
      exact hgaps.1
    · rw [hscan] at hgaps hlast
      rw [hlen] at hlast
      exact ih hgaps hlast

variable {basic : ℕ}

lemma foldlM_encodeChar (bias : ℕ) (out : Text) {e : Encoding}
    (hpi : p.i ≤ (n - p.n) * (p.h + 1) + k) (hbasic : basic ≤ p.h) (hfirst : p.h = basic ↔ p.i = 0)
    (hdist : dist p n k < 2 ^ 32) :
    cs.foldlM (encodeChar basic n) ⟨out, dist p n k, bias, p.h⟩ = some e ↔
      Gaps p (scan Char.toNat n k cs) ∧
        dist (p.after Char.toNat (scan Char.toNat n k cs)) n
          (k + (cs.filter (Char.toNat · ≤ n)).length) < 2 ^ 32 ∧
        e = ⟨out ++ spell p bias (scan Char.toNat n k cs),
          dist (p.after Char.toNat (scan Char.toNat n k cs)) n
            (k + (cs.filter (Char.toNat · ≤ n)).length),
          biasAfter p bias (scan Char.toNat n k cs),
          (p.after Char.toNat (scan Char.toNat n k cs)).h⟩ := by
  induction cs generalizing p k bias out with
  | nil =>
    show some _ = some e ↔ True ∧ dist p n k < 2 ^ 32 ∧ e = ⟨out ++ [], dist p n k, bias, p.h⟩
    rw [append_nil, Option.some.injEq]
    exact ⟨fun h => ⟨trivial, hdist, h.symm⟩, fun h => h.2.2.symm⟩
  | cons c cs ih =>
    rw [foldlM_cons]
    rcases scan_cases c cs n k with ⟨hlt, hscan, hlen⟩ | ⟨heq, hscan, hlen⟩ | ⟨hgt, hscan, hlen⟩
    · have hnext : dist p n k + 1 = dist p n (k + 1) := by
        rw [dist, dist]
        omega
      have hk : k + ((c :: cs).filter (Char.toNat · ≤ n)).length =
          k + 1 + (cs.filter (Char.toNat · ≤ n)).length := by omega
      have hturn : encodeChar basic n ⟨out, dist p n k, bias, p.h⟩ c =
          (checkedAdd (dist p n k) 1).bind fun delta => some ⟨out, delta, bias, p.h⟩ := by
        rw [encodeChar, countBelow, if_pos hlt]
        exact congrArg _ (funext fun delta => if_neg hlt.ne)
      rw [hturn, hscan, hk, checkedAdd, hnext]
      by_cases hfits : dist p n (k + 1) < 2 ^ 32
      · rw [if_pos hfits]
        exact ih bias out (by omega) hbasic hfirst hfits
      · rw [if_neg hfits]
        refine ⟨fun h => ?_, fun h => absurd (dist_lt h.1 h.2.1) hfits⟩
        cases h
    · -- the character is written
      have hk : k + ((c :: cs).filter (Char.toNat · ≤ n)).length =
          k + 1 + (cs.filter (Char.toNat · ≤ n)).length := by omega
      have hbias : adapt (dist p n k) (p.h + 1) (p.h = basic) = nextBias p ⟨c, k⟩ := by
        rw [nextBias, gap_eq heq, decide_eq_decide.2 hfirst]
      have hturn : encodeChar basic n ⟨out, dist p n k, bias, p.h⟩ c =
          some ⟨out ++ digits bias BASE (dist p n k), 0, nextBias p ⟨c, k⟩, p.h + 1⟩ := by
        rw [encodeChar, countBelow, if_neg heq.not_lt, ← hbias]
        exact if_pos heq
      have hzero : dist (p.next Char.toNat ⟨c, k⟩) n (k + 1) = 0 := by
        show (n - c.toNat) * (p.h + 1 + 1) + (k + 1) - (k + 1) = 0
        rw [heq, Nat.sub_self, Nat.zero_mul, Nat.zero_add, Nat.sub_self]
      have hrest := ih (p := p.next Char.toNat ⟨c, k⟩) (k := k + 1) (nextBias p ⟨c, k⟩)
        (out ++ digits bias BASE (dist p n k)) (Nat.le_add_left (k + 1) _)
        (hbasic.trans (Nat.le_succ _))
        ⟨fun h => absurd (show p.h + 1 = basic from h) (by omega),
        fun h => absurd h (Nat.succ_ne_zero k)⟩
        (by rw [hzero]; omega)
      rw [hzero] at hrest
      have hgap : gap p ⟨c, k⟩ < 2 ^ 32 := by rwa [gap_eq heq]
      rw [hturn, hscan, hk, Gaps, spell, gap_eq heq, ← append_assoc]
      refine hrest.trans ?_
      rw [gap_eq heq] at hgap
      exact (and_iff_right hgap).symm.trans and_assoc.symm
    · have hturn : encodeChar basic n ⟨out, dist p n k, bias, p.h⟩ c =
          some ⟨out, dist p n k, bias, p.h⟩ := by
        rw [encodeChar, countBelow, if_neg hgt.not_gt]
        exact if_neg hgt.ne'
      rw [hturn, hscan, hlen]
      exact ih bias out hpi hbasic hfirst hdist

/-! ## All passes -/

def CODE_POINTS : ℕ := 0x110000

lemma toNat_lt (c : Char) : c.toNat < CODE_POINTS := by
  rcases c.valid with h | h
  · exact lt_trans h (by decide)
  · exact h.2

def insertionsFrom (n : ℕ) (s : Text) : List (Insertion Char) :=
  insertions Char.toNat n (CODE_POINTS - n) s

variable {m : ℕ}

lemma insertionsFrom_eq (hnm : n ≤ m) (hm : m < CODE_POINTS)
    (hmin : ∀ c ∈ s, n ≤ c.toNat → m ≤ c.toNat) :
    insertionsFrom n s = scan Char.toNat m 0 s ++ insertionsFrom (m + 1) s := by
  have hlen : CODE_POINTS - n = (m - n) + ((CODE_POINTS - (m + 1)) + 1) := by omega
  rw [insertionsFrom, hlen, Insertions.insertions_add, Insertions.insertions_of_forall,
    nil_append, Nat.add_sub_cancel' hnm, Insertions.insertions_succ]
  · rfl
  · intro c hc
    by_cases hlt : c.toNat < n
    · exact .inl hlt
    · have := hmin c hc (by omega)
      exact .inr (by omega)

/-- Where the encoder is before the pass of a code point. -/
structure At (s : Text) (basic n : ℕ) (p : Position) : Prop where
  n_le : p.n ≤ n
  start : p.n = n → p.i = 0
  i_le : p.i ≤ p.h
  handled : p.h = (s.filter (Char.toNat · < n)).length
  basic_le : basic ≤ p.h
  first : p.h = basic ↔ p.i = 0

lemma At.i_le_mul (h : At s basic n p) (k : ℕ) : p.i ≤ (n - p.n) * (p.h + 1) + k := by
  rcases h.n_le.lt_or_eq with hlt | heq
  · calc p.i ≤ 1 * (p.h + 1) := by have := h.i_le; omega
      _ ≤ (n - p.n) * (p.h + 1) := Nat.mul_le_mul_right _ (by omega)
      _ ≤ _ := Nat.le_add_right _ _
  · rw [h.start heq]
    exact Nat.zero_le _

lemma At.skip (h : At s basic n p) (hnm : n ≤ m)
    (hmin : ∀ c ∈ s, n ≤ c.toNat → m ≤ c.toNat) : At s basic m p := by
  have hfilter : s.filter (Char.toNat · < m) = s.filter (Char.toNat · < n) := by
    refine filter_congr fun c hc => decide_eq_decide.2 ⟨fun hlt => ?_, fun hlt => by omega⟩
    by_contra hge
    exact absurd (hmin c hc (by omega)) (by omega)
  refine ⟨h.n_le.trans hnm, fun heq => h.start ?_, h.i_le, ?_, h.basic_le, h.first⟩
  · exact le_antisymm h.n_le (heq ▸ hnm)
  · rw [hfilter]
    exact h.handled

lemma At.next (h : At s basic n p) (hmem : ∃ c ∈ s, c.toNat = n) :
    At s basic (n + 1) (p.after Char.toNat (scan Char.toNat n 0 s)) := by
  obtain ⟨hn, hpos, hle, hgrows⟩ := Insertions.after_scan (p := p) (k := 0) hmem
  obtain ⟨-, -, hlen⟩ := Insertions.ordered_scan (s := s) (k := 0) h.n_le
    (fun heq => (h.start heq).le) (by rw [h.handled, zero_add])
  refine ⟨hn.le.trans (Nat.le_succ n), fun heq => by omega, hle.trans hlen.ge, ?_, ?_, ?_⟩
  · rw [hlen, zero_add, Insertions.filter_lt_succ]
  · exact h.basic_le.trans hgrows.le
  · have := h.basic_le
    exact ⟨fun heq => by omega, fun heq => by omega⟩

lemma exists_next (hat : At s basic n p) (h : p.h < s.length) :
    ∃ m, ((s.map Char.toNat).filter (n ≤ ·)).min? = some m ∧ n ≤ m ∧ (∃ c ∈ s, c.toNat = m) ∧
      ∀ c ∈ s, n ≤ c.toNat → m ≤ c.toNat := by
  have hmem : ∀ m, m ∈ (s.map Char.toNat).filter (n ≤ ·) ↔ (∃ c ∈ s, c.toNat = m) ∧ n ≤ m := by
    intro m
    rw [mem_filter, mem_map, decide_eq_true_iff]
  cases hmin : ((s.map Char.toNat).filter (n ≤ ·)).min? with
  | none =>
    rw [List.min?_eq_none_iff] at hmin
    have hfilter : s.filter (Char.toNat · < n) = s := by
      refine filter_eq_self.2 fun c hc => decide_eq_true ?_
      by_contra hge
      exact not_mem_nil (hmin ▸ (hmem c.toNat).2 ⟨⟨c, hc, rfl⟩, Nat.le_of_not_lt hge⟩)
    have := hat.handled
    rw [hfilter] at this
    omega
  | some m =>
    obtain ⟨hm, hle⟩ := List.min?_eq_some_iff.1 hmin
    obtain ⟨hex, hnm⟩ := (hmem m).1 hm
    exact ⟨m, rfl, hnm, hex, fun c hc hge => hle _ ((hmem c.toNat).2 ⟨⟨c, hc, rfl⟩, hge⟩)⟩

lemma dist_add (hn : p.n ≤ n) (hnm : n ≤ m) (hpi : p.i ≤ (n - p.n) * (p.h + 1)) :
    dist p n 0 + (m - n) * (p.h + 1) = dist p m 0 := by
  rw [dist, dist, show m - p.n = (n - p.n) + (m - n) by omega, add_mul]
  omega

lemma encodePass_eq {bias : ℕ} {out : Text} (hat : At s basic n p)
    (hmin : ((s.map Char.toNat).filter (n ≤ ·)).min? = some m) (hnm : n ≤ m) :
    encodePass s basic (n, ⟨out, dist p n 0, bias, p.h⟩) =
      if dist p m 0 < 2 ^ 32 then
        (s.foldlM (encodeChar basic m) ⟨out, dist p m 0, bias, p.h⟩).bind fun e =>
          (checkedAdd e.delta 1).bind fun delta =>
            (checkedAdd m 1).bind fun n => some (n, { e with delta := delta })
      else none := by
  have hadd : (checkedMul (m - n) (p.h + 1)).bind (checkedAdd (dist p n 0)) =
      if dist p m 0 < 2 ^ 32 then some (dist p m 0) else none := by
    rw [checkedMul_add, dist_add hat.n_le hnm (hat.i_le_mul 0)]
  have hpass : encodePass s basic (n, ⟨out, dist p n 0, bias, p.h⟩) =
      ((checkedMul (m - n) (p.h + 1)).bind (checkedAdd (dist p n 0))).bind fun delta =>
        (s.foldlM (encodeChar basic m) ⟨out, delta, bias, p.h⟩).bind fun e =>
          (checkedAdd e.delta 1).bind fun delta =>
            (checkedAdd m 1).bind fun n => some (n, { e with delta := delta }) := by
    rw [encodePass, hmin]
    exact (Option.bind_assoc _ _ _).symm
  rw [hpass, hadd]
  split
  · rfl
  · rfl

lemma encodeLoop_run (bias : ℕ) (out : Text) {e : Text} (hlen : s.length < 2 ^ 32)
    (hn : n ≤ CODE_POINTS) (hat : At s basic n p) (hdist : dist p n 0 < 2 ^ 32) :
    (encodeLoop s basic).run (n, ⟨out, dist p n 0, bias, p.h⟩) = some e ↔
      Gaps p (insertionsFrom n s) ∧ e = out ++ spell p bias (insertionsFrom n s) := by
  induction hd : CODE_POINTS - n using Nat.strongRecOn generalizing n p bias out with
  | ind d ih =>
    by_cases hdone : p.h < s.length
    · obtain ⟨m, hmin, hnm, hex, hleast⟩ := exists_next hat hdone
      have hm : m < CODE_POINTS := by
        obtain ⟨c, -, rfl⟩ := hex
        exact toNat_lt c
      have hatm := hat.skip hnm hleast
      have hnext := hatm.next hex
      obtain ⟨hn', hpos, hle, -⟩ := Insertions.after_scan (p := p) (k := 0) hex
      have hhandled : (p.after Char.toNat (scan Char.toNat m 0 s)).h ≤ s.length := by
        rw [hnext.handled]
        exact length_filter_le _ _
      have hk : 0 + (s.filter (Char.toNat · ≤ m)).length =
          (p.after Char.toNat (scan Char.toNat m 0 s)).h := by
        rw [hnext.handled, Insertions.filter_lt_succ, zero_add]
      have hlast : dist (p.after Char.toNat (scan Char.toNat m 0 s)) m
          (0 + (s.filter (Char.toNat · ≤ m)).length) + 1 =
          dist (p.after Char.toNat (scan Char.toNat m 0 s)) (m + 1) 0 := by
        rw [hk, dist, dist, hn', Nat.sub_self, Nat.zero_mul, Nat.add_sub_cancel_left, Nat.one_mul]
        omega
      have hsmall : dist (p.after Char.toNat (scan Char.toNat m 0 s)) (m + 1) 0 < 2 ^ 32 := by
        rw [dist, hn', Nat.add_sub_cancel_left, Nat.one_mul]
        omega
      have hturn : (encodeLoop s basic).turn (n, ⟨out, dist p n 0, bias, p.h⟩) = _ := if_pos hdone
      rw [encodePass_eq hat hmin hnm] at hturn
      rw [insertionsFrom_eq hnm hm hleast, gaps_append, spell_append, ← append_assoc]
      -- where the pass overflows, a distance has more than 32 bits
      have hnone : ¬ Gaps p (scan Char.toNat m 0 s) →
          (encodeLoop s basic).turn (n, ⟨out, dist p n 0, bias, p.h⟩) = .inr none := by
        intro hgaps
        rw [hturn]
        split_ifs with hfits
        · cases hfold : s.foldlM (encodeChar basic m) ⟨out, dist p m 0, bias, p.h⟩ with
          | none => rfl
          | some e' =>
            exact absurd
              ((foldlM_encodeChar bias out (hatm.i_le_mul 0) hatm.basic_le hatm.first hfits).1
                hfold).1 hgaps
        · rfl
      by_cases hgaps : Gaps p (scan Char.toNat m 0 s)
      · have hfits : dist p m 0 < 2 ^ 32 := dist_lt hgaps (by omega)
        have hfold := (foldlM_encodeChar bias out (hatm.i_le_mul 0)
          hatm.basic_le hatm.first hfits).2 ⟨hgaps, by omega, rfl⟩
        rw [if_pos hfits, hfold, Option.bind_some, checkedAdd, checkedAdd, hlast, if_pos hsmall,
          Option.bind_some, if_pos (by rw [CODE_POINTS] at hm; omega), Option.bind_some] at hturn
        rw [Loop.run_of_next hturn, and_iff_right hgaps]
        exact ih _ (by omega) _ _ hm hnext hsmall rfl
      · rw [Loop.run_of_done (hnone hgaps)]
        refine ⟨fun h => ?_, fun h => absurd h.1.1 hgaps⟩
        cases h
    · -- all characters are handled
      have hall : ∀ c ∈ s, c.toNat < n := by
        have hfilter : (s.filter (Char.toNat · < n)).length = s.length :=
          le_antisymm (length_filter_le _ _) (by have := hat.handled; omega)
        intro c hc
        exact of_decide_eq_true (length_filter_eq_length_iff.1 hfilter c hc)
      have hnone : insertionsFrom n s = [] :=
        Insertions.insertions_of_forall fun c hc => .inl (hall c hc)
      have hturn : (encodeLoop s basic).turn (n, ⟨out, dist p n 0, bias, p.h⟩) =
          .inr (some out) := if_neg hdone
      rw [Loop.run_of_done hturn, hnone, Option.some.injEq, spell, append_nil]
      exact ⟨fun h => ⟨trivial, h.symm⟩, fun h => h.2.symm⟩

/-! ## The whole text -/

/-- Where the insertions begin, after so many ASCII characters. -/
def start (basic : ℕ) : Position := ⟨INITIAL_N, 0, basic⟩

/-- The ASCII characters, with the delimiter if there are any. -/
def front (ascii : Text) : Text := if ascii.length > 0 then ascii ++ ['-'] else ascii

lemma at_start : At s (s.filter isAscii).length INITIAL_N (start (s.filter isAscii).length) :=
  ⟨le_rfl, fun _ => rfl, Nat.zero_le _, rfl, le_rfl, iff_of_true rfl rfl⟩

theorem punycodeEncode_eq_some {e : Text} :
    punycodeEncode s = some e ↔ s.length < 2 ^ 32 ∧
      Gaps (start (s.filter isAscii).length) (insertionsFrom INITIAL_N s) ∧
      e = front (s.filter isAscii) ++
        spell (start (s.filter isAscii).length) INITIAL_BIAS (insertionsFrom INITIAL_N s) := by
  have hencode : punycodeEncode s = (tryFrom s.length).bind fun _ =>
      (encodeLoop s ((s.filter isAscii).length % 2 ^ 32)).run (INITIAL_N,
        ⟨if (s.filter isAscii).length % 2 ^ 32 > 0 then s.filter isAscii ++ ['-']
          else s.filter isAscii, 0, INITIAL_BIAS, (s.filter isAscii).length % 2 ^ 32⟩) := rfl
  rw [hencode, tryFrom]
  by_cases hlen : s.length < 2 ^ 32
  · rw [if_pos hlen, Option.bind_some, Nat.mod_eq_of_lt ((length_filter_le _ _).trans_lt hlen),
      and_iff_right hlen]
    have hzero : dist (start (s.filter isAscii).length) INITIAL_N 0 = 0 := by
      rw [dist, start, Nat.sub_self, Nat.zero_mul]
      rfl
    have hrun := encodeLoop_run INITIAL_BIAS (front (s.filter isAscii)) (e := e) hlen
      (by decide) at_start (by rw [hzero]; decide)
    rw [hzero] at hrun
    exact hrun
  · rw [if_neg hlen]
    refine ⟨fun h => ?_, fun h => absurd h.1 hlen⟩
    cases h

end Lazaret.Idna
