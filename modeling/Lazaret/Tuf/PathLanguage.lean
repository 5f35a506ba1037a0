import Lazaret.Lib.Globs
import Lazaret.Tuf.Paths

/-!
# The language of a path pattern

What a pattern means, told without an algorithm: `Reads` reads a segment of a pattern as pieces, as
Python's `fnmatch` reads it, and the texts of the segment are the concatenation of what its pieces
stand for.  The loop of `fnmatch`, which goes back to the last star only, decides the language
(`matchLoop_iff`).
-/

namespace Lazaret.Tuf

open Glob List

/-! ## What a pattern means -/

/-- The members of a bracket set: ranges `a-b`, and single characters. -/
def memberSet : List Char → Set Char
  | a :: '-' :: b :: rest => Set.Icc a b ∪ memberSet rest
  | a :: rest => {a} ∪ memberSet rest
  | [] => ∅

/-- What follows a `[` is a bracket set and a rest: the members, which a `!` negates, are closed by
the first `]` that is not the first of them. -/
inductive Bracket : List Char → Set Char → List Char → Prop
  | plain {members rest : List Char} (hne : members ≠ []) (hbang : members.head? ≠ some '!')
      (hclose : ']' ∉ members.tail) : Bracket (members ++ ']' :: rest) (memberSet members) rest
  | negated {members rest : List Char} (hne : members ≠ []) (hclose : ']' ∉ members.tail) :
      Bracket ('!' :: (members ++ ']' :: rest)) (memberSet members)ᶜ rest

/-- How a pattern is read: `*` is any run of characters, `?` one character, a bracket set one of its
own, and any other character, an unclosed `[` too, is itself. -/
inductive Reads : List Char → List (Piece Char) → Prop
  | nil : Reads [] []
  | star {p ps} (h : Reads p ps) : Reads ('*' :: p) (.many :: ps)
  | any {p ps} (h : Reads p ps) : Reads ('?' :: p) (.one Set.univ :: ps)
  | bracket {p kind rest ps} (hset : Bracket p kind rest) (h : Reads rest ps) :
      Reads ('[' :: p) (.one kind :: ps)
  | unclosed {p ps} (hset : ∀ kind rest, ¬ Bracket p kind rest) (h : Reads p ps) :
      Reads ('[' :: p) (.one {'['} :: ps)
  | char {c p ps} (hc : c ∉ ['*', '?', '[']) (h : Reads p ps) : Reads (c :: p) (.one {c} :: ps)

/-! ## Bracket sets -/

lemma mem_memberSet {m : List Char} {c : Char} :
    c ∈ memberSet m ↔ ((setItems m).any fun i => i.1 ≤ c ∧ c ≤ i.2) = true := by
  induction m using memberSet.induct with
  | case1 a b rest ih =>
    rw [memberSet, setItems, Set.mem_union, ih, Set.mem_Icc]
    by_cases hab : a ≤ b
    · rw [if_pos hab, any_cons, Bool.or_eq_true, decide_eq_true_iff]
    · rw [if_neg hab, or_iff_right]
      rintro ⟨h1, h2⟩
      exact hab (h1.trans h2)
  | case2 a rest hrange ih =>
    rw [memberSet, setItems, Set.mem_union, ih, any_cons, Bool.or_eq_true,
      decide_eq_true_iff, Set.mem_singleton_iff, le_antisymm_iff, and_comm]
    · exact fun b rest' h => hrange b rest' h
    · exact fun b rest' h => hrange b rest' h
  | case3 => simp [memberSet, setItems]

/-- The members that are up to the closing bracket, and what the `!` makes of them. -/
def bodySet (body : List Char) : Set Char :=
  if body.head? = some '!' then (memberSet body.tail)ᶜ else memberSet body

def Opens (pre : List Char) (c : Char) : Prop := pre = [] ∧ c ≠ '!' ∨ pre = ['!']

lemma takeWhile_closed {w : List Char} (hw : ']' ∉ w) (rest : List Char) :
    (w ++ ']' :: rest).takeWhile (· ≠ ']') = w := by
  rw [takeWhile_append_of_pos]
  · simp
  · intro c hc
    rw [decide_eq_true_iff]
    rintro rfl
    exact hw hc

lemma takeWhile_unclosed {w : List Char} (hw : ']' ∉ w) : w.takeWhile (· ≠ ']') = w := by
  rw [← append_nil w, takeWhile_append_of_pos, takeWhile_nil]
  intro c hc
  rw [decide_eq_true_iff]
  rintro rfl
  exact hw hc

lemma closing_eq {pre t : List Char} {c : Char} (h : Opens pre c) :
    closing (pre ++ c :: t) =
      let n := pre.length + (t.takeWhile (· ≠ ']')).length + 1
      if n < (pre ++ c :: t).length then some ((pre ++ c :: t).take n, (pre ++ c :: t).drop (n + 1))
      else none := by
  have hbang : (if (pre ++ c :: t).head? = some '!' then 1 else 0) = pre.length := by
    rcases h with ⟨rfl, hc⟩ | rfl
    · simp [hc]
    · simp
  simp only [closing, hbang, drop_left]
  by_cases hc : c = ']'
  · subst hc
    have hdrop : (pre ++ ']' :: t).drop (pre.length + 1) = t := by
      rw [← drop_drop, drop_left, drop_succ_cons, drop_zero]
    simp only [head?_cons, if_true, hdrop, add_right_comm]
  · simp only [head?_cons, Option.some.injEq, if_neg hc, drop_left]
    rw [takeWhile_cons_of_pos (by simpa using hc)]
    simp only [length_cons, add_assoc]

lemma closing_closed {pre w : List Char} {c : Char} (h : Opens pre c) (hw : ']' ∉ w)
    (rest : List Char) : closing (pre ++ c :: (w ++ ']' :: rest)) = some (pre ++ c :: w, rest) := by
  have hsplit : pre ++ c :: (w ++ ']' :: rest) = (pre ++ c :: w) ++ ']' :: rest := by simp
  have hlen : pre.length + w.length + 1 = (pre ++ c :: w).length := by
    rw [length_append, length_cons, add_assoc]
  rw [closing_eq h]
  simp only [takeWhile_closed hw]
  rw [if_pos (by simp; omega), hsplit, hlen, take_left, ← drop_drop, drop_left,
    drop_succ_cons, drop_zero]

lemma closing_unclosed {pre t : List Char} {c : Char} (h : Opens pre c) (ht : ']' ∉ t) :
    closing (pre ++ c :: t) = none := by
  rw [closing_eq h]
  simp only [takeWhile_unclosed ht]
  rw [if_neg (by simp; omega)]

lemma Bracket.exists_closed {p rest : List Char} {kind : Set Char} (h : Bracket p kind rest) :
    ∃ pre c w, Opens pre c ∧ ']' ∉ w ∧ p = pre ++ c :: (w ++ ']' :: rest) ∧
      kind = bodySet (pre ++ c :: w) := by
  cases h with
  | @plain members rest hne hbang hclose =>
    obtain ⟨c, w, rfl⟩ := exists_cons_of_ne_nil hne
    have hc : c ≠ '!' := by
      rintro rfl
      exact hbang rfl
    refine ⟨[], c, w, .inl ⟨rfl, hc⟩, hclose, rfl, ?_⟩
    rw [bodySet, if_neg (by simpa using hc), nil_append]
  | @negated members rest hne hclose =>
    obtain ⟨c, w, rfl⟩ := exists_cons_of_ne_nil hne
    refine ⟨['!'], c, w, .inr rfl, hclose, rfl, ?_⟩
    show _ = if some '!' = some '!' then _ else _
    rw [if_pos rfl]
    rfl

lemma Bracket.of_closed {pre w : List Char} {c : Char} (h : Opens pre c) (hw : ']' ∉ w)
    (rest : List Char) : Bracket (pre ++ c :: (w ++ ']' :: rest))
    (bodySet (pre ++ c :: w)) rest := by
  rcases h with ⟨rfl, hc⟩ | rfl
  · rw [bodySet, if_neg (by simpa using hc), nil_append]
    exact .plain (cons_ne_nil c w) (by simpa using hc) hw
  · show Bracket _ (if some '!' = some '!' then _ else _) rest
    rw [if_pos rfl]
    exact .negated (cons_ne_nil c w) hw

lemma closing_of_bracket {p rest : List Char} {kind : Set Char} (h : Bracket p kind rest) :
    ∃ body, closing p = some (body, rest) ∧ kind = bodySet body := by
  obtain ⟨pre, c, w, hpre, hw, rfl, hkind⟩ := h.exists_closed
  exact ⟨_, closing_closed hpre hw rest, hkind⟩

lemma closing_spec (p : List Char) :
    (∃ body rest, closing p = some (body, rest) ∧ Bracket p (bodySet body) rest) ∨
      closing p = none ∧ ∀ kind rest, ¬ Bracket p kind rest := by
  by_cases hp : ∃ pre c t, Opens pre c ∧ p = pre ++ c :: t
  · obtain ⟨pre, c, t, hpre, rfl⟩ := hp
    by_cases ht : ']' ∈ t
    · obtain ⟨w, rest, rfl, hw⟩ := eq_append_cons_of_mem ht
      exact .inl ⟨_, _, closing_closed hpre hw rest, .of_closed hpre hw rest⟩
    · refine .inr ⟨closing_unclosed hpre ht, fun kind rest h => ?_⟩
      obtain ⟨body, hbody, -⟩ := closing_of_bracket h
      rw [closing_unclosed hpre ht] at hbody
      cases hbody
  · -- nothing, or a `!` and nothing
    have hnone : closing p = none := by
      rcases p with _ | ⟨c, _ | ⟨d, t⟩⟩
      · rfl
      · by_cases hc : c = '!'
        · subst hc
          rfl
        · exact absurd ⟨[], c, [], .inl ⟨rfl, hc⟩, rfl⟩ hp
      · by_cases hc : c = '!'
        · subst hc
          exact absurd ⟨['!'], d, t, .inr rfl, rfl⟩ hp
        · exact absurd ⟨[], c, d :: t, .inl ⟨rfl, hc⟩, rfl⟩ hp
    refine .inr ⟨hnone, fun kind rest h => ?_⟩
    obtain ⟨pre, c, w, hpre, -, rfl, -⟩ := h.exists_closed
    exact hp ⟨pre, c, _, hpre, rfl⟩

/-! ## The elements that `compile` makes -/

def Pat.piece : Pat → Piece Char
  | .star => .many
  | p => .one {c | p.one c = true}

def patLang (pat : List Pat) : Language Char := lang (pat.map Pat.piece)

lemma piece_char (c : Char) : (Pat.char c).piece = .one {c} := by
  simp [Pat.piece, Pat.one, eq_comm]

lemma piece_any : Pat.any.piece = .one Set.univ := by
  simp [Pat.piece, Pat.one]

lemma piece_set (body : List Char) :
    (if body.head? = some '!' then Pat.set true (setItems body.tail)
      else .set false (setItems body)).piece = .one (bodySet body) := by
  rw [bodySet]
  split
  · simp only [Pat.piece, Pat.one, Piece.one.injEq]
    ext c
    rw [Set.mem_compl_iff, mem_memberSet]
    simp
  · simp only [Pat.piece, Pat.one, Piece.one.injEq]
    ext c
    rw [mem_memberSet]
    simp

lemma lang_one_congr {kind : Set Char} {ps qs : List (Piece Char)} (h : lang ps = lang qs) :
    lang (.one kind :: ps) = lang (.one kind :: qs) := by
  rw [lang_cons, lang_cons, h]

lemma lang_compile {p : List Char} {ps : List (Piece Char)} (h : Reads p ps) :
    patLang (compile p false) = lang ps ∧
      lang (.many :: (compile p true).map Pat.piece) = lang (.many :: ps) := by
  have hcongr : ∀ {pat : Pat} {q : List Char} {kind : Set Char} {qs : List (Piece Char)},
      pat.piece = .one kind → patLang (compile q false) = lang qs →
        patLang (pat :: compile q false) = lang (.one kind :: qs) ∧
        lang (.many :: (pat :: compile q false).map Pat.piece) =
          lang (.many :: .one kind :: qs) := by
    intro pat q kind qs hpat hq
    have hone : patLang (pat :: compile q false) = lang (.one kind :: qs) := by
      rw [patLang, map_cons, hpat]
      exact lang_one_congr hq
    refine ⟨hone, ?_⟩
    rw [lang_cons, lang_cons]
    exact congrArg _ hone
  induction h with
  | nil => simp [compile, patLang]
  | @star p ps h ih =>
    constructor
    · rw [compile, if_neg (by decide), patLang, map_cons]
      exact ih.2
    · rw [compile, if_pos rfl, lang_many_many]
      exact ih.2
  | any h ih =>
    simp only [compile]
    exact hcongr piece_any ih.1
  | @bracket p kind rest ps hset h ih =>
    obtain ⟨body, hbody, rfl⟩ := closing_of_bracket hset
    have hcompile : ∀ b, compile ('[' :: p) b =
        (if body.head? = some '!' then Pat.set true (setItems body.tail)
          else .set false (setItems body)) :: compile rest false := by
      intro b
      rw [compile]
      split
      · rename_i hnone
        rw [hbody] at hnone
        cases hnone
      · rename_i body' after hsome
        rw [hbody] at hsome
        cases hsome
        rfl
    rw [hcompile, hcompile]
    exact hcongr (piece_set body) ih.1
  | @unclosed p ps hset h ih =>
    have hnone : closing p = none := by
      rcases closing_spec p with ⟨body, rest, -, hb⟩ | ⟨hnone, -⟩
      · exact absurd hb (hset _ _)
      · exact hnone
    have hcompile : ∀ b, compile ('[' :: p) b = .char '[' :: compile p false := by
      intro b
      rw [compile]
      split
      · rfl
      · rename_i body' after hsome
        rw [hnone] at hsome
        cases hsome
    rw [hcompile, hcompile]
    exact hcongr (piece_char '[') ih.1
  | @char c p ps hc h ih =>
    simp only [mem_cons, not_mem_nil, or_false, not_or] at hc
    have hcompile : ∀ b, compile (c :: p) b = .char c :: compile p false := by
      intro b
      rw [compile]
      · exact hc.1
      · exact hc.2.1
      · exact hc.2.2
    rw [hcompile, hcompile]
    exact hcongr (piece_char c) ih.1

lemma exists_reads (p : List Char) : ∃ ps, Reads p ps := by
  induction hn : p.length using Nat.strongRecOn generalizing p with
  | ind n ih =>
    cases p with
    | nil => exact ⟨[], .nil⟩
    | cons c p =>
      rw [length_cons] at hn
      obtain ⟨ps, hps⟩ := ih p.length (by omega) p rfl
      by_cases hstar : c = '*'
      · subst hstar
        exact ⟨_, .star hps⟩
      by_cases hany : c = '?'
      · subst hany
        exact ⟨_, .any hps⟩
      by_cases hset : c = '['
      · subst hset
        rcases closing_spec p with ⟨body, rest, hclose, hb⟩ | ⟨-, hb⟩
        · have hlt := closing_length hclose
          obtain ⟨qs, hqs⟩ := ih rest.length (by omega) rest rfl
          exact ⟨_, .bracket hb hqs⟩
        · exact ⟨_, .unclosed hb hps⟩
      · exact ⟨_, .char (by simp [hstar, hany, hset]) hps⟩

/-! ## The loop -/

/-- What the loop has matched since the last star: a stretch without a star, as long as the text it
took. -/
def Matched (star : Option (List Pat)) (base : List Char) (k : ℕ) (pat : List Pat) : Prop :=
  ∀ sp, star = some sp → ∃ seg, Plain seg ∧ seg.length = k ∧
    sp.map Pat.piece = seg ++ pat.map Pat.piece ∧ base.take k ∈ lang seg

/-- What is left to be decided: before the first star, whether the rest of the text is in the
language of the rest of the pattern, and then, whether the text from the star on is in that of the
pattern from the star on. -/
def Undecided (star : Option (List Pat)) (base : List Char) (k : ℕ) (pat : List Pat) : Prop :=
  match star with
  | none => base.drop k ∈ patLang pat
  | some sp => base ∈ lang (.many :: sp.map Pat.piece)

lemma piece_eq_many {p : Pat} : p.piece = .many ↔ p = .star := by
  cases p <;> simp [Pat.piece]

lemma all_star_iff {pat : List Pat} :
    pat.all (· = .star) = true ↔ ∀ p ∈ pat.map Pat.piece, p = Piece.many := by
  simp [piece_eq_many]

lemma piece_of_ne {p : Pat} (h : p ≠ .star) : p.piece = .one {c | p.one c = true} := by
  cases p with
  | star => exact absurd rfl h
  | char c => rfl
  | any => rfl
  | set negated items => rfl

lemma undecided_backtrack {sp pat : List Pat} {base : List Char} {k : ℕ} (hk : k < base.length)
    (hmatched : Matched (some sp) base k pat) (hno : base.drop k ∉ patLang pat) :
    Undecided (some sp) base k pat ↔ Undecided (some sp) base.tail 0 sp := by
  obtain ⟨seg, hplain, hlen, hsp, -⟩ := hmatched sp rfl
  have hnot : base ∉ lang (sp.map Pat.piece) := by
    rw [hsp, mem_lang_plain_append hplain, hlen]
    exact fun h => hno h.2
  show base ∈ lang _ ↔ base.tail ∈ lang _
  rw [mem_lang_many_tail hnot, and_iff_left]
  rintro rfl
  cases hk

lemma matched_after_star (sp : List Pat) (base : List Char) : Matched (some sp) base 0 sp := by
  intro sp' h
  cases h
  exact ⟨[], Plain.nil, rfl, rfl, rfl⟩

/-! ### Its turns -/

variable {star : Option (List Pat)} {base : List Char} {k : ℕ} {c : Char} {p : Pat}
  {pat : List Pat}

lemma matchLoop_end (h : base[k]? = none) :
    matchLoop star base k pat = pat.all (· = .star) := by
  rw [matchLoop.eq_def]
  split
  · rfl
  · simp_all

lemma matchLoop_star (h : base[k]? = some c) :
    matchLoop star base k (.star :: pat) = matchLoop (some pat) (base.drop k) 0 pat := by
  rw [matchLoop.eq_def]
  split <;> simp_all

lemma matchLoop_nil (h : base[k]? = some c) : matchLoop star base k [] =
    match star with
    | some sp => matchLoop (some sp) base.tail 0 sp
    | none => false := by
  rw [matchLoop.eq_def]
  split
  · simp_all
  · rfl

lemma matchLoop_cons (h : base[k]? = some c) (hp : p ≠ .star) :
    matchLoop star base k (p :: pat) = if p.one c then matchLoop star base (k + 1) pat else
      match star with
      | some sp => matchLoop (some sp) base.tail 0 sp
      | none => false := by
  rw [matchLoop.eq_def]
  split
  · simp_all
  · rename_i c' hc'
    rw [h] at hc'
    cases hc'
    cases p with
    | star => exact absurd rfl hp
    | char _ => rfl
    | any => rfl
    | set _ _ => rfl

lemma Undecided.of_end (hmatched : Matched star base k pat) (hk : k = base.length) :
    Undecided star base k pat ↔ pat.all (· = .star) = true := by
  rw [all_star_iff]
  cases star with
  | none =>
    show base.drop k ∈ lang _ ↔ _
    rw [drop_eq_nil_of_le hk.ge, nil_mem_lang]
  | some sp =>
    obtain ⟨seg, hplain, -, hsp, htake⟩ := hmatched sp rfl
    rw [hk, take_length] at htake
    show base ∈ lang _ ↔ _
    rw [hsp, many_plain_iff_of_length hplain htake]

lemma undecided_star (hmatched : Matched star base k (.star :: pat)) :
    Undecided star base k (.star :: pat) ↔ Undecided (some pat) (base.drop k) 0 pat := by
  cases star with
  | none => rfl
  | some sp =>
    obtain ⟨seg, hplain, rfl, hsp, htake⟩ := hmatched sp rfl
    show base ∈ lang _ ↔ base.drop _ ∈ lang _
    rw [hsp, map_cons, Pat.piece, many_plain_many_iff hplain htake]

lemma Matched.step (hmatched : Matched star base k (p :: pat)) (h : base[k]? = some c)
    (hp : p ≠ .star) (hone : p.one c = true) : Matched star base (k + 1) pat := by
  intro sp hsp
  obtain ⟨seg, hplain, hlen, hpieces, htake⟩ := hmatched sp hsp
  refine ⟨seg ++ [p.piece], ?_, ?_, ?_, ?_⟩
  · rw [piece_of_ne hp]
    exact hplain.concat _
  · rw [length_append, hlen, length_singleton]
  · rw [hpieces, map_cons, append_assoc, singleton_append]
  · rw [take_add_one, h, Option.toList_some, lang_append, Language.mem_mul]
    refine ⟨_, htake, [c], ?_, rfl⟩
    rw [piece_of_ne hp, cons_mem_lang_one]
    exact ⟨hone, rfl⟩

lemma undecided_step (h : base[k]? = some c) (hp : p ≠ .star) (hone : p.one c = true) :
    Undecided star base k (p :: pat) ↔ Undecided star base (k + 1) pat := by
  cases star with
  | some sp => rfl
  | none =>
    obtain ⟨hk, rfl⟩ := List.getElem?_eq_some_iff.1 h
    show base.drop k ∈ lang _ ↔ base.drop (k + 1) ∈ lang _
    rw [drop_eq_getElem_cons hk, map_cons, piece_of_ne hp, cons_mem_lang_one]
    exact and_iff_right hone

lemma drop_notMem_nil (h : base[k]? = some c) : base.drop k ∉ patLang [] := by
  rw [patLang, map_nil, mem_lang_nil, drop_eq_nil_iff, not_le]
  exact (List.getElem?_eq_some_iff.1 h).1

lemma drop_notMem_cons (h : base[k]? = some c) (hp : p ≠ .star) (hone : ¬ p.one c = true) :
    base.drop k ∉ patLang (p :: pat) := by
  obtain ⟨hk, rfl⟩ := List.getElem?_eq_some_iff.1 h
  rw [drop_eq_getElem_cons hk, patLang, map_cons, piece_of_ne hp, cons_mem_lang_one]
  exact fun hmem => hone hmem.1

theorem matchLoop_iff (hmatched : Matched star base k pat) (hk : k ≤ base.length) :
    matchLoop star base k pat = true ↔ Undecided star base k pat := by
  induction star, base, k, pat using matchLoop.induct with
  | case1 star base k pat hend =>
    rw [matchLoop_end hend, Undecided.of_end hmatched]
    exact le_antisymm hk (getElem?_eq_none_iff.1 hend)
  | case2 star base k c hc pat ih =>
    rw [matchLoop_star hc, undecided_star hmatched]
    exact ih (matched_after_star _ _) (Nat.zero_le _)
  | case3 base k c hc sp ih =>
    have hlt := (List.getElem?_eq_some_iff.1 hc).1
    rw [matchLoop_nil hc, undecided_backtrack hlt hmatched (drop_notMem_nil hc)]
    exact ih (matched_after_star _ _) (Nat.zero_le _)
  | case4 base k c hc =>
    rw [matchLoop_nil hc]
    exact iff_of_false Bool.false_ne_true (drop_notMem_nil hc)
  | case5 star base k c hc p pat hp hone ih =>
    have hlt := (List.getElem?_eq_some_iff.1 hc).1
    rw [matchLoop_cons hc hp, if_pos hone, undecided_step hc hp hone]
    exact ih (hmatched.step hc hp hone) hlt
  | case6 base k c hc p pat hp hone sp ih =>
    have hlt := (List.getElem?_eq_some_iff.1 hc).1
    rw [matchLoop_cons hc hp, if_neg hone,
      undecided_backtrack hlt hmatched (drop_notMem_cons hc hp hone)]
    exact ih (matched_after_star _ _) (Nat.zero_le _)
  | case7 base k c hc p pat hp hone =>
    rw [matchLoop_cons hc hp, if_neg hone]
    exact iff_of_false Bool.false_ne_true (drop_notMem_cons hc hp hone)

theorem fnmatch_iff {text p : List Char} {ps : List (Piece Char)} (h : Reads p ps) :
    fnmatch text p = true ↔ text ∈ lang ps := by
  have hstart : Matched none text 0 (compile p false) := by
    intro sp hsp
    cases hsp
  rw [fnmatch, matchLoop_iff hstart (Nat.zero_le _), ← (lang_compile h).1]
  rfl

/-! ## Paths -/

/-- A target is in the language of a pattern: both have as many segments, and each segment of the
target is in the language of its pattern, however that is read. -/
def InLanguage (target pattern : List (List Char)) : Prop :=
  List.Forall₂ (fun t p => ∃ ps, Reads p ps ∧ t ∈ lang ps) target pattern

/-- **Path patterns match exactly by their meaning.** -/
theorem path_matches_iff (target pattern : String) : pathMatches target pattern = true ↔
    InLanguage (target.toList.splitOn '/') (pattern.toList.splitOn '/') := by
  have hsegment : ∀ t p : List Char, fnmatch t p = true ↔ ∃ ps, Reads p ps ∧ t ∈ lang ps := by
    intro t p
    constructor
    · intro h
      obtain ⟨ps, hps⟩ := exists_reads p
      exact ⟨ps, hps, (fnmatch_iff hps).1 h⟩
    · rintro ⟨ps, hps, ht⟩
      exact (fnmatch_iff hps).2 ht
  simp only [pathMatches, decide_eq_true_iff, InLanguage, forall₂_iff_zip, all_eq_true, Prod.forall]
  exact and_congr_right fun _ => forall₂_congr fun t p => imp_congr_right fun _ => hsegment t p

end Lazaret.Tuf
