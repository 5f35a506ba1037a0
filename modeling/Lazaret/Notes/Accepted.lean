import Lazaret.Notes.Open

/-!
# What an opened note is

Which messages `noteOpen` accepts (`noteOpen_eq_ok`): a text, a blank line and signature lines,
where the first line of each known key verifies.  A further line of a known key is not looked at, so
another order of the lines is accepted when the lines that are then first verify (`open_whole`).
-/

namespace Lazaret.Notes

open List Utf8

open Utf8 (encode)

variable {verify : Verifier → List UInt8 → List UInt8 → Bool} {known : List Verifier}
  {text line : Text} {lines : List Text} {ls : List Line} {l : Line}

/-! ## Lines -/

def block (lines : List Text) : Text := lines.flatMap (· ++ ['\n'])

lemma block_cons (line : Text) (lines : List Text) :
    block (line :: lines) = line ++ '\n' :: block lines := by
  rw [block, flatMap_cons, append_assoc]
  rfl

lemma exists_block {s : Text} (h : s = [] ∨ s.getLast? = some '\n') :
    ∃ lines, s = block lines ∧ ∀ line ∈ lines, '\n' ∉ line := by
  induction s with
  | nil => exact ⟨[], rfl, fun line hline => absurd hline not_mem_nil⟩
  | cons c cs ih =>
    have hlast : (c :: cs).getLast? = some '\n' := h.resolve_left (cons_ne_nil c cs)
    have hcs : cs = [] ∨ cs.getLast? = some '\n' := by
      cases cs with
      | nil => exact .inl rfl
      | cons d ds => exact .inr (by rwa [getLast?_cons_cons] at hlast)
    obtain ⟨lines, rfl, hlines⟩ := ih hcs
    by_cases hc : c = '\n'
    · refine ⟨[] :: lines, by rw [hc, block_cons]; rfl, ?_⟩
      exact forall_mem_cons.2 ⟨not_mem_nil, hlines⟩
    · -- the character is the first of the next line
      cases lines with
      | nil => exact absurd (Option.some.inj hlast) hc
      | cons line lines =>
        obtain ⟨hline, hlines⟩ := forall_mem_cons.1 hlines
        refine ⟨(c :: line) :: lines, by rw [block_cons, block_cons]; rfl, ?_⟩
        refine forall_mem_cons.2 ⟨?_, hlines⟩
        rw [mem_cons, not_or]
        exact ⟨Ne.symm hc, hline⟩

lemma getLast?_block (h : lines ≠ []) : (block lines).getLast? = some '\n' := by
  obtain ⟨front, line, rfl⟩ := (eq_nil_or_concat lines).resolve_left h
  rw [concat_eq_append, block, flatMap_append, flatMap_singleton, ← append_assoc,
    getLast?_concat]

variable {r : Reading}

lemma readLines_block (h : ∀ line ∈ lines, '\n' ∉ line) :
    readLines verify known text (block lines) r = lines.foldlM (readLine verify known text) r := by
  induction lines generalizing r with
  | nil =>
    rw [show block [] = [] from rfl, readLines, if_pos rfl]
    rfl
  | cons line lines ih =>
    obtain ⟨hline, hlines⟩ := forall_mem_cons.1 h
    rw [block_cons, readLines, if_neg (by simp), foldlM_cons]
    have hsplit := splitOnce_append (t := block lines) hline
    split
    next hnone =>
      rw [hsplit] at hnone
      cases hnone
    next p hsome =>
      obtain rfl := Option.some.inj (hsplit.symm.trans hsome)
      exact congrArg _ (funext fun r => ih hlines)

/-! ## The last blank line -/

lemma no_blank_line (h : ∀ line ∈ lines, line ≠ [] ∧ '\n' ∉ line) (j : ℕ) :
    ¬ ['\n', '\n'] <+: ('\n' :: block lines).drop j := by
  induction lines generalizing j with
  | nil =>
    intro hpre
    have hlen := hpre.length_le
    rw [length_drop] at hlen
    simp [block] at hlen
    omega
  | cons line lines ih =>
    obtain ⟨⟨hne, hline⟩, hlines⟩ := forall_mem_cons.1 h
    rw [block_cons]
    intro hpre
    cases j with
    | zero =>
      obtain ⟨c, cs, rfl⟩ := exists_cons_of_ne_nil hne
      have hc := (cons_prefix_cons.1 (cons_prefix_cons.1 hpre).2).1
      exact hline (hc ▸ mem_cons_self)
    | succ j =>
      rw [drop_succ_cons, drop_append] at hpre
      by_cases hj : line.length ≤ j
      · rw [drop_eq_nil_of_le hj, nil_append] at hpre
        exact ih hlines _ hpre
      · -- the rest begins with a character of the line
        obtain ⟨c, cs, hdrop⟩ : ∃ c cs, line.drop j = c :: cs := by
          refine exists_cons_of_ne_nil fun hnil => hj ?_
          rwa [drop_eq_nil_iff] at hnil
        rw [hdrop] at hpre
        have hc : c ∈ line.drop j := hdrop ▸ mem_cons_self
        exact hline ((cons_prefix_cons.1 hpre).1 ▸ mem_of_mem_drop hc)

/-! ## The loop over the lines -/

lemma parseLine_spec (h : parseLine line = .ok l) : line ≠ [] := by
  rintro rfl
  cases h

def knows (known : List Verifier) (l : Line) : Bool := (matching known l.signature).length ≠ 0

def reading (known : List Verifier) (ls : List Line) : Reading where
  signatures := (firsts (fun l => l.signature.key) (ls.filter (knows known))).map Line.signature
  unverified := (firsts Line.line (ls.filter (!knows known ·))).map Line.signature
  seen := (firsts (fun l => l.signature.key) (ls.filter (knows known))).map fun l => l.signature.key
  seenUnverified := (firsts Line.line (ls.filter (!knows known ·))).map Line.line
  count := ls.length

lemma mem_matching {v : Verifier} {s : Signature} :
    v ∈ matching known s ↔ v ∈ known ∧ v.id = s.key := by
  rw [matching, mem_filter, decide_eq_true_iff]

lemma reading_append_unknown (h : knows known l = false) :
    reading known (ls ++ [l]) =
      if l.line ∈ (reading known ls).seenUnverified then
        { reading known ls with count := (reading known ls).count + 1 }
      else
        { reading known ls with
          seenUnverified := (reading known ls).seenUnverified ++ [l.line]
          unverified := (reading known ls).unverified ++ [l.signature]
          count := (reading known ls).count + 1 } := by
  have hseen : l.line ∈ (reading known ls).seenUnverified ↔
      l.line ∈ (ls.filter (!knows known ·)).map Line.line := mem_map_firsts
  rw [reading, filter_append, filter_append, filter_singleton, filter_singleton, h]
  simp only [Bool.not_false, cond_true, cond_false, append_nil]
  rw [length_append, firsts_append_singleton]
  by_cases hmem : l.line ∈ (ls.filter (!knows known ·)).map Line.line
  · rw [if_pos hmem, if_pos (hseen.2 hmem)]
    rfl
  · rw [if_neg hmem, if_neg (fun h => hmem (hseen.1 h)), map_append, map_append]
    rfl

lemma reading_append_known (h : knows known l = true) :
    reading known (ls ++ [l]) =
      if l.signature.key ∈ (reading known ls).seen then
        { reading known ls with count := (reading known ls).count + 1 }
      else
        { reading known ls with
          seen := (reading known ls).seen ++ [l.signature.key]
          signatures := (reading known ls).signatures ++ [l.signature]
          count := (reading known ls).count + 1 } := by
  have hseen : l.signature.key ∈ (reading known ls).seen ↔
      l.signature.key ∈ (ls.filter (knows known)).map fun l => l.signature.key := mem_map_firsts
  rw [reading, filter_append, filter_append, filter_singleton, filter_singleton, h]
  simp only [Bool.not_true, cond_true, cond_false, append_nil]
  rw [length_append, firsts_append_singleton]
  by_cases hmem : l.signature.key ∈ (ls.filter (knows known)).map fun l => l.signature.key
  · rw [if_pos hmem, if_pos (hseen.2 hmem)]
    rfl
  · rw [if_neg hmem, if_neg (fun h => hmem (hseen.1 h)), map_append, map_append]
    rfl

lemma mem_seen (h : knows known l = true) :
    l.signature.key ∈ (reading known ls).seen ↔
      l.signature.key ∈ ls.map fun l => l.signature.key := by
  refine mem_map_firsts.trans ⟨?_, ?_⟩
  · intro hmem
    obtain ⟨l', hl', hkey⟩ := mem_map.1 hmem
    exact mem_map.2 ⟨l', (mem_filter.1 hl').1, hkey⟩
  · intro hmem
    obtain ⟨l', hl', hkey⟩ := mem_map.1 hmem
    refine mem_map.2 ⟨l', mem_filter.2 ⟨hl', ?_⟩, hkey⟩
    rwa [knows, matching, hkey]

def Unambiguous (known : List Verifier) (ls : List Line) : Prop :=
  ∀ l ∈ ls, (matching known l.signature).length ≤ 1

def FirstsVerify (verify : Verifier → List UInt8 → List UInt8 → Bool) (known : List Verifier)
    (text : Text) (ls : List Line) : Prop :=
  ∀ l ∈ firsts (fun l => l.signature.key) ls, ∀ v ∈ known, v.id = l.signature.key →
    verify v (encode text) l.raw = true

instance : Decidable (Unambiguous known ls) :=
  inferInstanceAs (Decidable (∀ l ∈ ls, (matching known l.signature).length ≤ 1))

instance : Decidable (FirstsVerify verify known text ls) :=
  inferInstanceAs (Decidable (∀ l ∈ firsts (fun l => l.signature.key) ls, ∀ v ∈ known,
    v.id = l.signature.key → verify v (encode text) l.raw = true))

lemma firstsVerify_append_singleton :
    FirstsVerify verify known text (ls ++ [l]) ↔ FirstsVerify verify known text ls ∧
      ((l.signature.key ∉ ls.map fun l => l.signature.key) → ∀ v ∈ known, v.id = l.signature.key →
        verify v (encode text) l.raw = true) := by
  rw [FirstsVerify, firsts_append_singleton, FirstsVerify]
  split
  next hmem => exact ⟨fun h => ⟨h, fun hnew => absurd hmem hnew⟩, And.left⟩
  next hnew =>
    rw [forall_mem_append, forall_mem_singleton]
    exact and_congr_right' ⟨fun h _ => h, fun h => h hnew⟩

lemma readLine_eq_ok : readLine verify known text (reading known ls) line = .ok r ↔
      ∃ l, parseLine line = .ok l ∧ ls.length + 1 ≤ MAX_SIGNATURES ∧
        (matching known l.signature).length ≤ 1 ∧
        ((l.signature.key ∉ ls.map fun l => l.signature.key) → ∀ v ∈ known, v.id = l.signature.key →
          verify v (encode text) l.raw = true) ∧
        r = reading known (ls ++ [l]) := by
  rw [readLine, except_bind_eq_ok]
  refine exists_congr fun l => and_congr_right fun _ => ?_
  dsimp only
  have hcount : ¬ (reading known ls).count + 1 > MAX_SIGNATURES ↔ ls.length + 1 ≤ MAX_SIGNATURES :=
    not_lt
  rw [except_bind_eq_ok]
  simp only [refuse_eq_ok, hcount, exists_and_left, exists_const]
  refine and_congr_right fun _ => ?_
  have hknown : ∀ v, v ∈ known ∧ v.id = l.signature.key ↔ v ∈ matching known l.signature :=
    fun v => mem_matching.symm
  cases hm : matching known l.signature with
  | nil =>
    rw [reading_append_unknown (show knows known l = false by rw [knows, hm]; rfl)]
    dsimp only
    rw [← apply_ite Except.ok, Except.ok.injEq]
    constructor
    · intro h
      refine ⟨Nat.zero_le 1, fun _ v hv hid => ?_, h.symm⟩
      exact absurd (hm ▸ (hknown v).1 ⟨hv, hid⟩) not_mem_nil
    · exact fun h => h.2.2.symm
  | cons v vs =>
    have hknows : knows known l = true := by rw [knows, hm]; rfl
    rw [reading_append_known hknows]
    cases vs with
    | nil =>
      dsimp only
      by_cases hseen : l.signature.key ∈ (reading known ls).seen
      · rw [if_pos hseen, if_pos hseen, Except.ok.injEq]
        refine ⟨fun h => ⟨le_rfl, fun hnew => ?_, h.symm⟩, fun h => h.2.2.symm⟩
        exact absurd ((mem_seen hknows).1 hseen) hnew
      · have hnew : l.signature.key ∉ ls.map fun l => l.signature.key :=
          fun hmem => hseen ((mem_seen hknows).2 hmem)
        rw [if_neg hseen, if_neg hseen]
        have hv : v ∈ known ∧ v.id = l.signature.key := (hknown v).2 (hm ▸ mem_cons_self)
        constructor
        · intro h
          split at h
          · cases h
          next htrue =>
            refine ⟨le_rfl, fun _ v' hv' hid => ?_, (Except.ok.inj h).symm⟩
            obtain rfl := mem_singleton.1 (hm ▸ (hknown v').1 ⟨hv', hid⟩)
            exact Bool.eq_true_of_not_eq_false htrue
        · rintro ⟨-, hverify, rfl⟩
          rw [if_neg]
          rw [hverify hnew v hv.1 hv.2]
          exact Bool.noConfusion
    | cons v' vs =>
      refine ⟨fun h => ?_, fun h => absurd h.1 (by simp)⟩
      cases h

lemma readLines_eq_ok : lines.foldlM (readLine verify known text) (reading known []) = .ok r ↔
      ∃ ls, lines.map parseLine = ls.map .ok ∧ ls.length ≤ MAX_SIGNATURES ∧ Unambiguous known ls ∧
        FirstsVerify verify known text ls ∧ r = reading known ls := by
  induction lines using reverseRecOn generalizing r with
  | nil =>
    constructor
    · intro h
      refine ⟨[], rfl, Nat.zero_le _, ?_, ?_, (Except.ok.inj h).symm⟩
      · exact fun l hl => absurd hl not_mem_nil
      · exact fun l hl => absurd hl not_mem_nil
    · rintro ⟨ls, hls, -, -, -, rfl⟩
      rw [map_nil] at hls
      rw [map_eq_nil_iff.1 hls.symm]
      rfl
  | append_singleton lines line ih =>
    rw [foldlM_append, except_bind_eq_ok]
    constructor
    · rintro ⟨r₀, hr₀, hr⟩
      obtain ⟨ls, hls, hlen, hone, hfirst, rfl⟩ := ih.1 hr₀
      rw [foldlM_cons] at hr
      obtain ⟨r₁, hr₁, hr⟩ := except_bind_eq_ok.1 hr
      obtain rfl := Except.ok.inj hr
      obtain ⟨l, hl, hcount, hmatch, hnew, rfl⟩ := readLine_eq_ok.1 hr₁
      refine ⟨ls ++ [l], ?_, ?_, ?_, firstsVerify_append_singleton.2 ⟨hfirst, hnew⟩, rfl⟩
      · rw [map_append, map_append, hls, map_singleton, map_singleton, hl]
      · rw [length_append]
        exact hcount
      · rw [Unambiguous, forall_mem_append, forall_mem_singleton]
        exact ⟨hone, hmatch⟩
    · rintro ⟨ls', hls, hlen, hone, hfirst, rfl⟩
      rw [map_append, map_singleton] at hls
      obtain ⟨ls, post, rfl, hfront, hpost⟩ := map_eq_append_iff.1 hls.symm
      obtain ⟨l, rfl, hl⟩ := map_eq_singleton_iff.1 hpost
      rw [length_append] at hlen
      rw [Unambiguous, forall_mem_append, forall_mem_singleton] at hone
      rw [firstsVerify_append_singleton] at hfirst
      refine ⟨_, ih.2 ⟨ls, hfront.symm, Nat.le_of_succ_le hlen, hone.1, hfirst.1, rfl⟩, ?_⟩
      rw [foldlM_cons, readLine_eq_ok.2 ⟨l, hl.symm, hlen, hone.2, hfirst.2, rfl⟩]
      rfl

/-! ## The whole note -/

lemma found_eq_ok {α : Type} {x : Option α} {a : α} : found x = .ok a ↔ x = some a := by
  cases x <;> simp [found]

lemma rfind_blank_line {t : Text} (h : ∀ line ∈ lines, line ≠ [] ∧ '\n' ∉ line) :
    rfind ['\n', '\n'] (t ++ '\n' :: '\n' :: block lines) = some t.length := by
  rw [rfind_eq_some (cons_ne_nil _ _), drop_left]
  refine ⟨⟨block lines, rfl⟩, fun j hj => ?_⟩
  obtain ⟨k, rfl⟩ := Nat.exists_eq_add_of_lt hj
  rw [Nat.add_assoc, drop_append, drop_eq_nil_of_le (Nat.le_add_right _ _), nil_append,
    Nat.add_sub_cancel_left, drop_succ_cons]
  exact no_blank_line h k

lemma signatures_ne_nil (h : (reading known ls).signatures ≠ []) : ls ≠ [] := by
  rintro rfl
  exact h rfl

lemma lines_ne_nil (hls : lines.map parseLine = ls.map .ok) :
    ∀ line ∈ lines, line ≠ [] := by
  intro line hline
  obtain ⟨l, -, hl⟩ := mem_map.1 (hls ▸ mem_map_of_mem hline)
  exact parseLine_spec hl.symm

lemma not_any_control {all : Text} :
    ¬ (all.any fun c => c < ' ' && c ≠ '\n') = true ↔ ∀ c ∈ all, ¬ (c < ' ' ∧ c ≠ '\n') := by
  rw [any_eq_true]
  simp only [Bool.and_eq_true, decide_eq_true_eq, not_exists, not_and]

theorem noteOpen_eq_ok {msg : List UInt8} {note : Note} :
    noteOpen verify msg known = .ok note ↔
      ∃ lines ls, msg = encode (note.text ++ '\n' :: block lines) ∧
        (∀ c ∈ note.text ++ '\n' :: block lines, ¬ (c < ' ' ∧ c ≠ '\n')) ∧
        note.text.getLast? = some '\n' ∧ (∀ line ∈ lines, '\n' ∉ line) ∧
        lines.map parseLine = ls.map .ok ∧ ls.length ≤ MAX_SIGNATURES ∧ Unambiguous known ls ∧
        FirstsVerify verify known note.text ls ∧ note.signatures ≠ [] ∧
        note.signatures = (reading known ls).signatures ∧
        note.unverified = (reading known ls).unverified := by
  constructor
  · intro h
    rw [noteOpen] at h
    obtain ⟨all, hall, h⟩ := except_bind_eq_ok.1 h
    obtain ⟨_, hctl, h⟩ := except_bind_eq_ok.1 h
    obtain ⟨split, hsplit, h⟩ := except_bind_eq_ok.1 h
    obtain ⟨_, hsigs, h⟩ := except_bind_eq_ok.1 h
    obtain ⟨r, hr, h⟩ := except_bind_eq_ok.1 h
    rw [found_eq_ok, decode_eq_some] at hall
    rw [refuse_eq_ok, not_any_control] at hctl
    rw [found_eq_ok, rfind_eq_some (cons_ne_nil _ _)] at hsplit
    rw [refuse_eq_ok, not_or, not_not] at hsigs
    obtain ⟨⟨rest, hdrop⟩, -⟩ := hsplit
    have hrest : all.drop (split + 2) = rest := by
      rw [← drop_drop, ← hdrop]
      rfl
    have htext : all.take (split + 1) = all.take split ++ ['\n'] := by
      have hget : all[split]? = some '\n' := by
        rw [← head?_drop, ← hdrop]
        rfl
      rw [take_add_one, hget, Option.toList_some]
    have hsplit : all = all.take (split + 1) ++ '\n' :: rest := by
      calc all = all.take split ++ all.drop split := (take_append_drop split all).symm
        _ = all.take (split + 1) ++ '\n' :: rest := by rw [htext, ← hdrop, append_assoc]; rfl
    rw [hrest] at hr hsigs
    obtain ⟨lines, hblock, hlines⟩ := exists_block (.inr hsigs.2)
    rw [hblock, readLines_block hlines] at hr
    obtain ⟨ls, hls, hlen, hone, hfirst, rfl⟩ := readLines_eq_ok.1 hr
    split at h
    · cases h
    next hne =>
      obtain rfl := Except.ok.inj h
      rw [hblock] at hsplit
      refine ⟨lines, ls, ?_, ?_, ?_, hlines, hls, hlen, hone, hfirst, hne, rfl, rfl⟩
      · show msg = encode (all.take (split + 1) ++ '\n' :: block lines)
        rw [← hsplit]
        exact hall
      · show ∀ c ∈ all.take (split + 1) ++ '\n' :: block lines, _
        rw [← hsplit]
        exact hctl
      · show (all.take (split + 1)).getLast? = _
        rw [htext, getLast?_concat]
  · rintro ⟨lines, ls, rfl, hctl, hlast, hlines, hls, hlen, hone, hfirst, hne, hsigs, hunv⟩
    obtain ⟨text, signatures, unverified⟩ := note
    dsimp only at hctl hlast hfirst hne hsigs hunv ⊢
    obtain ⟨t, rfl⟩ : ∃ t, text = t ++ ['\n'] := getLast?_eq_some_iff.1 hlast
    have hblank : ∀ line ∈ lines, line ≠ [] ∧ '\n' ∉ line := by
      intro line hline
      refine ⟨?_, hlines line hline⟩
      obtain ⟨l, -, hl⟩ := mem_map.1 (hls ▸ mem_map_of_mem hline)
      exact parseLine_spec hl.symm
    have hnil : lines ≠ [] := by
      rintro rfl
      exact signatures_ne_nil (hsigs ▸ hne) (map_eq_nil_iff.1 hls.symm)
    have hblock := getLast?_block hnil
    have hall : t ++ ['\n'] ++ '\n' :: block lines = t ++ '\n' :: '\n' :: block lines := by
      rw [append_assoc]
      rfl
    have htake : (t ++ '\n' :: '\n' :: block lines).take (t.length + 1) = t ++ ['\n'] := by
      rw [take_length_add_append]
      rfl
    have hdrop : (t ++ '\n' :: '\n' :: block lines).drop (t.length + 2) = block lines := by
      rw [drop_length_add_append]
      rfl
    have hsome : block lines ≠ [] := by
      intro h
      rw [h] at hblock
      cases hblock
    rw [noteOpen, decode_encode, hall]
    rw [hall, ← not_any_control] at hctl
    show (refuse _ _ >>= fun _ => found _ >>= _) = _
    rw [refuse_bind_of_not hctl, rfind_blank_line hblank]
    show (refuse _ _ >>= _) = _
    rw [htake, hdrop, refuse_bind_of_not (by rw [not_or, not_not]; exact ⟨hsome, hblock⟩),
      readLines_block hlines]
    have hrun : lines.foldlM (readLine verify known (t ++ ['\n'])) (reading known []) =
        .ok (reading known ls) := readLines_eq_ok.2 ⟨ls, hls, hlen, hone, hfirst, rfl⟩
    show (lines.foldlM (readLine verify known (t ++ ['\n'])) (reading known []) >>= _) = _
    rw [hrun, hsigs, hunv]
    exact if_neg (hsigs ▸ hne)

/-! ## Other orders of the lines -/

variable {lines' : List Text}

lemma block_inj (h : ∀ line ∈ lines, '\n' ∉ line)
    (h' : ∀ line ∈ lines', '\n' ∉ line) (heq : block lines = block lines') : lines = lines' := by
  induction lines generalizing lines' with
  | nil =>
    cases lines' with
    | nil => rfl
    | cons line' lines' =>
      rw [block_cons] at heq
      exact absurd heq.symm (by simp [block])
  | cons line lines ih =>
    obtain ⟨hline, hlines⟩ := forall_mem_cons.1 h
    cases lines' with
    | nil =>
      rw [block_cons] at heq
      exact absurd heq (by simp [block])
    | cons line' lines' =>
      obtain ⟨hline', hlines'⟩ := forall_mem_cons.1 h'
      rw [block_cons, block_cons] at heq
      have hsplit := splitOnce_append (t := block lines) hline
      rw [heq, splitOnce_append hline', Option.some.injEq, Prod.mk.injEq] at hsplit
      rw [hsplit.1, ih hlines hlines' hsplit.2.symm]

lemma split_unique {text' : Text} (h : ∀ line ∈ lines, line ≠ [] ∧ '\n' ∉ line)
    (h' : ∀ line ∈ lines', line ≠ [] ∧ '\n' ∉ line) (hlast : text.getLast? = some '\n')
    (hlast' : text'.getLast? = some '\n')
    (heq : text ++ '\n' :: block lines = text' ++ '\n' :: block lines') :
    text = text' ∧ lines = lines' := by
  obtain ⟨t, rfl⟩ : ∃ t, text = t ++ ['\n'] := getLast?_eq_some_iff.1 hlast
  obtain ⟨t', rfl⟩ : ∃ t, text' = t ++ ['\n'] := getLast?_eq_some_iff.1 hlast'
  rw [append_assoc, append_assoc] at heq
  have hlen := rfind_blank_line (t := t) h
  have hlen' := rfind_blank_line (t := t') h'
  have heq' : t ++ '\n' :: '\n' :: block lines = t' ++ '\n' :: '\n' :: block lines' := heq
  rw [heq', hlen', Option.some.injEq] at hlen
  obtain ⟨rfl, hrest⟩ := append_inj heq' hlen.symm
  rw [cons.injEq, cons.injEq] at hrest
  exact ⟨rfl, block_inj (fun line hline => (h line hline).2) (fun line hline => (h' line hline).2)
    hrest.2.2⟩

lemma exists_parsed (h : ∀ line ∈ lines, ∃ l, parseLine line = .ok l) :
    ∃ ls : List Line, lines.map parseLine = ls.map .ok := by
  induction lines with
  | nil => exact ⟨[], rfl⟩
  | cons line lines ih =>
    obtain ⟨⟨l, hl⟩, hlines⟩ := forall_mem_cons.1 h
    obtain ⟨ls, hls⟩ := ih hlines
    exact ⟨l :: ls, by rw [map_cons, hl, hls]; rfl⟩

lemma exists_perm (h : lines'.Perm lines) (hls : lines.map parseLine = ls.map .ok) :
    ∃ ls' : List Line, ls'.Perm ls ∧ lines'.map parseLine = ls'.map .ok := by
  have hparse : ∀ line ∈ lines', ∃ l, parseLine line = .ok l := by
    intro line hline
    obtain ⟨l, -, hl⟩ := mem_map.1 (hls ▸ mem_map_of_mem (h.mem_iff.1 hline))
    exact ⟨l, hl.symm⟩
  obtain ⟨ls', hls'⟩ := exists_parsed hparse
  have hperm : (ls'.map (Except.ok (ε := Error))).Perm (ls.map .ok) := hls' ▸ hls ▸ h.map parseLine
  exact ⟨ls', (map_perm_map_iff fun _ _ => Except.ok.inj).1 hperm, hls'⟩

lemma opened_block {note : Note} (hls : lines.map parseLine = ls.map .ok)
    (hlines : ∀ line ∈ lines, '\n' ∉ line) (hlast : text.getLast? = some '\n')
    (h : noteOpen verify (encode (text ++ '\n' :: block lines)) known = .ok note) :
    note.text = text ∧ FirstsVerify verify known text ls ∧
      note.signatures = (reading known ls).signatures := by
  obtain ⟨lines', ls', hmsg, -, hlast', hlines', hls', -, -, hfirst, -, hsigs, -⟩ :=
    noteOpen_eq_ok.1 h
  obtain ⟨rfl, rfl⟩ := split_unique
    (fun line hline => ⟨lines_ne_nil hls line hline, hlines line hline⟩)
    (fun line hline => ⟨lines_ne_nil hls' line hline, hlines' line hline⟩) hlast hlast'
    (encode_injective hmsg)
  have heq : ls = ls' := map_injective_iff.2 (fun _ _ => Except.ok.inj) (hls.symm.trans hls')
  subst heq
  exact ⟨rfl, hfirst, hsigs⟩

lemma unambiguous_perm {ls' : List Line} (h : ls'.Perm ls) (hone : Unambiguous known ls) :
    Unambiguous known ls' :=
  fun l hl => hone l (h.mem_iff.1 hl)

lemma mem_signing {k : Text × UInt32} :
    k ∈ (reading known ls).signatures.map Signature.key ↔
      ∃ l ∈ ls, knows known l = true ∧ l.signature.key = k := by
  rw [reading, map_map]
  refine mem_map_firsts.trans (mem_map.trans (exists_congr fun l => ?_))
  rw [mem_filter, and_assoc]
  rfl

/-- A note that is opened: its text, its lines, what is checked of them and what is left unread, and
the other orders of its lines; and a key that is made is read back from its string. -/
theorem open_whole (verify : Verifier → List UInt8 → List UInt8 → Bool) (known : List Verifier)
    (msg : List UInt8) (note : Note) (h : noteOpen verify msg known = .ok note) :
    (∃ lines ls, lines.map parseLine = ls.map .ok ∧
      msg = encode (note.text ++ '\n' :: block lines) ∧ 1 ≤ lines.length ∧ lines.length ≤ 100 ∧
      note.text.getLast? = some '\n' ∧
      (∀ t s, note.text ++ '\n' :: block lines = t ++ '\n' :: '\n' :: s →
        t.length < note.text.length) ∧
      FirstsVerify verify known note.text ls ∧ note.signatures ≠ [] ∧
      note.signatures =
        (firsts (fun l => l.signature.key) (ls.filter (knows known))).map Line.signature ∧
      (note.signatures.map Signature.key).Nodup ∧
      note.unverified = (firsts Line.line (ls.filter (!knows known ·))).map Line.signature ∧
      ∀ lines', lines'.Perm lines → ∃ ls', ls'.Perm ls ∧ lines'.map parseLine = ls'.map .ok ∧
        ((∃ note', noteOpen verify (encode (note.text ++ '\n' :: block lines')) known = .ok note') ↔
          FirstsVerify verify known note.text ls') ∧
        ∀ note', noteOpen verify (encode (note.text ++ '\n' :: block lines')) known = .ok note' →
          note'.text = note.text ∧
          ∀ k, k ∈ note'.signatures.map Signature.key ↔ k ∈ note.signatures.map Signature.key) ∧
    ∀ (sha256 : List UInt8 → List.Vector UInt8 32) (v : Verifier),
      ((∃ name publicKey, ed25519 sha256 name publicKey = .ok v) ∨
        ∃ vkey, fromKey sha256 vkey = .ok v) →
      ∃ s, keyString v = some s ∧ fromKey sha256 s = .ok v := by
  refine ⟨?_, ?_⟩
  · obtain ⟨lines, ls, rfl, hctl, hlast, hlines, hls, hlen, hone, hfirst, hne, hsigs, hunv⟩ :=
      noteOpen_eq_ok.1 h
    have hlen' : lines.length = ls.length := by
      rw [← length_map (f := parseLine), hls, length_map]
    have hpos : 1 ≤ lines.length := by
      rw [hlen']
      exact length_pos_of_ne_nil (signatures_ne_nil (hsigs ▸ hne))
    have hgood : ∀ line ∈ lines, line ≠ [] ∧ '\n' ∉ line := fun line hline =>
      ⟨lines_ne_nil hls line hline, hlines line hline⟩
    refine ⟨lines, ls, hls, rfl, hpos, hlen' ▸ hlen, hlast, ?_, hfirst, hne, hsigs, ?_, hunv, ?_⟩
    · -- a later blank line would be among the signature lines
      intro t s heq
      by_contra hge
      have hdrop : (note.text ++ '\n' :: block lines).drop t.length = '\n' :: '\n' :: s := by
        rw [heq, drop_left]
      rw [drop_append, drop_eq_nil_of_le (Nat.le_of_not_lt hge), nil_append] at hdrop
      exact no_blank_line hgood _ ⟨s, hdrop.symm⟩
    · rw [hsigs, reading, map_map]
      exact nodup_map_firsts
    · intro lines' hperm
      obtain ⟨ls', hperm', hls'⟩ := exists_perm hperm hls
      have hkeys : ∀ k, k ∈ (reading known ls').signatures.map Signature.key ↔
          k ∈ (reading known ls).signatures.map Signature.key := by
        intro k
        rw [mem_signing, mem_signing]
        exact exists_congr fun l => and_congr_left fun _ => hperm'.mem_iff
      have hlines' : ∀ line ∈ lines', '\n' ∉ line := fun line hline =>
        hlines line (hperm.mem_iff.1 hline)
      refine ⟨ls', hperm', hls', ⟨?_, ?_⟩, ?_⟩
      · rintro ⟨note', hnote'⟩
        exact (opened_block hls' hlines' hlast hnote').2.1
      · intro hfirst'
        refine ⟨⟨note.text, (reading known ls').signatures, (reading known ls').unverified⟩, ?_⟩
        refine noteOpen_eq_ok.2
          ⟨lines', ls', rfl, ?_, hlast, ?_, hls', ?_, ?_, hfirst', ?_, rfl, rfl⟩
        · intro c hc
          refine hctl c ?_
          rw [mem_append, mem_cons, block, mem_flatMap] at hc ⊢
          simpa only [hperm.mem_iff] using hc
        · exact hlines'
        · exact hperm'.length_eq ▸ hlen
        · exact unambiguous_perm hperm' hone
        · intro hnil
          have hkeys' := hkeys
          rw [show (reading known ls').signatures = [] from hnil] at hkeys'
          obtain ⟨s, hs⟩ := exists_mem_of_ne_nil _ (hsigs ▸ hne)
          exact not_mem_nil ((hkeys' _).2 (mem_map_of_mem hs))
      · intro note' hnote'
        obtain ⟨htext, -, hsigs'⟩ := opened_block hls' hlines' hlast hnote'
        refine ⟨htext, ?_⟩
        rw [hsigs', hsigs]
        exact hkeys
  · rintro sha256 v (⟨name, publicKey, hv⟩ | ⟨vkey, hv⟩)
    · exact from_key_key_string (ed25519_made hv)
    · exact from_key_key_string (fromKey_made hv)

/-- Three lines: one of a known key, another one of it, and one of a key that is not known. -/
theorem open_whole_three_lines :
    let verify := fun (_ : Verifier) (_ raw : List UInt8) => decide (raw = [1])
    let known : List Verifier := [⟨['n'], 0, .Ed25519 (List.Vector.replicate 32 0)⟩]
    let msg := encode "a\n\n— n AAAAAAE=\n— n AAAAAAI=\n— m AAAAAAE=\n".toList
    let note : Note :=
      ⟨['a', '\n'], [⟨['n'], 0, "AAAAAAE=".toList⟩], [⟨['m'], 0, "AAAAAAE=".toList⟩]⟩
    noteOpen verify msg known = .ok note ∧
      ∃ lines ls, lines.map parseLine = ls.map .ok ∧
        msg = encode (note.text ++ '\n' :: block lines) ∧ FirstsVerify verify known note.text ls ∧
        note.signatures =
          (firsts (fun l => l.signature.key) (ls.filter (knows known))).map Line.signature ∧
        note.unverified = (firsts Line.line (ls.filter (!knows known ·))).map Line.signature := by
  intro verify known msg note
  have h : noteOpen verify msg known = .ok note :=
    noteOpen_eq_ok.2 ⟨["— n AAAAAAE=".toList, "— n AAAAAAI=".toList, "— m AAAAAAE=".toList],
      [⟨"n AAAAAAE=".toList, ⟨['n'], 0, "AAAAAAE=".toList⟩, [1]⟩,
        ⟨"n AAAAAAI=".toList, ⟨['n'], 0, "AAAAAAI=".toList⟩, [2]⟩,
        ⟨"m AAAAAAE=".toList, ⟨['m'], 0, "AAAAAAE=".toList⟩, [1]⟩], by decide,
      not_any_control.1 (by decide), by decide, by decide, by decide, by decide, by decide,
      by decide, by decide, by decide, by decide⟩
  obtain ⟨⟨lines, ls, hls, hmsg, -, -, -, -, hfirsts, -, hsigs, -, hunv, -⟩, -⟩ :=
    open_whole _ _ _ _ h
  exact ⟨h, lines, ls, hls, hmsg, hfirsts, hsigs, hunv⟩

/-- A repeated line of a known key is not looked at, and the lines in the other order are
refused. -/
theorem repeated_line_unread :
    ∃ (verify : Verifier → List UInt8 → List UInt8 → Bool) (known : List Verifier) (note : Note)
      (lines : List Text) (ls : List Line), lines.map parseLine = ls.map .ok ∧
        noteOpen verify (encode (note.text ++ '\n' :: block lines)) known = .ok note ∧
        (∃ l ∈ ls, ∃ v ∈ known, v.id = l.signature.key ∧
          verify v (encode note.text) l.raw = false) ∧
        ∀ note', noteOpen verify (encode (note.text ++ '\n' :: block lines.reverse)) known ≠
          .ok note' := by
  let good : Line := ⟨"n AAAAAAE=".toList, ⟨['n'], 0, "AAAAAAE=".toList⟩, [1]⟩
  let bad : Line := ⟨"n AAAAAAI=".toList, ⟨['n'], 0, "AAAAAAI=".toList⟩, [2]⟩
  let key : Verifier := ⟨['n'], 0, .Ed25519 (List.Vector.replicate 32 0)⟩
  refine ⟨fun _ _ raw => raw = [1], [key], ⟨['a', '\n'], [good.signature], []⟩,
    ["— n AAAAAAE=".toList, "— n AAAAAAI=".toList], [good, bad], by decide, ?_, ?_, ?_⟩
  · refine noteOpen_eq_ok.2 ⟨_, [good, bad], rfl, not_any_control.1 (by decide), rfl, by decide,
      by decide, by decide, by decide, by decide, by decide, by decide, by decide⟩
  · exact ⟨bad, by decide, key, by decide, rfl, rfl⟩
  · intro note' h
    have hparse : ["— n AAAAAAI=".toList, "— n AAAAAAE=".toList].map parseLine =
        [bad, good].map .ok := by
      decide
    have hfirst := (opened_block hparse (by decide) rfl h).2.1
    exact absurd (hfirst bad (by decide) key (by decide) rfl) (by decide)

end Lazaret.Notes
