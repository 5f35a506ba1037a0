import Lazaret.Idna.Labels
import Lazaret.Lib.Separated

/-!
# Converted names are stable

A name that `to_ascii` returns is converted to itself, and what `to_unicode` shows for it is
converted back to it (`stable_of_noDashes`).  `u_label` does not look for `--` in the third and
fourth places, so the hyphens of what is shown are as they should be exactly if no label stands for
one that has them there (`noDashes_of_stable`).
-/

namespace Lazaret.Idna

open List Outcome

variable {U : Unicode} {name out a d : Text} {ls ts vs : List Text}

def labels (name : Text) : List Text := (splitDot name).1.splitOnP isDot

def join (ls : List Text) : Text := ['.'].intercalate ls

/-! ## The loops -/

def Converts (U : Unicode) (label t : Text) : Prop := label ≠ [] ∧ convertLabel U label = .ok t

lemma pushLabel_eq_ok {label r : Text} :
    pushLabel U out label = .ok r ↔
      ∃ t, Converts U label t ∧ r = (if out = [] then out else out ++ ['.']) ++ t := by
  simp only [pushLabel, bind_eq_ok, require_eq_ok, exists_const, Outcome.ok.injEq, Converts]
  constructor
  · rintro ⟨hne, t, ht, rfl⟩
    exact ⟨t, ⟨hne, ht⟩, rfl⟩
  · rintro ⟨t, ⟨hne, ht⟩, rfl⟩
    exact ⟨hne, t, ht, rfl⟩

lemma foldlM_pushLabel (hout : out ≠ []) {r : Text} :
    ls.foldlM (pushLabel U) out = .ok r ↔
      ∃ ts, Forall₂ (Converts U) ls ts ∧ r = out ++ ts.flatMap ('.' :: ·) := by
  induction ls generalizing out with
  | nil =>
    simp only [foldlM_nil, pure_eq, Outcome.ok.injEq, forall₂_nil_left_iff,
      exists_eq_left, flatMap_nil, append_nil]
    exact eq_comm
  | cons l ls ih =>
    simp only [foldlM_cons, bind_eq_ok, pushLabel_eq_ok, if_neg hout, forall₂_cons_left_iff]
    constructor
    · rintro ⟨_, ⟨t, ht, rfl⟩, hrest⟩
      obtain ⟨ts, hts, rfl⟩ := (ih (by simp)).1 hrest
      exact ⟨t :: ts, ⟨t, ts, ht, hts, rfl⟩, by simp⟩
    · rintro ⟨_, ⟨t, ts, ht, hts, rfl⟩, rfl⟩
      exact ⟨_, ⟨t, ht, rfl⟩, (ih (by simp)).2 ⟨ts, hts, by simp⟩⟩

lemma foldlM_pushLabel_nil (hU : U.Lawful) (hls : ls ≠ []) {r : Text} :
    ls.foldlM (pushLabel U) [] = .ok r ↔
      ∃ ts, Forall₂ (Converts U) ls ts ∧ r = join ts := by
  cases ls with
  | nil => exact absurd rfl hls
  | cons l ls =>
    simp only [foldlM_cons, bind_eq_ok, pushLabel_eq_ok, if_true, nil_append, forall₂_cons_left_iff]
    constructor
    · rintro ⟨t, ⟨_, ht, rfl⟩, hrest⟩
      have hne := (accepted_convertLabel hU ht.1 ht.2).ne_nil
      obtain ⟨ts, hts, rfl⟩ := (foldlM_pushLabel hne).1 hrest
      exact ⟨t :: ts, ⟨t, ts, ht, hts, rfl⟩, (Separated.intercalate_cons _ _).symm⟩
    · rintro ⟨_, ⟨t, ts, ht, hts, rfl⟩, rfl⟩
      have hne := (accepted_convertLabel hU ht.1 ht.2).ne_nil
      exact ⟨t, ⟨t, ht, rfl⟩,
        (foldlM_pushLabel hne).2 ⟨ts, hts, Separated.intercalate_cons _ _⟩⟩

theorem toAscii_eq_ok (hU : U.Lawful) :
    toAscii U name = .ok a ↔ (splitDot name).1 ≠ [] ∧
      ∃ ts, Forall₂ (Converts U) (labels name) ts ∧ (join ts).length ≤ 253 ∧
        a = join ts ++ (splitDot name).2 := by
  have hne : labels name ≠ [] := splitOnP_ne_nil _ _
  simp only [toAscii, bind_eq_ok, require_eq_ok, exists_const, Outcome.ok.injEq, not_lt, gt_iff_lt]
  refine and_congr_right fun _ => ?_
  constructor
  · rintro ⟨out, hloop, hlen, rfl⟩
    obtain ⟨ts, hts, rfl⟩ := (foldlM_pushLabel_nil hU hne).1 hloop
    exact ⟨ts, hts, hlen, rfl⟩
  · rintro ⟨ts, hts, hlen, rfl⟩
    exact ⟨_, (foldlM_pushLabel_nil hU hne).2 ⟨ts, hts, rfl⟩, hlen, rfl⟩

/-! ## Joined labels -/

def TrailingDot (d : Text) : Prop := d = [] ∨ d = ['.']

lemma trailingDot_splitDot (name : Text) : TrailingDot (splitDot name).2 := by
  rw [splitDot]
  split
  next c _ =>
    split
    · exact .inr rfl
    · exact .inl rfl
  · exact .inl rfl

structure Joinable (ls : List Text) : Prop where
  ne_nil : ls ≠ []
  nonempty : ∀ l ∈ ls, l ≠ []
  no_dot : ∀ l ∈ ls, ∀ c ∈ l, isDot c = false

lemma Joinable.splitDot_join (h : Joinable ls) (hd : TrailingDot d) :
    splitDot (join ls ++ d) = (join ls, d) := by
  obtain ⟨l, hl, c, hc, hlast⟩ := Separated.getLast?_intercalate '.' h.ne_nil h.nonempty
  rcases hd with rfl | rfl
  · have hc := h.no_dot l hl c hc
    rw [append_nil, splitDot]
    rw [show (join ls).getLast? = some c from hlast]
    simp [hc]
  · rw [splitDot, getLast?_concat]
    exact (if_pos rfl).trans (by rw [dropLast_concat])

lemma Joinable.labels_join (h : Joinable ls) (hd : TrailingDot d) : labels (join ls ++ d) = ls := by
  rw [labels, h.splitDot_join hd]
  exact Separated.splitOnP_intercalate rfl h.ne_nil h.no_dot

lemma Joinable.toAscii_join (hU : U.Lawful) (h : Joinable ls) (hd : TrailingDot d)
    (hts : Forall₂ (fun l t => convertLabel U l = .ok t) ls ts) (hlen : (join ts).length ≤ 253) :
    toAscii U (join ls ++ d) = .ok (join ts ++ d) := by
  rw [toAscii_eq_ok hU, h.labels_join hd, h.splitDot_join hd]
  refine ⟨?_, ts, ?_, hlen, rfl⟩
  · obtain ⟨_, _, _, _, hlast⟩ := Separated.getLast?_intercalate '.' h.ne_nil h.nonempty
    intro hnil
    rw [show ([('.' : Char)].intercalate ls) = [] from hnil] at hlast
    cases hlast
  · exact (forall₂_and_left ..).2 ⟨h.nonempty, hts⟩

lemma Joinable.toUnicode_join (h : Joinable ts) (hd : TrailingDot d)
    (hvs : Forall₂ (fun t v => showLabel U t = .ok v) ts vs) :
    toUnicode U (join ts ++ d) = .ok (join vs ++ d) := by
  have hsplit : (join ts).splitOn '.' = ts := by
    refine splitOn_intercalate _ (fun l hl hdot => ?_) h.ne_nil
    cases h.no_dot l hl _ hdot
  rw [toUnicode, bind_eq_ok]
  rcases hd with rfl | rfl
  · rw [append_nil, append_nil, hsplit]
    exact ⟨vs, mapM_eq_ok.2 hvs, rfl⟩
  · have hvsne : vs ≠ [] := by
      rintro rfl
      exact h.ne_nil (forall₂_nil_right_iff.1 hvs)
    rw [splitOn_append_cons_self, hsplit]
    refine ⟨vs ++ [[]], mapM_eq_ok.2 (rel_append hvs (.cons rfl .nil)), ?_⟩
    rw [Separated.intercalate_append_nil hvsne]
    rfl

/-! ## Stable names -/

/-- Hyphens where a label of `a` may have them. -/
def HyphensOf (a v : Text) : Prop := ¬ HyphenEnd v ∧ (Dashes v → v ∈ labels a ∧ IsALabel v)

structure Stable (U : Unicode) (a : Text) : Prop where
  ascii : ∀ c ∈ a, isAscii c = true
  label_lengths : ∀ t ∈ labels a, t ≠ [] ∧ t.length ≤ 63
  length : (splitDot a).1.length ≤ 253
  converted : toAscii U a = .ok a
  hyphens : ∀ t ∈ labels a, HyphensOf a t
  shown : ∃ u, toUnicode U a = .ok u ∧ toAscii U u = .ok a ∧ ∀ v ∈ labels u, HyphensOf a v

/-- No label stands for one that has `--` in its third and fourth places. -/
def NoDashes (U : Unicode) (name : Text) : Prop :=
  ∀ label ∈ labels name, ¬ Dashes (standsFor U label)

lemma toAscii_labels (hU : U.Lawful) (h : toAscii U name = .ok a) :
    ∃ ts d, a = join ts ++ d ∧ TrailingDot d ∧ ts ≠ [] ∧ (∀ t ∈ ts, Accepted U t) ∧
      (join ts).length ≤ 253 ∧
      Forall₂ (fun t v => showLabel U t = .ok v) ts ((labels name).map (standsFor U)) := by
  obtain ⟨-, ts, hts, hlen, rfl⟩ := (toAscii_eq_ok hU).1 h
  refine ⟨ts, _, rfl, trailingDot_splitDot name, ?_, fun t ht => ?_, hlen, ?_⟩
  · rintro rfl
    exact splitOnP_ne_nil _ _ (forall₂_nil_right_iff.1 hts)
  · obtain ⟨l, -, hl⟩ := forall₂_exists_of_mem_right hts ht
    exact accepted_convertLabel hU hl.1 hl.2
  · refine forall₂_map_right_iff.2 (hts.flip.imp fun t l hl => ?_)
    exact showLabel_convertLabel hU hl.1 hl.2

lemma joinable_of_accepted (hne : ts ≠ []) (h : ∀ t ∈ ts, Accepted U t) : Joinable ts :=
  ⟨hne, fun t ht => (h t ht).ne_nil, fun t ht _ hc => (h t ht).isDot hc⟩

lemma joinable_shown (hU : U.Lawful) (hne : ts ≠ []) (h : ∀ t ∈ ts, Accepted U t)
    (hvs : Forall₂ (fun t v => showLabel U t = .ok v) ts vs) :
    Joinable vs ∧ (∀ v ∈ vs, ¬ HyphenEnd v) ∧
      Forall₂ (fun v t => convertLabel U v = .ok t) vs ts := by
  have hback : Forall₂ (fun v t => v ≠ [] ∧ (∀ c ∈ v, isDot c = false) ∧ ¬ HyphenEnd v ∧
      convertLabel U v = .ok t) vs ts :=
    ((forall₂_and_left ..).2 ⟨h, hvs⟩).flip.imp fun v t hv => hv.1.show_convert hU hv.2
  have hall : ∀ v ∈ vs, v ≠ [] ∧ (∀ c ∈ v, isDot c = false) ∧ ¬ HyphenEnd v := by
    intro v hv
    obtain ⟨t, -, ht⟩ := forall₂_exists_of_mem hback hv
    exact ⟨ht.1, ht.2.1, ht.2.2.1⟩
  refine ⟨⟨?_, fun v hv => (hall v hv).1, fun v hv => (hall v hv).2.1⟩,
    fun v hv => (hall v hv).2.2, hback.imp fun _ _ hv => hv.2.2.2⟩
  rintro rfl
  exact hne (forall₂_nil_right_iff.1 hvs)

lemma toUnicode_toAscii (hU : U.Lawful) (h : toAscii U name = .ok a) :
    ∃ u, toUnicode U a = .ok u ∧ toAscii U u = .ok a ∧
      labels u = (labels name).map (standsFor U) ∧ ∀ v ∈ labels u, ¬ HyphenEnd v := by
  obtain ⟨ts, d, rfl, hd, hne, hacc, hlen, hvs⟩ := toAscii_labels hU h
  obtain ⟨hjoin, hends, hback⟩ := joinable_shown hU hne hacc hvs
  have hlabels := hjoin.labels_join hd
  refine ⟨_, (joinable_of_accepted hne hacc).toUnicode_join hd hvs,
    hjoin.toAscii_join hU hd hback hlen, hlabels, ?_⟩
  rw [hlabels]
  exact hends

theorem stable_of_noDashes (hU : U.Lawful) (h : toAscii U name = .ok a) (hno : NoDashes U name) :
    Stable U a := by
  obtain ⟨u, hshow, hback, hlabels, hends⟩ := toUnicode_toAscii hU h
  obtain ⟨ts, d, rfl, hd, hne, hacc, hlen, hvs⟩ := toAscii_labels hU h
  have hjoin := joinable_of_accepted hne hacc
  have hself : Forall₂ (fun t v => convertLabel U t = .ok v) ts ts :=
    forall₂_same.2 fun t ht => (hacc t ht).convertLabel
  refine ⟨?_, ?_, ?_, hjoin.toAscii_join hU hd hself hlen, ?_, u, hshow, hback, fun v hv => ?_⟩
  · intro c hc
    rcases mem_append.1 hc with hc | hc
    · rcases Separated.mem_intercalate hc with rfl | ⟨t, ht, hc⟩
      · decide
      · exact all_eq_true.1 (hacc t ht).all_isAscii c hc
    · rcases hd with rfl | rfl
      · cases hc
      · rw [mem_singleton.1 hc]
        decide
  · rw [hjoin.labels_join hd]
    exact fun t ht => ⟨(hacc t ht).ne_nil, (hacc t ht).length_le⟩
  · rw [hjoin.splitDot_join hd]
    exact hlen
  · intro t ht
    have hmem := ht
    rw [hjoin.labels_join hd] at hmem
    obtain ⟨hends, hdashes⟩ := (hacc t hmem).hyphens
    exact ⟨hends, fun hdash => ⟨ht, hdashes hdash⟩⟩
  · refine ⟨hends v hv, fun hdash => ?_⟩
    rw [hlabels] at hv
    obtain ⟨label, hlabel, rfl⟩ := mem_map.1 hv
    exact absurd hdash (hno label hlabel)

theorem noDashes_of_stable (hU : U.Lawful) (h : toAscii U name = .ok a) (hstable : Stable U a) :
    NoDashes U name := by
  intro label hlabel hdash
  obtain ⟨u, hshow, -, hlabels, -⟩ := toUnicode_toAscii hU h
  obtain ⟨u', hshow', -, hhyphens⟩ := hstable.shown
  rw [hshow] at hshow'
  obtain rfl := Outcome.ok.inj hshow'
  have hmem : standsFor U label ∈ labels u := by
    rw [hlabels]
    exact mem_map_of_mem hlabel
  obtain ⟨hin, hxn, -⟩ := (hhyphens _ hmem).2 hdash
  -- it is shown for a label of `a` that is ASCII itself, so it would have been decoded
  obtain ⟨ts, d, rfl, hd, hne, hacc, hlen, hvs⟩ := toAscii_labels hU h
  rw [(joinable_of_accepted hne hacc).labels_join hd] at hin
  obtain ⟨t, ht, hshow⟩ := forall₂_exists_of_mem_right hvs (mem_map_of_mem hlabel)
  by_cases htxn : XN <+: t
  · obtain ⟨cs, hdecode, hascii, -, -⟩ := (hacc t ht).decoded htxn
    obtain ⟨cs', hdecode', hshow'⟩ := (hacc t ht).showLabel.1 htxn
    rw [hdecode] at hdecode'
    obtain rfl := Outcome.ok.inj hdecode'
    obtain heq := Outcome.ok.inj (hshow.symm.trans hshow')
    rw [heq] at hin
    rw [(hacc cs hin).all_isAscii] at hascii
    cases hascii
  · have heq := Outcome.ok.inj (hshow.symm.trans ((hacc t ht).showLabel.2 htxn))
    exact htxn (heq ▸ hxn)

/-- A name that `to_ascii` returns is stable exactly if no label of the name that was converted
stands for one that has `--` in its third and fourth places. -/
theorem to_ascii_stable_iff (hU : U.Lawful) (h : toAscii U name = .ok a) :
    Stable U a ↔ NoDashes U name :=
  ⟨noDashes_of_stable hU h, stable_of_noDashes hU h⟩

/-! ## Two names -/

def oneLetter : Unicode where
  toLowercase c := if isAscii c then [c.toLower] else [c]
  isAlphanumeric c := c.isAlphanum || c = 'ü'

lemma oneLetter_lawful : oneLetter.Lawful where
  lower_idem c l h := by
    show (if isAscii l = true then [l.toLower] else [l]) = [l]
    change (if isAscii c = true then [c.toLower] else [c]) = [l] at h
    by_cases hc : isAscii c = true
    · rw [if_pos hc] at h
      obtain ⟨rfl, -⟩ := cons.inj h
      rw [if_pos (toLower_spec hc).1, (toLower_spec hc).2]
    · rw [if_neg hc] at h
      obtain ⟨rfl, -⟩ := cons.inj h
      exact if_neg hc
  lower_ascii _ h := if_pos h
  alphanumeric_ascii c h := by
    have hne : c ≠ 'ü' := by
      rintro rfl
      cases h
    show (c.isAlphanum || decide (c = 'ü')) = c.isAlphanum
    rw [decide_eq_false hne, Bool.or_false]
  alphanumeric_dot c h := by
    simp only [isDot, Bool.or_eq_true, decide_eq_true_eq] at h
    rcases h with ((rfl | rfl) | rfl) | rfl <;> decide

open Insertions in
lemma punycodeEncode_concat (ascii : Text) (hall : ∀ c ∈ ascii, isAscii c = true)
    (hlen : ascii.length < 100) :
    punycodeEncode (ascii ++ ['ü']) =
      some (front ascii ++ digits INITIAL_BIAS BASE (124 * (ascii.length + 1) + ascii.length)) := by
  have hu : 'ü'.toNat = 252 := rfl
  have hgap : gap (start ascii.length) ⟨'ü', ascii.length⟩ =
      124 * (ascii.length + 1) + ascii.length := by
    simp only [gap, number, start, INITIAL_N, hu]
    omega
  have hord : Ordered Char.toNat (start ascii.length) [⟨'ü', ascii.length⟩] := by
    simp [Ordered, start, INITIAL_N]
  obtain ⟨hfilter, hins⟩ := insertionsFrom_build hall hord (by simp [INITIAL_N])
  have hbuild : build [⟨'ü', ascii.length⟩] ascii = ascii ++ ['ü'] := by
    simp [build, insertIdx_length_self]
  rw [hbuild] at hfilter hins
  refine punycodeEncode_eq_some.2 ⟨?_, ?_, ?_⟩
  · rw [length_append, length_singleton]
    omega
  · rw [hfilter, hins]
    simp only [Gaps, hgap, and_true]
    omega
  · rw [hfilter, hins, spell, spell, append_nil, hgap]

lemma digits_sample : digits INITIAL_BIAS BASE 624 = ['3', 'r', 'a'] ∧
    digits INITIAL_BIAS BASE 249 = ['e', 'h', 'a'] := by
  have hthreshold : threshold 36 72 = 1 ∧ threshold 72 72 = 1 ∧ threshold 108 72 = 26 := by decide
  constructor <;> rw [INITIAL_BIAS, BASE, digits, digits, digits] <;>
    simp only [hthreshold, BASE] <;>
    decide

lemma punycodeEncode_sample : punycodeEncode "ab--ü".toList = some "ab---3ra".toList ∧
    punycodeEncode "bü".toList = some "b-eha".toList := by
  obtain ⟨hdashes, hletter⟩ := digits_sample
  constructor
  · have h := punycodeEncode_concat "ab--".toList (all_eq_true.1 rfl) (by decide)
    exact h.trans (congrArg (fun t => some (front "ab--".toList ++ t)) hdashes)
  · have h := punycodeEncode_concat "b".toList (all_eq_true.1 rfl) (by decide)
    exact h.trans (congrArg (fun t => some (front "b".toList ++ t)) hletter)

/-- A name of three labels, one of them with a letter that is not ASCII. -/
theorem to_ascii_stable_iff_three_labels :
    toAscii oneLetter "Ab.bü.c".toList = .ok "ab.xn--b-eha.c".toList ∧
      (Stable oneLetter "ab.xn--b-eha.c".toList ↔ NoDashes oneLetter "Ab.bü.c".toList) := by
  have hconvert : convertLabel oneLetter "bü".toList = .ok "xn--b-eha".toList := by
    have hlabel : uLabel oneLetter "bü".toList = .ok "bü".toList := by decide
    rw [convertLabel, if_neg (by decide), hlabel, ok_bind, if_neg (by decide),
      punycodeEncode_sample.2]
    decide
  have h : toAscii oneLetter "Ab.bü.c".toList = .ok "ab.xn--b-eha.c".toList :=
    (toAscii_eq_ok oneLetter_lawful).2 ⟨by decide, ["ab".toList, "xn--b-eha".toList, "c".toList],
      .cons ⟨by decide, by decide⟩
      (.cons ⟨by decide, hconvert⟩ (.cons ⟨by decide, by decide⟩ .nil)),
      by decide, by decide⟩
  exact ⟨h, to_ascii_stable_iff oneLetter_lawful h⟩

/-- A name that is converted and not stable: what is shown for it has `--` in its third and fourth
places. -/
theorem shown_with_dashes :
    oneLetter.Lawful ∧ toAscii oneLetter "ab--ü".toList = .ok "xn--ab---3ra".toList ∧
      ¬ Stable oneLetter "xn--ab---3ra".toList := by
  have hconvert : convertLabel oneLetter "ab--ü".toList = .ok "xn--ab---3ra".toList := by
    have hlabel : uLabel oneLetter "ab--ü".toList = .ok "ab--ü".toList := by decide
    rw [convertLabel, if_neg (by decide), hlabel, ok_bind, if_neg (by decide),
      punycodeEncode_sample.1]
    decide
  have h : toAscii oneLetter "ab--ü".toList = .ok "xn--ab---3ra".toList :=
    (toAscii_eq_ok oneLetter_lawful).2 ⟨by decide, ["xn--ab---3ra".toList],
      .cons ⟨by decide, hconvert⟩ .nil, by decide, by decide⟩
  refine ⟨oneLetter_lawful, h, fun hstable => ?_⟩
  have hno := noDashes_of_stable oneLetter_lawful h hstable "ab--ü".toList (by decide)
  exact hno (by decide)

end Lazaret.Idna
