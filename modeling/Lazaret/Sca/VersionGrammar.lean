import Lazaret.Lib.Separated
import Lazaret.Sca.Version
import Mathlib.Data.List.Find

/-!
# The grammars of versions

What PEP 440 and SemVer let a version be written as (`Spelling440`, `SpellingSemver`), its text, and
the version it stands for, none of which says how a text is read.  The patterns find in such a text
what was written in it (`pep440Match_text`, `semverMatch_text`).
-/

namespace Lazaret.Sca

open List Option

-- The characters of a text are looked at one by one, not all the characters there are.
local instance (priority := 2000) forallText (t : Text) (P : Char → Prop) [DecidablePred P] :
    Decidable (∀ c ∈ t, P c) := t.decidableBAll P

local instance (priority := 2000) forallHead (o : Option Char) (P : Char → Prop)
    [DecidablePred P] : Decidable (∀ c ∈ o, P c) := Option.decidableForallMem o

local instance (priority := 2000) existsHead (o : Option Char) (P : Char → Prop)
    [DecidablePred P] : Decidable (∃ c ∈ o, P c) := Option.decidableExistsMem o

/-! ## PEP 440 -/

/-- A word, with or without a separator before it, and a separator and a number after it. -/
structure Label where
  before : Option Char
  word : Text
  between : Option Char
  number : Text

def Label.text (l : Label) : Text := l.before.toList ++ (l.word ++ (l.between.toList ++ l.number))

def Label.value (l : Label) : ℕ := int l.number

/-- A label with one of some words, in letters of either case. -/
structure Label.Ok (words : List Text) (l : Label) : Prop where
  before : ∀ c ∈ l.before, isSeparator c
  word : l.word.map Char.toLower ∈ words
  between : ∀ c ∈ l.between, isSeparator c
  number : ∀ c ∈ l.number, isDigit c

/-- What comes after a label begins with no separator that could be the label's. -/
def Label.Takes (l : Label) (t : Text) : Prop :=
  l.between = none → l.number = [] → ∀ c ∈ t.head?, isSeparator c = false

def Digits (t : Text) : Prop := t ≠ [] ∧ ∀ c ∈ t, isDigit c

def Alnums (t : Text) : Prop := t ≠ [] ∧ ∀ c ∈ t, isAlnum c

def alphas : List Text := ["a".toList, "alpha".toList]

def betas : List Text := ["b".toList, "beta".toList]

def candidates : List Text := ["rc".toList, "c".toList, "pre".toList, "preview".toList]

def posts : List Text := ["post".toList, "rev".toList, "r".toList]

def devs : List Text := ["dev".toList]

/-- A post-release: a number alone after `-`, or a label. -/
inductive Post
  | dash (number : Text)
  | label (l : Label)

def Post.text : Post → Text
  | .dash number => '-' :: number
  | .label l => l.text

def Post.value : Post → ℕ
  | .dash number => int number
  | .label l => l.value

def Post.Ok (t : Text) : Post → Prop
  | .dash number => Digits number
  | .label l => l.Ok posts ∧ l.Takes t

/-- The rank of a pre-release: alpha, beta, and release candidate. -/
def rank (word : Text) : Fin 3 := if word ∈ alphas then 0 else if word ∈ betas then 1 else 2

structure Spelling440 where
  left : Text
  v : Option Char
  epoch : Option Text
  release : List Text
  pre : Option Label
  post : Option Post
  dev : Option Label
  loc : Option (Text × List (Char × Text))
  right : Text

namespace Spelling440

variable (s : Spelling440)

def fromLocal : Text :=
  s.loc.elim [] (fun l => '+' :: (l.1 ++ l.2.flatMap fun p => p.1 :: p.2)) ++ s.right

def fromDev : Text := s.dev.elim [] Label.text ++ s.fromLocal

def fromPost : Text := s.post.elim [] Post.text ++ s.fromDev

def fromPre : Text := s.pre.elim [] Label.text ++ s.fromPost

def text : Text :=
  s.left ++
    (s.v.toList ++ (s.epoch.elim [] (· ++ ['!']) ++ (['.'].intercalate s.release ++ s.fromPre)))

/-- What PEP 440 lets a version be: a separator after a word is the word's, and so is the number
then (`1.0a-1` is the first alpha). -/
structure Ok (U : Unicode) : Prop where
  left : ∀ c ∈ s.left, U.isSpace c
  v : ∀ c ∈ s.v, c.toLower = 'v'
  epoch : ∀ t ∈ s.epoch, Digits t
  release : s.release ≠ []
  numbers : ∀ t ∈ s.release, Digits t
  pre : ∀ l ∈ s.pre, l.Ok (alphas ++ betas ++ candidates) ∧ l.Takes s.fromPost
  post : ∀ p ∈ s.post, p.Ok s.fromDev
  dev : ∀ l ∈ s.dev, l.Ok devs
  loc : ∀ l ∈ s.loc, Alnums l.1 ∧ ∀ p ∈ l.2, isSeparator p.1 ∧ Alnums p.2
  right : ∀ c ∈ s.right, U.isSpace c

end Spelling440

/-- A version of PEP 440: a pre-release is its rank and its number. -/
structure Version440 where
  epoch : ℕ
  release : List ℕ
  pre : Option (Fin 3 × ℕ)
  post : Option ℕ
  dev : Option ℕ
  loc : Option (List Part)

/-- The version that is written: a number left out is zero. -/
def Spelling440.version (s : Spelling440) : Version440 where
  epoch := s.epoch.elim 0 int
  release := s.release.map int
  pre := s.pre.map fun l => (rank (l.word.map Char.toLower), l.value)
  post := s.post.map Post.value
  dev := s.dev.map Label.value
  loc := s.loc.map fun l => (l.1 :: l.2.map Prod.snd).map (part (map Char.toLower))

/-! ## SemVer -/

/-- A version of SemVer, as it is written: SemVer has three numbers, and neither a `v` nor a
space. -/
structure SpellingSemver where
  left : Text
  v : Option Char
  release : List Text
  pre : Option (List Text)
  build : Option (List Text)
  right : Text

namespace SpellingSemver

variable (s : SpellingSemver)

def fromBuild : Text := s.build.elim [] (fun ids => '+' :: ['.'].intercalate ids) ++ s.right

def fromPre : Text := s.pre.elim [] (fun ids => '-' :: ['.'].intercalate ids) ++ s.fromBuild

def text : Text := s.left ++ (s.v.toList ++ (['.'].intercalate s.release ++ s.fromPre))

/-- Identifiers: letters, digits and hyphens of ASCII, at least one in each. -/
def Identifiers (ids : List Text) : Prop := ids ≠ [] ∧ ∀ t ∈ ids, t ≠ [] ∧ ∀ c ∈ t, isIdent c

structure Ok (U : Unicode) : Prop where
  left : ∀ c ∈ s.left, U.isSpace c
  v : ∀ c ∈ s.v, c = 'v' ∨ c = '='
  release : s.release ≠ []
  numbers : ∀ t ∈ s.release, Digits t
  pre : ∀ ids ∈ s.pre, Identifiers ids
  build : ∀ ids ∈ s.build, Identifiers ids
  right : ∀ c ∈ s.right, U.isSpace c

end SpellingSemver

/-- A version of SemVer, without its build metadata. -/
structure VersionSemver where
  release : List ℕ
  pre : Option (List Part)

def SpellingSemver.version (s : SpellingSemver) : VersionSemver where
  release := s.release.map int
  pre := s.pre.map fun ids => ids.map (part id)

/-! ## Characters -/

/-- What Python's tables say: a space is no visible character of ASCII, nor is taken for one, and
the lower case of ASCII is ASCII's. -/
structure Unicode.Lawful (U : Unicode) : Prop where
  isSpace : ∀ c, U.isSpace c → ¬ ('!' ≤ caseless c ∧ caseless c ≤ '~')
  lower : ∀ s : Text, (∀ c ∈ s, c.toNat < 128) → U.lower s = s.map Char.toLower

variable {U : Unicode} {c : Char} {t u w : Text}

lemma forall_of_ascii {P : Char → Prop} (h : ∀ n < 128, P (Char.ofNat n))
    (hc : c.toNat < 128) : P c := by
  simpa using h c.toNat hc

lemma toNat_lt_of_isAlnum (h : isAlnum c) : c.toNat < 128 := by
  have hle : ∀ d : Char, c ≤ d → d.toNat < 128 → c.toNat < 128 := fun d hd hlt =>
    lt_of_le_of_lt (Char.le_def.1 hd) hlt
  simp only [isAlnum, isDigit, decide_eq_true_eq] at h
  rcases h with h | h | h
  · exact hle _ h.2 (by decide)
  · exact hle _ h.2 (by decide)
  · exact hle _ h.2 (by decide)

lemma isLocal_of_isAlnum (h : isAlnum c) : isLocal c = true ∧ isSeparator c = false :=
  forall_of_ascii (P := fun c => isAlnum c → isLocal c = true ∧ isSeparator c = false) (by decide)
    (toNat_lt_of_isAlnum h) h

lemma toNat_lt_of_isDigit (h : isDigit c) : c.toNat < 128 :=
  toNat_lt_of_isAlnum (by simp [isAlnum, h])

lemma isDigit_spec (hU : U.Lawful) (h : isDigit c) : isSeparator c = false ∧ caseless c ≠ 'v' ∧
    c ≠ 'v' ∧ c ≠ '=' ∧ caseless c ∉ "celv".toList ∧ U.isSpace c = false := by
  have hall : ('!' ≤ caseless c ∧ caseless c ≤ '~') ∧ isSeparator c = false ∧ caseless c ≠ 'v' ∧
      c ≠ 'v' ∧ c ≠ '=' ∧ caseless c ∉ "celv".toList :=
    forall_of_ascii (P := fun c => isDigit c → ('!' ≤ caseless c ∧ caseless c ≤ '~') ∧
      isSeparator c = false ∧ caseless c ≠ 'v' ∧ c ≠ 'v' ∧ c ≠ '=' ∧ caseless c ∉ "celv".toList)
      (by decide) (toNat_lt_of_isDigit h) h
  exact ⟨hall.2.1, hall.2.2.1, hall.2.2.2.1, hall.2.2.2.2.1, hall.2.2.2.2.2,
    Bool.eq_false_iff.2 fun hs => hU.isSpace c hs hall.1⟩

lemma letter_spec (h : 'a' ≤ c.toLower ∧ c.toLower ≤ 'z') : caseless c = c.toLower ∧
    isDigit c = false ∧ isSeparator c = false ∧ c ≠ '!' ∧ c ≠ '-' ∧ c.toNat < 128 := by
  have hlt : c.toNat < 128 := by
    by_contra hge
    have hsame : c.toLower = c := by
      unfold Char.toLower
      rw [dif_neg]
      intro hup
      have := UInt32.le_iff_toNat_le.1 hup.2
      exact hge (lt_of_le_of_lt this (by decide))
    rw [hsame] at h
    exact hge (lt_of_le_of_lt (Char.le_def.1 h.2) (by decide))
  exact forall_of_ascii (P := fun c => 'a' ≤ c.toLower ∧ c.toLower ≤ 'z' → caseless c = c.toLower ∧
    isDigit c = false ∧ isSeparator c = false ∧ c ≠ '!' ∧ c ≠ '-' ∧ c.toNat < 128)
    (by decide) hlt h

/-- What may come after a word or a number: no more of it. -/
def Apart (t : Text) : Prop :=
  ∀ c ∈ t.head?, isDigit c = false ∧ c ≠ '!' ∧ caseless c ∉ "celv".toList

lemma space_spec (hU : U.Lawful) (h : U.isSpace c) : isLocal c = false ∧ isSeparator c = false ∧
    isIdent c = false ∧ c ≠ '+' ∧ c ≠ '!' ∧ isDigit c = false ∧
    ¬ ('a' ≤ caseless c ∧ caseless c ≤ 'z') := by
  have hno := hU.isSpace c h
  have hletter : ¬ ('a' ≤ caseless c ∧ caseless c ≤ 'z') := fun hin =>
    hno ⟨Char.le_trans (show '!' ≤ 'a' by decide) hin.1, Char.le_trans hin.2 (by decide)⟩
  have hof : ∀ d : Char, '!' ≤ caseless d ∧ caseless d ≤ '~' → c ≠ d := by
    rintro d hd rfl
    exact hno hd
  have hdigit : isDigit c = false := Bool.eq_false_iff.2 fun hd =>
    absurd h (by rw [(isDigit_spec hU hd).2.2.2.2.2]; decide)
  have halnum : isAlnum c = false := Bool.eq_false_iff.2 fun ha => by
    have hl := (isLocal_of_isAlnum ha).1
    simp only [isLocal, hdigit, Bool.false_eq_true, false_or, decide_eq_true_eq] at hl
    exact hletter hl
  have hdash := hof '-' (by decide)
  refine ⟨?_, ?_, ?_, hof '+' (by decide), hof '!' (by decide), hdigit, hletter⟩
  · simp [isLocal, hdigit, hletter]
  · simp [isSeparator, hdash, hof '_' (by decide), hof '.' (by decide)]
  · simp [isIdent, halnum, hdash]

/-! ## Labels -/

def labels : List Text := alphas ++ betas ++ candidates ++ posts ++ devs

/-- The words that are looked for, and those that may be there. -/
def sought : List (List Text × List Text) :=
  [(preWords, labels), (postWords, posts ++ devs), (devWords, posts ++ devs)]

variable {words looked there : List Text} {l : Label}

/-- Of the words that are looked for a pattern finds the one that is there, if what follows does not
go on with it to another. -/
lemma find_append (hl : (looked, there) ∈ sought) (hw : w ∈ there)
    (hu : ∀ c ∈ u.head?, c ∉ "celv".toList) :
    (looked.find? fun x => (w ++ u).take x.length = x) = if w ∈ looked then some w else none := by
  have hgoes : ∀ p ∈ sought, ∀ w ∈ p.2,
      (p.1.find? fun x => w.take x.length = x) = (if w ∈ p.1 then some w else none) ∧
      ∀ x ∈ p.1, w <+: x → x = w ∨ ∃ c ∈ (x.drop w.length).head?, c ∈ "celv".toList := by decide
  rw [← (hgoes _ hl w hw).1]
  refine find?_congr fun x hx => decide_eq_decide.2 ?_
  rw [eq_comm, ← prefix_iff_eq_take, eq_comm, ← prefix_iff_eq_take]
  refine ⟨fun hpre => ?_, fun hpre => hpre.trans (prefix_append _ _)⟩
  rcases le_total x.length w.length with hle | hle
  · exact prefix_of_prefix_length_le hpre (prefix_append _ _) hle
  · obtain ⟨y, rfl⟩ := prefix_of_prefix_length_le (prefix_append _ _) hpre hle
    rcases (hgoes _ hl w hw).2 _ hx (prefix_append _ _) with heq | ⟨c, hc, hmem⟩
    · exact heq.symm ▸ prefix_rfl
    · rw [drop_left] at hc
      obtain ⟨u, rfl⟩ := (prefix_append_right_inj _).1 hpre
      refine absurd hmem (hu c ?_)
      rw [head?_append, mem_def.1 hc]
      rfl

lemma letters_of_sought : ∀ p ∈ sought, ∀ x ∈ p.2, x ∈ labels ∧ x ≠ [] ∧
    ∀ c ∈ x, 'a' ≤ c ∧ c ≤ 'z' := by decide

lemma word_append (hl : (looked, there) ∈ sought) (hw : w.map Char.toLower ∈ there)
    (ht : ∀ c ∈ t.head?, caseless c ∉ "celv".toList) :
    word looked (w ++ t) = if w.map Char.toLower ∈ looked then some (w, t) else none := by
  have hcase : w.map caseless = w.map Char.toLower := map_congr_left fun c hc =>
    (letter_spec ((letters_of_sought _ hl _ hw).2.2 _ (mem_map_of_mem hc))).1
  have hu : ∀ c ∈ (t.map caseless).head?, c ∉ "celv".toList := by
    intro c hc
    rw [head?_map] at hc
    obtain ⟨d, hd, rfl⟩ := map_eq_some_iff.1 hc
    exact ht d hd
  rw [word]
  simp only [map_take, map_append, hcase, find_append hl hw hu]
  split_ifs
  · rw [Option.map_some, length_map, take_left, drop_left]
  · rfl

lemma digits_append (ht : ∀ c ∈ t, isDigit c) (hu : ∀ c ∈ u.head?, isDigit c = false) :
    digits (t ++ u) = (t, u) := by
  rw [digits, takeWhile_append_of_pos ht, dropWhile_append_of_pos ht]
  cases u with
  | nil => rw [takeWhile_nil, dropWhile_nil, append_nil]
  | cons c u =>
    have hc := hu c rfl
    rw [takeWhile_cons_of_neg (by simp [hc]), dropWhile_cons_of_neg (by simp [hc]), append_nil]

lemma skipSeparator_of_head (h : ∀ c ∈ t.head?, isSeparator c = false) : skipSeparator t = t := by
  cases t with
  | nil => rfl
  | cons c t => rw [skipSeparator, h c rfl]; rfl

lemma skipSeparator_cons (h : isSeparator c) : skipSeparator (c :: t) = t := by
  rw [skipSeparator, if_pos h]

lemma Label.Ok.head (h : l.Ok words) (hk : ∀ x ∈ words, x ∈ labels) :
    ∃ c t, l.word = c :: t ∧ ('a' ≤ c.toLower ∧ c.toLower ≤ 'z') ∧
      ∃ x ∈ words, x.head? = some c.toLower := by
  obtain ⟨-, hne, hchars⟩ := letters_of_sought (preWords, labels) (by decide) _ (hk _ h.word)
  obtain ⟨c, t, hw⟩ := exists_cons_of_ne_nil (mt (congrArg (map Char.toLower)) hne)
  have hword := h.word
  rw [hw] at hchars hword
  exact ⟨c, t, hw, hchars _ mem_cons_self, _, hword, rfl⟩

lemma Label.Ok.skipSeparator_text (h : l.Ok words) (hk : ∀ x ∈ words, x ∈ labels) (t : Text) :
    skipSeparator (l.text ++ t) = l.word ++ (l.between.toList ++ (l.number ++ t)) := by
  obtain ⟨c, w, hw, hletter, -⟩ := h.head hk
  rw [Label.text, append_assoc, append_assoc, append_assoc]
  cases hb : l.before with
  | none =>
    refine skipSeparator_of_head ?_
    rw [hw]
    rintro _ ⟨⟩
    exact (letter_spec hletter).2.2.1
  | some d => exact skipSeparator_cons (h.before d hb)

lemma labelled_text (hU : U.Lawful) (hl : (looked, there) ∈ sought) (h : l.Ok words)
    (hk : ∀ x ∈ words, x ∈ there) (ht : Apart t) (htakes : l.Takes t) :
    labelled looked (l.text ++ t) =
      if l.word.map Char.toLower ∈ looked then some ((l.word, l.value), t) else none := by
  have hnumber := h.number
  have hdigits : digits (skipSeparator (l.between.toList ++ (l.number ++ t))) = (l.number, t) := by
    have hread := digits_append hnumber fun c hc => (ht c hc).1
    cases hb : l.between with
    | some c => rw [toList_some, singleton_append, skipSeparator_cons (h.between c hb), hread]
    | none =>
      rw [toList_none, nil_append, skipSeparator_of_head, hread]
      cases hn : l.number with
      | nil => exact htakes hb hn
      | cons d ds =>
        rw [hn] at hnumber
        rintro _ ⟨⟩
        exact (isDigit_spec hU (hnumber d mem_cons_self)).1
  have hmore : ∀ c ∈ (l.between.toList ++ (l.number ++ t)).head?, caseless c ∉ "celv".toList := by
    cases hb : l.between with
    | some c =>
      rintro _ ⟨⟩
      have hc := h.between c hb
      simp only [isSeparator, decide_eq_true_eq] at hc
      rcases hc with rfl | rfl | rfl <;> decide
    | none =>
      cases hn : l.number with
      | nil => exact fun c hc => (ht c hc).2.2
      | cons d ds =>
        rw [hn] at hnumber
        rintro _ ⟨⟩
        exact (isDigit_spec hU (hnumber d mem_cons_self)).2.2.2.2.1
  rw [labelled, h.skipSeparator_text fun x hx => (letters_of_sought _ hl x (hk x hx)).1,
    word_append hl (hk _ h.word) hmore]
  split_ifs
  · simp only [Option.map_some, hdigits, Label.value]
  · rfl

lemma labelled_eq_none (hl : looked ∈ [preWords, postWords, devWords])
    (h : ∀ c ∈ (skipSeparator t).head?, ¬ ('a' ≤ caseless c ∧ caseless c ≤ 'z')) :
    labelled looked t = none := by
  have hletters : ∀ looked ∈ [preWords, postWords, devWords], ∀ x ∈ looked,
      ∃ c ∈ x.head?, 'a' ≤ c ∧ c ≤ 'z' := by decide
  rw [labelled, word, find?_eq_none.2, map_none, map_none]
  intro x hx
  rw [decide_eq_true_eq]
  intro heq
  obtain ⟨c, hc, hletter⟩ := hletters _ hl x hx
  rw [← heq, map_take, head?_take, head?_map] at hc
  split_ifs at hc with hx
  · cases hc
  · obtain ⟨d, hd, rfl⟩ := map_eq_some_iff.1 hc
    exact h d hd hletter

lemma Label.Ok.begins (h : l.Ok words) (hk : ∀ x ∈ words, x ∈ labels) (t : Text) :
    (∀ c ∈ (l.text ++ t).head?, isDigit c = false ∧ c ≠ '!' ∧
      ((∀ x ∈ words, ∀ d ∈ x.head?, d ∉ "celv".toList) → caseless c ∉ "celv".toList)) ∧
    ∀ c u, isSeparator c → l.text ++ t = c :: u → ∀ d ∈ u.head?, isDigit d = false := by
  obtain ⟨c, w, hw, hletter, x, hx, hhead⟩ := h.head hk
  obtain ⟨hcaseless, hdigit, -, hbang, -⟩ := letter_spec hletter
  constructor
  · cases hb : l.before with
    | none =>
      rw [Label.text, hb, toList_none, nil_append, append_assoc, hw]
      rintro _ ⟨⟩
      exact ⟨hdigit, hbang, fun hno => hcaseless ▸ hno x hx _ hhead⟩
    | some d =>
      have hd := h.before d hb
      rw [Label.text, hb]
      rintro _ ⟨⟩
      simp only [isSeparator, decide_eq_true_eq] at hd
      rcases hd with rfl | rfl | rfl <;> exact ⟨by decide, by decide, fun _ => by decide⟩
  · intro e u he heq
    have hskip := h.skipSeparator_text hk t
    rw [heq, skipSeparator_cons he, hw] at hskip
    rw [hskip]
    rintro _ ⟨⟩
    exact hdigit

lemma postRelease_eq (h : ∀ u, t = '-' :: u → ∀ d ∈ u.head?, isDigit d = false) :
    postRelease t = (labelled postWords t).map fun r => (r.1.2, r.2) := by
  unfold postRelease
  split
  · rw [if_neg (by rw [h _ rfl _ rfl]; decide)]
  · rfl

/-! ## Numbers and parts -/

lemma length_intercalate {ts : List Text} :
    (['.'].intercalate ts).length = ts.flatten.length + (ts.length - 1) := by
  cases ts with
  | nil => rfl
  | cons x xs =>
    have hflat : (xs.flatMap ('.' :: ·)).length = xs.flatten.length + xs.length := by
      induction xs with
      | nil => rfl
      | cons y ys ih =>
        rw [flatMap_cons, length_append, ih, flatten_cons, length_append, length_cons, length_cons]
        omega
    rw [Separated.intercalate_cons, length_append, hflat, flatten_cons, length_append, length_cons]
    omega

lemma dotted_append {ts : List Text} (hne : ts ≠ []) (hd : ∀ t ∈ ts, Digits t)
    (ht : ∀ c ∈ t.head?, isDigit c = false)
    (ht' : ∀ u, t = '.' :: u → ∀ c ∈ u.head?, isDigit c = false) :
    dotted (['.'].intercalate ts ++ t) = some (ts, t) := by
  have hdot : isDigit '.' = false := by decide
  have hin : ∀ c ∈ ['.'].intercalate ts, decide (isDigit c ∨ c = '.') = true := by
    intro c hc
    rcases Separated.mem_intercalate hc with rfl | ⟨x, hx, hc⟩
    · simp
    · simp [(hd x hx).2 c hc]
  have hsplit : (['.'].intercalate ts).splitOnP (fun c => c = '.') = ts := by
    refine Separated.splitOnP_intercalate (by simp) hne fun x hx c hc => ?_
    have hdigit := (hd x hx).2 c hc
    rw [decide_eq_false_iff_not]
    rintro rfl
    exact absurd hdigit (by decide)
  have hpos : ∀ x ∈ ts, decide (x ≠ []) = true := fun x hx => decide_eq_true (hd x hx).1
  have hrun : ((['.'].intercalate ts ++ t.takeWhile fun c => isDigit c ∨ c = '.').splitOnP
      (fun c => c = '.')).takeWhile (fun p => p ≠ []) = ts := by
    cases t with
    | nil =>
      rw [takeWhile_nil, append_nil, hsplit]
      exact takeWhile_eq_self_iff.2 hpos
    | cons c u =>
      by_cases hc : c = '.'
      · subst hc
        have hu := ht' u rfl
        rw [takeWhile_cons_of_pos (by simp), splitOnP_append_cons _ _ (by simp), hsplit,
          takeWhile_append_of_pos hpos]
        have hhead : ∃ ps, (u.takeWhile fun c => isDigit c ∨ c = '.').splitOnP (fun c => c = '.') =
            [] :: ps := by
          cases u with
          | nil => exact ⟨[], rfl⟩
          | cons d u =>
            have hd := hu d rfl
            by_cases hdot : d = '.'
            · subst hdot
              rw [takeWhile_cons_of_pos (by simp)]
              exact ⟨_, splitOnP_append_cons [] _ (by simp)⟩
            · rw [takeWhile_cons_of_neg (by simp [hd, hdot])]
              exact ⟨[], rfl⟩
        obtain ⟨ps, hps⟩ := hhead
        rw [hps, takeWhile_cons_of_neg (by simp), append_nil]
      · rw [takeWhile_cons_of_neg (by simp [ht c rfl, hc]), append_nil, hsplit]
        exact takeWhile_eq_self_iff.2 hpos
  rw [dotted, takeWhile_append_of_pos hin, hrun, if_neg hne, ← length_intercalate, drop_left]

lemma parts_append {ok sep : Char → Bool} {ps : List Text} (h : ∀ c ∈ t, ok c ∨ sep c)
    (hps : t.splitOnP sep = ps) (hne : ∀ p ∈ ps, p ≠ []) (hu : ∀ c ∈ u.head?, ¬ (ok c ∨ sep c)) :
    parts ok sep (t ++ u) = some (ps, u) := by
  have hall : ∀ c ∈ t, decide (ok c ∨ sep c) = true := fun c hc => decide_eq_true (h c hc)
  rw [parts, takeWhile_append_of_pos hall, dropWhile_append_of_pos hall]
  cases u with
  | nil =>
    rw [takeWhile_nil, dropWhile_nil, append_nil, hps, if_neg fun hmem => hne _ hmem rfl]
  | cons c u =>
    have hc := hu c rfl
    rw [takeWhile_cons_of_neg (by simpa using hc), dropWhile_cons_of_neg (by simpa using hc),
      append_nil, hps, if_neg fun hmem => hne _ hmem rfl]

lemma splitOnP_parts {x : Text} (hx : Alnums x) {ps : List (Char × Text)}
    (hps : ∀ p ∈ ps, isSeparator p.1 ∧ Alnums p.2) :
    (x ++ ps.flatMap fun p => p.1 :: p.2).splitOnP isSeparator = x :: ps.map Prod.snd := by
  have hno : ∀ x : Text, Alnums x → ∀ c ∈ x, isSeparator c = false := fun x hx c hc =>
    (isLocal_of_isAlnum (hx.2 c hc)).2
  induction ps generalizing x with
  | nil =>
    rw [flatMap_nil, append_nil]
    exact splitOnP_eq_singleton (hno x hx)
  | cons p ps ih =>
    obtain ⟨hsep, hp⟩ := hps p mem_cons_self
    rw [flatMap_cons, cons_append, splitOnP_append_cons_of_forall_mem (hno x hx) p.1 hsep,
      ih hp fun q hq => hps q (mem_cons_of_mem _ hq)]
    rfl

/-! ## What the pattern of PEP 440 finds -/

namespace Spelling440

variable {s : Spelling440} (hU : U.Lawful) (h : s.Ok U)

include hU h

lemma Ok.fromLocal_head (hc : c ∈ s.fromLocal.head?) : isSeparator c = false ∧ isDigit c = false ∧
    c ≠ '!' ∧ ¬ ('a' ≤ caseless c ∧ caseless c ≤ 'z') := by
  rw [fromLocal] at hc
  cases hloc : s.loc with
  | none =>
    rw [hloc] at hc
    obtain ⟨-, hsep, -, -, hbang, hdigit, hletter⟩ := space_spec hU (h.right c (mem_of_head? hc))
    exact ⟨hsep, hdigit, hbang, hletter⟩
  | some l =>
    rw [hloc] at hc
    cases hc
    decide

lemma Ok.fromLocal_apart : Apart s.fromLocal := by
  intro c hc
  obtain ⟨-, hdigit, hbang, hletter⟩ := h.fromLocal_head hU hc
  have hall : ∀ d ∈ "celv".toList, 'a' ≤ d ∧ d ≤ 'z' := by decide
  exact ⟨hdigit, hbang, fun hmem => hletter (hall _ hmem)⟩

lemma Ok.fromLocal_label (hl : looked ∈ [preWords, postWords, devWords]) :
    labelled looked s.fromLocal = none := by
  refine labelled_eq_none hl fun c hc => ?_
  rw [skipSeparator_of_head fun c hc => (h.fromLocal_head hU hc).1] at hc
  exact (h.fromLocal_head hU hc).2.2.2

lemma Ok.fromDev_head : Apart s.fromDev ∧
    ∀ c u, isSeparator c → s.fromDev = c :: u → ∀ d ∈ u.head?, isDigit d = false := by
  rw [fromDev]
  cases hdev : s.dev with
  | none =>
    rw [elim_none, nil_append]
    refine ⟨h.fromLocal_apart hU, fun c u hc hcons => ?_⟩
    have hsep := (h.fromLocal_head hU (c := c) (by rw [hcons]; rfl)).1
    rw [hsep] at hc
    cases hc
  | some l =>
    obtain ⟨hhead, hnext⟩ := (h.dev l hdev).begins (by decide) s.fromLocal
    exact ⟨fun c hc => ⟨(hhead c hc).1, (hhead c hc).2.1, (hhead c hc).2.2 (by decide)⟩, hnext⟩

lemma Ok.dev_labelled (hl : looked ∈ [preWords, postWords, devWords]) : labelled looked s.fromDev =
    if devs = looked then s.dev.map fun l => ((l.word, l.value), s.fromLocal) else none := by
  have hdevs : ∀ looked ∈ [preWords, postWords, devWords], ∃ p ∈ sought, p.1 = looked ∧
      ∀ x ∈ devs, x ∈ p.2 ∧ (x ∈ looked ↔ devs = looked) := by decide
  obtain ⟨⟨_, there⟩, hp, rfl, hin⟩ := hdevs looked hl
  rw [fromDev]
  cases hdev : s.dev with
  | none => rw [elim_none, nil_append, h.fromLocal_label hU hl, Option.map_none, ite_self]
  | some l =>
    have hl := h.dev l hdev
    rw [elim_some, labelled_text hU hp hl (fun x hx => (hin x hx).1) (h.fromLocal_apart hU)
      fun _ _ c hc => (h.fromLocal_head hU hc).1]
    exact if_congr (hin _ hl.word).2 rfl rfl

lemma Ok.read_dev :
    optional (labelled devWords) s.fromDev =
      (s.dev.map fun l => (l.word, l.value), s.fromLocal) := by
  rw [optional, h.dev_labelled hU (by simp), if_pos (by decide)]
  cases hdev : s.dev with
  | none => rw [fromDev, hdev]; rfl
  | some l => rfl

lemma Ok.post_labelled (hl : looked ∈ [preWords, postWords]) : labelled looked s.fromPost =
    if posts = looked then s.post.elim none fun
      | .dash _ => none
      | .label l => some ((l.word, l.value), s.fromDev)
    else none := by
  have hposts : ∀ looked ∈ [preWords, postWords], ∃ p ∈ sought, p.1 = looked ∧
      ∀ x ∈ posts, x ∈ p.2 ∧ (x ∈ looked ↔ posts = looked) := by decide
  have hall : ∀ looked ∈ [preWords, postWords], looked ∈ [preWords, postWords, devWords] ∧
    devs ≠ looked := by decide
  obtain ⟨⟨_, there⟩, hp, rfl, hin⟩ := hposts looked hl
  rw [fromPost]
  cases hpost : s.post with
  | none =>
    rw [elim_none, nil_append, h.dev_labelled hU (hall _ hl).1, if_neg (hall _ hl).2, elim_none,
      ite_self]
  | some p =>
    have hok := h.post p hpost
    cases p with
    | dash number =>
      rw [elim_some, elim_some, ite_self, Post.text, cons_append]
      refine labelled_eq_none (hall _ hl).1 fun c hc => ?_
      rw [skipSeparator_cons (by decide)] at hc
      obtain ⟨d, ds, rfl⟩ := exists_cons_of_ne_nil hok.1
      cases hc
      have hc := hok.2 c mem_cons_self
      exact forall_of_ascii (P := fun c => isDigit c → ¬ ('a' ≤ caseless c ∧ caseless c ≤ 'z'))
        (by decide) (toNat_lt_of_isDigit hc) hc
    | label l =>
      rw [elim_some, Post.text, labelled_text hU hp hok.1 (fun x hx => (hin x hx).1)
        (h.fromDev_head hU).1 hok.2]
      exact if_congr (hin _ hok.1.word).2 rfl rfl

lemma Ok.read_post : optional postRelease s.fromPost = (s.post.map Post.value, s.fromDev) := by
  obtain ⟨hapart, hnext⟩ := h.fromDev_head hU
  have hlabel := h.post_labelled hU (by simp : postWords ∈ [preWords, postWords])
  rw [if_pos (by decide)] at hlabel
  rw [optional]
  cases hpost : s.post with
  | none =>
    rw [postRelease_eq, hlabel, hpost, fromPost, hpost]
    · rfl
    · rw [fromPost, hpost]
      exact fun u => hnext '-' u (by decide)
  | some p =>
    have hok := h.post p hpost
    cases p with
    | dash number =>
      obtain ⟨d, ds, rfl⟩ := exists_cons_of_ne_nil hok.1
      rw [fromPost, hpost, elim_some, Post.text, cons_append, cons_append, postRelease,
        if_pos (hok.2 d mem_cons_self), ← cons_append,
        digits_append hok.2 fun c hc => (hapart c hc).1]
      rfl
    | label l =>
      rw [postRelease_eq, hlabel, hpost]
      · rfl
      · rw [fromPost, hpost]
        exact fun u hu => (hok.1.begins (by decide) s.fromDev).2 '-' u (by decide) hu

lemma Ok.fromPost_apart : Apart s.fromPost := by
  rw [fromPost]
  cases hpost : s.post with
  | none => exact (h.fromDev_head hU).1
  | some p =>
    have hok := h.post p hpost
    cases p with
    | dash number =>
      rintro _ ⟨⟩
      decide
    | label l =>
      obtain ⟨hhead, -⟩ := hok.1.begins (by decide) s.fromDev
      exact fun c hc => ⟨(hhead c hc).1, (hhead c hc).2.1, (hhead c hc).2.2 (by decide)⟩

lemma Ok.read_pre :
    optional (labelled preWords) s.fromPre =
      (s.pre.map fun l => (l.word, l.value), s.fromPost) := by
  rw [optional, fromPre]
  cases hpre : s.pre with
  | none =>
    rw [elim_none, nil_append, h.post_labelled hU (by simp), if_neg (by decide)]
    rfl
  | some l =>
    obtain ⟨hl, htakes⟩ := h.pre l hpre
    have hin : ∀ x ∈ alphas ++ betas ++ candidates, x ∈ labels ∧ x ∈ preWords := by decide
    rw [elim_some, labelled_text hU (by decide : (preWords, labels) ∈ sought) hl
      (fun x hx => (hin x hx).1) (h.fromPost_apart hU) htakes, if_pos (hin _ hl.word).2]
    rfl

lemma Ok.read_local : optional localLabel s.fromLocal =
    (s.loc.map fun l => l.1 :: l.2.map Prod.snd, s.right) := by
  have hright : ∀ c ∈ s.right.head?, isLocal c = false ∧ isSeparator c = false ∧ c ≠ '+' :=
    fun c hc => by
      obtain ⟨hlocal, hsep, -, hplus, -⟩ := space_spec hU (h.right c (mem_of_head? hc))
      exact ⟨hlocal, hsep, hplus⟩
  rw [optional, fromLocal]
  cases hloc : s.loc with
  | none =>
    have hnone : localLabel s.right = none := by
      cases hr : s.right with
      | nil => rfl
      | cons c t =>
        rw [hr] at hright
        have hc := (hright c rfl).2.2
        unfold localLabel
        split
        · rename_i heq
          cases heq
          exact absurd rfl hc
        · rfl
    rw [elim_none, nil_append, hnone]
    rfl
  | some l =>
    obtain ⟨hfirst, hrest⟩ := h.loc l hloc
    have hchars : ∀ c ∈ l.1 ++ l.2.flatMap (fun p => p.1 :: p.2), isLocal c ∨ isSeparator c := by
      intro c hc
      rcases mem_append.1 hc with hc | hc
      · exact .inl (isLocal_of_isAlnum (hfirst.2 c hc)).1
      · obtain ⟨p, hp, hc⟩ := mem_flatMap.1 hc
        rcases mem_cons.1 hc with rfl | hc
        · exact .inr (hrest p hp).1
        · exact .inl (isLocal_of_isAlnum ((hrest p hp).2.2 c hc)).1
    have hne : ∀ p ∈ l.1 :: l.2.map Prod.snd, p ≠ [] := by
      intro p hp
      rcases mem_cons.1 hp with rfl | hp
      · exact hfirst.1
      · obtain ⟨q, hq, rfl⟩ := mem_map.1 hp
        exact (hrest q hq).2.1
    have hread := parts_append hchars (splitOnP_parts hfirst hrest) hne (u := s.right)
      fun c hc => by simp [(hright c hc).1, (hright c hc).2.1]
    rw [elim_some, cons_append, localLabel, hread]
    rfl

lemma Ok.fromPre_head : (∀ c ∈ s.fromPre.head?, isDigit c = false ∧ c ≠ '!') ∧
    ∀ t, s.fromPre = '.' :: t → ∀ c ∈ t.head?, isDigit c = false := by
  rw [fromPre]
  cases hpre : s.pre with
  | some l =>
    obtain ⟨hhead, hnext⟩ := (h.pre l hpre).1.begins (by decide) s.fromPost
    exact ⟨fun c hc => ⟨(hhead c hc).1, (hhead c hc).2.1⟩, fun t => hnext '.' t (by decide)⟩
  | none =>
    have hapart := h.fromPost_apart hU
    refine ⟨fun c hc => ⟨(hapart c hc).1, (hapart c hc).2.1⟩, ?_⟩
    rw [elim_none, nil_append, fromPost]
    cases hpost : s.post with
    | none => exact fun t => (h.fromDev_head hU).2 '.' t (by decide)
    | some p =>
      cases p with
      | dash number => exact fun t ht => nomatch ht
      | label l =>
        exact fun t => ((h.post _ hpost).1.begins (by decide) s.fromDev).2 '.' t (by decide)

def found (s : Spelling440) : Pep440Match where
  epoch := s.epoch.elim 0 int
  nums := s.release
  pre := s.pre.map fun l => (l.word, l.value)
  post := s.post.map Post.value
  dev := s.dev.map Label.value
  loc := s.loc.map fun l => l.1 :: l.2.map Prod.snd

lemma Ok.read_epoch : ∃ o, optional Sca.epoch (s.epoch.elim [] (· ++ ['!']) ++
    (['.'].intercalate s.release ++ s.fromPre)) = (o, ['.'].intercalate s.release ++ s.fromPre) ∧
      o.getD 0 = s.epoch.elim 0 int := by
  cases hepoch : s.epoch with
  | some t =>
    obtain ⟨hne, hd⟩ := h.epoch t hepoch
    obtain ⟨d, ds, rfl⟩ := exists_cons_of_ne_nil hne
    refine ⟨some (int (d :: ds)), ?_, rfl⟩
    rw [optional, elim_some, append_assoc, Sca.epoch, digits_append hd]
    · rfl
    · rintro _ ⟨⟩
      decide
  | none =>
    refine ⟨none, ?_, rfl⟩
    obtain ⟨x, xs, hx⟩ := exists_cons_of_ne_nil h.release
    have hd := (h.numbers x (by rw [hx]; exact mem_cons_self)).2
    have hrest : ∀ c ∈ (xs.flatMap ('.' :: ·) ++ s.fromPre).head?, isDigit c = false ∧ c ≠ '!' := by
      cases xs with
      | nil => exact (h.fromPre_head hU).1
      | cons y ys =>
        rintro _ ⟨⟩
        decide
    have hnone : Sca.epoch (x ++ (xs.flatMap ('.' :: ·) ++ s.fromPre)) = none := by
      rw [Sca.epoch, digits_append hd fun c hc => (hrest c hc).1]
      split
      · rename_i heq
        rw [(Prod.mk.inj heq).2] at hrest
        exact absurd rfl (hrest _ rfl).2
      · rfl
    rw [elim_none, nil_append, hx, Separated.intercalate_cons, append_assoc, optional, hnone]

omit hU in
lemma Ok.digit_head {t : Text} : ∀ c ∈ (s.epoch.elim [] (· ++ ['!']) ++
    (['.'].intercalate s.release ++ t)).head?, isDigit c := by
  intro c hc
  cases hepoch : s.epoch with
  | some e =>
    obtain ⟨hne, hd⟩ := h.epoch e hepoch
    obtain ⟨d, ds, rfl⟩ := exists_cons_of_ne_nil hne
    rw [hepoch] at hc
    cases hc
    exact hd c mem_cons_self
  | none =>
    obtain ⟨x, xs, hx⟩ := exists_cons_of_ne_nil h.release
    obtain ⟨hne, hd⟩ := h.numbers x (by rw [hx]; exact mem_cons_self)
    obtain ⟨d, ds, rfl⟩ := exists_cons_of_ne_nil hne
    rw [hepoch, hx, Separated.intercalate_cons] at hc
    cases hc
    exact hd c mem_cons_self

theorem Ok.pep440Match_text : pep440Match U s.text = some s.found := by
  have hv : ∀ c ∈ s.v, caseless c = 'v' ∧ U.isSpace c = false := by
    intro c hc
    have hlower := h.v c hc
    have hcaseless := (letter_spec (c := c) (by rw [hlower]; decide)).1.trans hlower
    exact ⟨hcaseless, Bool.eq_false_iff.2 fun hs => hU.isSpace c hs (by rw [hcaseless]; decide)⟩
  obtain ⟨d, r, hfrom⟩ : ∃ d r, s.epoch.elim [] (· ++ ['!']) ++
      (['.'].intercalate s.release ++ s.fromPre) = d :: r := by
    refine exists_cons_of_ne_nil fun hnil => ?_
    obtain ⟨x, xs, hx⟩ := exists_cons_of_ne_nil h.release
    rw [hx, Separated.intercalate_cons] at hnil
    simp only [append_eq_nil_iff] at hnil
    exact (h.numbers x (by rw [hx]; exact mem_cons_self)).1 hnil.2.1.1
  have hd : isDigit d := h.digit_head d (by rw [hfrom]; rfl)
  obtain ⟨-, hnov, -, -, -, hdspace⟩ := isDigit_spec hU hd
  have hspaces : s.text.dropWhile U.isSpace = s.v.toList ++ d :: r := by
    rw [text, hfrom, dropWhile_append_of_pos h.left]
    cases hc : s.v with
    | none => exact dropWhile_cons_of_neg (by simp [hdspace])
    | some c => exact dropWhile_cons_of_neg (by simp [(hv c hc).2])
  obtain ⟨o, hepoch, ho⟩ := h.read_epoch hU
  have hdotted := dotted_append h.release h.numbers (fun c hc => ((h.fromPre_head hU).1 c hc).1)
    (h.fromPre_head hU).2
  rw [hfrom] at hepoch
  have hright : s.right.all U.isSpace := all_eq_true.2 h.right
  unfold pep440Match
  rw [hspaces]
  cases hc : s.v with
  | none =>
    simp only [toList_none, nil_append, if_neg hnov, hepoch, hdotted, Option.bind_eq_bind,
      Option.bind_some, h.read_pre hU, h.read_post hU, h.read_dev hU, h.read_local hU, hright,
      if_true,
      ho, Option.map_map]
    rfl
  | some c =>
    simp only [toList_some, cons_append, nil_append, if_pos (hv c hc).1, hepoch, hdotted,
      Option.bind_eq_bind, Option.bind_some, h.read_pre hU, h.read_post hU, h.read_dev hU,
      h.read_local hU, hright, if_true, ho, Option.map_map]
    rfl

end Spelling440

/-! ## What the pattern of SemVer finds -/

namespace SpellingSemver

variable {s : SpellingSemver} {ids : List Text} {sign : Char}

lemma signed_append (h : Identifiers ids) (hu : ∀ c ∈ u.head?, isIdent c = false ∧ c ≠ '.') :
    optional (signed sign) (sign :: (['.'].intercalate ids ++ u)) = (some ids, u) := by
  have hsplit : (['.'].intercalate ids).splitOnP (fun c => c = '.') = ids := by
    refine Separated.splitOnP_intercalate (by simp) h.1 fun t ht c hc => ?_
    have hident := (h.2 t ht).2 c hc
    rw [decide_eq_false_iff_not]
    rintro rfl
    exact absurd hident (by decide)
  have hin : ∀ c ∈ ['.'].intercalate ids, isIdent c ∨ decide (c = '.') = true := by
    intro c hc
    rcases Separated.mem_intercalate hc with rfl | ⟨t, ht, hc⟩
    · exact .inr rfl
    · exact .inl ((h.2 t ht).2 c hc)
  have hread := parts_append hin hsplit (fun t ht => (h.2 t ht).1) (u := u)
    fun c hc => by simp [(hu c hc).1, (hu c hc).2]
  rw [optional, signed, if_pos rfl, hread]

lemma signed_of_head (h : ∀ c ∈ t.head?, c ≠ sign) : optional (signed sign) t = (none, t) := by
  cases t with
  | nil => rfl
  | cons c t => rw [optional, signed, if_neg (h c rfl)]

variable (hU : U.Lawful) (h : s.Ok U)

include hU h

lemma Ok.right_head (hc : c ∈ s.right.head?) :
    isIdent c = false ∧ c ≠ '.' ∧ isDigit c = false ∧ c ≠ '+' ∧ c ≠ '-' := by
  obtain ⟨-, hsep, hident, hplus, -, hdigit, -⟩ := space_spec hU (h.right c (mem_of_head? hc))
  refine ⟨hident, ?_, hdigit, hplus, ?_⟩ <;> rintro rfl <;> exact absurd hsep (by decide)

lemma Ok.fromBuild_head (hc : c ∈ s.fromBuild.head?) :
    isIdent c = false ∧ c ≠ '.' ∧ isDigit c = false ∧ c ≠ '-' := by
  rw [fromBuild] at hc
  cases hbuild : s.build with
  | none =>
    rw [hbuild] at hc
    obtain ⟨hident, hdot, hdigit, -, hdash⟩ := h.right_head hU hc
    exact ⟨hident, hdot, hdigit, hdash⟩
  | some ids =>
    rw [hbuild] at hc
    cases hc
    decide

lemma Ok.fromPre_head (hc : c ∈ s.fromPre.head?) : c ≠ '.' ∧ isDigit c = false := by
  rw [fromPre] at hc
  cases hpre : s.pre with
  | none =>
    rw [hpre] at hc
    obtain ⟨-, hdot, hdigit, -⟩ := h.fromBuild_head hU hc
    exact ⟨hdot, hdigit⟩
  | some ids =>
    rw [hpre] at hc
    cases hc
    decide

lemma Ok.read_pre : optional (signed '-') s.fromPre = (s.pre, s.fromBuild) := by
  rw [fromPre]
  cases hpre : s.pre with
  | none => exact signed_of_head fun c hc => (h.fromBuild_head hU hc).2.2.2
  | some ids =>
    refine signed_append (h.pre ids hpre) fun c hc => ?_
    obtain ⟨hident, hdot, -⟩ := h.fromBuild_head hU hc
    exact ⟨hident, hdot⟩

lemma Ok.read_build : (optional (signed '+') s.fromBuild).2 = s.right := by
  rw [fromBuild]
  cases hbuild : s.build with
  | none =>
    have hread := signed_of_head fun c hc => (h.right_head hU (c := c) hc).2.2.2.1
    exact congrArg Prod.snd hread
  | some ids =>
    have hread : optional (signed '+') ('+' :: (['.'].intercalate ids ++ s.right)) =
        (some ids, s.right) := signed_append (h.build ids hbuild) fun c hc =>
      ⟨(h.right_head hU hc).1, (h.right_head hU hc).2.1⟩
    exact congrArg Prod.snd hread

theorem Ok.semverMatch_text : semverMatch U s.text = some (s.release, s.pre) := by
  have hv : ∀ c ∈ s.v, U.isSpace c = false := by
    intro c hc
    refine Bool.eq_false_iff.2 fun hs => hU.isSpace c hs ?_
    rcases h.v c hc with rfl | rfl <;> decide
  obtain ⟨d, r, hfrom, hd⟩ : ∃ d r, ['.'].intercalate s.release ++ s.fromPre = d :: r ∧
      isDigit d := by
    obtain ⟨x, xs, hx⟩ := exists_cons_of_ne_nil h.release
    obtain ⟨hne, hdigits⟩ := h.numbers x (by rw [hx]; exact mem_cons_self)
    obtain ⟨d, ds, rfl⟩ := exists_cons_of_ne_nil hne
    exact ⟨d, _, by rw [hx, Separated.intercalate_cons]; rfl, hdigits d mem_cons_self⟩
  obtain ⟨-, -, hnov, hnoeq, -, hspace⟩ := isDigit_spec hU hd
  have hspaces : s.text.dropWhile U.isSpace = s.v.toList ++ d :: r := by
    rw [text, hfrom, dropWhile_append_of_pos h.left]
    cases hc : s.v with
    | none => exact dropWhile_cons_of_neg (by simp [hspace])
    | some c => exact dropWhile_cons_of_neg (by simp [hv c hc])
  have hstay : (d :: r).dropWhile U.isSpace = ['.'].intercalate s.release ++ s.fromPre := by
    rw [hfrom, dropWhile_cons_of_neg (by simp [hspace])]
  have hdotted := dotted_append h.release h.numbers (fun c hc => (h.fromPre_head hU hc).2)
    fun t ht => absurd rfl (h.fromPre_head hU (c := '.') (by rw [ht]; rfl)).1
  have hright : s.right.all U.isSpace := all_eq_true.2 h.right
  have hread : dotted ((d :: r).dropWhile U.isSpace) = some (s.release, s.fromPre) := by
    rw [hstay, hdotted]
  unfold semverMatch
  rw [hspaces]
  cases hc : s.v with
  | none =>
    dsimp only [toList_none, nil_append]
    split
    · rename_i heq
      exact absurd (cons.inj heq).1 hnov
    · rename_i heq
      exact absurd (cons.inj heq).1 hnoeq
    · simp only [hread, Option.bind_eq_bind, Option.bind_some, h.read_pre hU, h.read_build hU,
        hright, if_true]
  | some c =>
    rcases h.v c hc with rfl | rfl <;>
    simp only [toList_some, singleton_append, hread, Option.bind_eq_bind, Option.bind_some,
      h.read_pre hU, h.read_build hU, hright, if_true]

end SpellingSemver

end Lazaret.Sca
