import Lazaret.Idna.RoundTrip

/-!
# Host names

`to_ascii` and `to_unicode` of `idna.rs`, over the two Unicode tables of the standard library that
they read.  A text in ASCII has as many bytes as characters, and only such texts are measured or
sliced.

A label is converted in one of three ways, and each gives a label that all the checks accept
(`Accepted`).  Such a label is converted to itself, and what is shown for it is converted back to it
(`Accepted.show_convert`).
-/

namespace Lazaret.Idna

/-- What is read of the standard library's Unicode tables. -/
structure Unicode where
  toLowercase : Char → Text
  isAlphanumeric : Char → Bool

def MAX_LABEL : ℕ := 63

/-- The longest name DNS allows, without a trailing dot. -/
def MAX_NAME : ℕ := 253

def XN : Text := ['x', 'n', '-', '-']

inductive IdnaError where
  | EmptyLabel
  | LabelTooLong
  | NameTooLong
  | Character (c : Char)
  | Hyphen
  | ALabel
deriving DecidableEq

def isDot (c : Char) : Bool := c = '.' || c = '\u3002' || c = '\uff0e' || c = '\uff61'

/-! ## Labels -/

def HyphenEnd (s : Text) : Prop := s.head? = some '-' ∨ s.getLast? = some '-'

/-- `--` in the third and fourth places. -/
def Dashes (s : Text) : Prop := (s.drop 2).take 2 = ['-', '-']

instance (s : Text) : Decidable (HyphenEnd s) := inferInstanceAs (Decidable (_ ∨ _))

instance (s : Text) : Decidable (Dashes s) := inferInstanceAs (Decidable (_ = _))

variable (U : Unicode)

def uLabelChar (c : Char) : Outcome IdnaError Char :=
  match U.toLowercase c with
  | [l] => if U.isAlphanumeric l || l = '-' then .ok l else .err (.Character c)
  | _ => .err (.Character c)

def uLabel (label : Text) : Outcome IdnaError Text := do
  let chars ← label.mapM (uLabelChar U)
  Outcome.require (¬ HyphenEnd chars) .Hyphen
  .ok chars

/-- `a_label`, of a label in ASCII and in lower case. -/
def aLabel (label : Text) : Outcome IdnaError Unit := do
  let encoded := label.drop 4
  let decoded ← (punycodeDecode encoded).mapErr fun _ => .ALabel
  Outcome.require (¬ (decoded = [] ∨ decoded.all isAscii)) .ALabel
  let checked ← (uLabel U decoded).mapErr fun _ => .ALabel
  Outcome.require (¬ (checked ≠ decoded ∨ punycodeEncode decoded ≠ some encoded)) .ALabel

def isLabelChar (c : Char) : Bool := c.isAlphanum || c = '-' || c = '_'

/-- `ascii_label`, of a label in ASCII and in lower case. -/
def asciiLabel (lower : Text) : Outcome IdnaError Unit := do
  if ¬ lower.all isLabelChar then
    .err (.Character ((lower.find? fun c => ! isLabelChar c).getD '?'))
  else do
    Outcome.require (¬ HyphenEnd lower) .Hyphen
    if XN <+: lower then aLabel U lower else Outcome.require (¬ Dashes lower) .Hyphen
    Outcome.require (¬ lower.length > MAX_LABEL) .LabelTooLong

/-! ## Names -/

/-- What `to_ascii` writes for a label. -/
def convertLabel (label : Text) : Outcome IdnaError Text :=
  if label.all isAscii then do
    asciiLabel U (lower label)
    .ok (lower label)
  else do
    let chars ← uLabel U label
    -- lower-casing left nothing but ASCII: the ASCII label it became
    if chars.all isAscii then do
      asciiLabel U chars
      .ok chars
    else do
      let encoded ← Outcome.okOr (punycodeEncode chars) .LabelTooLong
      Outcome.require (¬ 4 + encoded.length > MAX_LABEL) .LabelTooLong
      .ok (XN ++ encoded)

/-- One turn of the loop of `to_ascii`. -/
def pushLabel (out label : Text) : Outcome IdnaError Text := do
  Outcome.require (label ≠ []) .EmptyLabel
  let t ← convertLabel U label
  .ok ((if out = [] then out else out ++ ['.']) ++ t)

/-- A name without its trailing dot, and the dot that it is written with. -/
def splitDot (name : Text) : Text × Text :=
  match name.getLast? with
  | some c => if isDot c then (name.dropLast, ['.']) else (name, [])
  | none => (name, [])

def toAscii (name : Text) : Outcome IdnaError Text := do
  let p := splitDot name
  Outcome.require (p.1 ≠ []) .EmptyLabel
  let out ← (p.1.splitOnP isDot).foldlM (pushLabel U) []
  Outcome.require (¬ out.length > MAX_NAME) .NameTooLong
  .ok (out ++ p.2)

/-- What `to_unicode` shows for a label. -/
def showLabel (label : Text) : Outcome Empty Text :=
  if XN <+: lower label then
    match aLabel U (lower label) with
    | .ok _ =>
      match punycodeDecode ((lower label).drop 4) with
      | .ok cs => .ok cs
      | .err _ => .ok label
      | .fault => .fault
    | .err _ => .ok label
    | .fault => .fault
  else .ok label

def toUnicode (name : Text) : Outcome Empty Text := do
  let labels ← (name.splitOn '.').mapM (showLabel U)
  .ok (['.'].intercalate labels)

/-! ## What the tables say -/

/-- What the tables say of ASCII and of the full stops, and that what is in lower case stays as it
is. -/
structure Unicode.Lawful (U : Unicode) : Prop where
  lower_idem : ∀ c l, U.toLowercase c = [l] → U.toLowercase l = [l]
  lower_ascii : ∀ c, isAscii c = true → U.toLowercase c = [c.toLower]
  alphanumeric_ascii : ∀ c, isAscii c = true → U.isAlphanumeric c = c.isAlphanum
  alphanumeric_dot : ∀ c, isDot c = true → U.isAlphanumeric c = false

/-- A text that begins with `xn--` and decodes to a text that is not all ASCII and encodes back. -/
def IsALabel (t : Text) : Prop :=
  XN <+: t ∧ ∃ cs, punycodeDecode (t.drop 4) = .ok cs ∧ cs.all isAscii = false ∧
    punycodeEncode cs = some (t.drop 4)

variable {U} {s cs t label : Text} {c l : Char}

/-! ## The checks -/

lemma uLabelChar_eq_ok :
    uLabelChar U c = .ok l ↔ U.toLowercase c = [l] ∧ (U.isAlphanumeric l = true ∨ l = '-') := by
  rw [uLabelChar]
  split
  next l' hlower =>
    rw [hlower, List.cons.injEq, and_iff_left rfl]
    constructor
    · intro h
      split at h
      next hl =>
        obtain rfl := Outcome.ok.inj h
        exact ⟨rfl, by simpa using hl⟩
      · cases h
    · rintro ⟨rfl, hl⟩
      exact if_pos (by simpa using hl)
  next hmany =>
    refine ⟨fun h => ?_, fun h => absurd h.1 (hmany l)⟩
    cases h

lemma uLabel_eq_ok :
    uLabel U s = .ok cs ↔ List.Forall₂ (fun c l => uLabelChar U c = .ok l) s cs ∧
    ¬ HyphenEnd cs := by
  rw [uLabel, Outcome.bind_eq_ok]
  simp only [Outcome.bind_eq_ok, Outcome.require_eq_ok, exists_const, Outcome.mapM_eq_ok,
    Outcome.ok.injEq]
  constructor
  · rintro ⟨cs', hchars, hends, rfl⟩
    exact ⟨hchars, hends⟩
  · rintro ⟨hchars, hends⟩
    exact ⟨cs, hchars, hends, rfl⟩

lemma aLabel_eq_ok {u : Unit} :
    aLabel U t = .ok u ↔ ∃ cs, punycodeDecode (t.drop 4) = .ok cs ∧ cs.all isAscii = false ∧
      uLabel U cs = .ok cs ∧ punycodeEncode cs = some (t.drop 4) := by
  simp only [aLabel, Outcome.bind_eq_ok, Outcome.mapErr_eq_ok, Outcome.require_eq_ok, exists_const,
    not_or, not_not, Bool.not_eq_true, ne_eq]
  constructor
  · rintro ⟨cs, hdecode, ⟨-, hascii⟩, _, hlabel, rfl, hencode⟩
    exact ⟨_, hdecode, hascii, hlabel, hencode⟩
  · rintro ⟨cs, hdecode, hascii, hlabel, hencode⟩
    refine ⟨cs, hdecode, ⟨?_, hascii⟩, cs, hlabel, rfl, hencode⟩
    rintro rfl
    cases hascii

lemma asciiLabel_eq_ok {u : Unit} :
    asciiLabel U t = .ok u ↔ t.all isLabelChar = true ∧ ¬ HyphenEnd t ∧
      (XN <+: t → aLabel U t = .ok ()) ∧ (¬ XN <+: t → ¬ Dashes t) ∧ t.length ≤ 63 := by
  rw [asciiLabel]
  by_cases hchars : t.all isLabelChar = true
  · rw [if_neg (not_not.2 hchars), and_iff_right hchars]
    by_cases hxn : XN <+: t
    · simp only [hxn, if_true, Outcome.bind_eq_ok, Outcome.require_eq_ok, exists_const,
        not_true_eq_false, false_imp_iff, forall_const, true_and, not_lt, gt_iff_lt]
      exact and_congr_right fun _ => ⟨fun ⟨_, h⟩ => h, fun h => ⟨(), h⟩⟩
    · simp only [hxn, if_false, Outcome.bind_eq_ok, Outcome.require_eq_ok, exists_const,
        not_false_eq_true, false_imp_iff, forall_const, true_and, not_lt, gt_iff_lt]
      rfl
  · rw [if_pos hchars]
    refine ⟨fun h => ?_, fun h => absurd h.1 hchars⟩
    cases h

/-! ## Characters -/

lemma isAscii_of_isLabelChar (h : isLabelChar c = true) : isAscii c = true := by
  have hle : ∀ b : Char, c ≤ b → b.toNat < 128 → isAscii c = true := fun b hb hlt =>
    decide_eq_true (lt_of_le_of_lt hb hlt)
  rw [isLabelChar, Char.isAlphanum, Bool.or_eq_true, Bool.or_eq_true, Bool.or_eq_true,
    decide_eq_true_eq, decide_eq_true_eq] at h
  rcases h with ((h | h) | rfl) | rfl
  · rcases Bool.or_eq_true_iff.1 h with h | h
    · exact hle 'Z' (of_decide_eq_true h).2 (by decide)
    · exact hle 'z' (of_decide_eq_true (Bool.and_eq_true_iff.1 h).2) (by decide)
  · exact hle '9' (of_decide_eq_true (Bool.and_eq_true_iff.1 h).2) (by decide)
  · decide
  · decide

lemma isDot_of_isLabelChar (h : isLabelChar c = true) : isDot c = false := by
  rw [← Bool.not_eq_true, isDot]
  simp only [Bool.or_eq_true, decide_eq_true_eq]
  rintro (((rfl | rfl) | rfl) | rfl) <;> exact absurd h (by decide)

lemma toLower_spec (h : isAscii c = true) :
    isAscii c.toLower = true ∧ c.toLower.toLower = c.toLower := by
  have hall : ∀ n < 128, isAscii (Char.ofNat n).toLower = true ∧
      (Char.ofNat n).toLower.toLower = (Char.ofNat n).toLower := by decide
  have hc := hall c.toNat (of_decide_eq_true h)
  rwa [Char.ofNat_toNat] at hc

lemma lower_of_forall (h : ∀ c ∈ s, c.toLower = c) : lower s = s := by
  calc lower s = s.map id := List.map_congr_left h
    _ = s := List.map_id s

lemma digitChar_label {d : ℕ} (h : d < 36) :
    isLabelChar (digitChar d) = true ∧ (digitChar d).toLower = digitChar d := by
  have hall : ∀ d < 36, isLabelChar (digitChar d) = true ∧ (digitChar d).toLower = digitChar d := by
    decide
  exact hall d h

/-- The characters of what `u_label` returns: none is a full stop, and those in ASCII are as in an
ASCII label in lower case. -/
lemma uLabel_char (hU : U.Lawful) (h : uLabelChar U c = .ok l) :
    uLabelChar U l = .ok l ∧ isDot l = false ∧
      (isAscii l = true → isLabelChar l = true ∧ l.toLower = l) := by
  obtain ⟨hlower, hl⟩ := uLabelChar_eq_ok.1 h
  have hidem := hU.lower_idem c l hlower
  refine ⟨uLabelChar_eq_ok.2 ⟨hidem, hl⟩, ?_, fun hascii => ⟨?_, ?_⟩⟩
  · rw [← Bool.not_eq_true]
    intro hdot
    rcases hl with hl | rfl
    · rw [hU.alphanumeric_dot l hdot] at hl
      cases hl
    · exact absurd hdot (by decide)
  · rcases hl with hl | rfl
    · rw [hU.alphanumeric_ascii l hascii] at hl
      simp [isLabelChar, hl]
    · decide
  · rw [hU.lower_ascii l hascii] at hidem
    exact (List.cons.inj hidem).1

lemma uLabel_chars (hU : U.Lawful) (h : uLabel U s = .ok cs) :
    uLabel U cs = .ok cs ∧ ∀ l ∈ cs, isDot l = false ∧
      (isAscii l = true → isLabelChar l = true ∧ l.toLower = l) := by
  obtain ⟨hchars, hends⟩ := uLabel_eq_ok.1 h
  have hall : ∀ l ∈ cs, ∃ c, uLabelChar U c = .ok l := by
    intro l hl
    obtain ⟨c, -, hc⟩ := forall₂_exists_of_mem_right hchars hl
    exact ⟨c, hc⟩
  refine ⟨uLabel_eq_ok.2 ⟨List.forall₂_same.2 fun l hl => ?_, hends⟩, fun l hl => ?_⟩
  · obtain ⟨c, hc⟩ := hall l hl
    exact (uLabel_char hU hc).1
  · obtain ⟨c, hc⟩ := hall l hl
    exact (uLabel_char hU hc).2

/-! ## An encoded label -/

open Insertions (Insertion Position)

variable {e : Text}

lemma length_le_spell (p : Position) (bias : ℕ) (xs : List (Insertion Char)) :
    xs.length ≤ (spell p bias xs).length := by
  induction xs generalizing p bias with
  | nil => exact le_rfl
  | cons x xs ih =>
    have hdigits := List.length_pos_of_ne_nil (digits_ne_nil bias BASE (gap p x))
    have hrest := ih (p.next Char.toNat x) (nextBias p x)
    rw [spell, List.length_append, List.length_cons]
    omega

lemma length_le_front (ascii : Text) : ascii.length ≤ (front ascii).length := by
  rw [front]
  split
  · rw [List.length_append]
    exact Nat.le_add_right _ _
  · exact le_rfl

lemma length_le_punycodeEncode (h : punycodeEncode cs = some e) : cs.length ≤ e.length := by
  obtain ⟨-, -, rfl⟩ := punycodeEncode_eq_some.1 h
  have hlen := length_insertionsFrom (s := cs)
  have hfront := length_le_front (cs.filter isAscii)
  have hspell := length_le_spell (start (cs.filter isAscii).length) INITIAL_BIAS
    (insertionsFrom INITIAL_N cs)
  rw [List.length_append]
  omega

lemma mem_punycodeEncode (h : punycodeEncode cs = some e) (hc : c ∈ e) :
    (c ∈ cs ∧ isAscii c = true) ∨ c = '-' ∨ ∃ d < 36, c = digitChar d := by
  obtain ⟨-, -, rfl⟩ := punycodeEncode_eq_some.1 h
  rcases List.mem_append.1 hc with hc | hc
  · rw [front] at hc
    split at hc
    · rcases List.mem_append.1 hc with hc | hc
      · exact .inl (List.mem_filter.1 hc)
      · exact .inr (.inl (List.mem_singleton.1 hc))
    · exact .inl (List.mem_filter.1 hc)
  · exact .inr (.inr (mem_spell hc))

lemma getLast?_punycodeEncode (h : punycodeEncode cs = some e) (hascii : cs.all isAscii = false) :
    e.getLast? ≠ some '-' := by
  obtain ⟨-, -, rfl⟩ := punycodeEncode_eq_some.1 h
  have hne : spell (start (cs.filter isAscii).length) INITIAL_BIAS (insertionsFrom INITIAL_N cs) ≠
    [] := by
    intro hnil
    have hspell := length_le_spell (start (cs.filter isAscii).length) INITIAL_BIAS
      (insertionsFrom INITIAL_N cs)
    have hlen := length_insertionsFrom (s := cs)
    rw [hnil, List.length_nil] at hspell
    have hall : (cs.filter isAscii).length = cs.length := by omega
    rw [List.length_filter_eq_length_iff] at hall
    rw [List.all_eq_true.2 hall] at hascii
    cases hascii
  rw [List.getLast?_append_of_ne_nil _ hne]
  intro hlast
  obtain ⟨d, hd, heq⟩ := mem_spell (List.mem_of_getLast? hlast)
  exact (digitChar_spec hd).2 heq.symm

lemma punycodeDecode_punycodeEncode (h : punycodeEncode cs = some e) (hlen : e.length ≤ 59) :
    punycodeDecode e = .ok cs := by
  have hcs := length_le_punycodeEncode h
  have hins := length_insertionsFrom (s := cs)
  refine (punycodeDecode_of_encode h).1 (fits_of_length ordered_insertionsFrom le_rfl ?_)
  show (cs.filter isAscii).length + (insertionsFrom INITIAL_N cs).length ≤ 3855
  omega

/-! ## Converted labels -/

structure Accepted (U : Unicode) (t : Text) : Prop where
  ne_nil : t ≠ []
  lower_eq : lower t = t
  ok : asciiLabel U t = .ok ()

namespace Accepted

variable (h : Accepted U t)
include h

lemma isLabelChar (hc : c ∈ t) : Idna.isLabelChar c = true :=
  List.all_eq_true.1 (asciiLabel_eq_ok.1 h.ok).1 c hc

lemma all_isAscii : t.all isAscii = true :=
  List.all_eq_true.2 fun _ hc => isAscii_of_isLabelChar (h.isLabelChar hc)

lemma isDot (hc : c ∈ t) : Idna.isDot c = false :=
  isDot_of_isLabelChar (h.isLabelChar hc)

lemma length_le : t.length ≤ 63 :=
  (asciiLabel_eq_ok.1 h.ok).2.2.2.2

lemma convertLabel : convertLabel U t = .ok t := by
  rw [Idna.convertLabel, if_pos h.all_isAscii, h.lower_eq, h.ok]
  rfl

lemma decoded (hxn : XN <+: t) :
    ∃ cs, punycodeDecode (t.drop 4) = .ok cs ∧ cs.all isAscii = false ∧ uLabel U cs = .ok cs ∧
      punycodeEncode cs = some (t.drop 4) :=
  aLabel_eq_ok.1 ((asciiLabel_eq_ok.1 h.ok).2.2.1 hxn)

lemma hyphens : ¬ HyphenEnd t ∧ (Dashes t → IsALabel t) := by
  obtain ⟨-, hends, -, hdashes, -⟩ := asciiLabel_eq_ok.1 h.ok
  refine ⟨hends, fun hd => ?_⟩
  by_cases hxn : XN <+: t
  · obtain ⟨cs, hdecode, hascii, -, hencode⟩ := h.decoded hxn
    exact ⟨hxn, cs, hdecode, hascii, hencode⟩
  · exact absurd hd (hdashes hxn)

end Accepted

lemma accepted_xn (hU : U.Lawful) (hlabel : uLabel U s = .ok cs) (hascii : cs.all isAscii = false)
    (hencode : punycodeEncode cs = some e) (hlen : e.length ≤ 59) : Accepted U (XN ++ e) := by
  obtain ⟨hagain, hchars⟩ := uLabel_chars hU hlabel
  have hall : ∀ c ∈ XN ++ e, isLabelChar c = true ∧ c.toLower = c := by
    intro c hc
    rcases List.mem_append.1 hc with hc | hc
    · have hxn : (XN.all fun c => isLabelChar c && c.toLower == c) = true := rfl
      simpa using List.all_eq_true.1 hxn c hc
    · rcases mem_punycodeEncode hencode hc with ⟨hc, hascii⟩ | rfl | ⟨d, hd, rfl⟩
      · exact (hchars c hc).2 hascii
      · decide
      · exact digitChar_label hd
  refine ⟨List.cons_ne_nil _ _, ?_, asciiLabel_eq_ok.2 ⟨?_, ?_, ?_, ?_, ?_⟩⟩
  · exact lower_of_forall fun c hc => (hall c hc).2
  · exact List.all_eq_true.2 fun c hc => (hall c hc).1
  · have hne : e ≠ [] := by
      rintro rfl
      rw [List.length_eq_zero_iff.1 (Nat.le_zero.1 (length_le_punycodeEncode hencode))] at hascii
      cases hascii
    rintro (hhead | hlast)
    · cases hhead
    · rw [List.getLast?_append_of_ne_nil _ hne] at hlast
      exact getLast?_punycodeEncode hencode hascii hlast
  · exact fun _ => aLabel_eq_ok.2
      ⟨cs, punycodeDecode_punycodeEncode hencode hlen, hascii, hagain, hencode⟩
  · exact fun hnot => absurd (List.prefix_append _ _) hnot
  · rw [List.length_append]
    exact Nat.add_le_add_left hlen 4

theorem accepted_convertLabel (hU : U.Lawful) (hne : label ≠ [])
    (h : convertLabel U label = .ok t) : Accepted U t := by
  rw [convertLabel] at h
  split at h
  next hascii =>
    obtain ⟨_, hok, h⟩ := Outcome.bind_eq_ok.1 h
    obtain rfl := Outcome.ok.inj h
    refine ⟨fun hnil => hne (List.map_eq_nil_iff.1 hnil), ?_, hok⟩
    refine lower_of_forall fun c hc => ?_
    obtain ⟨b, hb, rfl⟩ := List.mem_map.1 hc
    exact (toLower_spec (List.all_eq_true.1 hascii b hb)).2
  next =>
    obtain ⟨chars, hlabel, h⟩ := Outcome.bind_eq_ok.1 h
    split at h
    next hascii =>
      obtain ⟨_, hok, h⟩ := Outcome.bind_eq_ok.1 h
      obtain rfl := Outcome.ok.inj h
      refine ⟨?_, ?_, hok⟩
      · rintro rfl
        exact hne (List.forall₂_nil_right_iff.1 (uLabel_eq_ok.1 hlabel).1)
      · refine lower_of_forall fun c hc => ?_
        exact (((uLabel_chars hU hlabel).2 c hc).2 (List.all_eq_true.1 hascii c hc)).2
    next hascii =>
      obtain ⟨e, hencode, h⟩ := Outcome.bind_eq_ok.1 h
      obtain ⟨_, hlen, h⟩ := Outcome.bind_eq_ok.1 h
      obtain rfl := Outcome.ok.inj h
      rw [Outcome.require_eq_ok] at hlen
      refine accepted_xn hU hlabel (by simpa using hascii) (Outcome.okOr_eq_ok.1 hencode) ?_
      rw [MAX_LABEL] at hlen
      omega

/-! ## What is shown -/

variable {v : Text}

lemma Accepted.showLabel (h : Accepted U t) :
    (XN <+: t → ∃ cs, punycodeDecode (t.drop 4) = .ok cs ∧ showLabel U t = .ok cs) ∧
      (¬ XN <+: t → showLabel U t = .ok t) := by
  rw [Idna.showLabel, h.lower_eq]
  refine ⟨fun hxn => ?_, fun hxn => if_neg hxn⟩
  obtain ⟨cs, hdecode, hrest⟩ := h.decoded hxn
  have hok : aLabel U t = .ok () := aLabel_eq_ok.2 ⟨cs, hdecode, hrest⟩
  refine ⟨cs, hdecode, ?_⟩
  rw [if_pos hxn, hok]
  dsimp only
  rw [hdecode]

theorem Accepted.show_convert (hU : U.Lawful) (h : Accepted U t)
    (hshow : Idna.showLabel U t = .ok v) :
    v ≠ [] ∧ (∀ c ∈ v, Idna.isDot c = false) ∧ ¬ HyphenEnd v ∧ Idna.convertLabel U v = .ok t := by
  by_cases hxn : XN <+: t
  · obtain ⟨cs, hdecode, hascii, hlabel, hencode⟩ := h.decoded hxn
    obtain ⟨cs', hdecode', hshow'⟩ := h.showLabel.1 hxn
    rw [hdecode] at hdecode'
    obtain rfl := Outcome.ok.inj hdecode'
    rw [hshow] at hshow'
    obtain rfl := Outcome.ok.inj hshow'
    have hlen : ¬ 4 + (t.drop 4).length > MAX_LABEL := by
      have hle := h.length_le
      have hxnlen := hxn.length_le
      rw [show XN.length = 4 from rfl] at hxnlen
      rw [List.length_drop, MAX_LABEL]
      omega
    refine ⟨?_, fun c hc => ((uLabel_chars hU hlabel).2 c hc).1, (uLabel_eq_ok.1 hlabel).2, ?_⟩
    · rintro rfl
      cases hascii
    · have hsplit : XN ++ t.drop 4 = t := by
        obtain ⟨rest, rfl⟩ := hxn
        rfl
      rw [Idna.convertLabel, if_neg (by simp [hascii]), hlabel, Outcome.ok_bind,
        if_neg (by simp [hascii]), hencode, Outcome.okOr_some, Outcome.ok_bind, Outcome.require,
        if_pos hlen, Outcome.ok_bind, hsplit]
  · rw [h.showLabel.2 hxn] at hshow
    obtain rfl := Outcome.ok.inj hshow
    exact ⟨h.ne_nil, fun c hc => h.isDot hc, h.hyphens.1, h.convertLabel⟩

/-- What a label stands for: its lower case, decoded if that is an A-label. -/
def standsFor (U : Unicode) (label : Text) : Text :=
  let low := label.flatMap U.toLowercase
  if low.all isAscii ∧ XN <+: low then
    match punycodeDecode (low.drop 4) with
    | .ok cs => cs
    | _ => low
  else low

lemma uLabel_flatMap (h : uLabel U s = .ok cs) : s.flatMap U.toLowercase = cs := by
  have hchars := (uLabel_eq_ok.1 h).1
  clear h
  induction hchars with
  | nil => rfl
  | cons hc _ ih => rw [List.flatMap_cons, ih, (uLabelChar_eq_ok.1 hc).1, List.singleton_append]

lemma lower_flatMap (hU : U.Lawful) (h : s.all isAscii = true) :
    s.flatMap U.toLowercase = lower s := by
  rw [lower, List.map_eq_flatMap]
  exact List.flatMap_congr fun c hc => hU.lower_ascii c (List.all_eq_true.1 h c hc)

theorem showLabel_convertLabel (hU : U.Lawful) (hne : label ≠ [])
    (h : convertLabel U label = .ok t) : showLabel U t = .ok (standsFor U label) := by
  have hacc := accepted_convertLabel hU hne h
  -- a label in ASCII is the label it became
  have hself : label.flatMap U.toLowercase = t → showLabel U t = .ok (standsFor U label) := by
    intro hlow
    rw [standsFor, hlow]
    by_cases hxn : XN <+: t
    · obtain ⟨cs, hdecode, hshow⟩ := hacc.showLabel.1 hxn
      rw [if_pos ⟨hacc.all_isAscii, hxn⟩, hdecode]
      exact hshow
    · rw [if_neg fun hboth => hxn hboth.2]
      exact hacc.showLabel.2 hxn
  rw [convertLabel] at h
  split at h
  next hascii =>
    obtain ⟨_, -, h⟩ := Outcome.bind_eq_ok.1 h
    obtain rfl := Outcome.ok.inj h
    exact hself (lower_flatMap hU hascii)
  next =>
    obtain ⟨chars, hlabel, h⟩ := Outcome.bind_eq_ok.1 h
    split at h
    next hascii =>
      obtain ⟨_, -, h⟩ := Outcome.bind_eq_ok.1 h
      obtain rfl := Outcome.ok.inj h
      exact hself (uLabel_flatMap hlabel)
    next hascii =>
      obtain ⟨e, hencode, h⟩ := Outcome.bind_eq_ok.1 h
      obtain ⟨_, hlen, h⟩ := Outcome.bind_eq_ok.1 h
      obtain rfl := Outcome.ok.inj h
      rw [Outcome.require_eq_ok, MAX_LABEL] at hlen
      have hdecode := punycodeDecode_punycodeEncode (Outcome.okOr_eq_ok.1 hencode) (by omega)
      obtain ⟨cs, hdecode', hshow⟩ := hacc.showLabel.1 (List.prefix_append _ _)
      rw [show (XN ++ e).drop 4 = e from rfl, hdecode] at hdecode'
      obtain rfl := Outcome.ok.inj hdecode'
      rw [hshow, standsFor, uLabel_flatMap hlabel]
      exact congrArg _ (if_neg fun hboth => hascii hboth.1).symm

end Lazaret.Idna
