import Lazaret.Json.Accepts
import Lazaret.Json.Decimal
import Lazaret.Json.Writer
import Mathlib.Algebra.Group.Int.Defs

/-!
# The canonical form that reads back

The canonical form of RFC 8785, for the values it is used for (`canonical` of `json.rs`), is JSON:
what is written of a value is a text of it, with the members of every object in the order of the
UTF-16 code units of their names and with no `-0`, so the strict reader gives that value back
(`canonical_reads_back`).
-/

namespace Lazaret.Json

open List Utf8

open Utf8 (byte encode)

/-- Whether a `-` is first, and what is after the sign. -/
def signed : List Char → Bool × List Char
  | '-' :: rest => (true, rest)
  | '+' :: rest => (false, rest)
  | cs => (false, cs)

def signedValue (p : Bool × List Char) : ℤ := if p.1 then -decimal p.2 else decimal p.2

/-- `str::parse::<i64>`: digits, after a sign or none, of a value that fits. -/
def parseI64 (s : String) : Option ℤ :=
  let p := signed s.toList
  if p.2 ≠ [] ∧ p.2.all Char.isDigit ∧ -2 ^ 63 ≤ signedValue p ∧ signedValue p < 2 ^ 63 then
    some (signedValue p)
  else none

/-- The value as an `i64`, only if the text is an integer that fits, and is not `-0`. -/
def Number.asI64 (n : Number) : Option ℤ :=
  if ¬ n.isInteger ∨ n.text = "-0" then none else parseI64 n.text

/-- The largest integer the I-JSON range (and a 64-bit float) holds exactly. -/
def SAFE_INT : ℤ := 2 ^ 53 - 1

def notCanonical : Error := ⟨0, .NotCanonical⟩

def writeNumber (n : Number) : Except Error (List UInt8) :=
  match n.asI64 with
  | some i =>
    if -SAFE_INT ≤ i ∧ i ≤ SAFE_INT then .ok (encode (toString i).toList)
    else .error notCanonical
  | none => if n.text = "-0" then .ok [byte '0'] else .error notCanonical

/-- The lower-case hexadecimal digits of a number, four at least. -/
def hex04 (n : ℕ) : List Char :=
  List.replicate (4 - (Nat.toDigits 16 n).length) '0' ++ Nat.toDigits 16 n

def writeChar (c : Char) : List Char :=
  if c = '"' then ['\\', '"']
  else if c = '\\' then ['\\', '\\']
  else if c = '\x08' then ['\\', 'b']
  else if c = '\t' then ['\\', 't']
  else if c = '\n' then ['\\', 'n']
  else if c = '\x0c' then ['\\', 'f']
  else if c = '\r' then ['\\', 'r']
  else if c.toNat < 0x20 then '\\' :: 'u' :: hex04 c.toNat
  else [c]

def writeString (s : String) : List UInt8 :=
  encode ('"' :: (s.toList.flatMap writeChar ++ ['"']))

def utf16 (s : String) : List ℕ := s.toList.flatMap Grammar.utf16

def unitsLe (a b : String) : Prop := utf16 a ≤ utf16 b

instance : DecidableRel unitsLe := fun a b => inferInstanceAs (Decidable (utf16 a ≤ utf16 b))

/-- How the canonical form of RFC 8785 writes numbers and strings. -/
def canonicalWriter : Writer Error where
  number := writeNumber
  string := writeString
  le := unitsLe
  zero := rfl

def canonical (v : Value) : Except Error (List UInt8) := canonicalWriter.write v

/-! ## The order of names -/

lemma utf16_append_inj {c d : Char} {t t' : List ℕ}
    (h : Grammar.utf16 c ++ t = Grammar.utf16 d ++ t') : c = d ∧ t = t' := by
  by_cases hc : c.toNat < 0x10000
  · by_cases hd : d.toNat < 0x10000
    · rw [Grammar.utf16, if_pos hc, Grammar.utf16, if_pos hd] at h
      obtain ⟨hunit, ht⟩ := cons.inj h
      exact ⟨Char.toNat_inj.1 hunit, ht⟩
    · obtain ⟨hi, lo, hunits, hhigh, -⟩ := pair_of_utf16 hd
      rw [Grammar.utf16, if_pos hc, hunits] at h
      have hnot := (not_surrogate (c := c)).1
      rw [(cons.inj h).1, hhigh] at hnot
      cases hnot
  · obtain ⟨hi, lo, hunits, hhigh, -, hpair⟩ := pair_of_utf16 hc
    by_cases hd : d.toNat < 0x10000
    · rw [hunits, Grammar.utf16, if_pos hd] at h
      have hnot := (not_surrogate (c := d)).1
      rw [← (cons.inj h).1, hhigh] at hnot
      cases hnot
    · obtain ⟨hi', lo', hunits', -, -, hpair'⟩ := pair_of_utf16 hd
      rw [hunits, hunits'] at h
      obtain ⟨rfl, htail⟩ := cons.inj h
      obtain ⟨rfl, rfl⟩ := cons.inj htail
      exact ⟨Option.some.inj (hpair.symm.trans hpair'), rfl⟩

lemma utf16_ne_nil (c : Char) : Grammar.utf16 c ≠ [] := by
  rw [Grammar.utf16]
  split <;> exact cons_ne_nil _ _

lemma utf16_injective : Function.Injective utf16 := by
  have hlist : ∀ cs ds : List Char, cs.flatMap Grammar.utf16 = ds.flatMap Grammar.utf16 →
      cs = ds := by
    intro cs
    induction cs with
    | nil =>
      intro ds h
      cases ds with
      | nil => rfl
      | cons d ds =>
        rw [flatMap_cons, flatMap_nil] at h
        exact absurd (append_eq_nil_iff.1 h.symm).1 (utf16_ne_nil d)
    | cons c cs ih =>
      intro ds h
      cases ds with
      | nil =>
        rw [flatMap_cons, flatMap_nil] at h
        exact absurd (append_eq_nil_iff.1 h).1 (utf16_ne_nil c)
      | cons d ds =>
        obtain ⟨rfl, htail⟩ := utf16_append_inj h
        rw [ih ds htail]
  exact fun s s' h => String.toList_injective (hlist _ _ h)

instance : Std.Total unitsLe := ⟨fun a b => le_total (utf16 a) (utf16 b)⟩

instance : IsTrans String unitsLe := ⟨fun _ _ _ hab hbc => le_trans hab hbc⟩

instance : Std.Antisymm unitsLe := ⟨fun _ _ hab hba => utf16_injective (le_antisymm hab hba)⟩

/-! ## What is written is a text of the value -/

lemma hex04_mem {n : ℕ} (h : n < 0x20) : hex04 n ∈ Grammar.fourHex n := by
  have hall : ∀ n < 0x20, (hex04 n).map Grammar.hexValue = [0, 0, n / 16, n % 16].map some := by
    decide
  refine ⟨[0, 0, n / 16, n % 16], rfl, hall n h, ?_⟩
  simp only [foldl_cons, foldl_nil]
  omega

lemma writeChar_mem (c : Char) : writeChar c ∈ Grammar.char c := by
  rw [writeChar]
  -- the short escapes, from the table
  split
  next h => exact .inr (.inl ⟨'"', by rw [h]; decide, rfl⟩)
  split
  next h => exact .inr (.inl ⟨'\\', by rw [h]; decide, rfl⟩)
  split
  next h => exact .inr (.inl ⟨'b', by rw [h]; decide, rfl⟩)
  split
  next h => exact .inr (.inl ⟨'t', by rw [h]; decide, rfl⟩)
  split
  next h => exact .inr (.inl ⟨'n', by rw [h]; decide, rfl⟩)
  split
  next h => exact .inr (.inl ⟨'f', by rw [h]; decide, rfl⟩)
  split
  next h => exact .inr (.inl ⟨'r', by rw [h]; decide, rfl⟩)
  split
  next h =>
    refine .inr (.inr ?_)
    rw [Grammar.utf16, if_pos (by omega)]
    exact prod_unicodeEscape_one (hex04_mem h)
  next hquote hslash _ _ _ _ _ hcontrol =>
    exact .inl ⟨⟨hquote, hslash, Nat.le_of_not_lt hcontrol⟩, rfl⟩

lemma flatMap_writeChar_mem (cs : List Char) :
    cs.flatMap writeChar ∈ (cs.map Grammar.char).prod := by
  induction cs with
  | nil => exact Language.nil_mem_one
  | cons c cs ih =>
    rw [flatMap_cons, map_cons, prod_cons]
    exact Language.mem_mul.2 ⟨_, writeChar_mem c, _, ih, rfl⟩

lemma writeString_mem (s : String) : ∃ w ∈ Grammar.string s, writeString s = encode w :=
  ⟨_, Language.mem_mul.2 ⟨['"'], rfl, _,
    Language.mem_mul.2 ⟨_, flatMap_writeChar_mem s.toList, ['"'], rfl, rfl⟩, rfl⟩, rfl⟩

lemma toString_neg {n : ℕ} (h : 0 < n) :
    (toString (-(n : ℤ))).toList = '-' :: Nat.toDigits 10 n := by
  obtain ⟨m, rfl⟩ := Nat.exists_eq_succ_of_ne_zero h.ne'
  show ("-" ++ Nat.repr (m + 1)).toList = _
  rw [String.toList_append, Nat.toList_repr]
  rfl

lemma toString_natCast (n : ℕ) : (toString (n : ℤ)).toList = Nat.toDigits 10 n :=
  Nat.toList_repr

variable {w : List Char}

lemma natural_cons (hw : w ∈ Grammar.natural) : ∃ c cs, w = c :: cs ∧ c ≠ '-' ∧ c ≠ '+' := by
  have hne : ∀ c : Char, c.isDigit = true → c ≠ '-' ∧ c ≠ '+' := by
    rintro c hc
    constructor <;> rintro rfl <;> exact absurd hc (by decide)
  rcases hw with rfl | ⟨hw, -⟩
  · exact ⟨'0', [], rfl, by decide⟩
  · cases w with
    | nil => exact absurd rfl hw.1
    | cons c cs => exact ⟨c, cs, rfl, hne c (hw.2 c mem_cons_self)⟩

lemma signed_cons {c : Char} {cs : List Char} (hminus : c ≠ '-') (hplus : c ≠ '+') :
    signed (c :: cs) = (false, c :: cs) := by
  rw [signed]
  · rintro rest h
    exact hminus (cons.inj h).1
  · rintro rest h
    exact hplus (cons.inj h).1

lemma eq_signedValue {s : String} {i : ℤ} (h : parseI64 s = some i) :
    i = signedValue (signed s.toList) := by
  rw [parseI64] at h
  split at h
  · exact (Option.some.inj h).symm
  · cases h

lemma toString_parseI64 {s : String} (hs : s.toList ∈ Grammar.integer) (hne : s ≠ "-0") {i : ℤ}
    (h : parseI64 s = some i) : (toString i).toList = s.toList := by
  rw [eq_signedValue h]
  obtain ⟨sign, hsign, ds, hds, htext⟩ := Language.mem_mul.1 hs
  rcases hsign with rfl | rfl
  · obtain ⟨c, cs, rfl, hminus, hplus⟩ := natural_cons hds
    rw [nil_append] at htext
    rw [← htext, signed_cons hminus hplus, signedValue, if_neg (by simp), toString_natCast,
      toDigits_natural hds]
  · rw [singleton_append] at htext
    have hdigits : ds ∈ Grammar.digits ∧ ds.head? ≠ some '0' := by
      rcases hds with rfl | hds
      · refine absurd (String.toList_injective ?_) hne
        rw [← htext]
        rfl
      · exact hds
    obtain ⟨hds', hpos⟩ := toDigits_decimal hdigits.1 hdigits.2
    rw [← htext, signed, signedValue, if_pos rfl, toString_neg hpos, hds']

lemma writeNumber_eq_ok {n : Number} (hn : n.text.toList ∈ Grammar.number) (hne : n.text ≠ "-0")
    {b : List UInt8} (h : writeNumber n = .ok b) : b = encode n.text.toList := by
  rw [writeNumber] at h
  split at h
  next i hi =>
    split at h
    · rw [Number.asI64] at hi
      split at hi
      · cases hi
      next hint =>
        rw [not_or, not_not] at hint
        rw [← Except.ok.inj h, toString_parseI64 ((Number.isInteger_iff hn).1 hint.1) hne hi]
    · cases h
  · rw [if_neg hne] at h
    cases h

/-! ## The bytes of a value -/

def Written (n : Number) : Prop :=
  n.text.toList ∈ Grammar.number ∧ canonicalWriter.digits n = encode n.text.toList

variable {α : Type}

lemma intercalate_map_cons {γ : Type} (x : γ) (k : α → List γ) (a b : α) (bs : List α) :
    intercalate [x] ((a :: b :: bs).map k) =
      k a ++ ([x] ++ intercalate [x] ((b :: bs).map k)) := by
  rw [map_cons, map_cons, intercalate_cons_cons, append_assoc]

variable {as : List α}

lemma mem_separated_map {texts : α → Language Char} {f : α → List Char}
    (h : ∀ a ∈ as, f a ∈ texts a) :
    intercalate [','] (as.map f) ∈ Grammar.separated (as.map (around texts)) := by
  induction as with
  | nil => exact nil_mem_ws
  | cons a as ih =>
    obtain ⟨ha, hall⟩ := forall_mem_cons.1 h
    have hitem : f a ∈ around texts a := Language.mem_mul.2 ⟨[], nil_mem_ws, f a,
      Language.mem_mul.2 ⟨f a, ha, [], nil_mem_ws, append_nil _⟩, rfl⟩
    cases as with
    | nil =>
      simp only [map_cons, map_nil, intercalate_singleton]
      exact hitem
    | cons b bs =>
      rw [intercalate_map_cons, map_cons, separated_cons (by simp)]
      exact Language.mem_mul.2 ⟨f a, hitem, _, Language.mem_mul.2 ⟨[','], rfl, _, ih hall, rfl⟩,
        rfl⟩

lemma encode_intercalate {g : α → List UInt8} {f : α → List Char}
    (h : ∀ a ∈ as, g a = encode (f a)) :
    intercalate [byte ','] (as.map g) = encode (intercalate [','] (as.map f)) := by
  induction as with
  | nil => rfl
  | cons a as ih =>
    obtain ⟨ha, hall⟩ := forall_mem_cons.1 h
    cases as with
    | nil =>
      simp only [map_cons, map_nil, intercalate_singleton]
      exact ha
    | cons b bs =>
      rw [intercalate_map_cons, intercalate_map_cons, ih hall, ha, encode_append, encode_append]
      rfl

variable {v : Value}

lemma written_mem (h : ∀ n, .number n ∈ v.parts → Written n) :
    ∃ w ∈ v.texts, canonicalWriter.written v = encode w := by
  induction v with
  | null => exact ⟨"null".toList, rfl, rfl⟩
  | bool b => cases b <;> exact ⟨_, rfl, rfl⟩
  | number n =>
    obtain ⟨hn, hbytes⟩ := h n (Value.mem_parts_self _)
    exact ⟨n.text.toList, ⟨hn, rfl⟩, hbytes⟩
  | string s => exact writeString_mem s
  | array a ih =>
    have hitem : ∀ v : Value, ∃ w, v ∈ a → w ∈ v.texts ∧ canonicalWriter.written v = encode w := by
      intro v
      by_cases hv : v ∈ a
      · obtain ⟨w, hw⟩ := ih v hv fun n hn => h n (Value.mem_parts_array hv hn)
        exact ⟨w, fun _ => hw⟩
      · exact ⟨[], fun hv' => absurd hv' hv⟩
    choose f hf using hitem
    refine ⟨'[' :: (intercalate [','] (a.map f) ++ [']']), ?_, ?_⟩
    · rw [Value.texts_array]
      exact Language.mem_mul.2 ⟨['['], rfl, _, Language.mem_mul.2
        ⟨_, mem_separated_map fun v hv => (hf v hv).1, [']'], rfl, rfl⟩, rfl⟩
    · rw [canonicalWriter.written_array, encode_intercalate fun v hv => (hf v hv).2,
        encode_cons_of_lt (by decide), encode_append]
      rfl
  | object o ih =>
    have hmember : ∀ m : String × Value, ∃ w, m ∈ o →
        w ∈ Value.memberTexts m ∧ canonicalWriter.writtenMember m = encode w := by
      intro m
      by_cases hm : m ∈ o
      · obtain ⟨w, hw, hbytes⟩ := ih m hm fun n hn => h n (Value.mem_parts_object hm hn)
        obtain ⟨name, hname, hname'⟩ := writeString_mem m.1
        refine ⟨name ++ ':' :: w, fun _ => ⟨?_, ?_⟩⟩
        · exact Language.mem_mul.2 ⟨name, hname, _, Language.mem_mul.2
            ⟨[], nil_mem_ws, _, Language.mem_mul.2 ⟨[':'], rfl, w, Language.mem_mul.2
              ⟨[], nil_mem_ws, w, hw, rfl⟩, rfl⟩, rfl⟩, rfl⟩
        · rw [Writer.writtenMember, hbytes, encode_append,
            encode_cons_of_lt (by decide), ← hname', append_assoc]
          rfl
      · exact ⟨[], fun hm' => absurd hm' hm⟩
    choose f hf using hmember
    refine ⟨'{' :: (intercalate [','] (o.map f) ++ ['}']), ?_, ?_⟩
    · rw [Value.texts_object]
      exact Language.mem_mul.2 ⟨['{'], rfl, _, Language.mem_mul.2
        ⟨_, mem_separated_map fun m hm => (hf m hm).1, ['}'], rfl, rfl⟩, rfl⟩
    · rw [canonicalWriter.written_object, encode_intercalate fun m hm => (hf m hm).2,
        encode_cons_of_lt (by decide), encode_append]
      rfl

/-! ## Reading back -/

lemma exists_text_of_separated {texts : α → Language Char}
    (hw : w ∈ Grammar.separated (as.map (around texts))) {a : α} (ha : a ∈ as) :
    ∃ u, u ∈ texts a := by
  induction as generalizing w with
  | nil => exact absurd ha not_mem_nil
  | cons b bs ih =>
    obtain ⟨first, hfirst, hrest⟩ : ∃ first ∈ around texts b, bs = [] ∨
        ∃ w, w ∈ Grammar.separated (bs.map (around texts)) := by
      cases bs with
      | nil => exact ⟨w, hw, .inl rfl⟩
      | cons c cs =>
        rw [map_cons, separated_cons (by simp)] at hw
        obtain ⟨first, hfirst, rest, hrest, -⟩ := Language.mem_mul.1 hw
        obtain ⟨_, -, r, hr, -⟩ := Language.mem_mul.1 hrest
        exact ⟨first, hfirst, .inr ⟨r, hr⟩⟩
    rcases mem_cons.1 ha with rfl | ha
    · obtain ⟨_, -, r, hr, -⟩ := Language.mem_mul.1 hfirst
      obtain ⟨u, hu, _, -, -⟩ := Language.mem_mul.1 hr
      exact ⟨u, hu⟩
    · rcases hrest with rfl | ⟨r, hr⟩
      · exact absurd ha not_mem_nil
      · exact ih hr ha

lemma number_of_texts (hw : w ∈ v.texts) :
    ∀ n, .number n ∈ v.parts → n.text.toList ∈ Grammar.number := by
  induction v generalizing w with
  | null => simp
  | bool b => simp
  | number m =>
    intro n hn
    obtain rfl : n = m := by simpa using hn
    rw [← hw.2]
    exact hw.1
  | string s => simp
  | array a ih =>
    intro n hn
    obtain ⟨v, hv, hn⟩ : ∃ v ∈ a, .number n ∈ v.parts := by simpa using hn
    rw [Value.texts_array] at hw
    obtain ⟨_, -, r, hr, -⟩ := Language.mem_mul.1 hw
    obtain ⟨items, hitems, _, -, -⟩ := Language.mem_mul.1 hr
    obtain ⟨u, hu⟩ := exists_text_of_separated hitems hv
    exact ih v hv hu n hn
  | object o ih =>
    intro n hn
    obtain ⟨m, hm, hn⟩ : ∃ m ∈ o, .number n ∈ m.2.parts := by
      simpa [-Prod.exists] using hn
    rw [Value.texts_object] at hw
    obtain ⟨_, -, r, hr, -⟩ := Language.mem_mul.1 hw
    obtain ⟨members, hmembers, _, -, -⟩ := Language.mem_mul.1 hr
    obtain ⟨u, hu⟩ := exists_text_of_separated hmembers hm
    obtain ⟨_, -, r, hr, -⟩ := Language.mem_mul.1 hu
    obtain ⟨_, -, r, hr, -⟩ := Language.mem_mul.1 hr
    obtain ⟨_, -, r, hr, -⟩ := Language.mem_mul.1 hr
    obtain ⟨_, -, r, hr, -⟩ := Language.mem_mul.1 hr
    exact ih m hm hr n hn

lemma allowed_normal {d : ℕ} (h : Allowed d v) : Allowed d (v.normal unitsLe) := by
  induction v generalizing d with
  | null => exact h
  | bool b => exact h
  | number n => exact allowed_of_parts rfl rfl (by simp) d
  | string s => exact h
  | array a ih =>
    cases d with
    | zero => exact absurd h.2 (Nat.not_succ_le_zero _)
    | succ d =>
      have hall : ∀ v ∈ a.map (Value.normal unitsLe), Allowed d v := by
        intro w hw
        obtain ⟨v, hv, rfl⟩ := mem_map.1 hw
        exact ih v hv ⟨Value.namesOnce_array.1 h.1 v hv, Value.nest_array_le.1 h.2 v hv⟩
      rw [Value.normal_array]
      exact ⟨Value.namesOnce_array.2 fun v hv => (hall v hv).1,
        Value.nest_array_le.2 fun v hv => (hall v hv).2⟩
  | object o ih =>
    cases d with
    | zero => exact absurd h.2 (Nat.not_succ_le_zero _)
    | succ d =>
      obtain ⟨hnames, honce⟩ := Value.namesOnce_object.1 h.1
      have hperm := perm_insertionSort (fun m m' : String × Value => unitsLe m.1 m'.1)
        (o.map fun m => (m.1, m.2.normal unitsLe))
      have hall : ∀ m ∈ (o.map fun m => (m.1, m.2.normal unitsLe)).insertionSort
          (fun m m' => unitsLe m.1 m'.1), Allowed d m.2 := by
        intro m' hm'
        obtain ⟨m, hm, rfl⟩ := mem_map.1 (hperm.mem_iff.1 hm')
        exact ih m hm ⟨honce m hm, Value.nest_object_le.1 h.2 m hm⟩
      rw [Value.normal_object]
      refine ⟨Value.namesOnce_object.2 ⟨?_, fun m hm => (hall m hm).1⟩,
        Value.nest_object_le.2 fun m hm => (hall m hm).2⟩
      rw [(hperm.map Prod.fst).nodup_iff, map_map]
      exact hnames

lemma parse_canonical {input b : List UInt8} (hv : parse input = .ok v)
    (hb : canonical v = .ok b) : parse b = .ok (v.normal unitsLe) := by
  obtain ⟨text, -, -, htext, hallowed⟩ := text_of_parse hv
  obtain ⟨r, hr, _, -, -⟩ := Language.mem_mul.1 htext
  obtain ⟨_, -, w, hw, -⟩ := Language.mem_mul.1 hr
  obtain ⟨hnumbers, rfl⟩ := canonicalWriter.write_eq_ok_iff.1 hb
  have hwritten : ∀ n, .number n ∈ (v.normal unitsLe).parts → Written n := by
    intro n hn
    obtain ⟨m, hm, rfl⟩ := Value.mem_parts_normal hn
    split
    · refine ⟨Grammar.mem_number_of_integer ?_, rfl⟩
      exact Language.mem_mul.2 ⟨[], .inl rfl, ['0'], .inl rfl, rfl⟩
    next hne =>
      obtain ⟨c, hc⟩ := hnumbers m hm
      refine ⟨number_of_texts hw m hm, ?_⟩
      rw [Writer.digits, hc]
      exact writeNumber_eq_ok (number_of_texts hw m hm) hne hc
  obtain ⟨u, hu, hbytes⟩ := written_mem hwritten
  show parseWithDepth (canonicalWriter.written (v.normal unitsLe)) _ = _
  rw [hbytes]
  refine parse_of_text ?_ ?_ (allowed_normal hallowed)
  · intro hbom
    obtain ⟨c, r, hcr, -, -, hlt⟩ := starts_texts _ u hu
    obtain ⟨r', rfl⟩ : ∃ r', u = '\uFEFF' :: r' := by
      cases u with
      | nil => cases hbom
      | cons d r' => exact ⟨r', by rw [Option.some.inj hbom]⟩
    rw [encode_cons] at hcr
    have hc : c ∈ encode ['\uFEFF'] := by
      obtain rfl : (0xEF : UInt8) = c := (cons.inj hcr).1
      exact mem_cons_self
    exact absurd (le_of_mem_encode (by decide) hc) (Nat.not_le_of_lt hlt)
  · exact Language.mem_mul.2 ⟨u, Language.mem_mul.2 ⟨[], nil_mem_ws, u, hu, rfl⟩, [], nil_mem_ws,
      append_nil u⟩

/-- What is written of a value is read as that value in its normal form, is what is written of this
too, and of another value exactly if the two are the same. -/
theorem canonical_reads_back {input input' b c : List UInt8} {v w : Value}
    (hv : parse input = .ok v) (hw : parse input' = .ok w) (hb : canonical v = .ok b)
    (hc : canonical w = .ok c) :
    parse b = .ok (v.normal unitsLe) ∧ canonical (v.normal unitsLe) = .ok b ∧
      (b = c ↔ v.Same w) := by
  have hnames : v.NamesOnce := by
    obtain ⟨_, -, -, -, hnames, -⟩ := text_of_parse hv
    exact hnames
  have hread := parse_canonical hv hb
  have : Std.Total canonicalWriter.le := inferInstanceAs (Std.Total unitsLe)
  have : IsTrans String canonicalWriter.le := inferInstanceAs (IsTrans String unitsLe)
  refine ⟨hread, canonicalWriter.write_normal hb, ?_⟩
  · rw [Value.same_iff_normal_eq unitsLe hnames]
    constructor
    · rintro rfl
      exact Outcome.ok.inj (hread.symm.trans (parse_canonical hw hc))
    · intro heq
      rw [(canonicalWriter.write_eq_ok_iff.1 hb).2, (canonicalWriter.write_eq_ok_iff.1 hc).2]
      show canonicalWriter.written (v.normal unitsLe) = canonicalWriter.written (w.normal unitsLe)
      rw [heq]

def rewritten (input : List UInt8) : Option (List UInt8) :=
  match parse input with
  | .ok v => (canonical v).toOption
  | _ => none

lemma exists_of_rewritten {input b : List UInt8} (h : rewritten input = some b) :
    ∃ v, parse input = .ok v ∧ canonical v = .ok b := by
  rw [rewritten] at h
  split at h
  · rename_i v hv
    cases hc : canonical v with
    | error e =>
      rw [hc] at h
      cases h
    | ok c =>
      rw [hc] at h
      exact ⟨v, hv, hc.trans (congrArg _ (Option.some.inj h))⟩
  · cases h

/-- An object with its members out of order, an escape that is not needed and a `-0`, and what is
written of it. -/
theorem canonical_reads_back_members :
    let swapped := encode "\x7b\"b\":-0,\"\\u0061\":[\"\\n\"]\x7d".toList
    let ordered := encode "\x7b\"a\":[\"\\n\"],\"b\":0\x7d".toList
    ∃ v w, parse swapped = .ok v ∧ parse ordered = .ok w ∧ parse ordered = .ok (v.normal unitsLe) ∧
      canonical (v.normal unitsLe) = .ok ordered ∧ v.Same w := by
  intro swapped ordered
  obtain ⟨v, hv, hb⟩ := exists_of_rewritten (by decide +kernel : rewritten swapped = some ordered)
  obtain ⟨w, hw, hc⟩ := exists_of_rewritten (by decide +kernel : rewritten ordered = some ordered)
  obtain ⟨hread, hwritten, hsame⟩ := canonical_reads_back hv hw hb hc
  exact ⟨v, w, hv, hw, hread, hwritten, hsame.1 rfl⟩

end Lazaret.Json
