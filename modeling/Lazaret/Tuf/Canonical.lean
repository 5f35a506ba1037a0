import Lazaret.Json.Writer
import Lazaret.Lib.Separated
import Lazaret.Tuf.Reading

/-!
# What a canonical form says

The canonical form that is signed is not JSON: only the quote and the backslash are escaped.  It
says all the same which value it is the form of: `written`, the bytes of a value with nothing left
to put in order, can be told from whatever may follow it (`written_inj`).
-/

namespace Lazaret.Tuf

open List Language Utf8

open Json (Value Number)

/-! ## What `canonical_json` writes -/

/-- How the canonical form that is signed writes numbers and strings. -/
def tufWriter : Json.Writer Error where
  number n :=
    if n.isInteger then .ok (utf8 (if n.text = "-0" then "0" else n.text))
    else .error (.Malformed
      s!"the number {n.text} is not an integer, which canonical JSON cannot write")
  string := writeString
  le := (· ≤ ·)
  zero := rfl

lemma sequence_eq_mapM {α : Type} (l : List (Except Error α)) : sequence l = l.mapM id := by
  induction l with
  | nil => rfl
  | cons x l ih => rw [mapM_cons, sequence, ih]; rfl

lemma canonicalJson_eq_write (v : Value) : canonicalJson v = tufWriter.write v := by
  induction v with
  | null => rfl
  | bool b => cases b <;> rfl
  | number n => rfl
  | string s => rfl
  | array a ih =>
    have hitems : ∀ vs, canonicalItems vs = vs.map canonicalJson := by
      intro vs
      induction vs with
      | nil => rfl
      | cons v vs ih => rw [canonicalItems, ih, map_cons]
    rw [canonicalJson, sequence_eq_mapM, hitems, tufWriter.write_array, map_congr_left ih]
    rfl
  | object o ih =>
    have hmembers : ∀ ms, canonicalMembers ms = ms.map fun m => (m.1, canonicalJson m.2) := by
      intro ms
      induction ms with
      | nil => rfl
      | cons m ms ih => rw [canonicalMembers, ih, map_cons]
    have hvalues : o.map (fun m => (m.1, canonicalJson m.2)) =
        o.map fun m => (m.1, tufWriter.write m.2) :=
      map_congr_left fun m hm => by rw [ih m hm]
    rw [canonicalJson, sequence_eq_mapM, hmembers, hvalues, tufWriter.write_object, mapM_map]
    rfl

variable {n : Number}

lemma tufWriter_number : (∃ b, tufWriter.number n = .ok b) ↔ n.isInteger = true := by
  show (∃ b, (if n.isInteger then _ else _) = Except.ok b) ↔ _
  constructor
  · rintro ⟨b, hb⟩
    by_contra hnot
    rw [if_neg hnot] at hb
    cases hb
  · intro h
    exact ⟨_, if_pos h⟩

/-! ## Telling the bytes of a value from what follows it -/

/-- A byte of a string, with a backslash before a quote or a backslash. -/
def escapeByte (b : UInt8) : List UInt8 := if b = 34 ∨ b = 92 then [92, b] else [b]

lemma escapeByte_head (b : UInt8) (t : List UInt8) : (escapeByte b ++ t).head? ≠ some 34 := by
  rw [escapeByte]
  split
  · exact fun h => absurd (Option.some.inj h) (by decide)
  next hb => exact fun h => hb (.inl (Option.some.inj h))

variable {t t' : List UInt8}

lemma escapeByte_inj {x y : UInt8}
    (h : escapeByte x ++ t = escapeByte y ++ t') : x = y ∧ t = t' := by
  rw [escapeByte, escapeByte] at h
  split at h <;> split at h
  · obtain ⟨-, h⟩ := cons.inj h
    exact cons.inj h
  next hy => exact absurd (.inr (cons.inj h).1.symm) hy
  next hx _ => exact absurd (.inr (cons.inj h).1) hx
  · exact cons.inj h

lemma escape_inj {xs ys : List UInt8}
    (h : xs.flatMap escapeByte ++ 34 :: t = ys.flatMap escapeByte ++ 34 :: t') :
    xs = ys ∧ t = t' := by
  induction xs generalizing ys with
  | nil =>
    cases ys with
    | nil => exact ⟨rfl, (cons.inj h).2⟩
    | cons y ys =>
      rw [flatMap_cons, append_assoc] at h
      exact absurd (congrArg head? h).symm (escapeByte_head y _)
  | cons x xs ih =>
    cases ys with
    | nil =>
      rw [flatMap_cons, append_assoc] at h
      exact absurd (congrArg head? h) (escapeByte_head x _)
    | cons y ys =>
      rw [flatMap_cons, flatMap_cons, append_assoc, append_assoc] at h
      obtain ⟨rfl, htail⟩ := escapeByte_inj h
      obtain ⟨rfl, rfl⟩ := ih htail
      exact ⟨rfl, rfl⟩

lemma utf8_eq_encode (s : String) : utf8 s = Utf8.encode s.toList := by
  have hbytes : s.toByteArray = s.toList.utf8Encode := by
    conv_lhs => rw [← String.ofList_toList (s := s), String.toByteArray_ofList]
  rw [utf8, String.toUTF8, hbytes, ← toByteArray_encode, data_toByteArray, toList_toArray]

lemma utf8_injective : Function.Injective utf8 := by
  intro s s' h
  rw [utf8_eq_encode, utf8_eq_encode] at h
  exact String.toList_injective (encode_injective h)

lemma writeString_inj {s s' : String}
    (h : writeString s ++ t = writeString s' ++ t') : s = s' ∧ t = t' := by
  simp only [writeString, append_assoc, singleton_append] at h
  obtain ⟨hbytes, ht⟩ := escape_inj (cons.inj h).2
  exact ⟨utf8_injective hbytes, ht⟩

/-- An integer that is not `-0`. -/
def Plain (n : Number) : Prop := n.text.toList ∈ Json.Grammar.integer ∧ n.text ≠ "-0"

lemma digits_plain (h : Plain n) : tufWriter.digits n = utf8 n.text := by
  have hint := (Number.isInteger_iff (Json.Grammar.mem_number_of_integer h.1)).2 h.1
  have hnumber : tufWriter.number n = .ok (utf8 n.text) := by
    show (if n.isInteger then _ else _) = _
    rw [if_pos hint, if_neg h.2]
  rw [Json.Writer.digits, hnumber]

/-- What follows a value: nothing, a comma, or a closing bracket or brace. -/
def Ends (t : List UInt8) : Prop := ∀ b, t.head? = some b → b = 44 ∨ b = 93 ∨ b = 125

def isIntegerByte (b : UInt8) : Bool := b = 45 ∨ (48 ≤ b ∧ b ≤ 57)

lemma takeWhile_of_ends (h : Ends t) : t.takeWhile isIntegerByte = [] := by
  cases t with
  | nil => rfl
  | cons b t =>
    rw [takeWhile_cons]
    rcases h b rfl with rfl | rfl | rfl <;> rfl

lemma isIntegerByte_of_mem {text : String} (h : text.toList ∈ Json.Grammar.integer) {b : UInt8}
    (hb : b ∈ utf8 text) : isIntegerByte b = true := by
  rw [utf8_eq_encode, Utf8.encode, mem_flatMap] at hb
  obtain ⟨c, hc, hb⟩ := hb
  rw [← flatMap_singleton String.utf8EncodeChar c] at hb
  rcases Json.Grammar.mem_of_mem_integer h hc with rfl | hdigit
  · rw [← Utf8.encode, encode_singleton_of_lt (by decide), mem_singleton] at hb
    rw [hb]
    rfl
  · obtain ⟨hlow, hhigh⟩ := Char.isDigit_iff_toNat.1 hdigit
    have hlt : c.toNat < 128 := hhigh.trans_lt (by decide)
    rw [← Utf8.encode, encode_singleton_of_lt hlt, mem_singleton] at hb
    rw [isIntegerByte, decide_eq_true_iff, UInt8.le_iff_toNat_le, UInt8.le_iff_toNat_le, hb,
      toNat_byte hlt]
    exact .inr ⟨hlow, hhigh⟩

lemma integer_inj {m : Number} (hn : Plain n) (hm : Plain m) (ht : Ends t)
    (ht' : Ends t') (h : tufWriter.digits n ++ t = tufWriter.digits m ++ t') : n = m ∧ t = t' := by
  rw [digits_plain hn, digits_plain hm] at h
  have htake := congrArg (takeWhile isIntegerByte) h
  rw [takeWhile_append_of_pos fun b => isIntegerByte_of_mem hn.1, takeWhile_of_ends ht,
    takeWhile_append_of_pos fun b => isIntegerByte_of_mem hm.1, takeWhile_of_ends ht',
    append_nil, append_nil] at htake
  rw [htake] at h
  obtain ⟨text⟩ := n
  obtain rfl : text = m.text := utf8_injective htake
  exact ⟨rfl, append_cancel_left h⟩

/-- What the first byte of a value is, with `-` for every digit. -/
def lead : Value → UInt8
  | .null => 110
  | .bool true => 116
  | .bool false => 102
  | .number _ => 45
  | .string _ => 34
  | .array _ => 91
  | .object _ => 123

variable {v : Value}

lemma lead_written (hv : ∀ n, .number n ∈ v.parts → Plain n) (t : List UInt8) :
    (tufWriter.written v ++ t).head?.map (fun b => if isIntegerByte b then 45 else b) = some
    (lead v) := by
  cases v with
  | null => rfl
  | bool b => cases b <;> rfl
  | number n =>
    have hint := hv n (Value.mem_parts_self _)
    cases hbytes : utf8 n.text with
    | nil =>
      rw [utf8_eq_encode, encode_eq_nil] at hbytes
      exact absurd hbytes (Json.Grammar.ne_nil_of_mem_integer hint.1)
    | cons b bs =>
      have hb : isIntegerByte b = true :=
        isIntegerByte_of_mem hint.1 (by rw [hbytes]; exact mem_cons_self)
      rw [Json.Writer.written, digits_plain hint, hbytes, cons_append, head?_cons, Option.map_some,
        if_pos hb]
      rfl
  | string s => rfl
  | array a => rw [tufWriter.written_array]; rfl
  | object o => rw [tufWriter.written_object]; rfl

variable {w : Value}

lemma lead_eq_of_append_eq (hv : ∀ n, .number n ∈ v.parts → Plain n)
    (hw : ∀ n, .number n ∈ w.parts → Plain n)
    (h : tufWriter.written v ++ t = tufWriter.written w ++ t') : lead v = lead w := by
  rw [← Option.some.injEq, ← lead_written hv t, h, lead_written hw t']

lemma ends_of_stops {close : UInt8} (hclose : close = 93 ∨ close = 125)
    (h : Separated.Stops 44 close t) : Ends t := by
  intro b hb
  rcases h with h | h
  · exact .inl (Option.some.inj (hb.symm.trans h))
  · rw [Option.some.inj (hb.symm.trans h)]
    exact .inr hclose

lemma kind_of_lead (h : lead v = lead w) : match v with
    | .null => w = .null
    | .bool b => w = .bool b
    | .number _ => ∃ m, w = .number m
    | .string _ => ∃ s, w = .string s
    | .array _ => ∃ a, w = .array a
    | .object _ => ∃ o, w = .object o := by
  rcases v with _ | ⟨_ | _⟩ | _ | _ | _ | _ <;> rcases w with _ | ⟨_ | _⟩ | _ | _ | _ | _ <;>
    simp [lead] at h ⊢

lemma head_written_ne (hv : ∀ n, .number n ∈ v.parts → Plain n) {close : UInt8}
    (hclose : close = 93 ∨ close = 125) (t : List UInt8) : (tufWriter.written v ++ t).head? ≠
    some close := by
  intro h
  have hlead := lead_written hv t
  rw [h, Option.map_some, Option.some.injEq] at hlead
  rcases hclose with rfl | rfl <;> rcases v with _ | ⟨_ | _⟩ | _ | _ | _ | _ <;>
    exact absurd hlead (by simp [lead, isIntegerByte])

theorem written_inj (hv : ∀ n, .number n ∈ v.parts → Plain n)
    (hw : ∀ n, .number n ∈ w.parts → Plain n)
    (ht : Ends t) (ht' : Ends t') (h : tufWriter.written v ++ t = tufWriter.written w ++ t') :
    v = w ∧ t = t' := by
  induction v generalizing w t t' with
  | null =>
    obtain rfl : w = .null := kind_of_lead (lead_eq_of_append_eq hv hw h)
    exact ⟨rfl, append_cancel_left h⟩
  | bool b =>
    obtain rfl : w = .bool b := kind_of_lead (lead_eq_of_append_eq hv hw h)
    exact ⟨rfl, append_cancel_left h⟩
  | number n =>
    obtain ⟨m, rfl⟩ := kind_of_lead (lead_eq_of_append_eq hv hw h)
    obtain ⟨rfl, rfl⟩ := integer_inj (hv n (Value.mem_parts_self _))
      (hw m (Value.mem_parts_self _)) ht ht' h
    exact ⟨rfl, rfl⟩
  | string s =>
    obtain ⟨s', rfl⟩ := kind_of_lead (lead_eq_of_append_eq hv hw h)
    obtain ⟨rfl, rfl⟩ := writeString_inj h
    exact ⟨rfl, rfl⟩
  | array a ih =>
    obtain ⟨a', rfl⟩ := kind_of_lead (lead_eq_of_append_eq hv hw h)
    have hv' : ∀ v ∈ a, ∀ n, .number n ∈ v.parts → Plain n :=
      fun v hmem n hn => hv n (Value.mem_parts_array hmem hn)
    have hw' : ∀ v ∈ a', ∀ n, .number n ∈ v.parts → Plain n :=
      fun v hmem n hn => hw n (Value.mem_parts_array hmem hn)
    rw [tufWriter.written_array, tufWriter.written_array] at h
    simp only [append_assoc, singleton_append] at h
    -- no item begins with the closing bracket, and each can be told from what follows it
    have hstart : ∀ v t, (v ∈ a ∨ v ∈ a') → (tufWriter.written v ++ t).head? ≠ some 93 := by
      rintro v t (hmem | hmem)
      · exact head_written_ne (hv' v hmem) (.inl rfl) t
      · exact head_written_ne (hw' v hmem) (.inl rfl) t
    obtain ⟨rfl, rfl⟩ := Separated.eq_of_append_eq (by decide : (44 : UInt8) ≠ 93)
      (fun v hmem w hmem' t t' hs hs' heq => ih v hmem (hv' v hmem) (hw' w hmem')
        (ends_of_stops (.inl rfl) hs) (ends_of_stops (.inl rfl) hs') heq)
      hstart (cons.inj h).2
    exact ⟨rfl, rfl⟩
  | object o ih =>
    obtain ⟨o', rfl⟩ := kind_of_lead (lead_eq_of_append_eq hv hw h)
    have hv' : ∀ m ∈ o, ∀ n, .number n ∈ m.2.parts → Plain n :=
      fun m hmem n hn => hv n (Value.mem_parts_object hmem hn)
    have hw' : ∀ m ∈ o', ∀ n, .number n ∈ m.2.parts → Plain n :=
      fun m hmem n hn => hw n (Value.mem_parts_object hmem hn)
    rw [tufWriter.written_object, tufWriter.written_object] at h
    simp only [append_assoc, singleton_append] at h
    -- a member begins with the quote of its name, and the name ends before the colon
    have hdec : ∀ m ∈ o, ∀ m' ∈ o', ∀ t t', Separated.Stops 44 125 t → Separated.Stops 44 125 t' →
        tufWriter.writtenMember m ++ t = tufWriter.writtenMember m' ++ t' → m = m' ∧ t = t' := by
      intro m hmem m' hmem' t t' hs hs' heq
      rw [Json.Writer.writtenMember, Json.Writer.writtenMember] at heq
      simp only [append_assoc, singleton_append] at heq
      obtain ⟨hname, hrest⟩ := writeString_inj heq
      obtain ⟨hval, htail⟩ := ih m hmem (hv' m hmem) (hw' m' hmem')
        (ends_of_stops (.inr rfl) hs) (ends_of_stops (.inr rfl) hs') (cons.inj hrest).2
      exact ⟨Prod.ext hname hval, htail⟩
    obtain ⟨rfl, rfl⟩ := Separated.eq_of_append_eq (by decide : (44 : UInt8) ≠ 125) hdec
      (fun m t _ heq => absurd (Option.some.inj heq) (by decide)) (cons.inj h).2
    exact ⟨rfl, rfl⟩

/-! ## One form for one value -/

lemma plain_of_mem_normal (hv : ∀ n, .number n ∈ v.parts → n.text.toList ∈ Json.Grammar.integer)
    (hn : .number n ∈ (v.normal (· ≤ ·)).parts) : Plain n := by
  obtain ⟨m, hm, rfl⟩ := Value.mem_parts_normal hn
  split
  · exact ⟨mem_mul.2 ⟨[], .inl rfl, ['0'], .inl rfl, rfl⟩, by decide⟩
  next hne => exact ⟨hv m hm, hne⟩

/-- `canonical_json` fails exactly where some number is not an integer, and it writes two values
alike exactly where they are the same up to the order of members, at every level, and the spelling
of zero. -/
theorem canonical_json_eq_iff {v w : Value} (hv : v.WellFormed) (hw : w.WellFormed) :
    ((∃ e, canonicalJson v = .error e) ↔
      ∃ n, .number n ∈ v.parts ∧ n.text.toList ∉ Json.Grammar.integer) ∧
    ∀ b c, canonicalJson v = .ok b → canonicalJson w = .ok c → (b = c ↔ v.Same w) := by
  have hinteger : ∀ {v : Value}, v.WellFormed → ∀ n, .number n ∈ v.parts →
      ((∃ b, tufWriter.number n = .ok b) ↔ n.text.toList ∈ Json.Grammar.integer) := by
    intro v hv n hn
    rw [tufWriter_number, Number.isInteger_iff (hv.number n hn)]
  rw [canonicalJson_eq_write v, canonicalJson_eq_write w]
  refine ⟨⟨?_, ?_⟩, ?_⟩
  · rintro ⟨e, he⟩
    by_contra hno
    have hints : ∀ n, .number n ∈ v.parts → ∃ b, tufWriter.number n = .ok b := by
      intro n hn
      rw [hinteger hv n hn]
      by_contra hnot
      exact hno ⟨n, hn, hnot⟩
    rw [tufWriter.write_of_numbers hints] at he
    cases he
  · rintro ⟨n, hn, hnot⟩
    cases hres : tufWriter.write v with
    | error e => exact ⟨e, rfl⟩
    | ok b => exact absurd ((hinteger hv n hn).1 (tufWriter.numbers_of_write hres n hn)) hnot
  · intro b c hb hc
    obtain ⟨hints, rfl⟩ := tufWriter.write_eq_ok_iff.1 hb
    obtain ⟨hints', rfl⟩ := tufWriter.write_eq_ok_iff.1 hc
    rw [Value.same_iff_normal_eq (· ≤ ·) hv.names]
    constructor
    · intro heq
      have hplain := fun n => plain_of_mem_normal (n := n) fun n hn =>
        (hinteger hv n hn).1 (hints n hn)
      have hplain' := fun n => plain_of_mem_normal (n := n) fun n hn =>
        (hinteger hw n hn).1 (hints' n hn)
      have hends : Ends [] := fun b hb => by cases hb
      exact (written_inj hplain hplain' hends hends
        (by rw [append_nil, append_nil]; exact heq)).1
    · intro heq
      show tufWriter.written (v.normal (· ≤ ·)) = tufWriter.written (w.normal (· ≤ ·))
      rw [heq]

theorem canonical_json_eq_iff_swapped :
    ((∃ e, canonicalJson (.object [("b", .number ⟨"-0"⟩), ("a", .string "\"")]) = .error e) ↔
      ∃ n, .number n ∈ (Value.object [("b", .number ⟨"-0"⟩), ("a", .string "\"")]).parts ∧
        n.text.toList ∉ Json.Grammar.integer) ∧
    ∀ b c, canonicalJson (.object [("b", .number ⟨"-0"⟩), ("a", .string "\"")]) = .ok b →
      canonicalJson (.object [("a", .string "\""), ("b", .number ⟨"0"⟩)]) = .ok c →
      (b = c ↔ (Value.object [("b", .number ⟨"-0"⟩), ("a", .string "\"")]).Same
        (.object [("a", .string "\""), ("b", .number ⟨"0"⟩)])) := by
  refine canonical_json_eq_iff ⟨?_, ?_⟩ ⟨?_, ?_⟩
  · intro n hn
    obtain rfl : n = ⟨"-0"⟩ := by simpa using hn
    exact Json.Grammar.mem_number_of_integer
      (mem_mul.2 ⟨['-'], .inr rfl, ['0'], .inl rfl, rfl⟩)
  · intro o ho
    obtain rfl : o = _ := by simpa using ho
    decide
  · intro n hn
    obtain rfl : n = ⟨"0"⟩ := by simpa using hn
    exact Json.Grammar.mem_number_of_integer
      (mem_mul.2 ⟨[], .inl rfl, ['0'], .inl rfl, rfl⟩)
  · intro o ho
    obtain rfl : o = _ := by simpa using ho
    decide

end Lazaret.Tuf
