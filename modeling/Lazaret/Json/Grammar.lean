import Lazaret.Json.Values

/-!
# The grammar of JSON

The texts that stand for a value, by the grammar of RFC 8259.  A string stands for the characters it
is made of: each is written as it is, by a short escape, or by the `\u` escapes of its UTF-16 code
units, so there is no text with a surrogate that is not one of a pair.  A number stands for its own
text, and the members of an object for themselves in the order written.
-/

namespace Lazaret.Json

open List

namespace Grammar

/-- White space: spaces, tabs, line feeds and carriage returns, or none. -/
def ws : Language Char := {w : List Char | ∀ c ∈ w, c = ' ' ∨ c = '\t' ∨ c = '\n' ∨ c = '\r'}

/-! ## Strings -/

def utf16 (c : Char) : List ℕ :=
  if c.toNat < 0x10000 then [c.toNat]
  else [0xD800 + (c.toNat - 0x10000) / 0x400, 0xDC00 + (c.toNat - 0x10000) % 0x400]

/-- The value of a hexadecimal digit, if it is one. -/
def hexValue (c : Char) : Option ℕ :=
  if c.isDigit then some (c.toNat - '0'.toNat)
  else if 'a' ≤ c ∧ c ≤ 'f' then some (c.toNat - 'a'.toNat + 10)
  else if 'A' ≤ c ∧ c ≤ 'F' then some (c.toNat - 'A'.toNat + 10)
  else none

def fourHex (u : ℕ) : Language Char :=
  {w : List Char | ∃ ds : List ℕ, ds.length = 4 ∧ w.map hexValue = ds.map some ∧
    u = ds.foldl (fun n d => n * 16 + d) 0}

def unicodeEscape (u : ℕ) : Language Char := {['\\', 'u']} * fourHex u

def shortEscapes : List (Char × Char) :=
  [('"', '"'), ('\\', '\\'), ('/', '/'), ('b', '\x08'), ('f', '\x0c'), ('n', '\n'), ('r', '\r'),
    ('t', '\t')]

/-- A character that stands for itself: neither a quote nor a backslash nor a control character. -/
def Unescaped (c : Char) : Prop := c ≠ '"' ∧ c ≠ '\\' ∧ 0x20 ≤ c.toNat

instance (c : Char) : Decidable (Unescaped c) :=
  inferInstanceAs (Decidable (c ≠ '"' ∧ c ≠ '\\' ∧ 0x20 ≤ c.toNat))

def char (c : Char) : Language Char :=
  {w : List Char | Unescaped c ∧ w = [c] ∨ (∃ e, (e, c) ∈ shortEscapes ∧ w = ['\\', e]) ∨
    w ∈ ((utf16 c).map unicodeEscape).prod}

def string (s : String) : Language Char := {['"']} * ((s.toList.map char).prod * {['"']})

/-! ## Values -/

/-- Words of the languages with commas between them; only white space where there are none. -/
def separated : List (Language Char) → Language Char
  | [] => ws
  | [l] => l
  | l :: ls => l * ({[',']} * separated ls)

end Grammar

open Grammar

namespace Value

mutual

def texts : Value → Language Char
  | .null => {"null".toList}
  | .bool true => {"true".toList}
  | .bool false => {"false".toList}
  | .number n => {w : List Char | w ∈ Grammar.number ∧ w = n.text.toList}
  | .string s => Grammar.string s
  | .array a => {['[']} * (separated (textsOfItems a) * {[']']})
  | .object o => {['{']} * (separated (textsOfMembers o) * {['}']})

/-- The texts of each item of an array, with the white space around it. -/
def textsOfItems : List Value → List (Language Char)
  | [] => []
  | v :: vs => (ws * (v.texts * ws)) :: textsOfItems vs

/-- The texts of each member of an object, with the white space around it. -/
def textsOfMembers : List (String × Value) → List (Language Char)
  | [] => []
  | (n, v) :: ms =>
    (ws * ((Grammar.string n * (ws * ({[':']} * (ws * v.texts)))) * ws)) :: textsOfMembers ms

end

mutual

/-- How many arrays and objects are inside one another. -/
def nest : Value → ℕ
  | .array a => nestOfItems a + 1
  | .object o => nestOfMembers o + 1
  | _ => 0

def nestOfItems : List Value → ℕ
  | [] => 0
  | v :: vs => max v.nest (nestOfItems vs)

def nestOfMembers : List (String × Value) → ℕ
  | [] => 0
  | (_, v) :: ms => max v.nest (nestOfMembers ms)

end

def memberTexts (m : String × Value) : Language Char :=
  Grammar.string m.1 * (ws * ({[':']} * (ws * m.2.texts)))

lemma texts_array (a : List Value) :
    texts (.array a) = {['[']} * (separated (a.map fun v => ws * (v.texts * ws)) * {[']']}) := by
  have hitems : ∀ vs, textsOfItems vs = vs.map fun v => ws * (v.texts * ws) := by
    intro vs
    induction vs with
    | nil => rfl
    | cons v vs ih => rw [textsOfItems, ih, map_cons]
  rw [texts, hitems]

lemma texts_object (o : List (String × Value)) :
    texts (.object o) = {['{']} *
      (separated (o.map fun m => ws * (memberTexts m * ws)) * {['}']}) := by
  have hmembers : ∀ ms, textsOfMembers ms = ms.map fun m => ws * (memberTexts m * ws) := by
    intro ms
    induction ms with
    | nil => rfl
    | cons m ms ih => rw [textsOfMembers, ih, map_cons, memberTexts]
  rw [texts, hmembers]

lemma nest_array_le {a : List Value} {d : ℕ} :
    nest (.array a) ≤ d + 1 ↔ ∀ v ∈ a, v.nest ≤ d := by
  have hitems : ∀ vs, nestOfItems vs ≤ d ↔ ∀ v ∈ vs, v.nest ≤ d := by
    intro vs
    induction vs with
    | nil => simp [nestOfItems]
    | cons v vs ih => rw [nestOfItems, max_le_iff, ih, forall_mem_cons]
  rw [nest, add_le_add_iff_right, hitems]

lemma nest_object_le {o : List (String × Value)} {d : ℕ} :
    nest (.object o) ≤ d + 1 ↔ ∀ m ∈ o, m.2.nest ≤ d := by
  have hmembers : ∀ ms, nestOfMembers ms ≤ d ↔ ∀ m ∈ ms, m.2.nest ≤ d := by
    intro ms
    induction ms with
    | nil => simp [nestOfMembers]
    | cons m ms ih => rw [nestOfMembers, max_le_iff, ih, forall_mem_cons]
  rw [nest, add_le_add_iff_right, hmembers]

lemma namesOnce_array {a : List Value} : NamesOnce (.array a) ↔ ∀ v ∈ a, v.NamesOnce := by
  constructor
  · intro h v hv o ho
    exact h o (mem_parts_array hv ho)
  · intro h o ho
    rw [parts_array] at ho
    rcases mem_cons.1 ho with ho | ho
    · exact absurd ho (by simp)
    · obtain ⟨v, hv, ho⟩ := mem_flatMap.1 ho
      exact h v hv o ho

lemma namesOnce_object {o : List (String × Value)} :
    NamesOnce (.object o) ↔ (o.map Prod.fst).Nodup ∧ ∀ m ∈ o, m.2.NamesOnce := by
  constructor
  · intro h
    exact ⟨h o (mem_parts_self _), fun m hm o' ho' => h o' (mem_parts_object hm ho')⟩
  · rintro ⟨hnames, h⟩ o' ho'
    rw [parts_object] at ho'
    rcases mem_cons.1 ho' with ho' | ho'
    · rw [Value.object.inj ho']
      exact hnames
    · obtain ⟨m, hm, ho'⟩ := mem_flatMap.1 ho'
      exact h m hm o' ho'

end Value

end Lazaret.Json
