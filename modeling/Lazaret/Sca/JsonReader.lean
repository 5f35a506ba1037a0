import Lazaret.Sca.JsonText

/-!
# Reading JSON text

`json.loads` of a text as `json.dumps` writes it, with nothing between its parts (`readJson`).  What
is written is read back (`readJson_write`).
-/

namespace Lazaret.Sca

open List Option

/-! ## Strings -/

def hexValue (c : Char) : Option ℕ :=
  if isDigit c then some (c.toNat - 48)
  else if 'a' ≤ c ∧ c ≤ 'f' then some (c.toNat - 87)
  else none

def readHex : Text → Option (ℕ × Text)
  | a :: b :: c :: d :: rest => do
    let a ← hexValue a
    let b ← hexValue b
    let c ← hexValue c
    let d ← hexValue d
    some (a * 4096 + b * 256 + c * 16 + d, rest)
  | _ => none

/-- The character that digits after a backslash and a `u` give; two surrogates give one. -/
def readUnicode (text : Text) : Option (Char × Text) :=
  match readHex text with
  | none => none
  | some (n, rest) =>
    if 0xd800 ≤ n ∧ n < 0xdc00 then
      (readHex (rest.drop 2)).map fun m =>
        (Char.ofNat (0x10000 + (n - 0xd800) * 1024 + (m.1 - 0xdc00)), m.2)
    else some (Char.ofNat n, rest)

def readEscape : Text → Option (Char × Text)
  | [] => none
  | e :: rest =>
    if e = 'u' then readUnicode rest
    else if e = 'n' then some ('\n', rest)
    else if e = 'r' then some ('\r', rest)
    else if e = 't' then some ('\t', rest)
    else if e = 'f' then some (Char.ofNat 12, rest)
    else if e = 'b' then some (Char.ofNat 8, rest)
    else some (e, rest)

def readChar : Text → Option (Char × Text)
  | [] => none
  | c :: rest => if c = '\\' then readEscape rest else some (c, rest)

/-- A string up to its closing quote; the fuel bounds its length. -/
def readString : ℕ → Text → Option (Text × Text)
  | 0, _ => none
  | fuel + 1, text =>
    if text.head? = some '"' then some ([], text.tail)
    else
      match readChar text with
      | none => none
      | some (c, rest) => (readString fuel rest).map fun s => (c :: s.1, s.2)

lemma hexValue_hexDigit {n : ℕ} (h : n < 16) : hexValue (hexDigit n) = some n := by
  have hall : ∀ k < 16, hexValue (hexDigit k) = some k := by decide
  exact hall n h

lemma readHex_digits {n : ℕ} (h : n < 65536) (r : Text) :
    readHex (hexDigit (n / 4096 % 16) :: hexDigit (n / 256 % 16) :: hexDigit (n / 16 % 16) ::
      hexDigit (n % 16) :: r) = some (n, r) := by
  have hmod : ∀ k, k % 16 < 16 := fun k => Nat.mod_lt k (by decide)
  rw [readHex]
  simp only [hexValue_hexDigit (hmod _), bind_eq_bind, bind_some, some.injEq,
    Prod.mk.injEq, and_true]
  omega

lemma readChar_unicodeEscape {n : ℕ} (h : n < 65536) (hs : ¬ (0xd800 ≤ n ∧ n < 0xdc00)) (r : Text) :
    readChar (unicodeEscape n ++ r) = some (Char.ofNat n, r) := by
  have hhex := readHex_digits h r
  rw [unicodeEscape, cons_append, cons_append, readChar, if_pos rfl, readEscape,
    if_pos rfl, readUnicode]
  simp only [cons_append, nil_append, hhex, if_neg hs]

lemma readChar_surrogates {k : ℕ} (h : k < 0x100000) (r : Text) :
    readChar (unicodeEscape (0xd800 + k / 1024) ++ (unicodeEscape (0xdc00 + k % 1024) ++ r)) =
      some (Char.ofNat (0x10000 + k), r) := by
  have hhigh := readHex_digits (n := 0xd800 + k / 1024) (by omega)
    (unicodeEscape (0xdc00 + k % 1024) ++ r)
  have hlow := readHex_digits (n := 0xdc00 + k % 1024) (by omega) r
  have hdrop : (unicodeEscape (0xdc00 + k % 1024) ++ r).drop 2 =
      hexDigit ((0xdc00 + k % 1024) / 4096 % 16) :: hexDigit ((0xdc00 + k % 1024) / 256 % 16) ::
        hexDigit ((0xdc00 + k % 1024) / 16 % 16) :: hexDigit ((0xdc00 + k % 1024) % 16) :: r := rfl
  have hvalue : 0x10000 + (0xd800 + k / 1024 - 0xd800) * 1024 + (0xdc00 + k % 1024 - 0xdc00) =
      0x10000 + k := by omega
  rw [unicodeEscape, cons_append, cons_append, readChar, if_pos rfl, readEscape,
    if_pos rfl, readUnicode]
  simp only [cons_append, nil_append, hhigh]
  rw [if_pos ⟨by omega, by omega⟩, hdrop, hlow, map_some, hvalue]

lemma readChar_escapeChar (c : Char) (r : Text) :
    readChar (escapeChar c ++ r) = some (c, r) := by
  have hof : Char.ofNat c.toNat = c := Char.ofNat_toNat c
  rw [escapeChar]
  split
  · subst_vars
    rfl
  split
  · subst_vars
    rfl
  split
  · subst_vars
    rfl
  split
  · subst_vars
    rfl
  split
  · subst_vars
    rfl
  split
  · rename_i h
    rw [← hof, h]
    rfl
  split
  · rename_i h
    rw [← hof, h]
    rfl
  split
  · rename_i _ hback _ _ _ _ _ _
    rw [singleton_append, readChar, if_neg hback]
  split
  · rename_i hbmp
    have hvalid : ¬ (0xd800 ≤ c.toNat ∧ c.toNat < 0xdc00) := by
      have hc := c.valid
      simp only [UInt32.isValidChar, Nat.isValidChar] at hc
      have heq : c.val.toNat = c.toNat := rfl
      omega
    rw [readChar_unicodeEscape hbmp hvalid, hof]
  · rename_i hbmp
    have hmax : c.toNat < 0x110000 := by
      have hc := c.valid
      simp only [UInt32.isValidChar, Nat.isValidChar] at hc
      have heq : c.val.toNat = c.toNat := rfl
      omega
    have hsum : 0x10000 + (c.toNat - 0x10000) = c.toNat := by omega
    rw [append_assoc, readChar_surrogates (by omega), hsum, hof]

lemma head?_escapeChar (c : Char) (r : Text) : (escapeChar c ++ r).head? ≠ some '"' := by
  rw [escapeChar]
  split
  · simp
  split
  · simp
  split
  · simp
  split
  · simp
  split
  · simp
  split
  · simp
  split
  · simp
  split
  · rename_i hquote _ _ _ _ _ _ _
    simpa using hquote
  split
  · simp [unicodeEscape]
  · simp [unicodeEscape]

lemma readString_quote (t : Text) {fuel : ℕ} (h : t.length < fuel) (r : Text) :
    readString fuel (t.flatMap escapeChar ++ '"' :: r) = some (t, r) := by
  induction t generalizing fuel with
  | nil =>
    obtain ⟨fuel, rfl⟩ : ∃ k, fuel = k + 1 := ⟨fuel - 1, by omega⟩
    rfl
  | cons c t ih =>
    obtain ⟨fuel, rfl⟩ : ∃ k, fuel = k + 1 := ⟨fuel - 1, by omega⟩
    rw [length_cons] at h
    rw [flatMap_cons, append_assoc, readString, if_neg (head?_escapeChar c _), readChar_escapeChar]
    dsimp only
    rw [ih (by omega), map_some]

/-! ## Values -/

def isNumeralChar (c : Char) : Bool := isDigit c || c = '-' || c = '+' || c = '.' || c = 'e'

def readWord (text : Text) : Option (Json × Text) :=
  if "null".toList.isPrefixOf text then some (.null, text.drop 4)
  else if "true".toList.isPrefixOf text then some (.bool true, text.drop 4)
  else if "false".toList.isPrefixOf text then some (.bool false, text.drop 5)
  else
    let s := text.takeWhile isNumeralChar
    if s = [] then none else some (.number s, text.drop s.length)

mutual

/-- A value, and what follows; the fuel bounds how many calls there are. -/
def readValue : ℕ → Text → Option (Json × Text)
  | 0, _ => none
  | fuel + 1, text =>
    match text with
    | '"' :: rest => (readString (fuel + 1) rest).map fun s => (.text s.1, s.2)
    | '[' :: rest =>
      match readItems fuel rest with
      | some l => some (.list l.1, l.2)
      | none => if rest.head? = some ']' then some (.list [], rest.tail) else none
    | '{' :: rest =>
      match readMembers fuel rest with
      | some m => some (.dict m.1, m.2)
      | none => if rest.head? = some '}' then some (.dict [], rest.tail) else none
    | text => readWord text

def readItems : ℕ → Text → Option (List Json × Text)
  | 0, _ => none
  | fuel + 1, text =>
    match readValue fuel text with
    | none => none
    | some (v, rest) =>
      if rest.head? = some ',' then
        (readItems fuel rest.tail).map fun l => (v :: l.1, l.2)
      else if rest.head? = some ']' then some ([v], rest.tail)
      else none

def readMembers : ℕ → Text → Option (List (Text × Json) × Text)
  | 0, _ => none
  | fuel + 1, text =>
    match readString (fuel + 1) text.tail with
    | none => none
    | some (k, colon) =>
      if text.head? = some '"' ∧ colon.head? = some ':' then
        match readValue fuel colon.tail with
        | none => none
        | some (v, rest) =>
          if rest.head? = some ',' then
            (readMembers fuel rest.tail).map fun m => ((k, v) :: m.1, m.2)
          else if rest.head? = some '}' then some ([(k, v)], rest.tail)
          else none
      else none

end

/-- `json.loads` of such a text. -/
def readJson (text : Text) : Option Json :=
  match readValue (3 * text.length) text with
  | some (v, []) => some v
  | _ => none

/-! ### Of a written text -/

def EndsNumber (r : Text) : Prop := r.head?.all (fun c => !isNumeralChar c) = true

lemma endsNumber_cons {c : Char} (h : isNumeralChar c = false) (r : Text) :
    EndsNumber (c :: r) := by
  rw [EndsNumber, head?_cons, all_some, h]
  rfl

lemma takeWhile_numeral {s r : Text} (hs : isNumeral s = true) (hr : EndsNumber r) :
    (s ++ r).takeWhile isNumeralChar = s := by
  rw [isNumeral, Bool.and_eq_true] at hs
  have hall : ∀ c ∈ s, isNumeralChar c = true := all_eq_true.1 hs.2
  have hend : r.takeWhile isNumeralChar = [] := by
    cases r with
    | nil => rfl
    | cons c r =>
      have hc : isNumeralChar c = false := by simpa [EndsNumber] using hr
      rw [takeWhile_cons, hc]
      rfl
  rw [takeWhile_append_of_pos hall, hend, append_nil]

lemma readWord_numeral {s r : Text} (hs : isNumeral s = true) (hr : EndsNumber r) :
    readWord (s ++ r) = some (.number s, r) := by
  have htake := takeWhile_numeral hs hr
  cases s with
  | nil => cases hs
  | cons c s =>
    have hc : (isDigit c || c = '-') = true := by
      rw [isNumeral, Bool.and_eq_true] at hs
      exact hs.1
    have hword : ∀ (d : Char) (t : Text), (isDigit d || d = '-') = false →
        (d :: t).isPrefixOf (c :: s ++ r) = false := by
      intro d t hd
      have hne : (d == c) = false := by
        rw [beq_eq_false_iff_ne]
        rintro rfl
        rw [hc] at hd
        cases hd
      rw [cons_append, List.isPrefixOf, hne, Bool.false_and]
    have hn : "null".toList = 'n' :: "ull".toList := rfl
    have ht : "true".toList = 't' :: "rue".toList := rfl
    have hf : "false".toList = 'f' :: "alse".toList := rfl
    rw [readWord, hn, ht, hf, hword 'n' _ (by decide), hword 't' _ (by decide),
      hword 'f' _ (by decide), htake]
    simp

mutual

def fuelOf : Json → ℕ
  | .text t => t.length + 1
  | .list l => fuelOfItems l + 1
  | .dict m => fuelOfMembers m + 1
  | .null | .bool _ | .number _ => 1

def fuelOfItems : List Json → ℕ
  | [] => 0
  | v :: l => fuelOf v + fuelOfItems l + 1

def fuelOfMembers : List (Text × Json) → ℕ
  | [] => 0
  | e :: m => e.1.length + fuelOf e.2 + fuelOfMembers m + 1

end

lemma readValue_quote (t r : Text) {fuel : ℕ} (h : t.length < fuel) :
    readValue fuel (quote t ++ r) = some (.text t, r) := by
  obtain ⟨fuel, rfl⟩ : ∃ k, fuel = k + 1 := ⟨fuel - 1, by omega⟩
  rw [quote, cons_append, append_assoc, singleton_append, readValue, readString_quote t h, map_some]

lemma readValue_numeral {s r : Text} (hs : isNumeral s = true) (hr : EndsNumber r) (fuel : ℕ) :
    readValue (fuel + 1) (s ++ r) = some (.number s, r) := by
  rw [← readWord_numeral hs hr]
  cases s with
  | nil => cases hs
  | cons c s =>
    have hc : (isDigit c || c = '-') = true := by
      rw [isNumeral, Bool.and_eq_true] at hs
      exact hs.1
    rw [cons_append, readValue.eq_def]
    dsimp only
    split
    · rename_i heq
      rw [(cons.inj heq).1] at hc
      exact absurd hc (by decide)
    · rename_i heq
      rw [(cons.inj heq).1] at hc
      exact absurd hc (by decide)
    · rename_i heq
      rw [(cons.inj heq).1] at hc
      exact absurd hc (by decide)
    · rfl

lemma readItems_close (fuel : ℕ) (r : Text) : readItems fuel (']' :: r) = none := by
  cases fuel with
  | zero => rfl
  | succ fuel => cases fuel <;> rfl

lemma readMembers_close (fuel : ℕ) (r : Text) : readMembers fuel ('}' :: r) = none := by
  cases fuel with
  | zero => rfl
  | succ fuel =>
    have hhead : ¬ some '}' = some '"' := by decide
    rw [readMembers, head?_cons]
    split
    · rfl
    · rw [if_neg fun h => hhead h.1]

lemma readMembers_quote {k : Text} {fuel : ℕ} (h : k.length < fuel + 1) {v : Json} {r r' : Text}
    (hv : readValue fuel r = some (v, r')) :
    readMembers (fuel + 1) (quote k ++ ':' :: r) =
      if r'.head? = some ',' then (readMembers fuel r'.tail).map fun m => ((k, v) :: m.1, m.2)
      else if r'.head? = some '}' then some ([(k, v)], r'.tail)
      else none := by
  have hquote : quote k ++ ':' :: r = '"' :: (k.flatMap escapeChar ++ '"' :: ':' :: r) := by
    rw [quote, cons_append, append_assoc, singleton_append]
  rw [hquote, readMembers, tail_cons, readString_quote k h]
  dsimp only
  rw [if_pos ⟨head?_cons, head?_cons⟩, tail_cons, hv]

mutual

theorem readValue_write : ∀ (v : Json) {fuel : ℕ} {r : Text}, v.finite floats → fuelOf v ≤ fuel →
    EndsNumber r → readValue fuel (write v ++ r) = some (v, r)
  | .null, fuel, r, _, h, _ => by
    obtain ⟨fuel, rfl⟩ : ∃ k, fuel = k + 1 := ⟨fuel - 1, by rw [fuelOf] at h; omega⟩
    rfl
  | .bool b, fuel, r, _, h, _ => by
    obtain ⟨fuel, rfl⟩ : ∃ k, fuel = k + 1 := ⟨fuel - 1, by rw [fuelOf] at h; omega⟩
    cases b <;> rfl
  | .number s, fuel, r, hf, h, hr => by
    obtain ⟨fuel, rfl⟩ : ∃ k, fuel = k + 1 := ⟨fuel - 1, by rw [fuelOf] at h; omega⟩
    rw [write]
    exact readValue_numeral (isNumeral_of_isNumber hf) hr fuel
  | .text t, fuel, r, _, h, _ => by
    rw [write]
    exact readValue_quote t r h
  | .list [], fuel, r, _, h, _ => by
    obtain ⟨fuel, rfl⟩ : ∃ k, fuel = k + 1 := ⟨fuel - 1, by rw [fuelOf] at h; omega⟩
    rw [write, writeItems, nil_append, cons_append, singleton_append, readValue, readItems_close]
    rfl
  | .list (v :: l), fuel, r, hf, h, _ => by
    obtain ⟨fuel, rfl⟩ : ∃ k, fuel = k + 1 := ⟨fuel - 1, by rw [fuelOf] at h; omega⟩
    rw [fuelOf] at h
    rw [write, cons_append, append_assoc, singleton_append, readValue,
      readItems_write (v :: l) (cons_ne_nil v l) hf (by omega)]
  | .dict [], fuel, r, _, h, _ => by
    obtain ⟨fuel, rfl⟩ : ∃ k, fuel = k + 1 := ⟨fuel - 1, by rw [fuelOf] at h; omega⟩
    rw [write, writeMembers, nil_append, cons_append, singleton_append, readValue,
      readMembers_close]
    rfl
  | .dict (e :: m), fuel, r, hf, h, _ => by
    obtain ⟨fuel, rfl⟩ : ∃ k, fuel = k + 1 := ⟨fuel - 1, by rw [fuelOf] at h; omega⟩
    rw [fuelOf] at h
    rw [write, cons_append, append_assoc, singleton_append, readValue,
      readMembers_write (e :: m) (cons_ne_nil e m) hf (by omega)]

theorem readItems_write : ∀ (l : List Json) {fuel : ℕ} {r : Text}, l ≠ [] →
    Json.finiteItems floats l → fuelOfItems l ≤ fuel →
    readItems fuel (writeItems l ++ ']' :: r) = some (l, r)
  | [], _, _, hne, _, _ => absurd rfl hne
  | [v], fuel, r, _, hf, h => by
    obtain ⟨fuel, rfl⟩ : ∃ k, fuel = k + 1 := ⟨fuel - 1, by rw [fuelOfItems] at h; omega⟩
    rw [fuelOfItems] at h
    rw [Json.finiteItems, Bool.and_eq_true] at hf
    rw [writeItems, if_pos rfl, writeItems, append_nil, append_nil, readItems,
      readValue_write v hf.1 (by omega) (endsNumber_cons (by decide) _)]
    rfl
  | v :: w :: l, fuel, r, _, hf, h => by
    obtain ⟨fuel, rfl⟩ : ∃ k, fuel = k + 1 := ⟨fuel - 1, by rw [fuelOfItems] at h; omega⟩
    rw [fuelOfItems] at h
    rw [Json.finiteItems, Bool.and_eq_true] at hf
    rw [writeItems, if_neg (cons_ne_nil w l), append_assoc, append_assoc,
      singleton_append, readItems,
      readValue_write v hf.1 (by omega) (endsNumber_cons (by decide) _)]
    dsimp only
    rw [head?_cons, if_pos rfl, tail_cons,
      readItems_write (w :: l) (cons_ne_nil w l) hf.2 (by omega), map_some]

theorem readMembers_write : ∀ (m : List (Text × Json)) {fuel : ℕ} {r : Text}, m ≠ [] →
    Json.finiteMembers floats m → fuelOfMembers m ≤ fuel →
    readMembers fuel (writeMembers m ++ '}' :: r) = some (m, r)
  | [], _, _, hne, _, _ => absurd rfl hne
  | [e], fuel, r, _, hf, h => by
    obtain ⟨fuel, rfl⟩ : ∃ k, fuel = k + 1 := ⟨fuel - 1, by rw [fuelOfMembers] at h; omega⟩
    rw [fuelOfMembers] at h
    rw [Json.finiteMembers, Bool.and_eq_true] at hf
    have hv : readValue fuel (write e.2 ++ '}' :: r) = some (e.2, '}' :: r) :=
      readValue_write e.2 hf.1 (by omega) (endsNumber_cons (by decide) r)
    rw [writeMembers, if_pos rfl, writeMembers, append_nil, append_nil,
      append_assoc, cons_append, readMembers_quote (by omega) hv]
    rfl
  | e :: f :: m, fuel, r, _, hf, h => by
    obtain ⟨fuel, rfl⟩ : ∃ k, fuel = k + 1 := ⟨fuel - 1, by rw [fuelOfMembers] at h; omega⟩
    rw [fuelOfMembers] at h
    rw [Json.finiteMembers, Bool.and_eq_true] at hf
    have hv : readValue fuel (write e.2 ++ ',' :: (writeMembers (f :: m) ++ '}' :: r)) =
        some (e.2, ',' :: (writeMembers (f :: m) ++ '}' :: r)) :=
      readValue_write e.2 hf.1 (by omega) (endsNumber_cons (by decide) _)
    rw [writeMembers, if_neg (cons_ne_nil f m), append_assoc, cons_append, append_assoc,
      append_assoc, singleton_append, readMembers_quote (by omega) hv, head?_cons, if_pos rfl,
      tail_cons, readMembers_write (f :: m) (cons_ne_nil f m) hf.2 (by omega), map_some]

end

lemma length_escapeChar_pos (c : Char) : 0 < (escapeChar c).length := by
  rw [length_pos_iff]
  intro hnil
  have hread := readChar_escapeChar c []
  rw [hnil] at hread
  cases hread

lemma length_quote (t : Text) : t.length + 2 ≤ (quote t).length := by
  have hbody : t.length ≤ (t.flatMap escapeChar).length := by
    induction t with
    | nil => exact Nat.zero_le _
    | cons c t ih =>
      have hpos := length_escapeChar_pos c
      rw [flatMap_cons, length_append, length_cons]
      omega
  rw [quote, length_cons, length_append, length_singleton]
  omega

mutual

theorem fuelOf_le : ∀ v : Json, v.finite floats → fuelOf v ≤ 3 * (write v).length
  | .null, _ => by decide
  | .bool b, _ => by cases b <;> decide
  | .number s, hf => by
    cases s with
    | nil => cases hf
    | cons c s =>
      rw [fuelOf, write, length_cons]
      omega
  | .text t, _ => by
    have ht := length_quote t
    rw [fuelOf, write]
    omega
  | .list l, hf => by
    have hl := fuelOfItems_le l hf
    rw [fuelOf, write, length_cons, length_append, length_singleton]
    omega
  | .dict m, hf => by
    have hm := fuelOfMembers_le m hf
    rw [fuelOf, write, length_cons, length_append, length_singleton]
    omega

theorem fuelOfItems_le : ∀ l : List Json, Json.finiteItems floats l →
    fuelOfItems l ≤ 3 * (writeItems l).length + 3
  | [], _ => Nat.zero_le _
  | v :: l, hf => by
    rw [Json.finiteItems, Bool.and_eq_true] at hf
    have hv := fuelOf_le v hf.1
    have hl := fuelOfItems_le l hf.2
    rw [fuelOfItems, writeItems, length_append, length_append]
    cases l with
    | nil =>
      rw [fuelOfItems]
      omega
    | cons w l =>
      rw [if_neg (cons_ne_nil w l), length_singleton]
      omega

theorem fuelOfMembers_le : ∀ m : List (Text × Json), Json.finiteMembers floats m →
    fuelOfMembers m ≤ 3 * (writeMembers m).length
  | [], _ => Nat.zero_le _
  | e :: m, hf => by
    rw [Json.finiteMembers, Bool.and_eq_true] at hf
    have hk := length_quote e.1
    have hv := fuelOf_le e.2 hf.1
    have hm := fuelOfMembers_le m hf.2
    rw [fuelOfMembers, writeMembers, length_append, length_cons, length_append, length_append]
    omega

end

theorem readJson_write {v : Json} (h : v.finite floats) : readJson (write v) = some v := by
  have hread := readValue_write v (r := []) h (fuelOf_le v h) rfl
  rw [append_nil] at hread
  rw [readJson, hread]

theorem readJson_dumps {recursion : ℕ} {v : Json} {text : Text}
    (h : dumps floats recursion v = some text) : readJson text = some v.sorted := by
  obtain ⟨⟨hfinite, -⟩, rfl⟩ := dumps_eq_some.1 h
  exact readJson_write (by rw [Json.finite_sorted, hfinite])

end Lazaret.Sca
