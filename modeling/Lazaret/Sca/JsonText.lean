import Lazaret.Sca.Osv

/-!
# JSON text

The text that `json.dumps` writes of a value, with the keys of each dictionary in order (`dumps`),
and the bound that `core.py` puts on how deep a text nests before it is parsed (`jsonDepthExceeds`).
The bound counts brackets outside strings; of a written text it finds the depth of the value
(`jsonDepthExceeds_dumps`).
-/

namespace Lazaret.Sca

open List

namespace Json

/-! ## Values -/

mutual

def depth : Json → ℕ
  | .list l => depthItems l + 1
  | .dict m => depthMembers m + 1
  | .null | .bool _ | .number _ | .text _ => 0

def depthItems : List Json → ℕ
  | [] => 0
  | v :: l => max (depth v) (depthItems l)

def depthMembers : List (Text × Json) → ℕ
  | [] => 0
  | m :: l => max (depth m.2) (depthMembers l)

end

mutual

def Distinct : Json → Prop
  | .list l => DistinctItems l
  | .dict m => (m.map Prod.fst).Nodup ∧ DistinctMembers m
  | .null | .bool _ | .number _ | .text _ => True

def DistinctItems : List Json → Prop
  | [] => True
  | v :: l => Distinct v ∧ DistinctItems l

def DistinctMembers : List (Text × Json) → Prop
  | [] => True
  | m :: l => Distinct m.2 ∧ DistinctMembers l

end

mutual

/-- The value with the keys of each dictionary in order. -/
def sorted : Json → Json
  | .list l => .list (sortedItems l)
  | .dict m => .dict ((sortedMembers m).insertionSort fun a b => a.1 ≤ b.1)
  | .null => .null
  | .bool b => .bool b
  | .number s => .number s
  | .text t => .text t

def sortedItems : List Json → List Json
  | [] => []
  | v :: l => sorted v :: sortedItems l

def sortedMembers : List (Text × Json) → List (Text × Json)
  | [] => []
  | m :: l => (m.1, sorted m.2) :: sortedMembers l

end

lemma sortedItems_eq (l : List Json) : sortedItems l = l.map sorted := by
  induction l with
  | nil => rfl
  | cons v l ih => rw [sortedItems, ih, map_cons]

lemma sortedMembers_eq (m : List (Text × Json)) :
    sortedMembers m = m.map fun e => (e.1, sorted e.2) := by
  induction m with
  | nil => rfl
  | cons e m ih => rw [sortedMembers, ih, map_cons]

variable {l : List Json}

lemma distinctItems_iff : DistinctItems l ↔ ∀ v ∈ l, Distinct v := by
  induction l with
  | nil => simp [DistinctItems]
  | cons v l ih => rw [DistinctItems, ih, forall_mem_cons]

lemma distinctMembers_iff {m : List (Text × Json)} :
    DistinctMembers m ↔ ∀ e ∈ m, Distinct e.2 := by
  induction m with
  | nil => simp [DistinctMembers]
  | cons e m ih => rw [DistinctMembers, ih, forall_mem_cons]

variable {v : Json}

lemma le_depthItems (h : v ∈ l) : depth v ≤ depthItems l := by
  induction l with
  | nil => cases h
  | cons w l ih =>
    rw [depthItems]
    obtain rfl | h := mem_cons.1 h
    · exact le_max_left _ _
    · exact (ih h).trans (le_max_right _ _)

lemma depthMembers_eq (m : List (Text × Json)) : depthMembers m = depthItems (m.map Prod.snd) := by
  induction m with
  | nil => rfl
  | cons e m ih => rw [depthMembers, ih, map_cons, depthItems]

lemma depthItems_le {n : ℕ} : depthItems l ≤ n ↔ ∀ v ∈ l, depth v ≤ n := by
  induction l with
  | nil => simp [depthItems]
  | cons v l ih => rw [depthItems, Nat.max_le, ih, forall_mem_cons]

lemma depthItems_perm {l' : List Json} (h : l.Perm l') : depthItems l = depthItems l' := by
  apply le_antisymm
  · exact depthItems_le.2 fun v hv => le_depthItems (h.mem_iff.1 hv)
  · exact depthItems_le.2 fun v hv => le_depthItems (h.mem_iff.2 hv)

mutual

theorem depth_sorted : ∀ v : Json, depth (sorted v) = depth v
  | .list l => by
    rw [sorted, depth, depth, depthItems_sorted l]
  | .dict m => by
    have hperm := (perm_insertionSort (fun a b : Text × Json => a.1 ≤ b.1)
      (sortedMembers m)).map Prod.snd
    rw [sorted, depth, depth, depthMembers_eq, depthItems_perm hperm, ← depthMembers_eq,
      depthMembers_sorted m]
  | .null | .bool _ | .number _ | .text _ => rfl

theorem depthItems_sorted : ∀ l : List Json, depthItems (sortedItems l) = depthItems l
  | [] => rfl
  | v :: l => by rw [sortedItems, depthItems, depthItems, depth_sorted v, depthItems_sorted l]

theorem depthMembers_sorted : ∀ m : List (Text × Json),
    depthMembers (sortedMembers m) = depthMembers m
  | [] => rfl
  | e :: m => by
    rw [sortedMembers, depthMembers, depthMembers, depth_sorted e.2, depthMembers_sorted m]

end

/-! ## Reading members -/

lemma find?_key {m : List (Text × Json)} (h : (m.map Prod.fst).Nodup) {k : Text} {e : Text × Json} :
    m.find? (fun e => e.1 = k) = some e ↔ e ∈ m ∧ e.1 = k := by
  constructor
  · intro hfind
    exact ⟨mem_of_find?_eq_some hfind, by simpa using List.find?_some hfind⟩
  · rintro ⟨hmem, rfl⟩
    cases hfind : m.find? fun e' => e'.1 = e.1 with
    | none =>
      have hnot := List.find?_eq_none.1 hfind e hmem
      simp at hnot
    | some e' =>
      have hkey : e'.1 = e.1 := by simpa using List.find?_some hfind
      rw [inj_on_of_nodup_map h (mem_of_find?_eq_some hfind) hmem hkey]

theorem get?_sorted (h : Distinct v) (key : String) :
    (sorted v).get? key = (v.get? key).map sorted := by
  cases v with
  | dict m =>
    rw [Distinct] at h
    have hperm := perm_insertionSort (fun a b : Text × Json => a.1 ≤ b.1) (sortedMembers m)
    have hkeys : (sortedMembers m).map Prod.fst = m.map Prod.fst := by
      rw [sortedMembers_eq, map_map]
      rfl
    have hnodup : (((sortedMembers m).insertionSort fun a b => a.1 ≤ b.1).map
        Prod.fst).Nodup := by
      rw [(hperm.map Prod.fst).nodup_iff, hkeys]
      exact h.1
    rw [sorted, get?, get?]
    cases hfind : m.find? fun e => e.1 = key.toList with
    | none =>
      rw [Option.map_none, Option.map_none, Option.map_eq_none_iff, List.find?_eq_none]
      intro e he
      rw [hperm.mem_iff, sortedMembers_eq] at he
      obtain ⟨e', he', rfl⟩ := mem_map.1 he
      exact List.find?_eq_none.1 hfind e' he'
    | some e =>
      obtain ⟨hmem, hkey⟩ := (find?_key h.1).1 hfind
      have hmem' : (e.1, sorted e.2) ∈
          (sortedMembers m).insertionSort fun a b => a.1 ≤ b.1 := by
        rw [hperm.mem_iff, sortedMembers_eq]
        exact mem_map.2 ⟨e, hmem, rfl⟩
      rw [(find?_key hnodup).2 ⟨hmem', hkey⟩]
      rfl
  | null | bool _ | number _ | text _ | list _ => rfl

lemma distinct_get? {w : Json} (h : Distinct v) {key : String} (hget : v.get? key = some w) :
    Distinct w := by
  cases v with
  | dict m =>
    rw [Distinct, distinctMembers_iff] at h
    obtain ⟨e, he, rfl⟩ := Option.map_eq_some_iff.1 hget
    exact h.2 e (mem_of_find?_eq_some he)
  | null | bool _ | number _ | text _ | list _ => cases hget

end Json

/-! ## Writing -/

/-- The characters of a number that JSON has; `nan` and `inf` have others. -/
def isNumeral (s : Text) : Bool :=
  s.head?.any (fun c => isDigit c || c = '-') &&
    s.all fun c => isDigit c || c = '-' || c = '+' || c = '.' || c = 'e'

def MAX_STR_DIGITS : ℕ := 4300

/-- What `int.__repr__` writes: the digits of a longer number are not written. -/
def isInteger (s : Text) : Bool :=
  let ds := if s.head? = some '-' then s.tail else s
  ds ≠ [] ∧ ds.length ≤ MAX_STR_DIGITS ∧ ds.all isDigit ∧ (ds.head? = some '0' → s = ['0'])

/-- What Python writes of a number that JSON has, where these are the texts of its floats. -/
def isNumber (floats : Text → Bool) (s : Text) : Bool := isNumeral s && (isInteger s || floats s)

lemma isNumeral_of_isNumber {floats : Text → Bool} {s : Text} (h : isNumber floats s = true) :
    isNumeral s = true :=
  ((Bool.and_eq_true _ _).mp h).1

variable (floats : Text → Bool)

/-- `"0123456789abcdef"[n]` -/
def hexDigit (n : ℕ) : Char := Char.ofNat (if n < 10 then 48 + n else 87 + n)

/-- `'\\u{0:04x}'` -/
def unicodeEscape (n : ℕ) : Text :=
  ['\\', 'u', hexDigit (n / 4096 % 16), hexDigit (n / 256 % 16), hexDigit (n / 16 % 16),
    hexDigit (n % 16)]

/-- `py_encode_basestring_ascii`, of one character: past U+FFFF it is two surrogates. -/
def escapeChar (c : Char) : Text :=
  if c = '"' then ['\\', '"']
  else if c = '\\' then ['\\', '\\']
  else if c = '\n' then ['\\', 'n']
  else if c = '\r' then ['\\', 'r']
  else if c = '\t' then ['\\', 't']
  else if c.toNat = 12 then ['\\', 'f']
  else if c.toNat = 8 then ['\\', 'b']
  else if 32 ≤ c.toNat ∧ c.toNat ≤ 126 then [c]
  else if c.toNat < 0x10000 then unicodeEscape c.toNat
  else unicodeEscape (0xd800 + (c.toNat - 0x10000) / 1024) ++
    unicodeEscape (0xdc00 + (c.toNat - 0x10000) % 1024)

def quote (t : Text) : Text := '"' :: (t.flatMap escapeChar ++ ['"'])

mutual

/-- The text of a value, with `,` and `:` as separators. -/
def write : Json → Text
  | .null => "null".toList
  | .bool b => (if b then "true" else "false").toList
  | .number s => s
  | .text t => quote t
  | .list l => '[' :: (writeItems l ++ [']'])
  | .dict m => '{' :: (writeMembers m ++ ['}'])

def writeItems : List Json → Text
  | [] => []
  | v :: l => write v ++ (if l = [] then [] else [',']) ++ writeItems l

def writeMembers : List (Text × Json) → Text
  | [] => []
  | e :: m => quote e.1 ++ ':' :: (write e.2 ++ (if m = [] then [] else [',']) ++ writeMembers m)

end

mutual

def Json.finite : Json → Bool
  | .number s => isNumber floats s
  | .list l => finiteItems l
  | .dict m => finiteMembers m
  | .null | .bool _ | .text _ => true

def Json.finiteItems : List Json → Bool
  | [] => true
  | v :: l => finite v && finiteItems l

def Json.finiteMembers : List (Text × Json) → Bool
  | [] => true
  | m :: l => finite m.2 && finiteMembers l

end

variable {floats}

namespace Json

lemma finiteItems_iff {l : List Json} :
    finiteItems floats l = true ↔ ∀ v ∈ l, finite floats v = true := by
  induction l with
  | nil => simp [finiteItems]
  | cons v l ih => rw [finiteItems, Bool.and_eq_true, ih, forall_mem_cons]

lemma finiteMembers_eq (m : List (Text × Json)) :
    finiteMembers floats m = finiteItems floats (m.map Prod.snd) := by
  induction m with
  | nil => rfl
  | cons e m ih => rw [finiteMembers, ih, map_cons, finiteItems]

mutual

theorem finite_sorted : ∀ v : Json, finite floats (sorted v) = finite floats v
  | .list l => by rw [sorted, finite, finite, finiteItems_sorted l]
  | .dict m => by
    have hperm := (perm_insertionSort (fun a b : Text × Json => a.1 ≤ b.1)
      (sortedMembers m)).map Prod.snd
    rw [sorted, finite, finite, ← finiteMembers_sorted m, finiteMembers_eq, finiteMembers_eq,
      Bool.eq_iff_iff, finiteItems_iff, finiteItems_iff]
    exact forall_congr' fun v => imp_congr_left hperm.mem_iff
  | .null | .bool _ | .number _ | .text _ => rfl

theorem finiteItems_sorted : ∀ l :
    List Json, finiteItems floats (sortedItems l) = finiteItems floats l
  | [] => rfl
  | v :: l => by rw [sortedItems, finiteItems, finiteItems, finite_sorted v, finiteItems_sorted l]

theorem finiteMembers_sorted : ∀ m : List (Text × Json),
    finiteMembers floats (sortedMembers m) = finiteMembers floats m
  | [] => rfl
  | e :: m => by
    rw [sortedMembers, finiteMembers, finiteMembers, finite_sorted e.2, finiteMembers_sorted m]

end

end Json

variable (floats) in
/-- `_dumps`: the keys in order, nothing between the parts.  None, for `json.dumps` raises, where a
number is none that JSON has, and where the value nests deeper than the interpreter's recursion
goes. -/
def dumps (recursion : ℕ) (v : Json) : Option Text :=
  if v.finite floats ∧ v.depth ≤ recursion then some (write v.sorted) else none

/-! ## The bound on the depth of a text -/

/-- Where a text is at: outside strings, in one, or after the backslash of one. -/
inductive Within
  | outside
  | string
  | escape
deriving DecidableEq

def isOpening (c : Char) : Bool := c = '[' ∨ c = '{'

def isBracket (c : Char) : Bool := isOpening c ∨ c = ']' ∨ c = '}'

/-- A text without its strings, and of the rest the brackets. -/
def brackets : Within → Text → Text
  | _, [] => []
  | .outside, c :: rest =>
    if c = '"' then brackets .string rest
    else if isBracket c then c :: brackets .outside rest
    else brackets .outside rest
  | .string, c :: rest =>
    if c = '"' then brackets .outside rest
    else if c = '\\' then brackets .escape rest
    else brackets .string rest
  | .escape, _ :: rest => brackets .string rest

/-- The walk over the brackets: whether it gets deeper than the limit. -/
def walk (limit : ℕ) : ℤ → Text → Bool
  | _, [] => false
  | d, c :: rest =>
    if isOpening c then decide (d + 1 > limit) || walk limit (d + 1) rest
    else walk limit (d - 1) rest

def jsonDepthExceeds (limit : ℕ) (text : Text) : Bool :=
  let bs := brackets .outside text
  if bs.countP isOpening ≤ limit then false else walk limit 0 bs

lemma lt_of_walk {limit : ℕ} {d : ℤ} {bs : Text} (h : walk limit d bs = true) :
    (limit : ℤ) < d + bs.countP isOpening := by
  induction bs generalizing d with
  | nil => cases h
  | cons c rest ih =>
    rw [walk] at h
    by_cases hc : isOpening c
    · rw [if_pos hc, Bool.or_eq_true, decide_eq_true_eq] at h
      rw [countP_cons_of_pos hc]
      obtain h | h := h
      · omega
      · have hrest := ih h
        omega
    · rw [if_neg hc] at h
      rw [countP_cons_of_neg hc]
      have hrest := ih h
      omega

lemma jsonDepthExceeds_eq_walk (limit : ℕ) (text : Text) :
    jsonDepthExceeds limit text = walk limit 0 (brackets .outside text) := by
  rw [jsonDepthExceeds]
  split
  · rename_i hcount
    cases hwalk : walk limit 0 (brackets .outside text) with
    | false => rfl
    | true =>
      have hlt := lt_of_walk hwalk
      omega
  · rfl

/-! ### Of a written text -/

/-- Characters that stand for themselves in a string. -/
def IsPlain (c : Char) : Prop := c ≠ '"' ∧ c ≠ '\\'

variable {cs : Text}

lemma of_all {p : Char → Prop} [DecidablePred p] (h : (cs.all fun c => p c) = true) :
    ∀ c ∈ cs, p c := by
  simpa using h

lemma brackets_string_plain (h : ∀ c ∈ cs, IsPlain c) (r : Text) :
    brackets .string (cs ++ r) = brackets .string r := by
  induction cs with
  | nil => rfl
  | cons c cs ih =>
    have hc : IsPlain c := h c mem_cons_self
    rw [cons_append, brackets, if_neg hc.1, if_neg hc.2]
    exact ih fun d hd => h d (mem_cons_of_mem c hd)

variable {n : ℕ}

lemma hexDigit_plain (h : n < 16) : IsPlain (hexDigit n) := by
  have hall : ∀ k < 16, hexDigit k ≠ '"' ∧ hexDigit k ≠ '\\' := by decide
  exact hall n h

lemma brackets_unicodeEscape (n : ℕ) (r : Text) :
    brackets .string (unicodeEscape n ++ r) = brackets .string r := by
  rw [unicodeEscape, cons_append, brackets, if_neg (by decide), if_pos rfl, cons_append, brackets]
  apply brackets_string_plain
  intro c hc
  simp only [mem_cons, not_mem_nil, or_false] at hc
  obtain rfl | rfl | rfl | rfl := hc <;> exact hexDigit_plain (Nat.mod_lt _ (by decide))

lemma brackets_escape (c : Char) (r : Text) :
    brackets .string ('\\' :: c :: r) = brackets .string r := by
  rw [brackets, if_neg (by decide), if_pos rfl, brackets]

lemma brackets_escapeChar (c : Char) (r : Text) :
    brackets .string (escapeChar c ++ r) = brackets .string r := by
  rw [escapeChar]
  iterate 7
    split
    · exact brackets_escape _ r
  split
  · rename_i hquote hback _ _ _ _ _ _
    exact brackets_string_plain (by simpa [IsPlain] using ⟨hquote, hback⟩) r
  split
  · exact brackets_unicodeEscape _ r
  · rw [append_assoc, brackets_unicodeEscape, brackets_unicodeEscape]

lemma brackets_quote (t r : Text) :
    brackets .outside (quote t ++ r) = brackets .outside r := by
  have hbody : ∀ t : Text, brackets .string (t.flatMap escapeChar ++ '"' :: r) =
      brackets .outside r := by
    intro t
    induction t with
    | nil => rw [flatMap_nil, nil_append, brackets, if_pos rfl]
    | cons c t ih => rw [flatMap_cons, append_assoc, brackets_escapeChar, ih]
  rw [quote, cons_append, brackets, if_pos rfl, append_assoc]
  exact hbody t

lemma brackets_outside_skip (h : ∀ c ∈ cs, c ≠ '"' ∧ isBracket c = false) (r : Text) :
    brackets .outside (cs ++ r) = brackets .outside r := by
  induction cs with
  | nil => rfl
  | cons c cs ih =>
    have hc := h c mem_cons_self
    rw [cons_append, brackets, if_neg hc.1, hc.2, if_neg Bool.false_ne_true]
    exact ih fun d hd => h d (mem_cons_of_mem c hd)

lemma brackets_separator (more : Prop) [Decidable more] (r : Text) :
    brackets .outside ((if more then [] else [',']) ++ r) = brackets .outside r := by
  apply brackets_outside_skip
  intro c hc
  split at hc
  · cases hc
  · rw [mem_singleton] at hc
    subst hc
    decide

variable {s : Text}

lemma numeral_plain (h : isNumeral s = true) : ∀ c ∈ s, c ≠ '"' ∧ isBracket c = false := by
  intro c hc
  rw [isNumeral, Bool.and_eq_true] at h
  have hall := all_eq_true.1 h.2 c hc
  constructor
  · rintro rfl
    exact absurd hall (by decide)
  · by_contra hb
    rw [Bool.not_eq_false, isBracket, decide_eq_true_eq, isOpening, decide_eq_true_eq] at hb
    obtain (rfl | rfl) | rfl | rfl := hb <;> exact absurd hall (by decide)

variable {limit : ℕ}

lemma deeper_max (d : ℤ) (a b : ℕ) : decide ((limit : ℤ) < d + max a b) =
    (decide ((limit : ℤ) < d + a) || decide ((limit : ℤ) < d + b)) := by
  rw [← Bool.decide_or, decide_eq_decide]
  omega

lemma walk_nest {d : ℤ} {c e : Char} {inner r : Text} (hd : d ≤ limit)
    (hopen : isOpening c = true) (hclose : isOpening e = false) (he : isBracket e = true)
    (hne : c ≠ '"' ∧ e ≠ '"')
    (hinner : d + 1 ≤ limit → ∀ r, walk limit (d + 1) (brackets .outside (inner ++ r)) =
      (decide ((limit : ℤ) < d + 1 + n) || walk limit (d + 1) (brackets .outside r))) :
    walk limit d (brackets .outside (c :: (inner ++ [e]) ++ r)) =
      (decide ((limit : ℤ) < d + (n + 1 : ℕ)) || walk limit d (brackets .outside r)) := by
  have hbracket : isBracket c = true := by simp [isBracket, hopen]
  rw [cons_append, brackets, if_neg hne.1, if_pos hbracket, walk, if_pos hopen, append_assoc]
  by_cases hlimit : d + 1 ≤ limit
  · rw [hinner hlimit, decide_eq_false (not_lt.2 hlimit), Bool.false_or, singleton_append,
      brackets, if_neg hne.2, if_pos he, walk, hclose, if_neg Bool.false_ne_true,
      Int.add_sub_cancel]
    congr 2
    push_cast
    rw [eq_iff_iff]
    omega
  · rw [decide_eq_true (not_le.1 hlimit), Bool.true_or, decide_eq_true (by push_cast; omega),
      Bool.true_or]

mutual

theorem walk_write : ∀ (v : Json) {d : ℤ} (r : Text), v.finite floats → d ≤ limit →
    walk limit d (brackets .outside (write v ++ r)) =
      (decide ((limit : ℤ) < d + v.depth) || walk limit d (brackets .outside r))
  | .null, d, r, _, hd => by
    rw [write, brackets_outside_skip (of_all (by decide)), Json.depth, decide_eq_false (by omega),
      Bool.false_or]
  | .bool b, d, r, _, hd => by
    have hplain : ∀ c ∈ (if b then "true" else "false").toList, c ≠ '"' ∧ isBracket c = false := by
      cases b <;> exact of_all (by decide)
    rw [write, brackets_outside_skip hplain, Json.depth, decide_eq_false (by omega), Bool.false_or]
  | .number s, d, r, hf, hd => by
    have hs := numeral_plain (isNumeral_of_isNumber hf)
    rw [write, brackets_outside_skip hs, Json.depth, decide_eq_false (by omega), Bool.false_or]
  | .text t, d, r, _, hd => by
    rw [write, brackets_quote, Json.depth, decide_eq_false (by omega), Bool.false_or]
  | .list l, d, r, hf, hd => by
    rw [write, Json.depth]
    exact walk_nest hd (by decide) (by decide) (by decide) (by decide)
      fun hle r => walk_writeItems l r hf hle
  | .dict m, d, r, hf, hd => by
    rw [write, Json.depth]
    exact walk_nest hd (by decide) (by decide) (by decide) (by decide)
      fun hle r => walk_writeMembers m r hf hle

theorem walk_writeItems : ∀ (l : List Json) {d : ℤ} (r : Text), Json.finiteItems floats l → d ≤
    limit → walk limit d (brackets .outside (writeItems l ++ r)) =
      (decide ((limit : ℤ) < d + Json.depthItems l) || walk limit d (brackets .outside r))
  | [], d, r, _, hd => by
    rw [writeItems, List.nil_append, Json.depthItems, decide_eq_false (by omega), Bool.false_or]
  | v :: l, d, r, hf, hd => by
    rw [Json.finiteItems, Bool.and_eq_true] at hf
    rw [writeItems, List.append_assoc, List.append_assoc, walk_write v _ hf.1 hd,
      brackets_separator, walk_writeItems l r hf.2 hd, Json.depthItems, deeper_max, Bool.or_assoc]

theorem walk_writeMembers : ∀ (m : List (Text × Json)) {d : ℤ}
    (r : Text), Json.finiteMembers floats m →
    d ≤ limit → walk limit d (brackets .outside (writeMembers m ++ r)) =
      (decide ((limit : ℤ) < d + Json.depthMembers m) || walk limit d (brackets .outside r))
  | [], d, r, _, hd => by
    rw [writeMembers, List.nil_append, Json.depthMembers, decide_eq_false (by omega), Bool.false_or]
  | e :: m, d, r, hf, hd => by
    rw [Json.finiteMembers, Bool.and_eq_true] at hf
    have hcolon : ∀ c ∈ [':'], c ≠ '"' ∧ isBracket c = false := of_all (by decide)
    rw [writeMembers, append_assoc, brackets_quote, ← singleton_append,
      append_assoc, brackets_outside_skip hcolon, append_assoc, append_assoc,
      walk_write e.2 _ hf.1 hd, brackets_separator, walk_writeMembers m r hf.2 hd,
      Json.depthMembers, deeper_max, Bool.or_assoc]

end

variable {v : Json}

lemma jsonDepthExceeds_write (h : v.finite floats) :
    jsonDepthExceeds limit (write v) = decide (limit < v.depth) := by
  have hwalk : walk limit 0 (brackets .outside (write v ++ [])) = _ :=
    walk_write v [] h (by omega)
  rw [append_nil] at hwalk
  rw [jsonDepthExceeds_eq_walk, hwalk, brackets, walk, Bool.or_false, decide_eq_decide]
  omega

variable {text : Text} {recursion : ℕ}

lemma dumps_eq_some : dumps floats recursion v = some text ↔
      (v.finite floats ∧ v.depth ≤ recursion) ∧ write v.sorted = text := by
  rw [dumps]
  split <;> simp_all

theorem jsonDepthExceeds_dumps (h : dumps floats recursion v = some text) :
    jsonDepthExceeds limit text = decide (limit < v.depth) := by
  obtain ⟨⟨hfinite, -⟩, rfl⟩ := dumps_eq_some.1 h
  rw [jsonDepthExceeds_write (by rw [Json.finite_sorted, hfinite]), Json.depth_sorted]

/-! ## ASCII -/

/-- What `json.dumps` writes: ASCII without NUL. -/
def IsAscii (c : Char) : Prop := 0 < c.toNat ∧ c.toNat < 128

lemma ascii_hexDigit (h : n < 16) : IsAscii (hexDigit n) := by
  have hall : ∀ k < 16, 0 < (hexDigit k).toNat ∧ (hexDigit k).toNat < 128 := by decide
  exact hall n h

lemma ascii_unicodeEscape (n : ℕ) : ∀ c ∈ unicodeEscape n, IsAscii c := by
  intro c hc
  simp only [unicodeEscape, mem_cons, not_mem_nil, or_false] at hc
  obtain rfl | rfl | rfl | rfl | rfl | rfl := hc
  · exact ⟨by decide, by decide⟩
  · exact ⟨by decide, by decide⟩
  all_goals exact ascii_hexDigit (Nat.mod_lt _ (by decide))

lemma ascii_escapeChar (c : Char) : ∀ d ∈ escapeChar c, IsAscii d := by
  have hpair : ∀ e : Char, IsAscii e → ∀ d ∈ ['\\', e], IsAscii d := by
    intro e he d hd
    simp only [mem_cons, not_mem_nil, or_false] at hd
    obtain rfl | rfl := hd
    · exact ⟨by decide, by decide⟩
    · exact he
  rw [escapeChar]
  iterate 7
    split
    · exact hpair _ ⟨by decide, by decide⟩
  split
  · rename_i hprint
    intro d hd
    rw [mem_singleton] at hd
    subst hd
    exact ⟨by omega, by omega⟩
  split
  · exact ascii_unicodeEscape _
  · intro d hd
    obtain hd | hd := mem_append.1 hd
    · exact ascii_unicodeEscape _ d hd
    · exact ascii_unicodeEscape _ d hd

lemma ascii_quote (t : Text) : ∀ c ∈ quote t, IsAscii c := by
  intro c hc
  simp only [quote, mem_cons, mem_append, mem_flatMap, not_mem_nil, or_false] at hc
  obtain rfl | ⟨d, -, hc⟩ | rfl := hc
  · exact ⟨by decide, by decide⟩
  · exact ascii_escapeChar d c hc
  · exact ⟨by decide, by decide⟩

lemma ascii_numeral (h : isNumeral s = true) : ∀ c ∈ s, IsAscii c := by
  intro c hc
  rw [isNumeral, Bool.and_eq_true] at h
  have hall := all_eq_true.1 h.2 c hc
  simp only [Bool.or_eq_true, decide_eq_true_eq, isDigit, Bool.decide_and, Bool.and_eq_true] at hall
  obtain (((⟨hlow, hhigh⟩ | rfl) | rfl) | rfl) | rfl := hall
  · have hlow' : '0'.toNat ≤ c.toNat := hlow
    have hhigh' : c.toNat ≤ '9'.toNat := hhigh
    have h0 : '0'.toNat = 48 := rfl
    have h9 : '9'.toNat = 57 := rfl
    exact ⟨by omega, by omega⟩
  all_goals exact ⟨by decide, by decide⟩

lemma ascii_append {t : Text} (hs : ∀ c ∈ s, IsAscii c) (ht : ∀ c ∈ t, IsAscii c) :
    ∀ c ∈ s ++ t, IsAscii c :=
  forall_mem_append.2 ⟨hs, ht⟩

lemma ascii_cons {c : Char} {t : Text} (hc : IsAscii c) (ht : ∀ d ∈ t, IsAscii d) :
    ∀ d ∈ c :: t, IsAscii d :=
  forall_mem_cons.2 ⟨hc, ht⟩

lemma ascii_separator (last : Prop) [Decidable last] :
    ∀ c ∈ (if last then [] else [',']), IsAscii c := by
  split
  · exact fun c hc => absurd hc not_mem_nil
  · exact ascii_cons ⟨by decide, by decide⟩ fun c hc => absurd hc not_mem_nil

mutual

theorem ascii_write : ∀ v : Json, v.finite floats → ∀ c ∈ write v, IsAscii c
  | .null, _ => by
    have hword : ∀ c ∈ "null".toList, 0 < c.toNat ∧ c.toNat < 128 := of_all (by decide)
    rw [write]
    exact hword
  | .bool b, _ => by
    have hword : ∀ c ∈ (if b then "true" else "false").toList, 0 < c.toNat ∧ c.toNat < 128 := by
      cases b <;> exact of_all (by decide)
    rw [write]
    exact hword
  | .number s, hf => by
    rw [write]
    exact ascii_numeral (isNumeral_of_isNumber hf)
  | .text t, _ => by
    rw [write]
    exact ascii_quote t
  | .list l, hf => by
    rw [write]
    exact ascii_cons ⟨by decide, by decide⟩ (ascii_append (ascii_writeItems l hf)
      (ascii_cons ⟨by decide, by decide⟩ fun c hc => absurd hc not_mem_nil))
  | .dict m, hf => by
    rw [write]
    exact ascii_cons ⟨by decide, by decide⟩ (ascii_append (ascii_writeMembers m hf)
      (ascii_cons ⟨by decide, by decide⟩ fun c hc => absurd hc not_mem_nil))

theorem ascii_writeItems : ∀ l :
    List Json, Json.finiteItems floats l → ∀ c ∈ writeItems l, IsAscii c
  | [], _ => fun c hc => absurd hc List.not_mem_nil
  | v :: l, hf => by
    rw [Json.finiteItems, Bool.and_eq_true] at hf
    rw [writeItems]
    exact ascii_append (ascii_append (ascii_write v hf.1) (ascii_separator _))
      (ascii_writeItems l hf.2)

theorem ascii_writeMembers : ∀ m : List (Text × Json), Json.finiteMembers floats m →
    ∀ c ∈ writeMembers m, IsAscii c
  | [], _ => fun c hc => absurd hc List.not_mem_nil
  | e :: m, hf => by
    rw [Json.finiteMembers, Bool.and_eq_true] at hf
    rw [writeMembers]
    exact ascii_append (ascii_quote e.1) (ascii_cons ⟨by decide, by decide⟩
      (ascii_append (ascii_append (ascii_write e.2 hf.1) (ascii_separator _))
        (ascii_writeMembers m hf.2)))

end

theorem ascii_dumps (h : dumps floats recursion v = some text) : ∀ c ∈ text, IsAscii c := by
  obtain ⟨⟨hfinite, -⟩, rfl⟩ := dumps_eq_some.1 h
  exact ascii_write v.sorted (by rw [Json.finite_sorted, hfinite])

end Lazaret.Sca
