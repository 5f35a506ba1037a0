import Mathlib.Data.List.Dedup
import Mathlib.Data.List.DropRight
import Mathlib.Data.List.Lex
import Mathlib.Data.List.Sort
import Mathlib.Data.Nat.Digits.Defs

/-!
# Fingerprints

The fingerprint of a finding (`baseline.rs`): its rule, its path with forward slashes and its
flagged line stripped, joined by `|`, as Python makes them of whatever values `json.loads` gave.
Floats, and Python's tables of characters, are a parameter (`Host`).
-/

namespace Lazaret.Baseline

abbrev PyStr := List ℕ

def u (s : String) : PyStr := s.toList.map Char.toNat

/-- A value as `json.loads` makes it: an int is its decimal text, floats are of a type `F`. -/
inductive PyVal (F : Type)
  | none
  | bool (b : Bool)
  | int (t : PyStr)
  | float (f : F)
  | str (s : PyStr)
  | list (items : List (PyVal F))
  | dict (items : List (PyStr × PyVal F))

/-- What the engine is given: the machine's floats, the tables of characters, HMAC-SHA256, the
neutralizer of terminal text, and the reading of a baseline's bytes (strict UTF-8, universal
newlines, the bound on depth, `json.loads`), which gives a value or why there is none. -/
structure Host (F : Type) where
  floatSub : F → F → F
  intToFloat : PyStr → Option F
  /-- `0.0 <= f` -/
  floatNonneg : F → Bool
  /-- `f < n as f64` -/
  floatLt : F → ℕ → Bool
  /-- `f == 0.0` -/
  floatZero : F → Bool
  floatRepr : F → PyStr
  isSpace : ℕ → Bool
  isPrintable : ℕ → Bool
  hmacSha256 : List UInt8 → List UInt8 → List UInt8
  sanitizeTermLine : PyStr → PyStr
  read : List UInt8 → Except PyStr (PyVal F)

namespace PyVal

variable {F : Type}

/-- The value under a key; none also for what is no dictionary. -/
def get (v : PyVal F) (key : String) : Option (PyVal F) :=
  match v with
  | .dict items => (items.find? fun m => m.1 = u key).map Prod.snd
  | _ => .none

def typeName : PyVal F → String
  | .none => "NoneType"
  | .bool _ => "bool"
  | .int _ => "int"
  | .float _ => "float"
  | .str _ => "str"
  | .list _ => "list"
  | .dict _ => "dict"

end PyVal

variable {F : Type} (H : Host F)

/-! ## `str` of a value -/

/-- `"0123456789abcdef"[n]` -/
def hexDigit (n : ℕ) : ℕ := if n < 10 then 48 + n else 87 + n

/-- The last `n` hexadecimal digits of a number. -/
def hex : ℕ → ℕ → PyStr
  | 0, _ => []
  | n + 1, c => hexDigit (c / 16 ^ n % 16) :: hex n c

def reprChar (quote c : ℕ) : PyStr :=
  if c = quote ∨ c = 92 then [92, c]
  else if c = 9 then u "\\t"
  else if c = 10 then u "\\n"
  else if c = 13 then u "\\r"
  else if c < 0x20 ∨ c = 0x7f then u "\\x" ++ hex 2 c
  else if c < 0x7f ∨ H.isPrintable c then [c]
  else if c ≤ 0xff then u "\\x" ++ hex 2 c
  else if c ≤ 0xffff then u "\\u" ++ hex 4 c
  else u "\\U" ++ hex 8 c

/-- `py_repr`: a `str` in quotes, the double ones only where it has single ones and no double. -/
def pyRepr (s : PyStr) : PyStr :=
  let quote := if 39 ∈ s ∧ 34 ∉ s then 34 else 39
  quote :: s.flatMap (reprChar H quote) ++ [quote]

def INT_STR_DIGITS : ℕ := 4300

def splitSign (t : PyStr) : Bool × PyStr :=
  match t with
  | 45 :: mag => (true, mag)
  | _ => (false, t)

def intRepr (t : PyStr) : PyStr :=
  let s := splitSign t
  if s.2.length > INT_STR_DIGITS then
    let value := s.2.foldl (fun n d => n * 10 + (d - 48)) 0
    (if s.1 then [45] else []) ++ u "0x" ++ ((Nat.digits 16 value).map hexDigit).reverse
  else t

mutual

def repr : PyVal F → PyStr
  | .none => u "None"
  | .bool b => u (if b then "True" else "False")
  | .int t => intRepr t
  | .float f => H.floatRepr f
  | .str s => pyRepr H s
  | .list items => u "[" ++ reprItems items ++ u "]"
  | .dict items => u "\x7b" ++ reprMembers items ++ u "\x7d"

/-- `seq_into`: the items, `, ` between them. -/
def reprItems : List (PyVal F) → PyStr
  | [] => []
  | [v] => repr v
  | v :: rest => repr v ++ u ", " ++ reprItems rest

def reprMembers : List (PyStr × PyVal F) → PyStr
  | [] => []
  | [(k, v)] => pyRepr H k ++ u ": " ++ repr v
  | (k, v) :: rest => pyRepr H k ++ u ": " ++ repr v ++ u ", " ++ reprMembers rest

end

/-- `py_str`: a `str` as it is, anything else its `repr`. -/
def pyStr : PyVal F → PyStr
  | .str s => s
  | v => repr H v

/-! ## The index of the flagged line -/

/-- `mag_cmp`: decimal digits without leading zeros. -/
def magCmp (a b : List ℕ) : Ordering :=
  (compare a.length b.length).then (if a < b then .lt else if b < a then .gt else .eq)

/-- The loop of `mag_add`, from the last digits on. -/
def addLoop : List ℕ → List ℕ → ℕ → List ℕ
  | [], [], carry => if carry > 0 then [carry % 10] else []
  | x :: a, [], carry => (x + carry) % 10 :: addLoop a [] ((x + carry) / 10)
  | [], y :: b, carry => (y + carry) % 10 :: addLoop [] b ((y + carry) / 10)
  | x :: a, y :: b, carry => (x + y + carry) % 10 :: addLoop a b ((x + y + carry) / 10)

def magAdd (a b : List ℕ) : List ℕ := (addLoop a.reverse b.reverse 0).reverse

/-- The loop of `mag_sub`, from the last digits on. -/
def subLoop : List ℕ → List ℕ → ℕ → List ℕ
  | [], _, _ => []
  | x :: a, b, borrow =>
    let y := b.headD 0
    if x < y + borrow then (x + 10 - y - borrow) :: subLoop a b.tail 1
    else (x - y - borrow) :: subLoop a b.tail 0

def magSub (a b : List ℕ) : List ℕ :=
  match (subLoop a.reverse b.reverse 0).reverse with
  | [] => []
  | d :: ds => if (d :: ds).dropWhile (· = 0) = [] then [0] else (d :: ds).dropWhile (· = 0)

/-- `split_int`: whether it is negative, and its digits. -/
def splitInt (t : PyStr) : Bool × List ℕ :=
  let s := splitSign t
  let digits := s.2.map fun c => c - 48
  (s.1 && digits ≠ [0], digits)

def intSub (a b : PyStr) : Bool × List ℕ :=
  let x := splitInt a
  let y := splitInt b
  let bn := !y.1 && y.2 ≠ [0]
  if x.1 = bn then (x.1, magAdd x.2 y.2)
  else
    match magCmp x.2 y.2 with
    | .lt => (bn, magSub y.2 x.2)
    | _ => (x.1 && magSub x.2 y.2 ≠ [0], magSub x.2 y.2)

inductive Num (F : Type)
  | int (t : PyStr)
  | float (f : F)

def num : PyVal F → Option (Num F)
  | .int t => some (.int t)
  | .bool b => some (.int (u (if b then "1" else "0")))
  | .float f => some (.float f)
  | _ => none

/-- The index of a line: an int, by its sign and digits, or a float. -/
inductive Index (F : Type)
  | int (neg : Bool) (digits : List ℕ)
  | float (f : F)

def indexOf (line start : PyVal F) : Option (Index F) := do
  match ← num line, ← num start with
  | .int a, .int b => some (.int (intSub a b).1 (intSub a b).2)
  | .int a, .float b => (H.intToFloat a).map fun x => .float (H.floatSub x b)
  | .float a, .int b => (H.intToFloat b).map fun y => .float (H.floatSub a y)
  | .float a, .float b => some (.float (H.floatSub a b))

/-! ## The flagged line -/

/-- `bool(v)` -/
def truthy : PyVal F → Bool
  | .none => false
  | .bool b => b
  | .int t => t ≠ u "0"
  | .float f => !H.floatZero f
  | .str s => s ≠ []
  | .list l => !l.isEmpty
  | .dict d => !d.isEmpty

def strip (s : PyStr) : PyStr := (s.dropWhile H.isSpace).rdropWhile H.isSpace

/-- `0 <= idx` -/
def Index.nonneg : Index F → Bool
  | .int neg _ => !neg
  | .float f => H.floatNonneg f

/-- `len(snippet)`, an empty list where there is none. -/
def lengthOf : Option (PyVal F) → Option ℕ
  | none => some 0
  | some (.list l) => some l.length
  | some (.str s) => some s.length
  | some (.dict d) => some d.length
  | some _ => none

def stripAt (snippet : Option (PyVal F)) (at_ : ℕ) : Option PyStr :=
  match snippet with
  | some (.list l) =>
    match l[at_]? with
    | some (.str s) => some (strip H s)
    | _ => none
  | some (.str s) => (s[at_]?).map fun c => strip H [c]
  | _ => none

/-- `line_text`: the flagged line stripped, empty where the index is outside; none where Python
raises. -/
def lineText (snippet : Option (PyVal F)) (idx : Index F) : Option PyStr :=
  if !idx.nonneg H then some []
  else do
    let len ← lengthOf snippet
    match idx with
    | .int _ m =>
      if m.length > 19 then some []
      else
        let k := m.foldl (fun n d => n * 10 + d) 0
        if k ≥ len then some [] else stripAt H snippet k
    | .float f => if H.floatLt f len then none else some []

/-! ## The fingerprint -/

structure Parts where
  rule : PyStr
  path : PyStr
  text : PyStr
deriving DecidableEq

/-- The rule, the path with forward slashes and the flagged line of a finding; none where Python
raises. -/
def parts (issue : PyVal F) : Option Parts := do
  let idx ← indexOf H (← issue.get "line") (← issue.get "snipStart")
  let text ← lineText H ((issue.get "snippet").filter (truthy H)) idx
  let path := (pyStr H (← issue.get "file")).map fun c => if c = 92 then 47 else c
  let rule := pyStr H (← issue.get "rule")
  some ⟨rule, path, text⟩

/-- `rule|path|text` -/
def Parts.join (p : Parts) : PyStr := p.rule ++ 124 :: (p.path ++ 124 :: p.text)

def fingerprint (issue : PyVal F) : Option PyStr := (parts H issue).map Parts.join

/-- `fingerprints`: those of the entries that have one, and how many have none. -/
def fingerprints (issues : List (PyVal F)) : List PyStr × ℕ :=
  (issues.filterMap (fingerprint H), issues.countP fun i => (fingerprint H i).isNone)

/-- The pieces between the bars, of one text after the other. -/
def Parts.pieces (p : Parts) : List PyStr :=
  p.rule.splitOn 124 ++ (p.path.splitOn 124 ++ p.text.splitOn 124)

/-- Other parts with the same pieces: another bar is the one after the rule, or after the path. -/
def Parts.Recut (p q : Parts) : Prop := p ≠ q ∧ p.pieces = q.pieces

lemma Parts.splitOn_join (p : Parts) : p.join.splitOn 124 = p.pieces := by
  rw [join, pieces, List.splitOn_append_cons_self, List.splitOn_append_cons_self]

lemma splitOn_injective (c : ℕ) : Function.Injective (List.splitOn c) := fun s t h => by
  have hback := congrArg [c].intercalate h
  rwa [List.intercalate_splitOn, List.intercalate_splitOn] at hback

theorem Parts.join_eq_iff {p q : Parts} : p.join = q.join ↔ p.pieces = q.pieces := by
  constructor
  · intro h
    rw [← splitOn_join, h, splitOn_join]
  · intro h
    rw [← splitOn_join, ← splitOn_join] at h
    exact splitOn_injective 124 h

lemma Parts.not_recut {p q : Parts} (hp : 124 ∉ p.rule ∧ 124 ∉ p.path)
    (hq : 124 ∉ q.rule ∧ 124 ∉ q.path) : ¬ p.Recut q := by
  rintro ⟨hne, h⟩
  obtain ⟨rule, path, text⟩ := p
  obtain ⟨rule', path', text'⟩ := q
  simp only [pieces, List.splitOn_eq_singleton hp.1, List.splitOn_eq_singleton hp.2,
    List.splitOn_eq_singleton hq.1, List.splitOn_eq_singleton hq.2, List.cons_append,
    List.nil_append, List.cons.injEq] at h
  obtain ⟨rfl, rfl, htext⟩ := h
  exact hne (congrArg _ (splitOn_injective 124 htext))

end Lazaret.Baseline
