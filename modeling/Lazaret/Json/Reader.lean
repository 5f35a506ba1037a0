import Lazaret.Json.Grammar
import Lazaret.Lib.Loop
import Lazaret.Lib.Outcome
import Lazaret.Lib.Utf8

/-!
# The strict JSON reader

The reader of `json.rs`, byte by byte.  A parser that is at some place of the input is the bytes
from there on; what stopped it says how many bytes were left (`Failure`), which `parseWithDepth`
turns into an offset.  A read that succeeds leaves less than there was (`Reader`), so the loops over
the items of an array, the members of an object and the pieces of a string end.
-/

namespace Lazaret.Json

open List Outcome

open Utf8 (byte)

/-- What stopped the reader, and how many bytes were left there. -/
structure Failure where
  left : ℕ
  kind : ErrorKind
deriving DecidableEq

def err {α : Type} (s : List UInt8) (kind : ErrorKind) : Outcome Failure α :=
  .err ⟨s.length, kind⟩

/-- What some of the bytes of the text say: a slice that is not between characters panics. -/
def slice (s : List UInt8) : Outcome Failure (List Char) := .orFault (Utf8.decode s)

def isWs (b : UInt8) : Bool := b = byte ' ' ∨ b = byte '\t' ∨ b = byte '\n' ∨ b = byte '\r'

def skipWs (s : List UInt8) : List UInt8 := s.dropWhile isWs

def literal (word : List UInt8) (v : Value) (s : List UInt8) :
    Outcome Failure (Value × List UInt8) :=
  if word <+: s then .ok (v, s.drop word.length)
  else if s <+: word then err s .Eof
  else err s .Syntax

/-! ## Numbers -/

def isDigit (b : UInt8) : Bool := byte '0' ≤ b ∧ b ≤ byte '9'

def next (p : UInt8 → Bool) (s : List UInt8) : Bool := s.head?.any p

def digits (s : List UInt8) : Outcome Failure (List UInt8) :=
  if next isDigit s then .ok (s.dropWhile isDigit) else err s .Number

def afterSign (isSign : UInt8 → Bool) (s : List UInt8) : List UInt8 :=
  if next isSign s then s.tail else s

def natural (s : List UInt8) : Outcome Failure (List UInt8) :=
  if next (· = byte '0') s then
    -- a leading zero may not be followed by another digit
    if next isDigit s.tail then err s.tail .Number else .ok s.tail
  else digits s

def fractionPart (s : List UInt8) : Outcome Failure (List UInt8) :=
  if next (· = byte '.') s then digits s.tail else .ok s

def exponentPart (s : List UInt8) : Outcome Failure (List UInt8) :=
  if next (fun b => b = byte 'e' ∨ b = byte 'E') s then
    digits (afterSign (fun b => b = byte '+' ∨ b = byte '-') s.tail)
  else .ok s

def isNumberByte (b : UInt8) : Bool :=
  isDigit b ∨ b = byte '.' ∨ b = byte 'e' ∨ b = byte 'E' ∨ b = byte '+' ∨ b = byte '-'

def number (s : List UInt8) : Outcome Failure (Value × List UInt8) := do
  let afterInteger ← natural (afterSign (· = byte '-') s)
  let afterFraction ← fractionPart afterInteger
  let rest ← exponentPart afterFraction
  if next isNumberByte rest then err rest .Number
  else
    let text ← slice (s.take (s.length - rest.length))
    .ok (.number ⟨String.ofList text⟩, rest)

/-! ## Strings -/

def hexDigit (b : UInt8) : Option ℕ :=
  if byte '0' ≤ b ∧ b ≤ byte '9' then some (b - byte '0').toNat
  else if byte 'a' ≤ b ∧ b ≤ byte 'f' then some ((b - byte 'a').toNat + 10)
  else if byte 'A' ≤ b ∧ b ≤ byte 'F' then some ((b - byte 'A').toNat + 10)
  else none

/-- The turns of `hex4` that are left, after some digits of value `n`. -/
def hexFrom : ℕ → ℕ → List UInt8 → Outcome Failure (ℕ × List UInt8)
  | 0, n, s => .ok (n, s)
  | _ + 1, _, [] => err [] .Eof
  | k + 1, n, b :: t =>
    match hexDigit b with
    | some d => hexFrom k (n * 16 + d) t
    | none => err (b :: t) .String

def hex4 (s : List UInt8) : Outcome Failure (ℕ × List UInt8) := hexFrom 4 0 s

def charFromU32 (n : ℕ) : Option Char := if n.isValidChar then some (Char.ofNat n) else none

/-- Whether a code unit is the first of a surrogate pair. -/
def isHigh (u : ℕ) : Bool := 0xD800 ≤ u ∧ u ≤ 0xDBFF

/-- Whether a code unit is the second of a surrogate pair. -/
def isLow (u : ℕ) : Bool := 0xDC00 ≤ u ∧ u ≤ 0xDFFF

/-- The character that a surrogate pair stands for. -/
def pair (hi lo : ℕ) : Option Char := charFromU32 (0x10000 + (hi - 0xD800) * 1024 + (lo - 0xDC00))

/-- The character that the digits after `\u` stand for. -/
def unicode (s : List UInt8) : Outcome Failure (Char × List UInt8) := do
  let hi ← hex4 s
  if isHigh hi.1 then
    -- must be followed by an escaped low surrogate
    if [byte '\\', byte 'u'] <+: hi.2 then
      let lo ← hex4 (hi.2.drop 2)
      if isLow lo.1 then
        match pair hi.1 lo.1 with
        | some c => .ok (c, lo.2)
        | none => err lo.2 .String
      else err lo.2 .String
    else err hi.2 .String
  else if isLow hi.1 then err hi.2 .String
  else
    match charFromU32 hi.1 with
    | some c => .ok (c, hi.2)
    | none => err hi.2 .String

/-- What a backslash and the byte after it stand for, but for `\u`. -/
def escapes : List (UInt8 × Char) :=
  [(byte '"', '"'), (byte '\\', '\\'), (byte '/', '/'), (byte 'b', '\x08'), (byte 'f', '\x0c'),
    (byte 'n', '\n'), (byte 'r', '\r'), (byte 't', '\t')]

/-- The character that what is after a backslash stands for. -/
def escape : List UInt8 → Outcome Failure (Char × List UInt8)
  | [] => err [] .Eof
  | b :: t =>
    match escapes.lookup b with
    | some c => .ok (c, t)
    | none => if b = byte 'u' then unicode t else err (b :: t) .String

def isPlain (b : UInt8) : Bool := b ≠ byte '"' ∧ b ≠ byte '\\' ∧ 0x20 ≤ b

/-- One turn over a string: the run of plain characters is copied, and then it ends or there is an
escape. -/
def stringTurn (p : List Char × List UInt8) :
    List Char × List UInt8 ⊕ Outcome Failure (List Char × List UInt8) :=
  match slice (p.2.takeWhile isPlain) with
  | .ok run =>
    match p.2.dropWhile isPlain with
    | [] => .inr (err [] .Eof)
    | b :: t =>
      if b = byte '"' then .inr (.ok (p.1 ++ run, t))
      else if b = byte '\\' then
        match escape t with
        | .ok (c, t') => .inl (p.1 ++ run ++ [c], t')
        | .err e => .inr (.err e)
        | .fault => .inr .fault
      else .inr (err (b :: t) .String)
  | .err e => .inr (.err e)
  | .fault => .inr .fault

/-! ### What is left is less -/

variable {t s : List UInt8}

lemma digits_lt (h : digits s = .ok t) : t.length < s.length := by
  rw [digits] at h
  split at h
  next hnext =>
    rw [Outcome.ok.injEq] at h
    cases s with
    | nil => exact absurd hnext (by simp [next])
    | cons b s =>
      rw [← h, dropWhile_cons, if_pos (by simpa [next] using hnext)]
      exact Nat.lt_succ_of_le (dropWhile_suffix _).length_le
  · cases h

lemma afterSign_le (isSign : UInt8 → Bool) (s : List UInt8) :
    (afterSign isSign s).length ≤ s.length := by
  rw [afterSign]
  split
  · rw [length_tail]
    omega
  · exact le_rfl

lemma natural_lt (h : natural s = .ok t) : t.length < s.length := by
  rw [natural] at h
  split at h
  next hzero =>
    split at h
    · cases h
    · rw [Outcome.ok.injEq] at h
      cases s with
      | nil => exact absurd hzero (by simp [next])
      | cons b s =>
        rw [← h]
        exact Nat.lt_succ_self _
  · exact digits_lt h

lemma fractionPart_le (h : fractionPart s = .ok t) : t.length ≤ s.length := by
  rw [fractionPart] at h
  split at h
  · have := digits_lt h
    rw [length_tail] at this
    omega
  · rw [Outcome.ok.inj h]

lemma exponentPart_le (h : exponentPart s = .ok t) : t.length ≤ s.length := by
  rw [exponentPart] at h
  split at h
  · have hlt := (digits_lt h).trans_le (afterSign_le _ _)
    rw [length_tail] at hlt
    omega
  · rw [Outcome.ok.inj h]

lemma number_lt {v : Value} (h : number s = .ok (v, t)) : t.length < s.length := by
  simp only [number, bind_eq_ok] at h
  obtain ⟨a, ha, b, hb, c, hc, h⟩ := h
  split at h
  · cases h
  · obtain ⟨text, -, h⟩ := bind_eq_ok.1 h
    rw [Outcome.ok.injEq, Prod.mk.injEq] at h
    rw [← h.2]
    exact (exponentPart_le hc).trans_lt ((fractionPart_le hb).trans_lt
      ((natural_lt ha).trans_le (afterSign_le _ _)))

lemma hexFrom_length {k n : ℕ} {m : ℕ} (h : hexFrom k n s = .ok (m, t)) :
    t.length + k = s.length := by
  induction k generalizing n s with
  | zero =>
    rw [hexFrom, Outcome.ok.injEq, Prod.mk.injEq] at h
    rw [h.2, add_zero]
  | succ k ih =>
    cases s with
    | nil => exact absurd h (by simp [hexFrom, err])
    | cons b s =>
      rw [hexFrom] at h
      split at h
      · rw [← add_assoc, ih h, length_cons]
      · cases h

lemma hex4_length {m : ℕ} (h : hex4 s = .ok (m, t)) : t.length + 4 = s.length :=
  hexFrom_length h

lemma unicode_lt {c : Char} (h : unicode s = .ok (c, t)) : t.length < s.length := by
  rw [unicode, bind_eq_ok] at h
  obtain ⟨hi, hhi, h⟩ := h
  have hu := hex4_length hhi
  split at h
  · split at h
    · obtain ⟨lo, hlo, h⟩ := bind_eq_ok.1 h
      have hu' := hex4_length hlo
      rw [length_drop] at hu'
      split at h
      · split at h
        · rw [Outcome.ok.injEq, Prod.mk.injEq] at h
          rw [← h.2]
          omega
        · cases h
      · cases h
    · cases h
  · split at h
    · cases h
    · split at h
      · rw [Outcome.ok.injEq, Prod.mk.injEq] at h
        rw [← h.2]
        omega
      · cases h

lemma escape_lt {c : Char} (h : escape s = .ok (c, t)) : t.length < s.length := by
  cases s with
  | nil => exact absurd h (by simp [escape, err])
  | cons b s =>
    rw [escape] at h
    split at h
    · rw [Outcome.ok.injEq, Prod.mk.injEq] at h
      rw [h.2, length_cons]
      exact Nat.lt_succ_self _
    · split at h
      · exact (unicode_lt h).trans (Nat.lt_succ_self _)
      · cases h

/-- The loop of `string`, from the first byte after the quote. -/
def stringLoop : Loop (List Char × List UInt8) (Outcome Failure (List Char × List UInt8)) where
  turn := stringTurn
  measure p := p.2.length
  progress := by
    intro p p' h
    have hrest : (p.2.dropWhile isPlain).length ≤ p.2.length :=
      (List.dropWhile_suffix _).length_le
    rw [stringTurn] at h
    split at h
    · split at h
      · cases h
      next b t hdrop =>
        rw [hdrop, List.length_cons] at hrest
        split at h
        · cases h
        split at h
        · split at h
          next c t' hescape =>
            obtain rfl := Sum.inl.inj h
            exact (escape_lt hescape).trans hrest
          · cases h
          · cases h
        · cases h
    · cases h
    · cases h

def string (s : List UInt8) : Outcome Failure (List Char × List UInt8) :=
  stringLoop.run ([], s.tail)

lemma string_lt {cs : List Char} (h : string s = .ok (cs, t)) : t.length < s.tail.length := by
  refine Loop.relate (l := stringLoop)
    (fun p r => ∀ cs t, r = .ok (cs, t) → t.length < p.2.length) ?_ ?_ ([], s.tail) cs t h
  · intro p p' r hturn hr cs t hok
    exact (hr cs t hok).trans (stringLoop.progress p p' hturn)
  · intro p r hturn cs t hok
    have hrest : (p.2.dropWhile isPlain).length ≤ p.2.length :=
      (dropWhile_suffix _).length_le
    change stringTurn p = .inr r at hturn
    rw [hok, stringTurn] at hturn
    split at hturn
    · split at hturn
      · cases hturn
      next b u hdrop =>
        rw [hdrop, length_cons] at hrest
        split at hturn
        · obtain ⟨-, rfl⟩ := Prod.mk.inj (Outcome.ok.inj (Sum.inr.inj hturn))
          exact hrest
        split at hturn
        · split at hturn <;> cases hturn
        · cases hturn
    · cases hturn
    · cases hturn

/-! ## Values -/

/-- A read from the front of the bytes: a value and what it left, which is less. -/
structure Reader (α : Type) where
  read : List UInt8 → Outcome Failure (α × List UInt8)
  shrinks : ∀ {s a t}, read s = .ok (a, t) → t.length < s.length

section Lists

variable {α : Type} (item : Reader α) (close : UInt8)

def listTurn (p : List α × List UInt8) :
    List α × List UInt8 ⊕ Outcome Failure (List α × List UInt8) :=
  match item.read (skipWs p.2) with
  | .ok (a, t) =>
    match skipWs t with
    | [] => .inr (err [] .Eof)
    | b :: rest =>
      if b = byte ',' then .inl (p.1 ++ [a], rest)
      else if b = close then .inr (.ok (p.1 ++ [a], rest))
      else .inr (err (b :: rest) .Syntax)
  | .err e => .inr (.err e)
  | .fault => .inr .fault

lemma skipWs_le (s : List UInt8) : (skipWs s).length ≤ s.length :=
  (dropWhile_suffix _).length_le

/-- The loop over the items of an array, or over the members of an object. -/
def listLoop : Loop (List α × List UInt8) (Outcome Failure (List α × List UInt8)) where
  turn := listTurn item close
  measure p := p.2.length
  progress := by
    intro p p' h
    rw [listTurn] at h
    split at h
    next a t hread =>
      have hlt := (item.shrinks hread).trans_le (skipWs_le p.2)
      have hle := skipWs_le t
      split at h
      · cases h
      next b rest hskip =>
        rw [hskip, List.length_cons] at hle
        split at h
        · obtain rfl := Sum.inl.inj h
          show rest.length < p.2.length
          omega
        split at h
        · cases h
        · cases h
    · cases h
    · cases h

/-- What is after the opening bracket or brace: nothing but the closing one, or a list. -/
def list (s : List UInt8) : Outcome Failure (List α × List UInt8) :=
  match skipWs s with
  | [] => err [] .Eof
  | b :: t => if b = close then .ok ([], t) else (listLoop item close).run ([], b :: t)

lemma listLoop_lt {p : List α × List UInt8} {as : List α} {t : List UInt8}
    (h : (listLoop item close).run p = .ok (as, t)) : t.length < p.2.length := by
  refine Loop.relate (l := listLoop item close)
    (fun p r => ∀ as t, r = .ok (as, t) → t.length < p.2.length) ?_ ?_ p as t h
  · intro p p' r hturn hr as t hok
    exact (hr as t hok).trans ((listLoop item close).progress p p' hturn)
  · intro p r hturn as t hok
    change listTurn item close p = .inr r at hturn
    rw [hok, listTurn] at hturn
    split at hturn
    next a u hread =>
      have hlt := (item.shrinks hread).trans_le (skipWs_le p.2)
      have hle := skipWs_le u
      split at hturn
      · cases hturn
      next b rest hskip =>
        rw [hskip, length_cons] at hle
        split at hturn
        · cases hturn
        split at hturn
        · obtain ⟨-, rfl⟩ := Prod.mk.inj (Outcome.ok.inj (Sum.inr.inj hturn))
          omega
        · cases hturn
    · cases hturn
    · cases hturn

lemma list_lt {s t : List UInt8} {as : List α} (h : list item close s = .ok (as, t)) :
    t.length < s.length := by
  have hle := skipWs_le s
  rw [list] at h
  split at h
  · cases h
  next b u hskip =>
    rw [hskip, length_cons] at hle
    split at h
    · obtain ⟨-, rfl⟩ := Prod.mk.inj (Outcome.ok.inj h)
      exact hle
    · have hlt : t.length < (b :: u).length := listLoop_lt item close h
      rw [length_cons] at hlt
      omega

end Lists

/-- The turn of the loop of an object up to the member that is pushed. -/
def memberFrom (item : Reader Value) (s : List UInt8) :
    Outcome Failure ((String × Value) × List UInt8) :=
  match s with
  | [] => err [] .Eof
  | b :: _ =>
    if b ≠ byte '"' then err s .Syntax
    else do
      let name ← string s
      match skipWs name.2 with
      | [] => err [] .Eof
      | c :: rest =>
        if c ≠ byte ':' then err (c :: rest) .Syntax
        else do
          let v ← item.read (skipWs rest)
          .ok ((String.ofList name.1, v.1), v.2)

def member (item : Reader Value) : Reader (String × Value) where
  read := memberFrom item
  shrinks := by
    intro s m t h
    cases s with
    | nil => exact absurd h (by simp [memberFrom, err])
    | cons b s =>
      rw [memberFrom] at h
      split at h
      · cases h
      obtain ⟨name, hname, h⟩ := Outcome.bind_eq_ok.1 h
      have hlt := string_lt hname
      have hle := skipWs_le name.2
      split at h
      · cases h
      next c rest hskip =>
        rw [hskip, List.length_cons] at hle
        split at h
        · cases h
        obtain ⟨v, hv, h⟩ := Outcome.bind_eq_ok.1 h
        have hval := (item.shrinks hv).trans_le (skipWs_le rest)
        rw [Outcome.ok.injEq, Prod.mk.injEq] at h
        rw [← h.2, List.length_cons]
        rw [List.tail_cons] at hlt
        omega

/-- `array`, where `inner` reads the items unless no more nesting is allowed. -/
def array (inner : Option (Reader Value)) (s : List UInt8) : Outcome Failure (Value × List UInt8) :=
  match inner with
  | none => err s .Depth
  | some item => do
    let items ← list item (byte ']') s.tail
    .ok (.array items.1, items.2)

/-- `object`, where `inner` reads the values of the members. -/
def object (inner : Option (Reader Value)) (s : List UInt8) :
    Outcome Failure (Value × List UInt8) :=
  match inner with
  | none => err s .Depth
  | some item => do
    let members ← list (member item) (byte '}') s.tail
    -- no name twice: sort the names
    if Keyed.adjacent ((members.1.map Prod.fst).insertionSort (· ≤ ·)) then
      err (skipWs s.tail) .DuplicateName
    else .ok (.object members.1, members.2)

/-- `value`, where `inner` reads what is in an array or an object. -/
def valueFrom (inner : Option (Reader Value)) (s : List UInt8) :
    Outcome Failure (Value × List UInt8) :=
  match s with
  | [] => err [] .Eof
  | b :: _ =>
    if b = byte '{' then object inner s
    else if b = byte '[' then array inner s
    else if b = byte '"' then do
      let text ← string s
      .ok (.string (String.ofList text.1), text.2)
    else if b = byte 't' then literal [byte 't', byte 'r', byte 'u', byte 'e'] (.bool true) s
    else if b = byte 'f' then
      literal [byte 'f', byte 'a', byte 'l', byte 's', byte 'e'] (.bool false) s
    else if b = byte 'n' then literal [byte 'n', byte 'u', byte 'l', byte 'l'] .null s
    else if b = byte '-' ∨ isDigit b then number s
    else err s .Syntax

lemma literal_lt {word : List UInt8} {v w : Value} (hword : word ≠ [])
    (h : literal word v s = .ok (w, t)) : t.length < s.length := by
  rw [literal] at h
  split at h
  next hpre =>
    obtain ⟨-, rfl⟩ := Prod.mk.inj (Outcome.ok.inj h)
    have hle := hpre.length_le
    have hpos := length_pos_of_ne_nil hword
    rw [length_drop]
    omega
  split at h
  · cases h
  · cases h

def valueOf (inner : Option (Reader Value)) : Reader Value where
  read := valueFrom inner
  shrinks := by
    intro s v t h
    cases s with
    | nil => exact absurd h (by simp [valueFrom, err])
    | cons b s =>
      rw [valueFrom] at h
      split at h
      · cases inner with
        | none => exact absurd h (by simp [object, err])
        | some item =>
          obtain ⟨members, hmembers, h⟩ := Outcome.bind_eq_ok.1 h
          split at h
          · cases h
          · rw [Outcome.ok.injEq, Prod.mk.injEq] at h
            rw [← h.2]
            exact (list_lt _ _ hmembers).trans (Nat.lt_succ_self _)
      split at h
      · cases inner with
        | none => exact absurd h (by simp [array, err])
        | some item =>
          obtain ⟨items, hitems, h⟩ := Outcome.bind_eq_ok.1 h
          rw [Outcome.ok.injEq, Prod.mk.injEq] at h
          rw [← h.2]
          exact (list_lt _ _ hitems).trans (Nat.lt_succ_self _)
      split at h
      · obtain ⟨text, htext, h⟩ := Outcome.bind_eq_ok.1 h
        rw [Outcome.ok.injEq, Prod.mk.injEq] at h
        rw [← h.2]
        exact (string_lt htext).trans (Nat.lt_succ_self _)
      split at h
      · exact literal_lt (List.cons_ne_nil _ _) h
      split at h
      · exact literal_lt (List.cons_ne_nil _ _) h
      split at h
      · exact literal_lt (List.cons_ne_nil _ _) h
      split at h
      · exact number_lt h
      · cases h

/-- `value`, where arrays and objects may still nest so deep. -/
def value : ℕ → Reader Value
  | 0 => valueOf none
  | levels + 1 => valueOf (some (value levels))

def DEFAULT_MAX_DEPTH : ℕ := 32

def HARD_MAX_DEPTH : ℕ := 256

def validUpTo (input : List UInt8) : ℕ :=
  Nat.findGreatest (fun n => (Utf8.decode (input.take n)).isSome = true) input.length

/-- What the parser says of the text: one value, with white space around it. -/
def parser (text : List UInt8) (maxDepth : ℕ) : Outcome Failure Value := do
  let v ← (value maxDepth).read (skipWs text)
  let rest := skipWs v.2
  if rest ≠ [] then err rest .TrailingData else .ok v.1

def parseWithDepth (input : List UInt8) (maxDepth : ℕ) : Outcome Error Value :=
  match Utf8.decode input with
  | none => .err ⟨validUpTo input, .Utf8⟩
  | some text =>
    if text.head? = some '\uFEFF' then .err ⟨0, .Utf8⟩
    else
      match parser input (min maxDepth HARD_MAX_DEPTH) with
      | .ok v => .ok v
      | .err e => .err ⟨input.length - e.left, e.kind⟩
      | .fault => .fault

def parse (input : List UInt8) : Outcome Error Value := parseWithDepth input DEFAULT_MAX_DEPTH

end Lazaret.Json
