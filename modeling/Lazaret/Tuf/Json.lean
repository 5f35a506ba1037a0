import Mathlib.Data.List.Sort
import Mathlib.Data.String.Basic

/-!
# JSON values

The values that `json.rs` reads: a number is kept as its text, an object as its members in the order
written.  The strict reader that makes them of bytes is not here: what is proved of the metadata
holds for whatever values it makes.
-/

namespace Lazaret.Json

inductive ErrorKind
  | Utf8
  | Eof
  | Syntax
  | Number
  | String
  | DuplicateName
  | Depth
  | TrailingData
  | NotCanonical
deriving DecidableEq

structure Error where
  offset : ℕ
  kind : ErrorKind
deriving DecidableEq

structure Number where
  text : String
deriving DecidableEq

def decimal (digits : List Char) : ℕ :=
  digits.foldl (fun n c => n * 10 + (c.toNat - '0'.toNat)) 0

/-- `str::parse::<u64>`: digits, after a `+` or none, of a value that fits. -/
def parseU64 (s : String) : Option ℕ :=
  let digits := match s.toList with
    | '+' :: rest => rest
    | cs => cs
  if digits ≠ [] ∧ digits.all Char.isDigit ∧ decimal digits < 2 ^ 64 then some (decimal digits)
  else none

namespace Number

/-- Whether the text is an integer: no fraction and no exponent. -/
def isInteger (n : Number) : Bool :=
  !n.text.toList.any fun c => c = '.' ∨ c = 'e' ∨ c = 'E'

/-- The value as a `u64`, only if the text is a non-negative integer that fits. -/
def asU64 (n : Number) : Option ℕ :=
  if ¬ n.isInteger ∨ n.text.toList.head? = some '-' then none else parseU64 n.text

end Number

inductive Value where
  | null
  | bool (b : Bool)
  | number (n : Number)
  | string (s : String)
  | array (a : List Value)
  | object (o : List (String × Value))

/-- The members of an object, in the order they were written. -/
abbrev Object := List (String × Value)

def Object.get (o : Object) (name : String) : Option Value :=
  (o.find? fun m => m.1 = name).map Prod.snd

namespace Value

/-- The member of an object, if this is one that has it. -/
def get (v : Value) (name : String) : Option Value :=
  match v with
  | .object o => Object.get o name
  | _ => none

def asStr : Value → Option String
  | .string s => some s
  | _ => none

def asArray : Value → Option (List Value)
  | .array a => some a
  | _ => none

def asObject : Value → Option Object
  | .object o => some o
  | _ => none

end Value

end Lazaret.Json
