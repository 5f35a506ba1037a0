import Mathlib.Data.List.DropRight
import Mathlib.Data.String.Basic

/-!
# Texts in bytes

What the response parser does with the text of a line: UTF-8 read strictly (`str::from_utf8`) and
with replacements (`String::from_utf8_lossy`), and Rust's `trim`, `split` and `splitn`.
-/

namespace Lazaret.Http1

abbrev Text := List Char

/-! ## UTF-8 -/

/-- The bytes that may come second after a first byte of a longer character, and how many follow
the second. -/
def secondByte (b : ℕ) : Option ((ℕ × ℕ) × ℕ) :=
  if 0xc2 ≤ b ∧ b ≤ 0xdf then some ((0x80, 0xbf), 0)
  else if b = 0xe0 then some ((0xa0, 0xbf), 1)
  else if b = 0xed then some ((0x80, 0x9f), 1)
  else if 0xe1 ≤ b ∧ b ≤ 0xef then some ((0x80, 0xbf), 1)
  else if b = 0xf0 then some ((0x90, 0xbf), 2)
  else if 0xf1 ≤ b ∧ b ≤ 0xf3 then some ((0x80, 0xbf), 2)
  else if b = 0xf4 then some ((0x80, 0x8f), 2)
  else none

def firstBits (b : ℕ) : ℕ := if b < 0xe0 then b % 32 else if b < 0xf0 then b % 16 else b % 8

/-- As many continuation bytes as are wanted and there, at most `n`: their bits after those in
`acc`, and how many they are. -/
def continuation : ℕ → ℕ → List UInt8 → ℕ × ℕ
  | n + 1, acc, b :: rest =>
    if 0x80 ≤ b.toNat ∧ b.toNat ≤ 0xbf then
      let r := continuation n (acc * 64 + b.toNat % 64) rest
      (r.1, r.2 + 1)
    else (acc, 0)
  | _, acc, _ => (acc, 0)

/-- The first character of some bytes and the number of bytes it takes up; `none` if they are no
character, with as many of them as could have begun one. -/
def firstChar (b : UInt8) (rest : List UInt8) : Option Char × ℕ :=
  if b.toNat < 0x80 then (some (Char.ofNat b.toNat), 1)
  else
    match secondByte b.toNat, rest with
    | some ((low, high), more), c :: rest =>
      if low ≤ c.toNat ∧ c.toNat ≤ high then
        let r := continuation more (firstBits b.toNat * 64 + c.toNat % 64) rest
        if r.2 = more then (some (Char.ofNat r.1), more + 2) else (none, r.2 + 2)
      else (none, 1)
    | _, _ => (none, 1)

/-- The characters of some bytes, `none` for what is no character; at most `fuel` of them. -/
def chars : ℕ → List UInt8 → List (Option Char)
  | fuel + 1, b :: rest =>
    let r := firstChar b rest
    r.1 :: chars fuel ((b :: rest).drop r.2)
  | _, _ => []

def lossy (bytes : List UInt8) : Text :=
  (chars bytes.length bytes).map fun c => c.getD (Char.ofNat 0xfffd)

def fromUtf8 (bytes : List UInt8) : Option Text :=
  (chars bytes.length bytes).mapM id

/-! ## Parts of a text -/

/-- Unicode's white space, which `trim` takes away. -/
def isWhitespace (c : Char) : Bool :=
  (9 ≤ c.toNat ∧ c.toNat ≤ 13) ∨ c.toNat ∈ [0x20, 0x85, 0xa0, 0x1680, 0x2028, 0x2029, 0x202f,
    0x205f, 0x3000] ∨ (0x2000 ≤ c.toNat ∧ c.toNat ≤ 0x200a)

/-- `trim_matches`: without such characters at either end. -/
def trimMatches (p : Char → Bool) (s : Text) : Text := (s.dropWhile p).rdropWhile p

def trim (s : Text) : Text := trimMatches isWhitespace s

def lowercase (s : Text) : Text := s.map Char.toLower

/-- The next part of a `splitn`, and the rest if there is one. -/
def splitOnce (c : Char) (s : Text) : Text × Option Text :=
  (s.takeWhile (· ≠ c), (s.dropWhile (· ≠ c)).tail?)

/-- The number that decimal or hexadecimal digits write; `none` for another character. -/
def number (radix : ℕ) (s : Text) : Option ℕ :=
  s.foldlM (fun n c =>
    let v :=
      if '0' ≤ c ∧ c ≤ '9' then c.toNat - '0'.toNat
      else if 'a' ≤ c ∧ c ≤ 'f' then c.toNat - 'a'.toNat + 10
      else if 'A' ≤ c ∧ c ≤ 'F' then c.toNat - 'A'.toNat + 10
      else radix
    if v < radix then some (n * radix + v) else none) 0

end Lazaret.Http1
