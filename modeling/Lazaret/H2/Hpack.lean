import Lazaret.H2.Huffman
import Mathlib.Data.List.Induction

/-!
# Header compression of HTTP/2

The encoder and the decoder of HPACK (`http/h2/hpack.rs`), each with its own dynamic table.  A
block is read from what is left of it: the source's `pos` is where the rest begins.  Sizes are
natural numbers except for the running size of a list, which the decoder adds up to the largest
`usize` and no further.
-/

namespace Lazaret.H2.Hpack

open List Outcome

/-- The table size HTTP/2 starts with, and the most the encoder ever uses. -/
def DEFAULT_TABLE_SIZE : ℕ := 4096

/-- What an entry costs besides its name and value. -/
def ENTRY_OVERHEAD : ℕ := 32

def USIZE_MAX : ℕ := 2 ^ 64 - 1

structure Field where
  name : List UInt8
  value : List UInt8
deriving DecidableEq

/-- The size of a field for the dynamic table and for the limit of a list. -/
def Field.size (f : Field) : ℕ := f.name.length + f.value.length + ENTRY_OVERHEAD

def asBytes (s : String) : List UInt8 := s.toList.map fun c => UInt8.ofNat c.toNat

@[irreducible]
def STATIC : List Field := [
  (":authority", ""), (":method", "GET"), (":method", "POST"), (":path", "/"),
  (":path", "/index.html"), (":scheme", "http"), (":scheme", "https"), (":status", "200"),
  (":status", "204"), (":status", "206"), (":status", "304"), (":status", "400"),
  (":status", "404"), (":status", "500"), ("accept-charset", ""),
  ("accept-encoding", "gzip, deflate"), ("accept-language", ""), ("accept-ranges", ""),
  ("accept", ""), ("access-control-allow-origin", ""), ("age", ""), ("allow", ""),
  ("authorization", ""), ("cache-control", ""), ("content-disposition", ""),
  ("content-encoding", ""), ("content-language", ""), ("content-length", ""),
  ("content-location", ""), ("content-range", ""), ("content-type", ""), ("cookie", ""),
  ("date", ""), ("etag", ""), ("expect", ""), ("expires", ""), ("from", ""), ("host", ""),
  ("if-match", ""), ("if-modified-since", ""), ("if-none-match", ""), ("if-range", ""),
  ("if-unmodified-since", ""), ("last-modified", ""), ("link", ""), ("location", ""),
  ("max-forwards", ""), ("proxy-authenticate", ""), ("proxy-authorization", ""), ("range", ""),
  ("referer", ""), ("refresh", ""), ("retry-after", ""), ("server", ""), ("set-cookie", ""),
  ("strict-transport-security", ""), ("transfer-encoding", ""), ("user-agent", ""), ("vary", ""),
  ("via", ""), ("www-authenticate", "")].map fun e =>
    ⟨asBytes e.1, asBytes e.2⟩

inductive Error where
  | Truncated
  | Integer
  | Index (index : ℕ)
  | Huffman (e : Huffman.Error)
  | StringTooLong
  | SizeUpdateLate
  | SizeUpdateTooLarge (size : ℕ)
deriving DecidableEq

/-! ### Integers and strings -/

/-- The loop of `decode_int` over the bytes after the first. -/
def decodeIntRest : List UInt8 → ℕ → ℕ → Outcome Error (ℕ × List UInt8)
  | [], _, _ => .err .Truncated
  | b :: rest, value, shift =>
    let value := value + (b &&& 0x7f).toNat <<< shift
    if value > 2 ^ 32 - 1 then .err .Integer
    else if b &&& 0x80 = 0 then .ok (value, rest)
    else if shift + 7 > 28 then .err .Integer
    else decodeIntRest rest value (shift + 7)

/-- An integer whose prefix is the low `prefix_bits` bits of the first byte. -/
def decodeInt (prefix_bits : ℕ) : List UInt8 → Outcome Error (ℕ × List UInt8)
  | [] => .err .Truncated
  | first :: rest =>
    let mask := 1 <<< prefix_bits - 1
    let value := first.toNat &&& mask
    if value < mask then .ok (value, rest) else decodeIntRest rest value 0

/-- The loop of `encode_int` over the bytes after the first. -/
def encodeIntRest (rest : ℕ) : List UInt8 :=
  if _h : rest ≥ 128 then
    (UInt8.ofNat (rest &&& 0x7f) ||| 0x80) :: encodeIntRest (rest >>> 7)
  else [UInt8.ofNat rest]
termination_by rest
decreasing_by
  rw [Nat.shiftRight_eq_div_pow]
  omega

/-- `value` with a prefix of `prefix_bits` bits, `flags` being the bits above it. -/
def encodeInt (prefix_bits : ℕ) (flags : UInt8) (value : ℕ) : List UInt8 :=
  let max := 1 <<< prefix_bits - 1
  if value < max then [flags ||| UInt8.ofNat value]
  else (flags ||| UInt8.ofNat max) :: encodeIntRest (value - max)

/-- The error of a Huffman string, as the decoder reports it. -/
def huffmanError (e : Huffman.Error) : Error :=
  if e = .TooLong then .StringTooLong else .Huffman e

/-- A string literal, at most `limit` bytes once decoded. -/
def decodeString (limit : ℕ) (buf : List UInt8) : Outcome Error (List UInt8 × List UInt8) := do
  let first ← Outcome.okOr buf.head? .Truncated
  let huffman_coded := first &&& 0x80 ≠ 0
  let (len, rest) ← decodeInt 7 buf
  if len > rest.length then .err .Truncated
  else
    let raw := rest.take len
    let rest := rest.drop len
    if huffman_coded then
      match Huffman.decode raw limit with
      | .ok s => .ok (s, rest)
      | .err e => .err (huffmanError e)
      | .fault => .fault
    else if raw.length > limit then .err .StringTooLong
    else .ok (raw, rest)

/-- A string literal, Huffman coded if that is shorter. -/
def encodeString (s : List UInt8) : List UInt8 :=
  let coded := Huffman.encodedLen s
  if coded < s.length then encodeInt 7 0x80 coded ++ Huffman.encode s
  else encodeInt 7 0 s.length ++ s

/-! ### The dynamic table -/

/-- The dynamic table: newest entry first, evicted from the back. -/
structure DynamicTable where
  entries : List Field
  size : ℕ
  /-- The most `size` may be. -/
  max : ℕ
deriving DecidableEq

namespace DynamicTable

def new (max : ℕ) : DynamicTable := ⟨[], 0, max⟩

/-- The loop of `insert` that makes room for `size` more.  Says too whether there is room. -/
def makeRoom (entries : List Field) (held size max : ℕ) : List Field × ℕ × Bool :=
  if held + size > max then
    match _h : entries.getLast? with
    | some old => makeRoom entries.dropLast (held - old.size) size max
    | none => (entries, held, false)
  else (entries, held, true)
termination_by entries.length
decreasing_by
  cases entries with
  | nil => simp at _h
  | cons a l => simp

def insert (t : DynamicTable) (field : Field) : DynamicTable :=
  let size := field.size
  match makeRoom t.entries t.size size t.max with
  -- an entry larger than the table empties it and is not stored
  | (entries, held, false) => ⟨entries, held, t.max⟩
  | (entries, held, true) => ⟨field :: entries, held + size, t.max⟩

/-- The loop of `set_max`. -/
def shrink (entries : List Field) (held max : ℕ) : Outcome Error (List Field × ℕ) :=
  if held > max then
    match _h : entries.getLast? with
    | some old => shrink entries.dropLast (held - old.size) max
    -- "a table with a size has entries"
    | none => .fault
  else .ok (entries, held)
termination_by entries.length
decreasing_by
  cases entries with
  | nil => simp at _h
  | cons a l => simp

def setMax (t : DynamicTable) (max : ℕ) : Outcome Error DynamicTable := do
  let (entries, held) ← shrink t.entries t.size max
  .ok ⟨entries, held, max⟩

/-- The field at `index`: 1 to 61 are the static table, 62 and up the dynamic one. -/
def get (t : DynamicTable) (index : ℕ) : Option Field :=
  if index = 0 then none
  else if index ≤ STATIC.length then STATIC[index - 1]?
  else t.entries[index - STATIC.length - 1]?

end DynamicTable

/-! ### Decoding -/

/-- Decodes header blocks, one connection's worth in order. -/
structure Decoder where
  table : DynamicTable
  allowed_table_size : ℕ
  max_list_size : ℕ

/-- Where the decoding of a block is: the table, and the list so far. -/
structure Decoding where
  table : DynamicTable
  list : ℕ
  within : Bool
  started : Bool
  out : List Field

namespace Decoder

def new (allowed_table_size max_list_size : ℕ) : Decoder :=
  ⟨DynamicTable.new allowed_table_size, allowed_table_size, max_list_size⟩

/-- The longest string that could matter: one that fits the list, or the table. -/
def stringLimit (d : Decoder) : ℕ := max d.max_list_size d.allowed_table_size

/-- A field is counted, and kept if the list is within the limit. -/
def count (d : Decoder) (s : Decoding) (field : Field) : Decoding :=
  let list := min (s.list + field.size) USIZE_MAX
  if list > d.max_list_size then { s with started := true, list := list, within := false }
  else { s with started := true, list := list, out := s.out ++ [field] }

/-- The name of a literal field, by its index or as a string. -/
def literalName (table : DynamicTable) (string_limit index : ℕ) (block : List UInt8) :
    Outcome Error (List UInt8 × List UInt8) :=
  if index = 0 then decodeString string_limit block
  else do
    let f ← Outcome.okOr (table.get index) (.Index index)
    .ok (f.name, block)

/-- A literal field: the name as an index or a string, then the value as a string. -/
def literal (table : DynamicTable) (prefix_bits string_limit : ℕ) (block : List UInt8) :
    Outcome Error (Field × List UInt8) := do
  let (index, rest) ← decodeInt prefix_bits block
  let (name, rest) ← literalName table string_limit index rest
  let (value, rest) ← decodeString string_limit rest
  .ok (⟨name, value⟩, rest)

/-- One turn of the loop of `decode`, at the byte `first` of what is left. -/
def step (d : Decoder) (s : Decoding) (first : UInt8) (block : List UInt8) :
    Outcome Error (Decoding × List UInt8) :=
  if first &&& 0x80 ≠ 0 then do
    -- indexed field
    let (index, rest) ← decodeInt 7 block
    let field ← Outcome.okOr (s.table.get index) (.Index index)
    .ok (d.count s field, rest)
  else if first &&& 0x40 ≠ 0 then do
    -- literal field, added to the table
    let (field, rest) ← literal s.table 6 d.stringLimit block
    .ok (d.count { s with table := s.table.insert field } field, rest)
  else if first &&& 0x20 ≠ 0 then
    -- table size update
    if s.started then .err .SizeUpdateLate
    else do
      let (size, rest) ← decodeInt 5 block
      if size > d.allowed_table_size then .err (.SizeUpdateTooLarge size)
      else do
        let table ← s.table.setMax size
        .ok ({ s with table := table }, rest)
  else do
    -- literal field, not added, or never added by anyone on the way
    let (field, rest) ← literal s.table 4 d.stringLimit block
    .ok (d.count s field, rest)

/-- The loop of `decode`.  Each turn takes at least one byte, so that there are at most as many
turns as bytes. -/
def loop (d : Decoder) : ℕ → Decoding → List UInt8 → Outcome Error Decoding
  | _, s, [] => .ok s
  | 0, _, _ :: _ => .fault
  | n + 1, s, first :: rest => do
    let (s, rest) ← d.step s first (first :: rest)
    d.loop n s rest

/-- Decodes a whole header block and appends its fields to `out`.  Says whether the list is within
the limit. -/
def decode (d : Decoder) (block : List UInt8) (out : List Field) :
    Outcome Error (Bool × List Field × Decoder) := do
  let s ← d.loop block.length ⟨d.table, 0, true, false, out⟩ block
  .ok (s.within, s.out, { d with table := s.table })

end Decoder

/-! ### Encoding -/

structure FieldRef where
  name : List UInt8
  value : List UInt8
  sensitive : Bool
deriving DecidableEq

/-- Encodes header blocks, one connection's worth in order. -/
structure Encoder where
  table : DynamicTable
  /-- Table size updates still to send: the smallest size since the last block, and the last one. -/
  pending : Option (ℕ × ℕ)

namespace Encoder

def new : Encoder := ⟨DynamicTable.new DEFAULT_TABLE_SIZE, none⟩

def addPending (pending : Option (ℕ × ℕ)) (new : ℕ) : ℕ × ℕ :=
  match pending with
  | some (smallest, _) => (min smallest new, new)
  | none => (new, new)

/-- The peer announced this SETTINGS_HEADER_TABLE_SIZE. -/
def setPeerTableSize (e : Encoder) (size : ℕ) : Outcome Error Encoder := do
  let new := min size DEFAULT_TABLE_SIZE
  let table ← e.table.setMax new
  .ok ⟨table, some (addPending e.pending new)⟩

/-- The loops of `find` over the entries, the first of them with the index `i`. -/
def findFrom (name value : List UInt8) : List Field → ℕ → Option ℕ → Option ℕ × Option ℕ
  | [], _, named => (none, named)
  | f :: fs, i, named =>
    if f.name = name then
      if f.value = value then (some i, some i)
      else findFrom name value fs (i + 1) (named.or (some i))
    else findFrom name value fs (i + 1) named

/-- The index of a field with this name and value, and of one with this name. -/
def find (table : DynamicTable) (name value : List UInt8) : Option ℕ × Option ℕ :=
  findFrom name value (STATIC ++ table.entries) 1 none

/-- The name of a literal field: its index, or the string. -/
def encodeName (named : Option ℕ) (prefix_bits : ℕ) (flags : UInt8) (name : List UInt8) :
    List UInt8 :=
  match named with
  | some index => encodeInt prefix_bits flags index
  | none => encodeInt prefix_bits flags 0 ++ encodeString name

def encodeField (table : DynamicTable) (f : FieldRef) : List UInt8 × DynamicTable :=
  match find table f.name f.value, f.sensitive with
  | (some index, _), false => (encodeInt 7 0x80 index, table)
  | (_, named), _ =>
    let size := f.name.length + f.value.length + ENTRY_OVERHEAD
    -- a field that would take over the table is not worth adding
    let add := !f.sensitive && decide (size ≤ table.max / 2)
    let (prefix_bits, flags) :=
      if f.sensitive then (4, 0x10) else if add then (6, 0x40) else (4, 0x00)
    (encodeName named prefix_bits flags f.name ++ encodeString f.value,
      if add then table.insert ⟨f.name, f.value⟩ else table)

def encodeFields : List FieldRef → DynamicTable → List UInt8 × DynamicTable
  | [], table => ([], table)
  | f :: fields, table =>
    let (bytes, table) := encodeField table f
    let (rest, table) := encodeFields fields table
    (bytes ++ rest, table)

def encode (e : Encoder) (fields : List FieldRef) : Outcome Error (List UInt8 × Encoder) :=
  match e.pending with
  | some (smallest, last) => do
    let table ← e.table.setMax smallest
    let (bytes, table) := encodeFields fields table
    .ok (encodeInt 5 0x20 smallest ++ bytes,
      ⟨table, if last ≠ smallest then some (last, last) else none⟩)
  | none =>
    let (bytes, table) := encodeFields fields e.table
    .ok (bytes, ⟨table, none⟩)

end Encoder

/-! ### What is written is read back -/

lemma toNat_or_ofNat {flags : UInt8} {p v : ℕ} (hflags : flags.toNat % 2 ^ p = 0) (hp : p ≤ 7)
    (hv : v < 2 ^ p) : (flags ||| UInt8.ofNat v).toNat &&& (1 <<< p - 1) = v := by
  have hpow : 2 ^ p ≤ 2 ^ 8 := Nat.pow_le_pow_right (by omega) (by omega)
  rw [Nat.one_shiftLeft, Nat.and_two_pow_sub_one_eq_mod, UInt8.toNat_or, UInt8.toNat_ofNat',
    Nat.or_mod_two_pow, hflags, Nat.zero_or, Nat.mod_eq_of_lt (by omega : v < 2 ^ 8),
    Nat.mod_eq_of_lt hv]

lemma decodeIntRest_encodeIntRest {r value shift : ℕ} {rest : List UInt8} (hshift : 7 ∣ shift)
    (hle : value + r * 2 ^ shift ≤ 2 ^ 32 - 1) :
    decodeIntRest (encodeIntRest r ++ rest) value shift = .ok (value + r * 2 ^ shift, rest) := by
  induction r using Nat.strong_induction_on generalizing value shift with
  | _ r ih =>
    rw [encodeIntRest]
    split_ifs with h
    · -- a byte with the highest bit set: seven bits of the number, and more to come
      have hlow : ((UInt8.ofNat (r &&& 0x7f) ||| 0x80) &&& 0x7f).toNat = r % 128 := by
        have hand : r &&& 0x7f = r % 128 := Nat.and_two_pow_sub_one_eq_mod r 7
        have hall : ∀ x < 128, ((UInt8.ofNat x ||| 0x80) &&& 0x7f).toNat = x := by decide
        rw [hand, hall _ (Nat.mod_lt _ (by omega))]
      have hhigh : (UInt8.ofNat (r &&& 0x7f) ||| 0x80) &&& 0x80 ≠ 0 := by
        have hand : r &&& 0x7f = r % 128 := Nat.and_two_pow_sub_one_eq_mod r 7
        have hall : ∀ x < 128, (UInt8.ofNat x ||| 0x80) &&& 0x80 ≠ 0 := by decide
        rw [hand]
        exact hall _ (Nat.mod_lt _ (by omega))
      have hsplit : r * 2 ^ shift = r % 128 * 2 ^ shift + r / 128 * 2 ^ (shift + 7) := by
        rw [pow_add, mul_comm (2 ^ shift), ← mul_assoc, ← Nat.add_mul]
        congr 1
        omega
      have hroom : shift + 7 ≤ 28 := by
        have h1 : 128 * 2 ^ shift ≤ r * 2 ^ shift := Nat.mul_le_mul_right _ h
        have h2 : 2 ^ (shift + 7) < 2 ^ 32 := by
          rw [pow_add, mul_comm]
          omega
        have h3 := (Nat.pow_lt_pow_iff_right (a := 2) (by omega)).1 h2
        omega
      rw [cons_append, decodeIntRest]
      simp only [hlow, Nat.shiftLeft_eq]
      have hnext : r >>> 7 = r / 128 := Nat.shiftRight_eq_div_pow r 7
      rw [if_neg (by omega), if_neg hhigh, if_neg (by omega), hnext,
        ih (r / 128) (by omega) (by omega) (by omega)]
      congr 2
      omega
    · have hlow : (UInt8.ofNat r &&& 0x7f).toNat = r := by
        have hall : ∀ x < 128, (UInt8.ofNat x &&& 0x7f).toNat = x := by decide
        exact hall r (by omega)
      have hhigh : UInt8.ofNat r &&& 0x80 = 0 := by
        have hall : ∀ x < 128, UInt8.ofNat x &&& 0x80 = 0 := by decide
        exact hall r (by omega)
      rw [cons_append, nil_append, decodeIntRest]
      simp only [hlow, Nat.shiftLeft_eq]
      rw [if_neg (by omega), if_pos hhigh]

lemma decodeInt_encodeInt {p v : ℕ} (flags : UInt8) (rest : List UInt8) (hp : p ≤ 7)
    (hflags : flags.toNat % 2 ^ p = 0) (hv : v ≤ 2 ^ 32 - 1) :
    decodeInt p (encodeInt p flags v ++ rest) = .ok (v, rest) := by
  have hone : 1 <<< p - 1 = 2 ^ p - 1 := by rw [Nat.one_shiftLeft]
  rw [encodeInt]
  split_ifs with h
  · rw [cons_append, nil_append, decodeInt]
    rw [toNat_or_ofNat hflags hp (by omega), if_pos h]
  · rw [cons_append, decodeInt]
    rw [toNat_or_ofNat hflags hp (by omega), if_neg (by omega),
      decodeIntRest_encodeIntRest (by omega) (by rw [pow_zero]; omega), pow_zero, mul_one]
    congr 2
    omega

lemma head?_encodeInt (p v : ℕ) (flags : UInt8) :
    ∃ x ≤ 2 ^ p - 1, ∃ l, encodeInt p flags v = (flags ||| UInt8.ofNat x) :: l := by
  rw [encodeInt]
  rw [Nat.one_shiftLeft]
  split_ifs with h
  · exact ⟨v, by omega, [], rfl⟩
  · exact ⟨2 ^ p - 1, le_rfl, _, rfl⟩

lemma decodeString_encodeString {limit : ℕ} {s rest : List UInt8} (hlimit : s.length ≤ limit)
    (hlen : s.length ≤ 2 ^ 32 - 1) :
    decodeString limit (encodeString s ++ rest) = .ok (s, rest) := by
  have hhigh : ∀ x ≤ 127, ((0x80 : UInt8) ||| UInt8.ofNat x) &&& 0x80 ≠ 0 := by decide
  have hlow : ∀ x ≤ 127, ¬ ((0 : UInt8) ||| UInt8.ofNat x) &&& 0x80 ≠ 0 := by decide
  rw [encodeString]
  split_ifs with h
  · obtain ⟨x, hx, l, hl⟩ := head?_encodeInt 7 (Huffman.encodedLen s) 0x80
    have hint := decodeInt_encodeInt (p := 7) (v := Huffman.encodedLen s) 0x80
      (Huffman.encode s ++ rest) le_rfl rfl (by omega)
    have hhead : (encodeInt 7 0x80 (Huffman.encodedLen s) ++ (Huffman.encode s ++ rest)).head? =
        some (0x80 ||| UInt8.ofNat x) := by rw [hl]; rfl
    rw [append_assoc, decodeString, hhead]
    simp only [okOr_some, ok_bind, hint]
    rw [if_neg (by rw [length_append, Huffman.length_encode]; omega), if_pos (hhigh x hx),
      ← Huffman.length_encode, take_left, drop_left, Huffman.decode_encode s hlimit]
  · obtain ⟨x, hx, l, hl⟩ := head?_encodeInt 7 s.length 0
    have hint := decodeInt_encodeInt (p := 7) (v := s.length) 0 (s ++ rest) le_rfl rfl hlen
    have hhead : (encodeInt 7 0 s.length ++ (s ++ rest)).head? =
        some (0 ||| UInt8.ofNat x) := by rw [hl]; rfl
    rw [append_assoc, decodeString, hhead]
    simp only [okOr_some, ok_bind, hint]
    rw [if_neg (by rw [length_append]; omega), if_neg (hlow x hx), take_left,
      drop_left, if_neg (by omega)]

/-! ### Evictions -/

def total (l : List Field) : ℕ := (l.map Field.size).sum

/-- The newest entries that fit `n` together. -/
def keep : ℕ → List Field → List Field
  | _, [] => []
  | n, f :: l => if f.size ≤ n then f :: keep (n - f.size) l else []

@[simp] lemma total_nil : total [] = 0 := rfl

@[simp] lemma total_cons (f : Field) (l : List Field) : total (f :: l) = f.size + total l := by
  simp [total]

@[simp] lemma total_append (l m : List Field) : total (l ++ m) = total l + total m := by
  simp [total]

lemma total_keep_le (n : ℕ) (l : List Field) : total (keep n l) ≤ n := by
  induction l generalizing n with
  | nil => simp [keep]
  | cons f l ih =>
    rw [keep]
    split_ifs with h
    · have := ih (n - f.size)
      rw [total_cons]
      omega
    · simp

lemma keep_of_total_le {n : ℕ} {l : List Field} (h : total l ≤ n) : keep n l = l := by
  induction l generalizing n with
  | nil => rfl
  | cons f l ih =>
    rw [total_cons] at h
    rw [keep, if_pos (by omega), ih (by omega)]

lemma keep_concat {n : ℕ} {l : List Field} {a : Field} (h : n < total (l ++ [a])) :
    keep n (l ++ [a]) = keep n l := by
  induction l generalizing n with
  | nil =>
    rw [nil_append, total_cons, total_nil] at h
    rw [nil_append]
    exact if_neg (by omega)
  | cons f l ih =>
    rw [cons_append, total_cons] at h
    rw [cons_append, keep, keep]
    split_ifs with hf
    · rw [ih (by omega)]
    · rfl

lemma keep_keep (a b : ℕ) (l : List Field) : keep a (keep b l) = keep (min a b) l := by
  induction l generalizing a b with
  | nil => rfl
  | cons f l ih =>
    rw [keep, keep]
    split_ifs with hb hm hm
    · rw [keep, if_pos (by omega), ih, show min (a - f.size) (b - f.size) = min a b - f.size by
        omega]
    · rw [keep, if_neg (by omega)]
    · omega
    · rfl

lemma keep_sublist (n : ℕ) (l : List Field) : (keep n l).Sublist l := by
  induction l generalizing n with
  | nil => exact Sublist.refl _
  | cons f l ih =>
    rw [keep]
    split_ifs with h
    · exact (ih _).cons_cons f
    · exact nil_sublist _

namespace DynamicTable

/-- The size is that of the entries, and within the maximum. -/
structure Wf (t : DynamicTable) : Prop where
  size_eq : t.size = total t.entries
  size_le : t.size ≤ t.max

lemma wf_new (max : ℕ) : (new max).Wf := ⟨rfl, Nat.zero_le _⟩

lemma shrink_concat {l : List Field} {a : Field} {held n : ℕ} (h : held > n) :
    shrink (l ++ [a]) held n = shrink l (held - a.size) n := by
  have hlast : (l ++ [a]).getLast? = some a := by simp
  rw [shrink, if_pos h]
  split
  · rename_i old hold
    rw [hlast] at hold
    cases hold
    rw [dropLast_concat]
  · rename_i hold
    rw [hlast] at hold
    cases hold

lemma makeRoom_concat {l : List Field} {a : Field} {held n max : ℕ} (h : held + n > max) :
    makeRoom (l ++ [a]) held n max = makeRoom l (held - a.size) n max := by
  have hlast : (l ++ [a]).getLast? = some a := by simp
  rw [makeRoom, if_pos h]
  split
  · rename_i old hold
    rw [hlast] at hold
    cases hold
    rw [dropLast_concat]
  · rename_i hold
    rw [hlast] at hold
    cases hold

lemma total_concat_sub (l : List Field) (a : Field) : total (l ++ [a]) - a.size = total l := by
  rw [total_append, total_cons, total_nil]
  omega

lemma shrink_eq (l : List Field) (n : ℕ) :
    shrink l (total l) n = .ok (keep n l, total (keep n l)) := by
  induction l using reverseRecOn with
  | nil => simp [shrink, keep]
  | append_singleton l a ih =>
    by_cases h : total (l ++ [a]) > n
    · rw [shrink_concat h, total_concat_sub, ih, keep_concat h]
    · rw [shrink, if_neg h, keep_of_total_le (by omega)]

lemma makeRoom_eq (l : List Field) (n max : ℕ) :
    makeRoom l (total l) n max =
      if n ≤ max then (keep (max - n) l, total (keep (max - n) l), true) else ([], 0, false) := by
  induction l using reverseRecOn with
  | nil =>
    rw [makeRoom]
    simp only [total_nil, getLast?_nil, keep, zero_add]
    by_cases h : n > max
    · rw [if_pos h, if_neg (by omega)]
    · rw [if_neg h, if_pos (by omega)]
  | append_singleton l a ih =>
    by_cases h : total (l ++ [a]) + n > max
    · rw [makeRoom_concat h, total_concat_sub, ih]
      split_ifs with hn
      · rw [keep_concat (by omega)]
      · rfl
    · rw [makeRoom, if_neg h, if_pos (by omega), keep_of_total_le (by omega)]

variable {t : DynamicTable}

lemma Wf.setMax_eq (h : t.Wf) (n : ℕ) :
    t.setMax n = .ok ⟨keep n t.entries, total (keep n t.entries), n⟩ := by
  rw [setMax, h.size_eq, shrink_eq, ok_bind]

lemma wf_keep (n : ℕ) (l : List Field) : (⟨keep n l, total (keep n l), n⟩ : DynamicTable).Wf :=
  ⟨rfl, total_keep_le n l⟩

lemma Wf.insert_eq (h : t.Wf) (f : Field) :
    t.insert f =
      if f.size ≤ t.max then
        ⟨f :: keep (t.max - f.size) t.entries, total (keep (t.max - f.size) t.entries) + f.size,
          t.max⟩
      else ⟨[], 0, t.max⟩ := by
  rw [insert, h.size_eq, makeRoom_eq]
  split_ifs <;> rfl

lemma Wf.insert (h : t.Wf) (f : Field) : (t.insert f).Wf ∧ (t.insert f).max = t.max := by
  rw [h.insert_eq]
  split_ifs with hf
  · have := total_keep_le (t.max - f.size) t.entries
    refine ⟨⟨?_, ?_⟩, rfl⟩
    · rw [total_cons, add_comm]
    · dsimp only
      omega
  · exact ⟨⟨rfl, Nat.zero_le _⟩, rfl⟩

lemma Wf.mem_insert (h : t.Wf) {f e : Field} (he : e ∈ (t.insert f).entries) :
    e = f ∨ e ∈ t.entries := by
  rw [h.insert_eq] at he
  split_ifs at he with hf
  · rcases mem_cons.1 he with he | he
    · exact .inl he
    · exact .inr ((keep_sublist _ _).subset he)
  · exact absurd he (by simp)

lemma Wf.length_le (h : t.Wf) : t.entries.length * ENTRY_OVERHEAD ≤ t.max := by
  have hle : ∀ l : List Field, l.length * ENTRY_OVERHEAD ≤ total l := by
    intro l
    induction l with
    | nil => simp
    | cons f l ih =>
      rw [length_cons, total_cons, add_mul, one_mul, Field.size]
      omega
  have := hle t.entries
  have := h.size_eq
  have := h.size_le
  omega

lemma get_succ (t : DynamicTable) (i : ℕ) : t.get (i + 1) = (STATIC ++ t.entries)[i]? := by
  rw [get, if_neg (by omega), getElem?_append]
  split_ifs with h h' h'
  · rfl
  · omega
  · omega
  · congr 1
    omega

end DynamicTable

end Lazaret.H2.Hpack
