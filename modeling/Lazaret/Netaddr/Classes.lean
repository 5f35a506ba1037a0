import Mathlib.Data.List.DropRight
import Mathlib.Tactic.Ring

/-!
# Classes of addresses

What a redirect may lead to is judged by the class of the address it connects to
(`scanner/netaddr.py`).  An IPv4 address carried inside an IPv6 one is classed by that IPv4 address;
`Carries` says which IPv6 addresses carry an IPv4 one, and none of them but `::1` is classed above
it (`carried_not_above`).
-/

namespace Lazaret.Netaddr

open List

abbrev Text := List Char

/-- An address as `ipaddress` reads it: the number of it. -/
inductive IP
  | v4 (value : Fin (2 ^ 32))
  | v6 (value : Fin (2 ^ 128))
deriving DecidableEq

/-- What of Python's own library the classes are made with: its reading of an address
(`ip_address`), its last word on what is public (`is_global`) and its lower case. -/
structure Python where
  ipAddress : Text → Option IP
  isGlobal : IP → Bool
  lower : Text → Text

def NEVER : ℕ := 0
def LOOPBACK : ℕ := 1
def PRIVATE : ℕ := 2
def PUBLIC : ℕ := 3

/-- The class of an address, and the word a message calls it by. -/
structure Address where
  rank : ℕ
  word : String
deriving DecidableEq

/-- What a configured host reached through an outbound proxy grants. -/
def RELAYED : Address := ⟨PUBLIC, "reached through an outbound proxy"⟩

/-! ## Tables -/

/-- A network: the number of its first address, and the length of its prefix. -/
structure Net where
  start : ℕ
  prefixLen : ℕ

/-- `a.b.c.d/len`. -/
def net4 (a b c d len : ℕ) : Net := ⟨((a * 256 + b) * 256 + c) * 256 + d, len⟩

/-- Eight groups, `/len`. -/
def net6 (groups : List ℕ) (len : ℕ) : Net := ⟨groups.foldl (fun n g => n * 2 ^ 16 + g) 0, len⟩

/-- Whether the network has an address of `width` bits. -/
def Net.has (net : Net) (width value : ℕ) : Bool :=
  value / 2 ^ (width - net.prefixLen) = net.start / 2 ^ (width - net.prefixLen)

/-- `_V4`: the first that holds the address answers. -/
def V4 : List (Net × Address) := [
  (net4 0 0 0 0 32, ⟨NEVER, "unspecified"⟩),
  (net4 255 255 255 255 32, ⟨NEVER, "broadcast"⟩),
  (net4 0 0 0 0 8, ⟨NEVER, "reserved"⟩),
  (net4 127 0 0 0 8, ⟨LOOPBACK, "loopback"⟩),
  (net4 169 254 0 0 16, ⟨NEVER, "link-local"⟩),
  (net4 224 0 0 0 4, ⟨NEVER, "multicast"⟩),
  (net4 240 0 0 0 4, ⟨NEVER, "reserved"⟩),
  (net4 100 100 100 200 32, ⟨NEVER, "metadata"⟩),
  (net4 168 63 129 16 32, ⟨NEVER, "cloud platform"⟩),
  (net4 10 0 0 0 8, ⟨PRIVATE, "private"⟩),
  (net4 172 16 0 0 12, ⟨PRIVATE, "private"⟩),
  (net4 192 168 0 0 16, ⟨PRIVATE, "private"⟩),
  (net4 100 64 0 0 10, ⟨PRIVATE, "carrier-grade NAT"⟩),
  (net4 198 18 0 0 15, ⟨PRIVATE, "benchmarking"⟩),
  (net4 192 0 0 0 24, ⟨NEVER, "special-purpose"⟩),
  (net4 192 0 2 0 24, ⟨NEVER, "documentation"⟩),
  (net4 198 51 100 0 24, ⟨NEVER, "documentation"⟩),
  (net4 203 0 113 0 24, ⟨NEVER, "documentation"⟩)]

def V6 : List (Net × Address) := [
  (net6 [0, 0, 0, 0, 0, 0, 0, 0] 128, ⟨NEVER, "unspecified"⟩),
  (net6 [0, 0, 0, 0, 0, 0, 0, 1] 128, ⟨LOOPBACK, "loopback"⟩),
  (net6 [0xfe80, 0, 0, 0, 0, 0, 0, 0] 10, ⟨NEVER, "link-local"⟩),
  (net6 [0xfec0, 0, 0, 0, 0, 0, 0, 0] 10, ⟨NEVER, "site-local"⟩),
  (net6 [0xfd00, 0xec2, 0, 0, 0, 0, 0, 0x254] 128, ⟨NEVER, "metadata"⟩),
  (net6 [0xfd00, 0xec2, 0, 0, 0, 0, 0, 0x253] 128, ⟨NEVER, "cloud platform"⟩),
  (net6 [0xfd00, 0xec2, 0, 0, 0, 0, 0, 0x123] 128, ⟨NEVER, "cloud platform"⟩),
  (net6 [0xfd00, 0xec2, 0, 0, 0, 0, 0, 0x23] 128, ⟨NEVER, "cloud credentials"⟩),
  (net6 [0xfd20, 0xce, 0, 0, 0, 0, 0, 0x254] 128, ⟨NEVER, "metadata"⟩),
  (net6 [0xfc00, 0, 0, 0, 0, 0, 0, 0] 7, ⟨PRIVATE, "unique-local"⟩),
  (net6 [0xff00, 0, 0, 0, 0, 0, 0, 0] 8, ⟨NEVER, "multicast"⟩),
  (net6 [0x100, 0, 0, 0, 0, 0, 0, 0] 64, ⟨NEVER, "special-purpose"⟩),
  (net6 [0x2001, 0xdb8, 0, 0, 0, 0, 0, 0] 32, ⟨NEVER, "documentation"⟩),
  (net6 [0x3fff, 0, 0, 0, 0, 0, 0, 0] 20, ⟨NEVER, "documentation"⟩),
  (net6 [0x5f00, 0, 0, 0, 0, 0, 0, 0] 16, ⟨NEVER, "special-purpose"⟩)]

def MAPPED : Net := net6 [0, 0, 0, 0, 0, 0xffff, 0, 0] 96
def TRANSLATED : Net := net6 [0, 0, 0, 0, 0xffff, 0, 0, 0] 96
def COMPATIBLE : Net := net6 [0, 0, 0, 0, 0, 0, 0, 0] 96
def NAT64 : Net := net6 [0x64, 0xff9b, 0, 0, 0, 0, 0, 0] 96
def NAT64_LOCAL : Net := net6 [0x64, 0xff9b, 1, 0, 0, 0, 0, 0] 48
def SIX_TO_FOUR : Net := net6 [0x2002, 0, 0, 0, 0, 0, 0, 0] 16
def TEREDO : Net := net6 [0x2001, 0, 0, 0, 0, 0, 0, 0] 32

/-! ## Classes -/

def v4 (value : ℕ) : Fin (2 ^ 32) := ⟨value % 2 ^ 32, Nat.mod_lt _ (Nat.two_pow_pos 32)⟩

def stricter (a : Address) (rest : List Address) : Address :=
  rest.foldl (fun least b => if b.rank < least.rank then b else least) a

/-- The bytes `i` and on, as many as `n`, of a 16-byte number. -/
def bytesAt (value i n : ℕ) : List ℕ :=
  (List.range n).map fun j => value / 256 ^ (15 - (i + j)) % 256

def ofBytes (bytes : List ℕ) : Fin (2 ^ 32) := v4 (bytes.foldl (fun n b => n * 256 + b) 0)

/-- `nat64_local_readings`: the addresses that an address in NAT64's local-use prefix carries, read
at each length of a translation prefix. -/
def nat64LocalReadings (value : ℕ) : List (Fin (2 ^ 32)) :=
  [ofBytes (bytesAt value 6 2 ++ bytesAt value 9 2),
  ofBytes (bytesAt value 7 1 ++ bytesAt value 9 3),
    ofBytes (bytesAt value 9 4), ofBytes (bytesAt value 12 4)]

variable (py : Python)

/-- The first row of a table, or else what `is_global` says. -/
def fromTable (table : List (Net × Address)) (width value : ℕ) (ip : IP) : Address :=
  match table.find? fun row => row.1.has width value with
  | some row => row.2
  | none => if py.isGlobal ip then ⟨PUBLIC, "public"⟩ else ⟨NEVER, "special-purpose"⟩

def classify4 (value : Fin (2 ^ 32)) : Address := fromTable py V4 32 value (.v4 value)

def classify6 (value : Fin (2 ^ 128)) : Address :=
  let n : ℕ := value
  if MAPPED.has 128 n ∨ TRANSLATED.has 128 n ∨ NAT64.has 128 n then classify4 py (v4 n)
  -- `::` and `::1` are IPv6's own
  else if COMPATIBLE.has 128 n ∧ n > 1 then classify4 py (v4 n)
  else if NAT64_LOCAL.has 128 n then
    stricter ⟨PRIVATE, "private"⟩ ((nat64LocalReadings n).map (classify4 py))
  else if SIX_TO_FOUR.has 128 n then classify4 py (v4 (n / 2 ^ 80))
  else if TEREDO.has 128 n then
    stricter (classify4 py (v4 (n / 2 ^ 64))) [classify4 py (v4 (2 ^ 128 - 1 - n))]
  else fromTable py V6 128 n (.v6 value)

def classifyIP : IP → Address
  | .v4 value => classify4 py value
  | .v6 value => classify6 py value

/-- Without a zone: what is before the first `%`. -/
def beforeZone (text : Text) : Text := text.takeWhile (· ≠ '%')

def stripBrackets (text : Text) : Text :=
  (text.dropWhile fun c => c = '[' ∨ c = ']').rdropWhile fun c => c = '[' ∨ c = ']'

/-- `classify`: the class of an address as a socket gives it. -/
def classify (text : Text) : Address :=
  match py.ipAddress (stripBrackets (beforeZone text)) with
  | none => ⟨NEVER, "unreadable"⟩
  | some ip => classifyIP py ip

/-! ## Grants -/

/-- `allowed`: may a redirect lead to `hop` from a configured host on `proxy`? -/
def allowed (hop : Address) (proxy : Option Address) : Bool :=
  let rank := (proxy.map Address.rank).getD PUBLIC
  if hop.rank = PUBLIC then true
  else if hop.rank = PRIVATE then rank = LOOPBACK ∨ rank = PRIVATE
  else if hop.rank = LOOPBACK then rank = LOOPBACK
  else false

def grants (a : Address) : ℕ := if a.rank = LOOPBACK then 2 else if a.rank = PRIVATE then 1 else 0

/-- `least_granting`: the first that grants the least. -/
def leastGranting : List Address → Option Address
  | [] => none
  | a :: rest => some (rest.foldl (fun least b => if grants b < grants least then b else least) a)

def withArticle (word : String) : String :=
  if word.toList.head?.any fun c => c ∈ "aeiou".toList then "an " ++ word else "a " ++ word

def refusal (hop : Address) (ip : Text) (proxy : Option Address) (name : Text) (origin : String) :
    String :=
  let place := withArticle hop.word ++ " address (" ++ String.ofList ip ++ ")"
  let what :=
    if name ≠ [] ∧ name ≠ ip then "redirect to " ++ String.ofList name ++ ", " ++ place ++
      ", refused"
    else "redirect to " ++ place ++ " refused"
  if hop.rank = NEVER then what ++ ": a redirect never leads to such an address"
  else
    match proxy with
    | none => what ++ ": " ++ origin ++ "'s own address is not known"
    | some a =>
      if a = RELAYED then
        what ++ ": " ++ origin ++
          " is reached through an outbound proxy, so it counts as on a public address"
      else what ++ ": " ++ origin ++ " is on " ++ withArticle a.word ++ " address"

/-! ## Addresses inside addresses -/

inductive Carries (a : Fin (2 ^ 32)) (value : Fin (2 ^ 128)) : Prop
  | mapped (h : (value : ℕ) = 0xffff * 2 ^ 32 + a)
  | translated (h : (value : ℕ) = 0xffff * 2 ^ 48 + a)
  | compatible (h : (value : ℕ) = a)
  | nat64 (h : (value : ℕ) = 0x64ff9b * 2 ^ 96 + a)
  /-- After a prefix of 48 bits: bits 48 to 63 and 72 to 87. -/
  | nat64Local48 (hstart : (value : ℕ) / 2 ^ 80 = 0x64ff9b0001)
      (h : (value : ℕ) / 2 ^ 64 % 2 ^ 16 * 2 ^ 16 + (value : ℕ) / 2 ^ 40 % 2 ^ 16 = a)
  /-- After one of 56 bits: bits 56 to 63 and 72 to 95. -/
  | nat64Local56 (hstart : (value : ℕ) / 2 ^ 80 = 0x64ff9b0001)
      (h : (value : ℕ) / 2 ^ 64 % 2 ^ 8 * 2 ^ 24 + (value : ℕ) / 2 ^ 32 % 2 ^ 24 = a)
  | nat64Local64 (hstart : (value : ℕ) / 2 ^ 80 = 0x64ff9b0001)
      (h : (value : ℕ) / 2 ^ 24 % 2 ^ 32 = a)
  | nat64Local96 (hstart : (value : ℕ) / 2 ^ 80 = 0x64ff9b0001) (h : (value : ℕ) % 2 ^ 32 = a)
  | sixToFour (hstart : (value : ℕ) / 2 ^ 112 = 0x2002) (h : (value : ℕ) / 2 ^ 80 % 2 ^ 32 = a)
  | teredoServer (hstart : (value : ℕ) / 2 ^ 96 = 0x20010000)
      (h : (value : ℕ) / 2 ^ 64 % 2 ^ 32 = a)
  /-- The client's address has its bits turned over. -/
  | teredoClient (hstart : (value : ℕ) / 2 ^ 96 = 0x20010000)
      (h : 2 ^ 32 - 1 - (value : ℕ) % 2 ^ 32 = a)

section Prefixes

variable (n : ℕ)

lemma mapped_has : MAPPED.has 128 n = decide (n / 2 ^ 32 = 0xffff) := rfl

lemma translated_has : TRANSLATED.has 128 n = decide (n / 2 ^ 32 = 0xffff0000) := rfl

lemma compatible_has : COMPATIBLE.has 128 n = decide (n / 2 ^ 32 = 0) := rfl

lemma nat64_has : NAT64.has 128 n = decide (n / 2 ^ 32 = 0x64ff9b * 2 ^ 64) := rfl

lemma nat64Local_has : NAT64_LOCAL.has 128 n = decide (n / 2 ^ 80 = 0x64ff9b0001) := rfl

lemma sixToFour_has : SIX_TO_FOUR.has 128 n = decide (n / 2 ^ 112 = 0x2002) := rfl

lemma teredo_has : TEREDO.has 128 n = decide (n / 2 ^ 96 = 0x20010000) := rfl

end Prefixes

lemma stricter_le_first (a : Address) (rest : List Address) : (stricter a rest).rank ≤ a.rank := by
  induction rest generalizing a with
  | nil => exact le_rfl
  | cons c rest ih =>
    refine (ih (if c.rank < a.rank then c else a)).trans ?_
    split_ifs with hlt
    · exact hlt.le
    · exact le_rfl

lemma stricter_le {a b : Address} {rest : List Address} (h : b ∈ a :: rest) :
    (stricter a rest).rank ≤ b.rank := by
  induction rest generalizing a with
  | nil =>
    obtain rfl := mem_singleton.1 h
    exact le_rfl
  | cons c rest ih =>
    have hfirst := stricter_le_first (if c.rank < a.rank then c else a) rest
    show (stricter (if c.rank < a.rank then c else a) rest).rank ≤ b.rank
    rcases mem_cons.1 h with rfl | h
    · exact stricter_le_first _ (c :: rest)
    rcases mem_cons.1 h with rfl | h
    · refine hfirst.trans ?_
      split_ifs with hlt
      · exact le_rfl
      · exact not_lt.1 hlt
    · exact ih (mem_cons_of_mem _ h)

variable {py} {a : Fin (2 ^ 32)} {value : Fin (2 ^ 128)}

lemma v4_eq {m : ℕ} (h : m % 2 ^ 32 = a) : v4 m = a := Fin.ext h

lemma ofBytes_eq {bytes : List ℕ} (h : bytes.foldl (fun n b => n * 256 + b) 0 = (a : ℕ)) :
    ofBytes bytes = a := by
  rw [ofBytes, h]
  exact v4_eq (Nat.mod_eq_of_lt a.isLt)

lemma fold_bytesAt {n i : ℕ} (acc : ℕ) {len : ℕ} (h : i + len ≤ 16) :
    (bytesAt n i len).foldl (fun n b => n * 256 + b) acc =
      acc * 256 ^ len + n / 256 ^ (16 - (i + len)) % 256 ^ len := by
  induction len with
  | zero => simp [bytesAt, Nat.mod_one]
  | succ len ih =>
    have hsnoc : bytesAt n i (len + 1) =
        bytesAt n i len ++ [n / 256 ^ (15 - (i + len)) % 256] := by
      rw [bytesAt, range_succ, map_append]
      rfl
    have hexp : 16 - (i + len) = 15 - (i + len) + 1 := by omega
    have hexp' : 16 - (i + (len + 1)) = 15 - (i + len) := by omega
    rw [hsnoc, foldl_append, ih (by omega), foldl_cons, foldl_nil, hexp, hexp',
      pow_succ 256 (15 - (i + len)), ← Nat.div_div_eq_div_mul, pow_succ 256 len,
      Nat.mul_comm (256 ^ len) 256, Nat.mod_mul]
    ring

lemma classify6_low (h : MAPPED.has 128 value = true ∨ TRANSLATED.has 128 value = true ∨
    NAT64.has 128 value = true) : classify6 py value = classify4 py (v4 value) := by
  rw [classify6, if_pos h]

lemma classify6_local (h : (value : ℕ) / 2 ^ 80 = 0x64ff9b0001) :
    classify6 py value =
      stricter ⟨PRIVATE, "private"⟩ ((nat64LocalReadings value).map (classify4 py)) := by
  rw [classify6, mapped_has, translated_has, nat64_has, compatible_has, nat64Local_has]
  simp only [decide_eq_true_eq]
  rw [if_neg (by omega), if_neg (by omega), if_pos h]

lemma classify6_sixToFour (h : (value : ℕ) / 2 ^ 112 = 0x2002) :
    classify6 py value = classify4 py (v4 (value / 2 ^ 80)) := by
  rw [classify6, mapped_has, translated_has, nat64_has, compatible_has, nat64Local_has,
    sixToFour_has]
  simp only [decide_eq_true_eq]
  rw [if_neg (by omega), if_neg (by omega), if_neg (by omega), if_pos h]

lemma classify6_teredo (h : (value : ℕ) / 2 ^ 96 = 0x20010000) :
    classify6 py value = stricter (classify4 py (v4 (value / 2 ^ 64)))
      [classify4 py (v4 (2 ^ 128 - 1 - value))] := by
  rw [classify6, mapped_has, translated_has, nat64_has, compatible_has, nat64Local_has,
    sixToFour_has, teredo_has]
  simp only [decide_eq_true_eq]
  rw [if_neg (by omega), if_neg (by omega), if_neg (by omega), if_neg (by omega), if_pos h]

lemma local_le (h : (value : ℕ) / 2 ^ 80 = 0x64ff9b0001) (hread : a ∈ nat64LocalReadings value) :
    (classify6 py value).rank ≤ (classify4 py a).rank := by
  rw [classify6_local h]
  exact stricter_le (mem_cons_of_mem _ (mem_map_of_mem hread))

theorem carried_not_above (h : Carries a value) (hown : (value : ℕ) ≠ 1) :
    (classify6 py value).rank ≤ (classify4 py a).rank := by
  have ha := a.isLt
  cases h with
  | mapped h =>
    rw [classify6_low (.inl (by rw [mapped_has, decide_eq_true_eq]; omega)),
      v4_eq (a := a) (by omega)]
  | translated h =>
    rw [classify6_low (.inr (.inl (by rw [translated_has, decide_eq_true_eq]; omega))),
      v4_eq (a := a) (by omega)]
  | nat64 h =>
    rw [classify6_low (.inr (.inr (by rw [nat64_has, decide_eq_true_eq]; omega))),
      v4_eq (a := a) (by omega)]
  | compatible h =>
    by_cases hzero : (value : ℕ) = 0
    · have hvalue : value = 0 := Fin.ext hzero
      rw [hvalue]
      exact Nat.zero_le _
    · have hlow : classify6 py value = classify4 py (v4 value) := by
        rw [classify6, mapped_has, translated_has, nat64_has, compatible_has]
        simp only [decide_eq_true_eq]
        rw [if_neg (by omega), if_pos ⟨by omega, by omega⟩]
      rw [hlow, v4_eq (a := a) (by omega)]
  | nat64Local48 hstart h =>
    refine local_le hstart (mem_cons.2 (.inl (ofBytes_eq ?_).symm))
    rw [foldl_append, fold_bytesAt _ (by decide), fold_bytesAt _ (by decide), zero_mul, zero_add]
    exact h
  | nat64Local56 hstart h =>
    refine local_le hstart (mem_cons_of_mem _ (mem_cons.2 (.inl (ofBytes_eq ?_).symm)))
    rw [foldl_append, fold_bytesAt _ (by decide), fold_bytesAt _ (by decide), zero_mul, zero_add]
    exact h
  | nat64Local64 hstart h =>
    refine local_le hstart (mem_cons_of_mem _ (mem_cons_of_mem _
      (mem_cons.2 (.inl (ofBytes_eq ?_).symm))))
    rw [fold_bytesAt _ (by decide), zero_mul, zero_add]
    exact h
  | nat64Local96 hstart h =>
    refine local_le hstart (mem_cons_of_mem _ (mem_cons_of_mem _
      (mem_cons_of_mem _ (mem_singleton.2 (ofBytes_eq ?_).symm))))
    rw [fold_bytesAt _ (by decide), Nat.zero_mul, Nat.zero_add, Nat.sub_self, pow_zero, Nat.div_one]
    exact h
  | sixToFour hstart h => rw [classify6_sixToFour hstart, v4_eq h]
  | teredoServer hstart h =>
    rw [classify6_teredo hstart, v4_eq h]
    exact stricter_le mem_cons_self
  | teredoClient hstart h =>
    rw [classify6_teredo hstart, v4_eq (a := a) (m := 2 ^ 128 - 1 - (value : ℕ)) (by omega)]
    exact stricter_le (mem_cons_of_mem _ mem_cons_self)

end Lazaret.Netaddr
