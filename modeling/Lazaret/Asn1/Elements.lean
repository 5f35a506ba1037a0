import Lazaret.X509.Certificate
import Mathlib.Data.List.TakeWhile
import Mathlib.Data.Nat.Digits.Lemmas

/-!
# Elements of DER, read and written

The DER reader with its places (`Der.next`) and the writer (`tlv`) of `asn1.rs`.  An element is read
exactly where it is written (`next_eq_ok`), whatever follows it (`next_tlv`).  Elements that are
read one after the other are all that was consumed (`Reads.raw`).
-/

namespace Lazaret.Asn1

open List

open X509 (Error)

def ISIZE_MAX : ℕ := 2 ^ 63 - 1

def USIZE_MAX : ℕ := 2 ^ 64 - 1

/-- A slice of bytes: `data[i..j]`. -/
def slice (data : List UInt8) (i j : ℕ) : List UInt8 := (data.take j).drop i

/-- `get(i..j)` -/
def getRange (data : List UInt8) (i j : ℕ) : Option (List UInt8) :=
  if i ≤ j ∧ j ≤ data.length then some (slice data i j) else none

def okOr {α : Type} (x : Option α) (e : Error) : Except Error α :=
  match x with
  | some a => .ok a
  | none => .error e

structure Tlv where
  tag : UInt8
  content : List UInt8
  raw : List UInt8
deriving DecidableEq

/-- A reader: the data, and the place up to which it was read. -/
structure Der where
  data : List UInt8
  pos : ℕ
  data_le : data.length ≤ ISIZE_MAX
  pos_le : pos ≤ data.length

/-- What bytes are worth, the highest first: `len = (len << 8) | b` over them. -/
def fromBe (bytes : List UInt8) : ℕ := bytes.foldl (fun len b => len <<< 8 ||| b.toNat) 0

namespace Der

def new (data : List UInt8) (h : data.length ≤ ISIZE_MAX) : Der := ⟨data, 0, h, Nat.zero_le _⟩

/-- The length of an element that starts at a place, and the place after it. -/
def length (data : List UInt8) (pos : ℕ) : Except Error (ℕ × ℕ) := do
  let first ← okOr data[pos]? (.Asn1 "missing length")
  let pos := pos + 1
  if first < 0x80 then .ok (first.toNat, pos)
  else do
    let n := (first &&& 0x7f).toNat
    refuse (n = 0) (.Asn1 "indefinite lengths are not allowed in DER")
    refuse (n > 4) (.Asn1 "length too large")
    let bytes ← okOr (getRange data pos (pos + n)) (.Asn1 "truncated length")
    let pos := pos + n
    refuse (bytes.head? = some 0) (.Asn1 "non-minimal length encoding")
    let len := fromBe bytes
    refuse (len < 0x80) (.Asn1 "non-minimal length encoding")
    .ok (len, pos)

def next (d : Der) : Except Error (Tlv × Der) := do
  let start := d.pos
  let tag ← okOr d.data[start]? (.Asn1 "unexpected end of data")
  refuse (tag &&& 0x1f = 0x1f) (.Asn1 "high tag numbers are not supported")
  let (len, pos) ← length d.data (start + 1)
  let stop := pos + len
  refuse (USIZE_MAX < stop) (.Asn1 "length overflow")
  if h : stop ≤ d.data.length then
    .ok (⟨tag, slice d.data pos stop, slice d.data start stop⟩, ⟨d.data, stop, d.data_le, h⟩)
  else .error (.Asn1 "content exceeds buffer")

inductive Reads : Der → List Tlv → Der → Prop
  | nil (d : Der) : Reads d [] d
  | cons {d d' d'' : Der} {t : Tlv} {ts : List Tlv} (h : d.next = .ok (t, d'))
      (hts : Reads d' ts d'') : Reads d (t :: ts) d''

end Der

namespace Write

def toBeBytes (n : ℕ) : List UInt8 :=
  [UInt8.ofNat (n / 2 ^ 24), UInt8.ofNat (n / 2 ^ 16), UInt8.ofNat (n / 2 ^ 8), UInt8.ofNat n]

def length (n : ℕ) : List UInt8 :=
  if n < 0x80 then [UInt8.ofNat n]
  else
    let bytes := toBeBytes (n % 2 ^ 32)
    let skip := (bytes.findIdx? fun b => b ≠ 0).getD 3
    (0x80 ||| UInt8.ofNat (4 - skip)) :: bytes.drop skip

def tlv (tag : UInt8) (content : List UInt8) : List UInt8 :=
  tag :: (length content.length ++ content)

end Write

/-! ## Lengths -/

variable {bytes : List UInt8} {n : ℕ}

lemma fromBe_append (bytes : List UInt8) (b : UInt8) :
    fromBe (bytes ++ [b]) = fromBe bytes * 256 + b.toNat := by
  rw [fromBe, foldl_append]
  show fromBe bytes <<< 8 ||| b.toNat = _
  rw [← Nat.shiftLeft_add_eq_or_of_lt b.toNat_lt, Nat.shiftLeft_eq]

lemma fromBe_eq_ofDigits (bytes : List UInt8) :
    fromBe bytes = Nat.ofDigits 256 (bytes.reverse.map UInt8.toNat) := by
  induction bytes using reverseRecOn with
  | nil => rfl
  | append_singleton bytes b ih =>
    rw [fromBe_append, ih, reverse_append, reverse_singleton, singleton_append,
      map_cons, Nat.ofDigits_cons]
    omega

lemma fromBe_lt (bytes : List UInt8) : fromBe bytes < 256 ^ bytes.length := by
  rw [fromBe_eq_ofDigits]
  have h := Nat.ofDigits_lt_base_pow_length (b := 256) (l := bytes.reverse.map UInt8.toNat)
    (by decide) ?_
  · simpa using h
  · intro x hx
    obtain ⟨b, -, rfl⟩ := mem_map.1 hx
    exact b.toNat_lt

lemma fromBe_inj {cs : List UInt8} (hlen : bytes.length = cs.length)
    (h : fromBe bytes = fromBe cs) : bytes = cs := by
  have hlt : ∀ ds : List UInt8, ∀ x ∈ ds.reverse.map UInt8.toNat, x < 256 := by
    intro ds x hx
    obtain ⟨b, -, rfl⟩ := mem_map.1 hx
    exact b.toNat_lt
  rw [fromBe_eq_ofDigits, fromBe_eq_ofDigits] at h
  have hdigits := Nat.ofDigits_inj_of_len_eq (by decide) (by simpa using hlen) (hlt bytes)
    (hlt cs) h
  rw [map_reverse, map_reverse, reverse_inj] at hdigits
  exact map_injective_iff.2 (fun _ _ => UInt8.toNat_inj.1) hdigits

lemma fromBe_zeros (k : ℕ) (bytes : List UInt8) :
    fromBe (replicate k 0 ++ bytes) = fromBe bytes := by
  induction k with
  | zero => rfl
  | succ k ih =>
    rw [replicate_succ, cons_append, fromBe, foldl_cons]
    exact ih

namespace Write

lemma fromBe_toBeBytes (h : n < 2 ^ 32) : fromBe (toBeBytes n) = n := by
  have happ : toBeBytes n = (([] ++ [UInt8.ofNat (n / 2 ^ 24)]) ++ [UInt8.ofNat (n / 2 ^ 16)] ++
    [UInt8.ofNat (n / 2 ^ 8)]) ++ [UInt8.ofNat n] := rfl
  rw [happ, fromBe_append, fromBe_append, fromBe_append, fromBe_append]
  simp only [UInt8.toNat_ofNat']
  show (((0 * 256 + _) * 256 + _) * 256 + _) * 256 + _ = n
  omega

lemma length_eq (hlen : bytes.length ≤ 4) (hhead : bytes.head? ≠ some 0) (h : 0x80 ≤ fromBe bytes) :
    length (fromBe bytes) = (0x80 ||| UInt8.ofNat bytes.length) :: bytes := by
  have hlt : fromBe bytes < 2 ^ 32 :=
    (fromBe_lt bytes).trans_le (Nat.pow_le_pow_right (by decide) hlen)
  have hbe : toBeBytes (fromBe bytes) = replicate (4 - bytes.length) 0 ++ bytes := by
    refine fromBe_inj ?_ ?_
    · rw [length_append, length_replicate]
      show 4 = _
      omega
    · rw [fromBe_toBeBytes hlt, fromBe_zeros]
  obtain ⟨b, bs, rfl⟩ : ∃ b bs, bytes = b :: bs := by
    cases bytes with
    | nil => exact absurd h (by decide)
    | cons b bs => exact ⟨b, bs, rfl⟩
  have hb : b ≠ 0 := fun hb => hhead (by rw [hb]; rfl)
  have hfind : (replicate (4 - (b :: bs).length) 0 ++ b :: bs).findIdx? (fun b => b ≠ 0) =
      some (4 - (b :: bs).length) := by
    rw [findIdx?_append, findIdx?_replicate]
    simp [hb, findIdx?_cons]
  rw [length, if_neg (Nat.not_lt.2 h), Nat.mod_eq_of_lt hlt, hbe]
  show (0x80 ||| UInt8.ofNat (4 - ((replicate _ 0 ++ b :: bs).findIdx? _).getD 3)) ::
    (replicate _ 0 ++ b :: bs).drop (((replicate _ 0 ++ b :: bs).findIdx? _).getD 3) = _
  rw [hfind, Option.getD_some, drop_left' length_replicate, Nat.sub_sub_self hlen]

lemma exists_length (h : 0x80 ≤ n) (hn : n < 2 ^ 32) :
    ∃ bytes : List UInt8, fromBe bytes = n ∧ bytes.length ≤ 4 ∧ bytes ≠ [] ∧
      bytes.head? ≠ some 0 := by
  have hsplit := takeWhile_append_dropWhile (p := fun b => b == 0) (l := toBeBytes n)
  have hzeros : (toBeBytes n).takeWhile (fun b => b == 0) =
      replicate ((toBeBytes n).takeWhile fun b => b == 0).length 0 := by
    refine eq_replicate_iff.2 ⟨rfl, fun b hb => ?_⟩
    simpa using mem_takeWhile_imp hb
  have hvalue : fromBe ((toBeBytes n).dropWhile fun b => b == 0) = n := by
    rw [hzeros] at hsplit
    rw [← fromBe_zeros, hsplit, fromBe_toBeBytes hn]
  refine ⟨_, hvalue, (dropWhile_sublist _).length_le, ?_, ?_⟩
  · intro hnil
    rw [hnil] at hvalue
    exact absurd (hvalue ▸ h) (by decide)
  · intro hhead
    have := head?_dropWhile_not (fun b => b == 0) (toBeBytes n)
    rw [hhead] at this
    exact absurd this (by decide)

end Write

/-! ## Reading -/

lemma okOr_eq_ok {α : Type} {x : Option α} {e : Error} {a : α} : okOr x e = .ok a ↔ x = some a := by
  cases x <;> simp [okOr]

lemma getElem?_eq_some_append {data : List UInt8} {i : ℕ} {b : UInt8} :
    data[i]? = some b ↔ ∃ a c, data = a ++ b :: c ∧ a.length = i := by
  constructor
  · intro h
    obtain ⟨hlt, rfl⟩ := List.getElem?_eq_some_iff.1 h
    refine ⟨data.take i, data.drop (i + 1), ?_, length_take_of_le hlt.le⟩
    rw [← drop_eq_getElem_cons hlt, take_append_drop]
  · rintro ⟨a, c, rfl, rfl⟩
    rw [getElem?_append_right (Nat.le_refl _), Nat.sub_self, getElem?_cons_zero]

lemma slice_eq {a b c : List UInt8} {i j : ℕ} (ha : a.length = i) (hj : j = i + b.length) :
    slice (a ++ (b ++ c)) i j = b := by
  rw [hj, ← ha, slice, ← append_assoc, take_left' length_append, drop_left]

lemma getRange_eq_some {data : List UInt8} {i j : ℕ} {bytes : List UInt8} :
    getRange data i j = some bytes ↔
      ∃ a c, data = a ++ (bytes ++ c) ∧ a.length = i ∧ j = i + bytes.length := by
  rw [getRange]
  constructor
  · intro h
    split at h
    next hin =>
      obtain rfl := Option.some.inj h
      refine ⟨data.take i, data.drop j, ?_, length_take_of_le (hin.1.trans hin.2), ?_⟩
      · have htake : data.take i = (data.take j).take i := by rw [take_take, min_eq_left hin.1]
        rw [slice, ← append_assoc, htake, take_append_drop, take_append_drop]
      · rw [slice, length_drop, length_take_of_le hin.2]
        omega
    next => cases h
  · rintro ⟨a, c, rfl, ha, hj⟩
    rw [if_pos (by simp only [length_append]; omega), slice_eq ha hj]

lemma count_or {k : ℕ} (hk : k ≤ 4) : (0x80 ||| UInt8.ofNat k) < 0x80 ↔ False := by
  interval_cases k <;> decide

lemma or_and {first : UInt8} (h : ¬ first < 0x80) : 0x80 ||| (first &&& 0x7f) = first := by
  have hle : 128 ≤ first.toNat := Nat.not_lt.1 fun hlt => h (UInt8.lt_iff_toNat_lt.2 hlt)
  have hlt := first.toNat_lt
  refine UInt8.toNat_inj.1 ?_
  rw [UInt8.toNat_or, UInt8.toNat_and]
  show 2 ^ 7 ||| (first.toNat &&& (2 ^ 7 - 1)) = _
  rw [Nat.and_two_pow_sub_one_eq_mod]
  have hor := Nat.two_pow_add_eq_or_of_lt (Nat.mod_lt first.toNat (by decide : 0 < 2 ^ 7)) 1
  rw [Nat.mul_one] at hor
  rw [← hor]
  omega

namespace Der

theorem length_eq_ok {data : List UInt8} {pos pos' len : ℕ} (hpos : pos ≤ data.length) :
    length data pos = .ok (len, pos') ↔
      len < 2 ^ 32 ∧ ∃ a c, data = a ++ (Write.length len ++ c) ∧ a.length = pos ∧
        pos' = pos + (Write.length len).length := by
  constructor
  · intro h
    obtain ⟨first, hfirst, h⟩ := except_bind_eq_ok.1 h
    obtain ⟨a, r, rfl, rfl⟩ := getElem?_eq_some_append.1 (okOr_eq_ok.1 hfirst)
    split at h
    next hshort =>
      obtain ⟨rfl, rfl⟩ := Prod.mk.inj (Except.ok.inj h)
      have hnat : first.toNat < 0x80 := UInt8.lt_iff_toNat_lt.1 hshort
      rw [Write.length, if_pos hnat, UInt8.ofNat_toNat]
      exact ⟨by omega, a, r, rfl, rfl, rfl⟩
    next hlong =>
      obtain ⟨_, hzero, h⟩ := except_bind_eq_ok.1 h
      obtain ⟨_, hfour, h⟩ := except_bind_eq_ok.1 h
      obtain ⟨bytes, hbytes, h⟩ := except_bind_eq_ok.1 h
      obtain ⟨_, hhead, h⟩ := except_bind_eq_ok.1 h
      obtain ⟨_, hmin, h⟩ := except_bind_eq_ok.1 h
      obtain ⟨rfl, rfl⟩ := Prod.mk.inj (Except.ok.inj h)
      rw [refuse_eq_ok] at hzero hfour hhead hmin
      obtain ⟨a', c, happ, ha', hcount⟩ := getRange_eq_some.1 (okOr_eq_ok.1 hbytes)
      obtain ⟨rfl, rfl⟩ := append_inj ((append_cons a first r).symm.trans happ)
        (length_append.trans ha'.symm)
      have hlen : (first &&& 0x7f).toNat = bytes.length := by omega
      have hfour' : bytes.length ≤ 4 := by omega
      have hwrite : Write.length (fromBe bytes) = first :: bytes := by
        rw [Write.length_eq hfour' hhead (not_lt.1 hmin), ← hlen, UInt8.ofNat_toNat, or_and hlong]
      refine ⟨(fromBe_lt bytes).trans_le (Nat.pow_le_pow_right (by decide) hfour'), a, c, ?_,
        rfl, ?_⟩
      · rw [hwrite, cons_append]
      · rw [hwrite, length_cons]
        omega
  · rintro ⟨hlen, a, c, rfl, rfl, rfl⟩
    by_cases hshort : len < 0x80
    · have hwrite : Write.length len = [UInt8.ofNat len] := by rw [Write.length, if_pos hshort]
      have hnat : (UInt8.ofNat len).toNat = len := by
        rw [UInt8.toNat_ofNat']
        omega
      rw [length, hwrite, singleton_append, getElem?_eq_some_append.2 ⟨a, c, rfl, rfl⟩]
      show (if UInt8.ofNat len < 0x80 then Except.ok ((UInt8.ofNat len).toNat, a.length + 1)
        else _) = _
      rw [if_pos (UInt8.lt_iff_toNat_lt.2 (by rw [hnat]; exact hshort)), hnat]
      rfl
    · obtain ⟨bytes, rfl, hfour, hne, hhead⟩ := Write.exists_length (not_lt.1 hshort) hlen
      have hcount : ((0x80 ||| UInt8.ofNat bytes.length) &&& 0x7f).toNat = bytes.length := by
        have := length_pos_iff.2 hne
        interval_cases bytes.length <;> rfl
      have hrange : getRange (a ++ (0x80 ||| UInt8.ofNat bytes.length) :: (bytes ++ c))
          (a.length + 1) (a.length + 1 + bytes.length) = some bytes :=
        getRange_eq_some.2 ⟨a ++ [_], c, append_cons .., length_append, rfl⟩
      rw [Write.length_eq hfour hhead (not_lt.1 hshort), length, cons_append,
        getElem?_eq_some_append.2 ⟨a, bytes ++ c, rfl, rfl⟩]
      show (if (0x80 ||| UInt8.ofNat bytes.length) < 0x80 then _ else _) = _
      rw [if_neg (fun h => (count_or hfour).1 h)]
      dsimp only
      rw [hcount, refuse_bind_of_not (length_pos_iff.2 hne).ne',
        refuse_bind_of_not (not_lt.2 hfour), hrange]
      show (refuse (bytes.head? = some 0) _ >>= fun _ => _) = _
      rw [refuse_bind_of_not hhead, refuse_bind_of_not hshort, length_cons]
      exact congrArg (fun p => Except.ok (_, p)) (by omega)

lemma slices_tlv {data a content c : List UInt8} {tag : UInt8} {pos stop : ℕ}
    (hdata : data = a ++ (Write.tlv tag content ++ c)) (ha : a.length = pos)
    (hstop : stop = pos + 1 + (Write.length content.length).length + content.length) :
    slice data (pos + 1 + (Write.length content.length).length) stop = content ∧
      slice data pos stop = Write.tlv tag content ∧ stop = pos + (Write.tlv tag content).length ∧
      stop ≤ data.length := by
  have htlv : (Write.tlv tag content).length =
      1 + (Write.length content.length).length + content.length := by
    rw [Write.tlv, length_cons, length_append]
    omega
  have hall : data = (a ++ tag :: Write.length content.length) ++ (content ++ c) := by
    simp [hdata, Write.tlv]
  refine ⟨hall ▸ slice_eq ?_ hstop, hdata ▸ slice_eq ha ?_, by omega, ?_⟩
  · rw [length_append, length_cons]
    omega
  · omega
  · rw [hdata, length_append, length_append]
    omega

theorem next_eq_ok {d d' : Der} {t : Tlv} :
    d.next = .ok (t, d') ↔ t.tag &&& 0x1f ≠ 0x1f ∧ t.content.length < 2 ^ 32 ∧
      t.raw = Write.tlv t.tag t.content ∧
      ∃ a c, d.data = a ++ (t.raw ++ c) ∧ a.length = d.pos ∧ d'.data = d.data ∧
        d'.pos = d.pos + t.raw.length := by
  have hle := d.data_le
  constructor
  · intro h
    obtain ⟨tag, htag, h⟩ := except_bind_eq_ok.1 h
    obtain ⟨a, r, hdata, ha⟩ := getElem?_eq_some_append.1 (okOr_eq_ok.1 htag)
    obtain ⟨_, hlow, h⟩ := except_bind_eq_ok.1 h
    obtain ⟨⟨len, pos⟩, hlen, h⟩ := except_bind_eq_ok.1 h
    obtain ⟨_, -, h⟩ := except_bind_eq_ok.1 h
    have hlength : d.data.length = d.pos + 1 + r.length := by
      rw [hdata, length_append, length_cons, ha]
      omega
    obtain ⟨hbound, a', c, hdata', ha', rfl⟩ := (length_eq_ok (by omega)).1 hlen
    obtain ⟨rfl, rfl⟩ := append_inj ((append_cons a tag r).symm.trans (hdata.symm.trans hdata'))
      (length_append.trans (by rw [ha, ha']; rfl))
    rw [length_append] at hlength
    split at h
    next hstop =>
      obtain ⟨rfl, rfl⟩ := Prod.mk.inj (Except.ok.inj h)
      -- what follows the length is the content and the rest
      obtain ⟨content, c, rfl, rfl⟩ : ∃ content c', c = content ++ c' ∧ content.length = len :=
        ⟨c.take len, c.drop len, (take_append_drop len c).symm, length_take_of_le (by omega)⟩
      have hwhole : d.data = a ++ (Write.tlv tag content ++ c) := by simp [hdata, Write.tlv]
      obtain ⟨hcontent, hraw, hpos, -⟩ := slices_tlv hwhole ha rfl
      rw [hcontent, hraw]
      exact ⟨refuse_eq_ok.1 hlow, hbound, rfl, a, c, hwhole, ha, rfl, hpos⟩
    next => cases h
  · rintro ⟨hlow, hbound, hraw, a, c, hdata, ha, hdata', hpos'⟩
    obtain ⟨tag, content, raw⟩ := t
    obtain ⟨data', pos', _, _⟩ := d'
    dsimp only at hlow hbound hraw hdata hdata' hpos' ⊢
    subst hraw hdata' hpos'
    obtain ⟨hcontent, hraw, hpos, hin⟩ := slices_tlv hdata ha rfl
    have hget : d.data[d.pos]? = some tag := getElem?_eq_some_append.2 ⟨a, _, hdata, ha⟩
    have hlen : length d.data (d.pos + 1) =
        .ok (content.length, d.pos + 1 + (Write.length content.length).length) :=
      (length_eq_ok (by omega)).2 ⟨hbound, a ++ [tag], content ++ c, by simp [hdata, Write.tlv],
        by simp [ha], rfl⟩
    have hmax : ¬ USIZE_MAX < d.pos + 1 + (Write.length content.length).length +
        content.length := by
      have : ISIZE_MAX < USIZE_MAX := by decide
      omega
    simp only [next, hget, okOr, refuse_bind_of_not hlow, hlen, except_ok_bind]
    rw [refuse_bind_of_not hmax, dif_pos hin, hcontent, hraw]
    simp only [hpos]

theorem next_tlv {tag : UInt8} {content rest : List UInt8} (htag : tag &&& 0x1f ≠ 0x1f)
    (hlen : content.length < 2 ^ 32) (h : (Write.tlv tag content ++ rest).length ≤ ISIZE_MAX) :
    ∃ d', (new (Write.tlv tag content ++ rest) h).next =
        .ok (⟨tag, content, Write.tlv tag content⟩, d') ∧
      d'.data = Write.tlv tag content ++ rest ∧ d'.data.drop d'.pos = rest := by
  have hle : (Write.tlv tag content).length ≤ (Write.tlv tag content ++ rest).length := by
    rw [length_append]
    exact Nat.le_add_right _ _
  refine ⟨⟨_, (Write.tlv tag content).length, h, hle⟩, ?_, rfl, drop_left⟩
  exact next_eq_ok.2 ⟨htag, hlen, rfl, [], rest, rfl, rfl, rfl, (zero_add _).symm⟩

lemma take_next {d d' : Der} {t : Tlv} (h : d.next = .ok (t, d')) :
    d'.data = d.data ∧ d.data.take d'.pos = d.data.take d.pos ++ t.raw := by
  obtain ⟨-, -, -, a, c, hdata, ha, hdata', hpos'⟩ := next_eq_ok.1 h
  refine ⟨hdata', ?_⟩
  rw [hpos', hdata, ← ha, take_left, ← append_assoc, ← length_append, take_left]

lemma next_of_take {d d' e : Der} {t : Tlv} (h : d.next = .ok (t, d')) (hpos : e.pos = d.pos)
    (htake : e.data.take d'.pos = d.data.take d'.pos) :
    ∃ e', e.next = .ok (t, e') ∧ e'.data = e.data ∧ e'.pos = d'.pos := by
  obtain ⟨hlow, hlen, hraw, -, -, -, -, -, hpos'⟩ := next_eq_ok.1 h
  obtain ⟨hdata', hstep⟩ := take_next h
  have hle : d'.pos ≤ e.data.length := by
    have hd' : d'.pos ≤ d.data.length := by
      rw [← hdata']
      exact d'.pos_le
    have := congrArg List.length htake
    rw [length_take_of_le hd', length_take] at this
    omega
  have hdata : e.data = d.data.take d.pos ++ (t.raw ++ e.data.drop d'.pos) := by
    rw [← append_assoc, ← hstep, ← htake, take_append_drop]
  refine ⟨⟨e.data, d'.pos, e.data_le, hle⟩, next_eq_ok.2 ⟨hlow, hlen, hraw, d.data.take d.pos,
    e.data.drop d'.pos, hdata, ?_, rfl, ?_⟩, rfl, rfl⟩
  · rw [length_take_of_le d.pos_le, hpos]
  · rw [hpos, hpos']

namespace Reads

variable {d d' : Der} {ts : List Tlv}

lemma pos_le_pos (h : Reads d ts d') : d'.data = d.data ∧ d.pos ≤ d'.pos := by
  induction h with
  | nil d => exact ⟨rfl, le_refl _⟩
  | cons h _ ih =>
    obtain ⟨-, -, -, -, -, -, -, hdata, hpos⟩ := next_eq_ok.1 h
    exact ⟨ih.1.trans hdata, by omega⟩

lemma tlv_eq (h : Reads d ts d') {t : Tlv} (ht : t ∈ ts) : Write.tlv t.tag t.content = t.raw := by
  induction h with
  | nil => cases ht
  | cons h _ ih =>
    rcases mem_cons.1 ht with rfl | ht
    · exact (next_eq_ok.1 h).2.2.1.symm
    · exact ih ht

theorem raw (h : Reads d ts d') :
    d.data.take d'.pos = d.data.take d.pos ++ (ts.map Tlv.raw).flatten := by
  induction h with
  | nil d => exact (append_nil _).symm
  | cons h _ ih =>
    obtain ⟨hdata, hstep⟩ := take_next h
    rw [map_cons, flatten_cons, ← append_assoc, ← hstep, ← hdata, ih]

theorem of_take (h : Reads d ts d') {e : Der} (hpos : e.pos = d.pos)
    (htake : e.data.take d'.pos = d.data.take d'.pos) :
    ∃ e', Reads e ts e' ∧ e'.data = e.data ∧ e'.pos = d'.pos := by
  induction h generalizing e with
  | nil d => exact ⟨e, nil e, rfl, hpos⟩
  | @cons d d₁ d₂ t ts h hts ih =>
    obtain ⟨hdata, hle⟩ := pos_le_pos hts
    obtain ⟨hdata₁, -⟩ := take_next h
    -- the place after the first element is not past the last one
    have htake₁ : e.data.take d₁.pos = d.data.take d₁.pos := by
      have := congrArg (take d₁.pos) htake
      rwa [take_take, take_take, min_eq_left hle] at this
    obtain ⟨e₁, he₁, hedata, hepos⟩ := next_of_take h hpos htake₁
    obtain ⟨e₂, he₂, hedata₂, hepos₂⟩ := ih hepos (by rw [hedata, hdata₁, htake])
    exact ⟨e₂, cons he₁ he₂, hedata₂.trans hedata, hepos₂⟩

end Reads

end Der

end Lazaret.Asn1
