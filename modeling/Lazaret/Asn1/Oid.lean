import Lazaret.Asn1.Integers
import Lazaret.Asn1.Subidentifiers
import Lazaret.Json.Decimal
import Lazaret.Lib.Separated

/-!
# Object identifiers

The dotted form of an OBJECT IDENTIFIER (`oid_to_string`) and the content of a dotted form
(`oid_from_string`).  A content comes back when no subidentifier begins with a zero septet and the
first fits 64 bits (`fromString_toString`), a text when no arc has a `+` or zeros before it
(`toString_fromString`).
-/

namespace Lazaret.Asn1

open List

open Json (decimal parseU64 parseU64_eq_some)

def U128_MAX : ℕ := 2 ^ 128 - 1

def U64_MAX : ℕ := 2 ^ 64 - 1

/-- The two arcs that the first subidentifier carries. -/
def firstArcs (acc : ℕ) : List ℕ := if acc < 80 then [acc / 40, acc % 40] else [2, acc - 80]

/-- The arcs of a content from some byte on: what was read, the number so far, and whether it goes
on. -/
def arcsLoop : List UInt8 → List ℕ → ℕ → Bool → Option (List ℕ)
  | [], arcs, _, pending => if pending ∨ arcs = [] then none else some arcs
  | b :: content, arcs, acc, _ =>
    if U128_MAX >>> 7 < acc then none
    else
      let acc := pushSeptet acc b
      if b &&& 0x80 ≠ 0 then arcsLoop content arcs acc true
      else arcsLoop content (arcs ++ if arcs = [] then firstArcs acc else [acc]) 0 false

/-- The arcs of a content, if it is that of an OBJECT IDENTIFIER. -/
def arcs (content : List UInt8) : Option (List ℕ) := arcsLoop content [] 0 false

def dotted (arcs : List ℕ) : List Char := ['.'].intercalate (arcs.map (Nat.toDigits 10))

def oidToString (content : List UInt8) : String :=
  match arcs content with
  | some arcs => String.ofList (dotted arcs)
  | none => "<invalid OID>"

def oidFromString (s : String) : Option (List UInt8) := do
  let arcs ← (s.toList.splitOn '.').mapM fun a => parseU64 (String.ofList a)
  match arcs with
  | first :: second :: rest =>
    if 2 < first ∨ (first < 2 ∧ 40 ≤ second) ∨ U64_MAX - 80 < second then none
    else some (encoded (first * 40 + second) ++ rest.flatMap encoded)
  | _ => none

variable {content : List UInt8} {as : List ℕ} {ws : List (List UInt8)}

/-! ## The arcs of a content -/

/-- The arcs of subidentifiers that follow some arcs, or none. -/
def arcsOf (before : List ℕ) : List (List UInt8) → List ℕ
  | [] => []
  | w :: ws => (if before = [] then firstArcs (value w) else [value w]) ++ ws.map value

lemma firstArcs_ne_nil (acc : ℕ) : firstArcs acc ≠ [] := by
  rw [firstArcs]
  split <;> exact cons_ne_nil _ _

lemma arcsOf_cons (before : List ℕ) (w : List UInt8) (ws : List (List UInt8)) :
    arcsOf before (w :: ws) = (if before = [] then firstArcs (value w) else [value w]) ++
      arcsOf (before ++ if before = [] then firstArcs (value w) else [value w]) ws := by
  have hne : (before ++ if before = [] then firstArcs (value w) else [value w]) ≠ [] := by
    refine append_ne_nil_of_right_ne_nil _ ?_
    split
    · exact firstArcs_ne_nil _
    · exact cons_ne_nil _ _
  cases ws with
  | nil => rfl
  | cons w' ws => rw [arcsOf, arcsOf, if_neg hne, map_cons, singleton_append]

lemma no_bytes : ∀ b ∈ ([] : List UInt8), 0x80 ≤ b := fun _ h => absurd h not_mem_nil

lemma exists_of_arcsLoop {before : List ℕ} {cur : List UInt8} (hcur : ∀ b ∈ cur, 0x80 ≤ b)
    (h : arcsLoop content before (value cur) (cur ≠ []) = some as) :
    as ≠ [] ∧ ∃ ws, (∀ w ∈ ws, IsSubidentifier w) ∧ cur ++ content = ws.flatten ∧
      as = before ++ arcsOf before ws := by
  induction content generalizing before cur with
  | nil =>
    rw [arcsLoop, Option.ite_none_left_eq_some, not_or, Option.some_inj] at h
    obtain ⟨⟨hpending, hne⟩, rfl⟩ := h
    have hnil : cur = [] := by simpa using hpending
    exact ⟨hne, [], by simp, by simp [hnil], by simp [arcsOf]⟩
  | cons b content ih =>
    rw [arcsLoop, Option.ite_none_left_eq_some] at h
    obtain ⟨-, h⟩ := h
    have hvalue : pushSeptet (value cur) b = value (cur ++ [b]) := by
      rw [value_append_singleton, pushSeptet_eq]
    dsimp only at h
    rw [hvalue] at h
    have happ : cur ++ b :: content = (cur ++ [b]) ++ content := by simp
    split at h
    next hb =>
      have hcur' : ∀ c ∈ cur ++ [b], 0x80 ≤ c := by
        intro c hc
        rcases mem_append.1 hc with hc | hc
        · exact hcur c hc
        · exact mem_singleton.1 hc ▸ and_top_iff.1 hb
      have htrue : decide (cur ++ [b] ≠ []) = true := by simp
      rw [happ]
      exact ih hcur' (htrue ▸ h)
    next hb =>
      obtain ⟨hne, ws, hws, hcontent, has⟩ := ih no_bytes h
      rw [nil_append] at hcontent
      refine ⟨hne, (cur ++ [b]) :: ws, ?_, ?_, ?_⟩
      · intro w hw
        rcases mem_cons.1 hw with rfl | hw
        · exact ⟨cur, b, rfl, hcur, UInt8.not_le.1 fun h => hb (and_top_iff.2 h)⟩
        · exact hws w hw
      · rw [flatten_cons, happ, hcontent]
      · rw [has, arcsOf_cons, append_assoc]

lemma arcsLoop_append {front : List UInt8} {last : UInt8} {before : List ℕ} {cur : List UInt8}
    {pending : Bool} (hfront : ∀ b ∈ front, 0x80 ≤ b) (hlast : last < 0x80)
    (hlt : value (cur ++ front ++ [last]) ≤ U128_MAX) (rest : List UInt8) :
    arcsLoop (front ++ last :: rest) before (value cur) pending =
      arcsLoop rest (before ++ if before = [] then firstArcs (value (cur ++ front ++ [last]))
        else [value (cur ++ front ++ [last])]) 0 false := by
  -- no number on the way is too long for one more septet
  have hfits : ∀ c w : List UInt8, ∀ b, value (c ++ [b] ++ w) ≤ U128_MAX →
      ¬ U128_MAX >>> 7 < value c := by
    intro c w b h
    have := (value_le_append (c ++ [b]) w).trans h
    rw [value_append_singleton] at this
    rw [Nat.shiftRight_eq_div_pow, Nat.div_lt_iff_lt_mul (by decide)]
    omega
  have hvalue : ∀ (c : List UInt8) b, pushSeptet (value c) b = value (c ++ [b]) := by
    intro c b
    rw [value_append_singleton, pushSeptet_eq]
  induction front generalizing cur pending with
  | nil =>
    rw [append_nil] at hlt ⊢
    rw [nil_append, arcsLoop, if_neg (hfits cur [] last (by simpa using hlt))]
    dsimp only
    rw [if_neg fun h => UInt8.not_le.2 hlast (and_top_iff.1 h), hvalue]
  | cons b front ih =>
    have happ : cur ++ b :: front = cur ++ [b] ++ front := by simp
    rw [happ] at hlt ⊢
    rw [cons_append, arcsLoop, if_neg (hfits cur (front ++ [last]) b (by rwa [← append_assoc]))]
    dsimp only
    rw [if_pos (and_top_iff.2 (hfront b mem_cons_self)), hvalue]
    exact ih (fun c hc => hfront c (mem_cons_of_mem _ hc)) hlt

lemma arcsLoop_flatten {before : List ℕ} (hws : ∀ w ∈ ws, IsSubidentifier w ∧ value w ≤ U128_MAX)
    (hne : before ++ arcsOf before ws ≠ []) :
    arcsLoop ws.flatten before 0 false = some (before ++ arcsOf before ws) := by
  induction ws generalizing before with
  | nil =>
    rw [arcsOf, append_nil] at hne ⊢
    rw [flatten_nil, arcsLoop, if_neg (by simpa using hne)]
  | cons w ws ih =>
    obtain ⟨⟨front, last, rfl, hfront, hlast⟩, hlt⟩ := hws w mem_cons_self
    have happ : ((front ++ [last]) :: ws).flatten = front ++ last :: ws.flatten := by simp
    rw [arcsOf_cons, ← append_assoc] at hne ⊢
    rw [happ]
    have hlt' : value ([] ++ front ++ [last]) ≤ U128_MAX := hlt
    exact (arcsLoop_append hfront hlast hlt' _).trans
      (ih (fun w' hw' => hws w' (mem_cons_of_mem _ hw')) hne)

lemma exists_of_arcs (h : arcs content = some as) :
    ∃ w ws, (∀ w' ∈ w :: ws, IsSubidentifier w') ∧ content = (w :: ws).flatten ∧
      as = firstArcs (value w) ++ ws.map value := by
  obtain ⟨hne, ws, hws, hcontent, has⟩ := exists_of_arcsLoop no_bytes h
  cases ws with
  | nil => exact absurd has hne
  | cons w ws => exact ⟨w, ws, hws, hcontent, has⟩

/-! ## The dotted form -/

lemma mem_toDigits {n : ℕ} {c : Char} (h : c ∈ Nat.toDigits 10 n) : c ≠ '.' := by
  rintro rfl
  exact absurd ((Json.toDigits_mem n).2 _ h) (by decide)

lemma splitOn_dotted (hne : as ≠ []) : (dotted as).splitOn '.' = as.map (Nat.toDigits 10) := by
  refine splitOn_intercalate _ (fun l hl hdot => ?_) (by simpa using hne)
  obtain ⟨n, -, rfl⟩ := mem_map.1 hl
  exact mem_toDigits hdot rfl

lemma parseU64_toDigits {n : ℕ} (h : n < 2 ^ 64) :
    parseU64 (String.ofList (Nat.toDigits 10 n)) = some n :=
  parseU64_eq_some.2 ⟨h, _, Json.toDigits_mem n, Json.decimal_toDigits n, .inl rfl⟩

lemma mapM_dotted (hne : as ≠ []) (h : ∀ a ∈ as, a < 2 ^ 64) :
    ((dotted as).splitOn '.').mapM (fun a => parseU64 (String.ofList a)) = some as := by
  rw [splitOn_dotted hne, option_mapM_eq_some, forall₂_map_left_iff, forall₂_same]
  exact fun a ha => parseU64_toDigits (h a ha)

lemma exists_firstArcs (acc : ℕ) : ∃ first second, firstArcs acc = [first, second] ∧
    first * 40 + second = acc ∧ first ≤ 2 ∧ (first < 2 → second < 40) ∧ (first = 2 ∨ acc < 80) := by
  rw [firstArcs]
  split
  · exact ⟨_, _, rfl, by omega, by omega, by omega, by omega⟩
  · exact ⟨_, _, rfl, by omega, by omega, by omega, by omega⟩

lemma firstArcs_eq {first second : ℕ} (hfirst : first ≤ 2) (hsecond : first < 2 → second < 40) :
    firstArcs (first * 40 + second) = [first, second] := by
  rw [firstArcs]
  split
  next h =>
    have hdiv : (first * 40 + second) / 40 = first := by omega
    have hmod : (first * 40 + second) % 40 = second := by omega
    rw [hdiv, hmod]
  next h =>
    have htwo : first = 2 := by omega
    rw [htwo, Nat.add_sub_cancel_left]

lemma oidToString_of_arcs (h : arcs content = some as) :
    oidToString content = String.ofList (dotted as) := by
  rw [oidToString, h]

lemma oidToString_eq_invalid_iff : oidToString content = "<invalid OID>" ↔ arcs content = none := by
  cases h : arcs content with
  | none => exact iff_of_true (by rw [oidToString, h]) rfl
  | some as =>
    refine iff_of_false (fun heq => ?_) (Option.some_ne_none as)
    rw [oidToString_of_arcs h] at heq
    have hmem : '<' ∈ dotted as := by
      rw [← String.toList_ofList (l := dotted as), heq]
      decide
    rcases Separated.mem_intercalate hmem with hdot | ⟨x, hx, hmem⟩
    · cases hdot
    · obtain ⟨n, -, rfl⟩ := mem_map.1 hx
      exact absurd ((Json.toDigits_mem n).2 _ hmem) (by decide)

/-- The dotted form of a content is given back as that content exactly when no subidentifier begins
with a zero septet and the second arc leaves room for the first. -/
theorem fromString_toString (h : arcs content = some as) (hfit : ∀ a ∈ as, a < 2 ^ 64) :
    oidFromString (oidToString content) = some content ↔
      (∀ second ∈ as[1]?, second ≤ U64_MAX - 80) ∧
        ∀ w ∈ subidentifiers content, w.head? ≠ some 0x80 := by
  obtain ⟨w, ws, hws, rfl, rfl⟩ := exists_of_arcs h
  obtain ⟨first, second, harcs, hsum, htwo, hforty, hsmall⟩ := exists_firstArcs (value w)
  rw [subidentifiers_flatten hws, oidToString_of_arcs h, oidFromString, String.toList_ofList,
    mapM_dotted (by simp [harcs]) hfit, harcs]
  show (if 2 < first ∨ (first < 2 ∧ 40 ≤ second) ∨ U64_MAX - 80 < second then none
    else some (encoded (first * 40 + second) ++ (ws.map value).flatMap encoded)) = _ ↔ _
  rw [Option.ite_none_left_eq_some, Option.some_inj, hsum]
  have hguard : ¬ (2 < first ∨ (first < 2 ∧ 40 ≤ second) ∨ U64_MAX - 80 < second) ↔
      ∀ a ∈ ([first, second] ++ ws.map value)[1]?, a ≤ U64_MAX - 80 := by
    have hget : ([first, second] ++ ws.map value)[1]? = some second := rfl
    simp only [hget, Option.mem_def, Option.some_inj, forall_eq']
    omega
  rw [hguard]
  refine and_congr_right fun hle => ?_
  have hlt : value w < 2 ^ 64 := by
    have hmax : U64_MAX = 2 ^ 64 - 1 := rfl
    have := hle second rfl
    omega
  have hvalues : ∀ w' ∈ w :: ws, value w' < 2 ^ 64 := by
    intro w' hw'
    rcases mem_cons.1 hw' with rfl | hw'
    · exact hlt
    · exact hfit _ (mem_append_right _ (mem_map_of_mem hw'))
  -- the lists of subidentifiers are told apart
  have hflatten : encoded (value w) ++ (ws.map value).flatMap encoded =
      ((w :: ws).map fun w' => encoded (value w')).flatten := by
    rw [map_cons, flatten_cons, flatMap_map, flatMap_def]
  have hinj : ((w :: ws).map fun w' => encoded (value w')).flatten = (w :: ws).flatten ↔
      ((w :: ws).map fun w' => encoded (value w')) = w :: ws := by
    refine ⟨fun h => ?_, fun h => by rw [h]⟩
    have := congrArg subidentifiers h
    rwa [subidentifiers_flatten hws, subidentifiers_flatten] at this
    intro w' hw'
    obtain ⟨w'', -, rfl⟩ := mem_map.1 hw'
    exact isSubidentifier_encoded _
  have hself : ((w :: ws).map fun w' => encoded (value w')) = w :: ws ↔
      ∀ w' ∈ w :: ws, encoded (value w') = w' := by
    nth_rewrite 2 [← map_id (w :: ws)]
    exact map_inj_left
  rw [hflatten, hinj, hself]
  exact forall₂_congr fun w' hw' => encoded_value_iff (hws w' hw') (hvalues w' hw')

/-- Whether the text of an arc has no sign and no zero before its digits. -/
def IsPlain (a : List Char) : Prop := a.head? ≠ some '+' ∧ (a.head? = some '0' → a = ['0'])

instance (a : List Char) : Decidable (IsPlain a) := inferInstanceAs (Decidable (_ ∧ _))

lemma toDigits_eq_iff {a : List Char} {n : ℕ} (h : parseU64 (String.ofList a) = some n) :
    Nat.toDigits 10 n = a ↔ IsPlain a := by
  obtain ⟨-, ds, hds, rfl, rfl | rfl⟩ := parseU64_eq_some.1 h
  · rw [Json.toDigits_eq_iff hds]
    constructor
    · rintro (rfl | ⟨-, hhead⟩)
      · exact ⟨by decide, fun _ => rfl⟩
      · refine ⟨fun hplus => ?_, fun hzero => absurd hzero hhead⟩
        exact absurd (hds.2 _ (mem_of_mem_head? hplus)) (by decide)
    · rintro ⟨-, hzero⟩
      by_cases hhead : a.head? = some '0'
      · exact .inl (hzero hhead)
      · exact .inr ⟨hds, hhead⟩
  · refine iff_of_false (fun h => ?_) fun h => h.1 rfl
    have hplus : '+' ∈ Nat.toDigits 10 (decimal ds) := h ▸ mem_cons_self
    exact absurd ((Json.toDigits_mem _).2 _ hplus) (by decide)

lemma arcs_encoded {first second : ℕ} {rest : List ℕ} (hfirst : first ≤ 2)
    (hforty : first < 2 → second < 40) (hsecond : second ≤ U64_MAX - 80)
    (hrest : ∀ a ∈ rest, a < 2 ^ 64) :
    arcs (encoded (first * 40 + second) ++ rest.flatMap encoded) =
      some (first :: second :: rest) := by
  have hmax : U64_MAX = 2 ^ 64 - 1 := rfl
  have hlt : first * 40 + second < 2 ^ 64 := by omega
  have hvalue : ∀ v < 2 ^ 64, IsSubidentifier (encoded v) ∧ value (encoded v) ≤ U128_MAX := by
    intro v hv
    have hle : (2 : ℕ) ^ 64 ≤ U128_MAX := by decide
    exact ⟨isSubidentifier_encoded v, by rw [value_encoded hv]; omega⟩
  have hrest' : (rest.map encoded).map value = rest := by
    rw [map_map]
    nth_rewrite 2 [← map_id rest]
    exact map_inj_left.2 fun a ha => value_encoded (hrest a ha)
  have harcs : arcsOf [] (encoded (first * 40 + second) :: rest.map encoded) =
      first :: second :: rest := by
    rw [arcsOf, if_pos rfl, value_encoded hlt, firstArcs_eq hfirst hforty, hrest']
    rfl
  have hne : [] ++ arcsOf [] (encoded (first * 40 + second) :: rest.map encoded) ≠ [] := by
    rw [harcs]
    exact cons_ne_nil _ _
  have h := arcsLoop_flatten (fun w hw => ?_) hne
  · rwa [flatten_cons, ← flatMap_def, harcs] at h
  · rcases mem_cons.1 hw with rfl | hw
    · exact hvalue _ hlt
    · obtain ⟨a, ha, rfl⟩ := mem_map.1 hw
      exact hvalue a (hrest a ha)

lemma exists_of_oidFromString {s : String} (h : oidFromString s = some content) :
    ∃ as, as ≠ [] ∧ Forall₂ (fun a n => parseU64 (String.ofList a) = some n)
      (s.toList.splitOn '.') as ∧ arcs content = some as := by
  obtain ⟨as, has, h⟩ := Option.bind_eq_some_iff.1 h
  rw [option_mapM_eq_some] at has
  have hfit : ∀ n ∈ as, n < 2 ^ 64 := by
    clear h
    generalize s.toList.splitOn '.' = pieces at has
    induction has with
    | nil => exact fun n hn => absurd hn not_mem_nil
    | cons ha _ ih => exact forall_mem_cons.2 ⟨(parseU64_eq_some.1 ha).1, ih⟩
  split at h
  next first second rest =>
    rw [Option.ite_none_left_eq_some, Option.some_inj] at h
    obtain ⟨hguard, rfl⟩ := h
    refine ⟨_, cons_ne_nil _ _, has, arcs_encoded (by omega) (by omega) (by omega) ?_⟩
    exact fun a ha => hfit a (mem_cons_of_mem _ (mem_cons_of_mem _ ha))
  next => cases h

theorem toString_fromString {s : String} (h : oidFromString s = some content) :
    oidToString content = s ↔ ∀ a ∈ s.toList.splitOn '.', IsPlain a := by
  obtain ⟨as, hne, has, harcs⟩ := exists_of_oidFromString h
  have hpieces : dotted as = s.toList ↔ as.map (Nat.toDigits 10) = s.toList.splitOn '.' := by
    refine ⟨fun h => by rw [← h, splitOn_dotted hne], fun h => ?_⟩
    rw [dotted, h, intercalate_splitOn]
  rw [oidToString_of_arcs harcs, ← String.toList_inj, String.toList_ofList, hpieces]
  clear hpieces harcs h hne
  generalize s.toList.splitOn '.' = pieces at has ⊢
  induction has with
  | nil => simp
  | cons ha _ ih =>
    rw [map_cons, cons.injEq, forall_mem_cons]
    exact and_congr (toDigits_eq_iff ha) ih

/-! ## One spelling -/

/-- DER has one spelling: an element, an INTEGER without the zeros before it, and an OBJECT
IDENTIFIER with arcs of 64 bits are what is written of them, and what is written is read. -/
theorem one_spelling :
    (∀ (d d' : Der) (ts : List Tlv), d.Reads ts d' →
      (∀ t ∈ ts, Write.tlv t.tag t.content = t.raw) ∧
      d.data.take d'.pos = d.data.take d.pos ++ (ts.map Tlv.raw).flatten ∧
      d'.data = d.data ∧ d'.pos ≤ d.data.length ∧
      ∀ e : Der, e.pos = d.pos → e.data.take d'.pos = d.data.take d'.pos →
        ∃ e', e.Reads ts e' ∧ e'.data = e.data ∧ e'.pos = d'.pos) ∧
    (∀ (tag : UInt8) (content rest : List UInt8)
        (h : (Write.tlv tag content ++ rest).length ≤ ISIZE_MAX),
      tag &&& 0x1f ≠ 0x1f → content.length < 2 ^ 32 →
      ∃ d', (Der.new (Write.tlv tag content ++ rest) h).next =
          .ok (⟨tag, content, Write.tlv tag content⟩, d') ∧ d'.data.drop d'.pos = rest) ∧
    (∀ be : List UInt8, unsignedInteger ⟨TAG_INTEGER, Write.integerContent be, Write.integer be⟩ =
      .ok (if be.dropWhile (· == 0) = [] then [0] else be.dropWhile (· == 0))) ∧
    (∀ (d d' : Der) (t : Tlv) (v : List UInt8), d.next = .ok (t, d') → unsignedInteger t = .ok v →
      t.raw = Write.integer v) ∧
    (∀ content, oidToString content = "<invalid OID>" ↔ arcs content = none) ∧
    (∀ (content : List UInt8) (as : List ℕ), arcs content = some as → (∀ a ∈ as, a < 2 ^ 64) →
      (∀ second ∈ as[1]?, second ≤ U64_MAX - 80) →
      (∀ w ∈ subidentifiers content, w.head? ≠ some 0x80) →
      oidFromString (oidToString content) = some content) ∧
    ∀ (s : String) (content : List UInt8), oidFromString s = some content →
      (∀ a ∈ s.toList.splitOn '.', IsPlain a) → oidToString content = s := by
  refine ⟨fun d d' ts h => ?_, fun tag content rest h htag hlen => ?_, fun be => ?_,
    fun d d' t v h hv => ?_, fun _ => oidToString_eq_invalid_iff,
    fun _ _ h hfit hroom hhead => (fromString_toString h hfit).2 ⟨hroom, hhead⟩,
    fun _ _ h => (toString_fromString h).2⟩
  · obtain ⟨hdata, -⟩ := h.pos_le_pos
    exact ⟨fun t ht => h.tlv_eq ht, h.raw, hdata, hdata ▸ d'.pos_le, fun e => h.of_take⟩
  · obtain ⟨d', hnext, -, hrest⟩ := Der.next_tlv htag hlen h
    exact ⟨d', hnext, hrest⟩
  · rw [unsignedInteger_integer, Write.magnitude_eq]
  · obtain ⟨-, -, hraw, -⟩ := Der.next_eq_ok.1 h
    obtain ⟨htag, hcontent⟩ := content_of_unsignedInteger hv
    rw [hraw, htag, hcontent, Write.integer]

/-- An element with a rest, and the identifier `1.2.840` both ways. -/
theorem one_spelling_rsadsi :
    (∃ d', (Der.new (Write.tlv 0x30 [1, 2] ++ [7]) (by decide)).next =
        .ok (⟨0x30, [1, 2], [0x30, 2, 1, 2]⟩, d') ∧ d'.data.drop d'.pos = [7]) ∧
    oidFromString (oidToString [0x2a, 0x86, 0x48]) = some [0x2a, 0x86, 0x48] ∧
    oidToString [0x2a, 0x86, 0x48] = "1.2.840" := by
  have harcs : arcs [0x2a, 0x86, 0x48] = some [1, 2, 840] := by decide
  obtain ⟨-, htlv, -, -, -, hcontent, htext⟩ := one_spelling
  refine ⟨htlv 0x30 [1, 2] [7] (by decide) (by decide) (by decide),
    hcontent _ _ harcs (by decide) ?_ (by decide), htext _ _ (by decide) (by decide)⟩
  intro second hsecond
  cases hsecond
  decide

/-- A second arc without room for the first is written and not read; a zero septet before an arc, a
`+` and a zero before its digits are read and not written. -/
theorem other_spellings :
    arcs [0x82, 0x80, 0x80, 0x80, 0x80, 0x80, 0x80, 0x80, 0x80, 0x4f] = some [2, U64_MAX] ∧
    oidFromString (oidToString [0x82, 0x80, 0x80, 0x80, 0x80, 0x80, 0x80, 0x80, 0x80, 0x4f]) =
      none ∧
    arcs [0x80, 0x01] = some [0, 1] ∧
    oidFromString (oidToString [0x80, 0x01]) = some [0x01] ∧
    oidFromString "+1.02" = some [0x2a] ∧ oidToString [0x2a] = "1.2" := by
  decide

end Lazaret.Asn1
