import Lazaret.Quic.Reassembly
import Mathlib.Order.Interval.Set.Nat
import Mathlib.Order.Lattice.Nat

/-!
# A plain array

What a `Reassembler` is for: a read offset, and a partial map from the offsets at or above it to
bytes.  Any calls to the two give the same answers (`reassembler_run`), the same refusals among
them, and after every call the number of bytes held, those that can be read and the number of pieces
are those of the map.
-/

namespace Lazaret.Quic

open Reassembly List BTreeMap

/-- A read offset and the bytes that have come and were not read. -/
structure PlainArray where
  read : ℕ
  byte : ℕ → Option UInt8

namespace PlainArray

def new : PlainArray := ⟨0, fun _ => none⟩

noncomputable def size (m : PlainArray) : ℕ := {x | m.byte x ≠ none}.ncard

/-- How many maximal runs of bytes there are: a run starts where there is no byte before. -/
noncomputable def runs (m : PlainArray) : ℕ :=
  {x | m.byte x ≠ none ∧ ∀ y, y + 1 = x → m.byte y = none}.ncard

/-- How many bytes there are from the read offset to the first hole. -/
noncomputable def readable (m : PlainArray) : ℕ := sInf {k | m.byte (m.read + k) = none}

/-- The part of a range at the read offset or above is written. -/
def write (m : PlainArray) (offset : ℕ) (data : List UInt8) : PlainArray where
  read := m.read
  byte x :=
    if m.read ≤ x ∧ offset ≤ x ∧ x < offset + data.length then data[x - offset]? else m.byte x

/-- Some byte is not the one that the range has for its offset. -/
def Contradicts (m : PlainArray) (offset : ℕ) (data : List UInt8) : Prop :=
  ∃ x b, offset ≤ x ∧ x < offset + data.length ∧ m.byte x = some b ∧ data[x - offset]? ≠ some b

open Classical in
/-- A range is written, unless it ends too far, contradicts a byte, or leaves too many runs. -/
noncomputable def insert (m : PlainArray) (offset : ℕ) (data : List UInt8) (window : ℕ) :
    Except Error PlainArray :=
  if m.read + window < offset + data.length ∨ 2 ^ 64 ≤ offset + data.length then .error .exceeded
  else if m.Contradicts offset data then .error .inconsistent
  else if MAX_PIECES < (m.write offset data).runs then .error .exceeded
  else .ok (m.write offset data)

/-- The first `n` bytes from the read offset on, where there are so many. -/
def slice (m : PlainArray) (n : ℕ) : List UInt8 :=
  (List.range n).map fun i => (m.byte (m.read + i)).getD 0

def advance (m : PlainArray) (n : ℕ) : PlainArray where
  read := m.read + n
  byte x := if x < m.read + n then none else m.byte x

end PlainArray

inductive Call
  | insert (offset : ℕ) (data : List UInt8) (window : ℕ)
  | read (n : ℕ)
  | discard
  | take

inductive Answer
  | inserted (r : Except Error Unit)
  | bytes (l : List UInt8)
  | count (n : ℕ)

/-- A call to the buffer; a range that is refused leaves it as it was. -/
def Reassembler.call (r : Reassembler) : Call → Answer × Reassembler
  | .insert offset data window =>
    match r.insert offset data window with
    | .ok r' => (.inserted (.ok ()), r')
    | .error e => (.inserted (.error e), r)
  | .read n => (.bytes (r.readInto n).1, (r.readInto n).2)
  | .discard => (.count r.discard.1, r.discard.2)
  | .take => (.bytes r.take.1, r.take.2)

noncomputable def PlainArray.call (m : PlainArray) : Call → Answer × PlainArray
  | .insert offset data window =>
    match m.insert offset data window with
    | .ok m' => (.inserted (.ok ()), m')
    | .error e => (.inserted (.error e), m)
  | .read n => (.bytes (m.slice (min n m.readable)), m.advance (min n m.readable))
  | .discard => (.count m.readable, m.advance m.readable)
  | .take => (.bytes (m.slice m.readable), m.advance m.readable)

/-- The answers to calls one after the other, and what is left. -/
def answers {σ : Type} (call : σ → Call → Answer × σ) : σ → List Call → List Answer × σ
  | s, [] => ([], s)
  | s, c :: cs => ((call s c).1 :: (answers call (call s c).2 cs).1,
    (answers call (call s c).2 cs).2)

namespace Reassembler

variable {r : Reassembler} {x : ℕ} {b b' : UInt8}

def Held (r : Reassembler) (x : ℕ) : Prop := ∃ b, Holds r.pieces x b

lemma holds_unique (hr : r.Wf) (h : Holds r.pieces x b) (h' : Holds r.pieces x b') : b = b' := by
  obtain ⟨e, he, h1, h2⟩ := h
  obtain ⟨f, hf, h3, h4⟩ := h'
  have hlt := lt_of_getElem? h2
  have hlt' := lt_of_getElem? h4
  obtain rfl := piece_unique hr he hf h1 (by omega) h3 (by omega)
  exact Option.some.inj (h2.symm.trans h4)

lemma held_iff : r.Held x ↔ ∃ e ∈ r.pieces, e.1 ≤ x ∧ x < e.1 + e.2.data.length := by
  constructor
  · rintro ⟨b, e, he, h1, h2⟩
    have := lt_of_getElem? h2
    exact ⟨e, he, h1, by omega⟩
  · rintro ⟨e, he, h1, h2⟩
    exact ⟨_, e, he, h1, getElem?_eq_getElem (by omega)⟩

lemma finite_held (r : Reassembler) : {x | r.Held x}.Finite := by
  refine ((finite_toSet r.pieces.entries).biUnion fun e _ =>
    Set.finite_Ico e.1 (e.1 + e.2.data.length)).subset fun x hx => ?_
  obtain ⟨e, he, h1, h2⟩ := held_iff.1 hx
  exact Set.mem_biUnion he ⟨h1, h2⟩

/-! ### How many pieces there are -/

def joins (pieces : BTreeMap ℕ Piece) (e : ℕ × List UInt8) : ℤ :=
  let left := ((pieces.range (fun k => k < e.1)).getLast?).any
    (fun b => b.1 + b.2.data.length = e.1)
  let right := (pieces.get (e.1 + e.2.length)).isSome
  if left && right then -1 else if left || right then 0 else 1

lemma countPieces_eq (pieces : BTreeMap ℕ Piece) (new : List (ℕ × List UInt8)) :
    countPieces pieces new = new.foldl (fun n e => n + joins pieces e) pieces.len := rfl

variable {bytes : List UInt8} {off : ℕ}

lemma left_iff (hr : r.Wf) (hne : bytes ≠ [])
    (hfree : ∀ x, off ≤ x → x < off + bytes.length → ∀ b, ¬Holds r.pieces x b) :
    ((r.pieces.range (fun k => k < off)).getLast?).any
      (fun b => b.1 + b.2.data.length = off) = true ↔ ∃ y, y + 1 = off ∧ r.Held y := by
  simp only [Option.any_eq_true, range_getLast?_eq_some, decide_eq_true_eq, held_iff]
  constructor
  · rintro ⟨e, ⟨he, hlt, -⟩, hend⟩
    exact ⟨off - 1, by omega, e, he, by omega, by omega⟩
  · rintro ⟨y, hy, e, he, h1, h2⟩
    have hend : e.1 + e.2.data.length = off := by
      rcases before_or_after hr hne hfree he with h | h <;> omega
    refine ⟨e, ⟨he, by omega, fun f hf hlt => ?_⟩, hend⟩
    rcases eq_or_lt hf he with h | h | h
    · exact .inl h
    · exact .inr h
    · exact absurd (hr.apart e he f hf h) (by omega)

lemma right_iff (hr : r.Wf) (hne : bytes ≠ [])
    (hfree : ∀ x, off ≤ x → x < off + bytes.length → ∀ b, ¬Holds r.pieces x b) :
    (r.pieces.get (off + bytes.length)).isSome = true ↔ r.Held (off + bytes.length) := by
  rw [Option.isSome_iff_exists, held_iff]
  constructor
  · rintro ⟨p, hp⟩
    have he := get_eq_some.1 hp
    exact ⟨_, he, le_rfl, Nat.lt_add_of_pos_right (length_pos_iff.2 (hr.nonempty _ he))⟩
  · rintro ⟨e, he, h1, h2⟩
    have hpos := length_pos_iff.2 hne
    obtain h | h := before_or_after hr hne hfree he
    · omega
    · exact ⟨e.2, get_eq_some.2 (le_antisymm h1 h ▸ he)⟩

lemma len_add (hr : r.Wf) (hne : bytes ≠ [])
    (hfree : ∀ x, off ≤ x → x < off + bytes.length → ∀ b, ¬Holds r.pieces x b) :
    ((r.add off bytes).pieces.len : ℤ) = r.pieces.len + joins r.pieces (off, bytes) := by
  have hpos := length_pos_iff.2 hne
  rw [joins, add]
  dsimp only
  rw [← Option.isSome_filter]
  cases hlast : ((r.pieces.range (fun k => k < off)).getLast?).filter
      (fun b => b.1 + b.2.data.length = off) with
  | none =>
    have hoff : r.pieces.get off = none := by
      refine get_eq_none.2 fun p hp => ?_
      have hside : off + p.data.length ≤ off ∨ off + bytes.length ≤ off :=
        before_or_after hr hne hfree hp
      have hlen : 0 < p.data.length := length_pos_iff.2 (hr.nonempty _ hp)
      omega
    cases hget : r.pieces.get (off + bytes.length) with
    | none => simp [len_insert _ hoff]
    | some next =>
      have hrem := len_remove_add_one hget
      have hnone : (r.pieces.remove (off + bytes.length)).get off = none := by
        rw [get_remove, hoff, ite_self]
      simp [len_insert _ hnone, hrem]
  | some e =>
    obtain ⟨k, p⟩ := e
    obtain ⟨hmem, -⟩ := Option.filter_eq_some_iff.1 hlast
    obtain ⟨hk, hlt, -⟩ := range_getLast?_eq_some.1 hmem
    simp only [decide_eq_true_eq] at hlt
    have hrem := len_remove_add_one (get_eq_some.2 hk)
    have hget' := get_remove r.pieces k (off + bytes.length)
    rw [if_neg (by omega)] at hget'
    cases hget : r.pieces.get (off + bytes.length) with
    | none =>
      have hnone : (r.pieces.remove k).get k = none := by rw [get_remove, if_pos rfl]
      simp [hget', hget, len_insert _ hnone, hrem]
    | some next =>
      have hrem' := len_remove_add_one (hget'.trans hget)
      have hnone : ((r.pieces.remove k).remove (off + bytes.length)).get k = none := by
        rw [get_remove, get_remove, if_pos rfl, ite_self]
      simp only [hget', hget, len_insert _ hnone, hrem', Option.isSome_some, Bool.and_self, if_true]
      omega

lemma held_add : (r.add off bytes).held = r.held + bytes.length := by
  unfold add
  dsimp only
  split <;> rfl

variable {data : List UInt8} {start : ℕ}

lemma joins_add (hr : r.Wf) {g a : ℕ × List UInt8}
    {new : List (ℕ × List UInt8)} (hread : r.read ≤ start) (hnew : Fresh r start data (g :: new))
    (ha : a ∈ new) : joins (r.add g.1 g.2).pieces a = joins r.pieces a := by
  obtain ⟨hwf, hfresh, hholds⟩ := hnew.add hr hread
  have hlt := (pairwise_cons.1 hnew.apart).1 a ha
  have hmem := mem_cons_of_mem g ha
  have hheld : ∀ y, g.1 + g.2.length ≤ y → ((r.add g.1 g.2).Held y ↔ r.Held y) := by
    refine fun y hy => exists_congr fun b => (hholds y b).trans (or_iff_left ?_)
    rintro ⟨-, h⟩
    have := lt_of_getElem? h
    omega
  have hleft : ((r.add g.1 g.2).pieces.range (fun k => k < a.1)).getLast?.any
      (fun b => b.1 + b.2.data.length = a.1) = (r.pieces.range (fun k => k < a.1)).getLast?.any
      (fun b => b.1 + b.2.data.length = a.1) := by
    rw [Bool.eq_iff_iff, left_iff hwf (hfresh.nonempty a ha) (hfresh.free a ha),
      left_iff hr (hnew.nonempty a hmem) (hnew.free a hmem)]
    exact exists_congr fun y => and_congr_right fun hy => hheld y (by omega)
  have hright : ((r.add g.1 g.2).pieces.get (a.1 + a.2.length)).isSome =
      (r.pieces.get (a.1 + a.2.length)).isSome := by
    rw [Bool.eq_iff_iff, right_iff hwf (hfresh.nonempty a ha) (hfresh.free a ha),
      right_iff hr (hnew.nonempty a hmem) (hnew.free a hmem)]
    exact hheld _ (by omega)
  rw [joins, joins, hleft, hright]

def Counted (r : Reassembler) : Prop := r.held = {x | r.Held x}.ncard

lemma foldl_add_counts (hr : r.Wf) {new : List (ℕ × List UInt8)}
    (hread : r.read ≤ start) (hnew : Fresh r start data new) {pieces : BTreeMap ℕ Piece} {n : ℤ}
    (hn : n = r.pieces.len) (hsame : ∀ g ∈ new, joins pieces g = joins r.pieces g)
    (hcounted : r.Counted) :
    ((new.foldl (fun r e => r.add e.1 e.2) r).pieces.len : ℤ) =
      new.foldl (fun n e => n + joins pieces e) n ∧
        (new.foldl (fun r e => r.add e.1 e.2) r).Counted := by
  induction new generalizing r n with
  | nil => exact ⟨hn.symm, hcounted⟩
  | cons g new ih =>
    obtain ⟨hwf, hfresh, hholds⟩ := hnew.add hr hread
    have hfree := hnew.free g (mem_cons_self ..)
    refine ih hwf (by rwa [read_add]) hfresh ?_ (fun a ha => ?_) ?_
    · show n + joins pieces g = _
      rw [len_add hr (hnew.nonempty g (mem_cons_self ..)) hfree, hn, hsame g (mem_cons_self ..)]
    · rw [joins_add hr hread hnew ha, hsame a (mem_cons_of_mem g ha)]
    · have hunion : {x | (r.add g.1 g.2).Held x} =
          {x | r.Held x} ∪ Set.Ico g.1 (g.1 + g.2.length) := by
        ext x
        show (∃ b, Holds (r.add g.1 g.2).pieces x b) ↔ r.Held x ∨ g.1 ≤ x ∧ x < g.1 + g.2.length
        have hsome : (∃ b, g.2[x - g.1]? = some b) ↔ x - g.1 < g.2.length := by
          simp [getElem?_eq_some_iff]
        simp only [hholds, exists_or, exists_and_left, hsome]
        exact or_congr_right (and_congr_right fun h => by omega)
      have hdisjoint : Disjoint {x | r.Held x} (Set.Ico g.1 (g.1 + g.2.length)) :=
        Set.disjoint_left.2 fun x ⟨b, hb⟩ hx => hfree x hx.1 hx.2 b hb
      rw [Counted, held_add, hunion,
        Set.ncard_union_eq hdisjoint r.finite_held (Set.finite_Ico _ _),
        ← hcounted, ← Finset.coe_Ico, Set.ncard_coe_finset, Nat.card_Ico, Nat.add_sub_cancel_left]

/-! ### The buffer and the array -/

structure Refines (r : Reassembler) (m : PlainArray) : Prop where
  wf : r.Wf
  counted : r.Counted
  len_le : r.pieces.len ≤ MAX_PIECES
  read_eq : m.read = r.read
  byte_iff : ∀ x b, m.byte x = some b ↔ Holds r.pieces x b

variable {m : PlainArray}

lemma ne_none_iff (hbyte : ∀ x b, m.byte x = some b ↔ Holds r.pieces x b) :
    m.byte x ≠ none ↔ r.Held x := by
  rw [Option.ne_none_iff_exists']
  exact exists_congr fun b => hbyte x b

lemma len_eq_runs (hr : r.Wf) (hbyte : ∀ x b, m.byte x = some b ↔ Holds r.pieces x b) :
    r.pieces.len = m.runs := by
  have hstarts : {x | m.byte x ≠ none ∧ ∀ y, y + 1 = x → m.byte y = none} =
      ((r.pieces.entries.map Prod.fst).toFinset : Set ℕ) := by
    ext x
    simp only [coe_toFinset, mem_map]
    show (m.byte x ≠ none ∧ ∀ y, y + 1 = x → m.byte y = none) ↔ ∃ e ∈ r.pieces, e.1 = x
    rw [ne_none_iff hbyte, held_iff]
    constructor
    · rintro ⟨⟨e, he, h1, h2⟩, hstart⟩
      refine ⟨e, he, le_antisymm h1 (not_lt.1 fun hlt => ?_)⟩
      exact (ne_none_iff hbyte).2 (held_iff.2 ⟨e, he, by omega, by omega⟩)
        (hstart (x - 1) (by omega))
    · rintro ⟨e, he, rfl⟩
      have hpos := length_pos_iff.2 (hr.nonempty e he)
      refine ⟨⟨e, he, le_rfl, by omega⟩, fun y hy => ?_⟩
      by_contra hne
      obtain ⟨f, hf, h1, h2⟩ := held_iff.1 ((ne_none_iff hbyte).1 hne)
      have := hr.apart f hf e he (by omega)
      omega
  have hnodup : (r.pieces.entries.map Prod.fst).Nodup :=
    pairwise_map.2 (r.pieces.sorted.imp fun h => h.ne)
  rw [PlainArray.runs, hstarts, Set.ncard_coe_finset, toFinset_card_of_nodup hnodup,
    length_map, BTreeMap.len]

lemma Refines.size_eq (h : r.Refines m) : r.held = m.size := by
  rw [h.counted, PlainArray.size]
  congr 1
  exact Set.ext fun x => (ne_none_iff h.byte_iff).symm

lemma Refines.readable_eq (h : r.Refines m) : r.readable = m.readable := by
  refine (IsLeast.csInf_eq ⟨?_, fun k hk => ?_⟩).symm
  · show m.byte (m.read + r.readable) = none
    by_contra hne
    obtain ⟨f, hf, h1, h2⟩ := held_iff.1 ((ne_none_iff h.byte_iff).1 hne)
    rw [h.read_eq, readable] at h1 h2
    split at h1
    next off p hfirst =>
      obtain ⟨he, hmin⟩ := first_eq_some.1 hfirst
      have habove := h.wf.above _ he
      obtain rfl | hlt := hmin f hf
      · simp only [hfirst] at h1 h2 habove
        split_ifs at h1 h2 <;> omega
      · have := h.wf.apart _ he f hf hlt
        simp only [hfirst] at h1 h2 hlt this habove
        split_ifs at h1 h2 <;> omega
    next hfirst => exact first_eq_none.1 hfirst f hf
  · by_contra hlt
    rw [readable] at hlt
    split at hlt
    next off p hfirst =>
      obtain ⟨he, -⟩ := first_eq_some.1 hfirst
      split_ifs at hlt with hoff
      · refine (ne_none_iff h.byte_iff).2 (held_iff.2 ⟨_, he, ?_, ?_⟩) hk <;>
          simp only [h.read_eq] <;> omega
      · omega
    next => omega

/-! ### The calls -/

lemma Refines.insertFrom (h : r.Refines m) {offset : ℕ} {rest : List UInt8}
    (hread : r.read ≤ start) (hsame : ∀ x b, r.read ≤ x →
      (start ≤ x ∧ rest[x - start]? = some b ↔ offset ≤ x ∧ data[x - offset]? = some b)) :
    (m.Contradicts offset data ∧ r.insertFrom start rest = .error .inconsistent) ∨
      ¬m.Contradicts offset data ∧ ∃ r', r.insertFrom start rest =
          (if MAX_PIECES < (m.write offset data).runs then .error .exceeded else .ok r') ∧
        ((m.write offset data).runs ≤ MAX_PIECES → r'.Refines (m.write offset data)) := by
  obtain ⟨heq, x, b, h1, h2, hb, hne⟩ | ⟨lo, rest', new, hnew, hlo, heq, hholds⟩ :=
    insertFrom_new h.wf start rest hread
  · obtain ⟨c, hc⟩ : ∃ c, rest[x - start]? = some c :=
      ⟨_, getElem?_eq_getElem (by omega)⟩
    obtain ⟨h3, hd⟩ := (hsame x c (by omega)).1 ⟨h1, hc⟩
    have hlt := lt_of_getElem? hd
    rw [hc] at hne
    exact .inl ⟨⟨x, b, h3, by omega, (h.byte_iff x b).2 hb, by rwa [hd]⟩, heq⟩
  · obtain ⟨hwf, hread', -⟩ := foldl_add_spec h.wf lo rest' new hlo hnew
    obtain ⟨hlen, hcounted⟩ := foldl_add_counts h.wf hlo hnew rfl (fun _ _ => rfl) h.counted
    rw [← countPieces_eq] at hlen
    obtain ⟨r', hr'⟩ : ∃ r', r' = new.foldl (fun r e => r.add e.1 e.2) r := ⟨_, rfl⟩
    rw [← hr'] at hwf hread' hlen hcounted heq hholds
    have hin : ∀ x b, r.read ≤ x → offset ≤ x → data[x - offset]? = some b →
        Holds r'.pieces x b := fun x b hx h3 hd =>
      (hholds x b).2 (.inr ((hsame x b hx).2 ⟨h3, hd⟩))
    have hbyte : ∀ x b, (m.write offset data).byte x = some b ↔ Holds r'.pieces x b := by
      intro x b
      rw [PlainArray.write]
      dsimp only
      rw [h.read_eq]
      split_ifs with hcond
      · refine ⟨hin x b hcond.1 hcond.2.1, fun hb => ?_⟩
        obtain ⟨c, hc⟩ : ∃ c, data[x - offset]? = some c :=
          ⟨_, getElem?_eq_getElem (by omega)⟩
        rw [hc, holds_unique hwf hb (hin x c hcond.1 hcond.2.1 hc)]
      · rw [h.byte_iff, hholds]
        refine (or_iff_left fun ⟨h3, hd⟩ => hcond ?_).symm
        obtain ⟨h4, hd⟩ := (hsame x b (by omega)).1 ⟨h3, hd⟩
        have := lt_of_getElem? hd
        omega
    have hruns := len_eq_runs hwf hbyte
    refine .inr ⟨?_, r', ?_, fun hle =>
      ⟨hwf, hcounted, hruns.trans_le hle, h.read_eq.trans hread'.symm, hbyte⟩⟩
    · rintro ⟨x, b, h3, h4, hb, hne⟩
      rw [h.byte_iff] at hb
      obtain ⟨c, hc⟩ : ∃ c, data[x - offset]? = some c :=
        ⟨_, getElem?_eq_getElem (by omega)⟩
      refine hne ?_
      rw [hc, holds_unique hwf ((hholds x b).2 (.inl hb)) (hin x c (holds_read_le h.wf hb) h3 hc)]
    · rw [heq, ← hlen, hruns]
      norm_cast

lemma Refines.insert (h : r.Refines m) (offset : ℕ) (data : List UInt8) (window : ℕ) :
    ∃ r', r.insert offset data window = (m.insert offset data window).map (fun _ => r') ∧
      ∀ m', m.insert offset data window = .ok m' → r'.Refines m' := by
  have hfrom : ∀ res, ¬(m.read + window < offset + data.length ∨ 2 ^ 64 ≤ offset + data.length) →
      ((m.Contradicts offset data ∧ res = .error .inconsistent) ∨
      ¬m.Contradicts offset data ∧ ∃ r' : Reassembler, res =
          (if MAX_PIECES < (m.write offset data).runs then .error .exceeded else .ok r') ∧
        ((m.write offset data).runs ≤ MAX_PIECES → r'.Refines (m.write offset data))) →
      ∃ r' : Reassembler, res = (m.insert offset data window).map (fun _ => r') ∧
        ∀ m', m.insert offset data window = .ok m' → r'.Refines m' := by
    rintro res hfar (⟨hcon, rfl⟩ | ⟨hcon, r', rfl, hrefines⟩)
    · rw [PlainArray.insert, if_neg hfar, if_pos hcon]
      exact ⟨r, rfl, fun m' hm => absurd hm (by simp)⟩
    · rw [PlainArray.insert, if_neg hfar, if_neg hcon]
      split_ifs with hmany
      · exact ⟨r, rfl, fun m' hm => absurd hm (by simp)⟩
      · exact ⟨r', rfl, fun m' hm => Except.ok.inj hm ▸ hrefines (not_lt.1 hmany)⟩
  rw [Reassembler.insert]
  by_cases hfar : m.read + window < offset + data.length ∨ 2 ^ 64 ≤ offset + data.length
  · rw [PlainArray.insert, if_pos hfar]
    rw [h.read_eq] at hfar
    refine ⟨r, ?_, fun m' hm => absurd hm (by simp)⟩
    split_ifs with h1 h2
    · rfl
    · rfl
    all_goals omega
  · refine hfrom _ hfar ?_
    rw [h.read_eq] at hfar
    rw [if_neg (by omega), if_neg (by omega)]
    by_cases h3 : offset + data.length ≤ r.read
    · -- everything in the range has been read
      have hnone : ∀ x, r.read ≤ x → ¬x < offset + data.length := fun x _ => by omega
      have hwrite : m.write offset data = m := by
        rw [PlainArray.write, h.read_eq]
        congr 1
        · exact h.read_eq.symm
        · exact funext fun x => if_neg fun ⟨h1, _, h2⟩ => hnone x h1 h2
      rw [if_pos h3, hwrite]
      refine .inr ⟨?_, r, ?_, fun _ => h⟩
      · rintro ⟨x, b, -, hlt, hb, -⟩
        exact hnone x (holds_read_le h.wf ((h.byte_iff x b).1 hb)) hlt
      · rw [← len_eq_runs h.wf h.byte_iff, if_neg (not_lt.2 h.len_le)]
    rw [if_neg h3]
    by_cases h4 : offset < r.read
    · rw [if_pos h4]
      refine h.insertFrom le_rfl fun x b hx => ?_
      rw [getElem?_drop, (by omega : r.read - offset + (x - r.read) = x - offset)]
      exact and_congr_left fun _ => ⟨fun _ => by omega, fun _ => hx⟩
    · rw [if_neg h4]
      exact h.insertFrom (not_lt.1 h4) fun x b _ => Iff.rfl

lemma readInto_counts (hr : r.Wf) (n : ℕ) : (r.readInto n).1.length = min n r.readable ∧
    (r.readInto n).2.held = r.held - (r.readInto n).1.length ∧
      (r.readInto n).2.pieces.len ≤ r.pieces.len := by
  rw [readInto, readable]
  cases hfirst : r.pieces.first with
  | none => exact ⟨(min_zero n).symm, rfl, le_rfl⟩
  | some e =>
    obtain ⟨off, p⟩ := e
    dsimp only
    by_cases hoff : off = r.read
    · rw [if_neg (not_not.2 hoff), if_pos hoff]
      obtain ⟨he, -⟩ := first_eq_some.1 hfirst
      have hrem := len_remove_add_one (get_eq_some.2 he)
      have hlen : (p.data.take (min p.data.length n)).length = min n p.data.length := by
        rw [List.length_take]
        omega
      refine ⟨hlen, by rw [hlen, min_comm], ?_⟩
      dsimp only
      split_ifs
      · exact Nat.le_of_succ_le hrem.le
      · have hnone : (r.pieces.remove off).get (off + min p.data.length n) = none := by
          refine get_eq_none.2 fun q hq => ?_
          obtain ⟨hq, hne⟩ := mem_remove.1 hq
          have := hr.apart _ he _ hq (by simp only at hne ⊢; omega)
          simp only at this
          omega
        rw [len_insert _ hnone, hrem]
    · rw [if_pos hoff, if_neg hoff]
      exact ⟨(min_zero n).symm, rfl, le_rfl⟩

lemma Refines.readInto (h : r.Refines m) (n : ℕ) :
    (r.readInto n).1 = m.slice (min n m.readable) ∧
      (r.readInto n).2.Refines (m.advance (min n m.readable)) := by
  obtain ⟨hwf, hread, hbytes, hrest⟩ := readInto_spec h.wf n
  obtain ⟨hlen, hheld, hle⟩ := readInto_counts h.wf n
  rw [h.readable_eq] at hlen
  refine ⟨ext_getElem (by rw [hlen, PlainArray.slice, length_map, length_range])
    fun i h1 h2 => ?_, hwf, ?_, hle.trans h.len_le, ?_, fun x b => ?_⟩
  · have hb := hbytes i _ (getElem?_eq_getElem h1)
    rw [← h.read_eq, ← h.byte_iff] at hb
    simp only [PlainArray.slice, getElem_map, getElem_range, hb, Option.getD_some]
  · have hunion : {x | r.Held x} = {x | (r.readInto n).2.Held x} ∪
        Set.Ico r.read (r.read + (r.readInto n).1.length) := by
      ext x
      show r.Held x ↔ (∃ b, Holds (r.readInto n).2.pieces x b) ∨ x ∈ Set.Ico _ _
      simp only [hrest, hread, exists_and_right, Set.mem_Ico]
      constructor
      · rintro ⟨b, hb⟩
        have := holds_read_le h.wf hb
        by_cases hx : r.read + (r.readInto n).1.length ≤ x
        · exact .inl ⟨⟨b, hb⟩, hx⟩
        · exact .inr ⟨this, not_le.1 hx⟩
      · rintro (⟨hb, -⟩ | ⟨h1, h2⟩)
        · exact hb
        · have hb := hbytes (x - r.read) _ (getElem?_eq_getElem (by omega))
          rw [Nat.add_sub_cancel' h1] at hb
          exact ⟨_, hb⟩
    have hdisjoint : Disjoint {x | (r.readInto n).2.Held x}
        (Set.Ico r.read (r.read + (r.readInto n).1.length)) := by
      refine Set.disjoint_left.2 fun x ⟨b, hb⟩ hx => ?_
      have := ((hrest x b).1 hb).2
      rw [hread] at this
      exact absurd hx.2 (not_lt.2 this)
    have hcard := h.counted
    rw [Counted, hunion, Set.ncard_union_eq hdisjoint (finite_held _) (Set.finite_Ico _ _),
      ← Finset.coe_Ico, Set.ncard_coe_finset, Nat.card_Ico, Nat.add_sub_cancel_left] at hcard
    rw [Counted, hheld, hcard, Nat.add_sub_cancel]
  · rw [hread, hlen, PlainArray.advance, h.read_eq]
  · rw [hrest, hread, hlen, PlainArray.advance, ← h.read_eq]
    dsimp only
    split_ifs with hx
    · exact iff_of_false (by simp) fun hb => absurd hb.2 (not_le.2 hx)
    · rw [h.byte_iff, and_iff_left (not_lt.1 hx)]

theorem Refines.call (h : r.Refines m) (c : Call) :
    (r.call c).1 = (m.call c).1 ∧ (r.call c).2.Refines (m.call c).2 := by
  have htake := h.readInto r.readable
  rw [h.readable_eq, min_self, ← h.readable_eq] at htake
  cases c with
  | insert offset data window =>
    obtain ⟨r', heq, hrefines⟩ := h.insert offset data window
    rw [Reassembler.call, PlainArray.call, heq]
    cases hm : m.insert offset data window with
    | ok m' => exact ⟨rfl, hrefines m' hm⟩
    | error e => exact ⟨rfl, h⟩
  | read n =>
    obtain ⟨hbytes, hrefines⟩ := h.readInto n
    exact ⟨congrArg Answer.bytes hbytes, hrefines⟩
  | discard =>
    rw [Reassembler.call, PlainArray.call, discard_eq, take, htake.1]
    refine ⟨?_, ?_⟩
    · rw [PlainArray.slice, length_map, length_range, h.readable_eq]
    · exact h.readable_eq ▸ htake.2
  | take =>
    rw [Reassembler.call, PlainArray.call, take, ← h.readable_eq]
    exact ⟨congrArg Answer.bytes htake.1, htake.2⟩

lemma refines_new : new.Refines .new := by
  refine ⟨wf_new, ?_, Nat.zero_le _, rfl, fun x b => ?_⟩
  · have hnone : {x | new.Held x} = ∅ := by
      ext x
      simp [Held, Holds, new]
    rw [Counted, hnone, Set.ncard_empty]
    rfl
  · simp [Holds, new, PlainArray.new]

/-- After any calls the two have given the same answers, the bytes held, the bytes that can be read
and the pieces are those of the array, and the pieces are apart. -/
theorem reassembler_run (cs : List Call) :
    let (given, r) := answers Reassembler.call new cs
    let (expected, m) := answers PlainArray.call .new cs
    given = expected ∧ r.read = m.read ∧ (∀ x b, Holds r.pieces x b ↔ m.byte x = some b) ∧
      r.held = m.size ∧ r.readable = m.readable ∧ r.pieces.len = m.runs ∧ m.runs ≤ MAX_PIECES ∧
        ∀ e ∈ r.pieces, ∀ f ∈ r.pieces, e.1 < f.1 → e.1 + e.2.data.length < f.1 := by
  have hrun : ∀ cs (r : Reassembler) m, r.Refines m →
      (answers Reassembler.call r cs).1 = (answers PlainArray.call m cs).1 ∧
        (answers Reassembler.call r cs).2.Refines (answers PlainArray.call m cs).2 := by
    intro cs
    induction cs with
    | nil => exact fun r m h => ⟨rfl, h⟩
    | cons c cs ih =>
      intro r m h
      obtain ⟨hanswer, hrefines⟩ := h.call c
      obtain ⟨hrest, hend⟩ := ih _ _ hrefines
      exact ⟨congrArg₂ cons hanswer hrest, hend⟩
  obtain ⟨hgiven, h⟩ := hrun cs new .new refines_new
  have hruns := len_eq_runs h.wf h.byte_iff
  exact ⟨hgiven, h.read_eq.symm, fun x b => (h.byte_iff x b).symm, h.size_eq, h.readable_eq, hruns,
    hruns.symm.trans_le h.len_le, h.wf.apart⟩

end Reassembler

end Lazaret.Quic
