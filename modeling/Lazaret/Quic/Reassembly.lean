import Lazaret.Lib.BTreeMap
import Mathlib.Tactic.Cases

/-!
# Putting the pieces of a byte stream back in order

The receive buffer of a stream (`quic/reassembly.rs`).  What it holds is a partial map from offsets
to bytes (`Holds`): `insert` adds to it, after checking that what it says for an offset that is held
is the same byte, and `read` takes the bytes from the read offset on.
-/

namespace Lazaret.Quic

open List BTreeMap

/-- Bytes from `pos` on are the data; the offset of the first is the key the piece is stored
under. -/
structure Piece where
  bytes : List UInt8
  pos : ℕ
deriving DecidableEq

namespace Piece

def data (p : Piece) : List UInt8 := p.bytes.drop p.pos

/-- Appends bytes.  What was read from the front is given back once it is as much as what is
left. -/
def grow (p : Piece) (bytes : List UInt8) : Piece :=
  let joined := if p.pos > 0 ∧ p.pos ≥ p.data.length then ⟨p.bytes.drop p.pos, 0⟩ else p
  ⟨joined.bytes ++ bytes, joined.pos⟩

lemma data_grow {p : Piece} (hp : p.pos ≤ p.bytes.length) (bytes : List UInt8) :
    (p.grow bytes).data = p.data ++ bytes := by
  unfold grow data
  split_ifs
  · simp
  · simp only [drop_append]
    rw [Nat.sub_eq_zero_of_le hp, drop_zero]

lemma pos_le_of_data {p : Piece} (hp : p.data ≠ []) : p.pos ≤ p.bytes.length := by
  by_contra hlt
  exact hp (drop_eq_nil_of_le (by omega))

end Piece

namespace Reassembly

def MAX_PIECES : ℕ := 4096

inductive Error where
  /-- It reaches past the window, or would make too many pieces. -/
  | exceeded
  /-- It says other bytes for an offset than what was received before. -/
  | inconsistent
deriving DecidableEq

end Reassembly

open Reassembly

structure Reassembler where
  /-- How much has been read: the offset of the next byte to read. -/
  read : ℕ
  /-- Pieces that have not been read, by the offset of their first byte. -/
  pieces : BTreeMap ℕ Piece
  /-- The bytes in `pieces`. -/
  held : ℕ
deriving DecidableEq

namespace Reassembler

def new : Reassembler := ⟨0, BTreeMap.empty, 0⟩

/-- How many bytes can be read now: those from the read offset to the first hole. -/
def readable (r : Reassembler) : ℕ :=
  match r.pieces.first with
  | some (off, p) => if off = r.read then p.data.length else 0
  | none => 0

/-- The part of a range that the piece beginning before `start` has already: it has to be the same,
and the new range begins where the piece ends. -/
def skipHeld (pieces : BTreeMap ℕ Piece) (start : ℕ) (data : List UInt8) :
    Except Error (ℕ × List UInt8) :=
  match (pieces.range (fun k => k ≤ start)).getLast? with
  | some (off, piece) =>
    let pieceEnd := off + piece.data.length
    if pieceEnd > start then
      let overlap := min (pieceEnd - start) data.length
      if (piece.data.drop (start - off)).take overlap ≠ data.take overlap then
        .error .inconsistent
      else .ok (start + overlap, data.drop overlap)
    else .ok (start, data)
  | none => .ok (start, data)

/-- The pieces that begin inside the range `start..start + data.length`, in order: each must say the
same, and the gaps between them are what is new. -/
def gaps (start : ℕ) (data : List UInt8) :
    List (ℕ × Piece) → ℕ → List (ℕ × List UInt8) → Except Error (List (ℕ × List UInt8))
  | [], cursor, new =>
    let rest := data.drop (cursor - start)
    .ok (if rest.isEmpty then new else new ++ [(cursor, rest)])
  | (off, piece) :: inside, cursor, new =>
    let rest := data.drop (cursor - start)
    let new := if off > cursor then new ++ [(cursor, rest.take (off - cursor))] else new
    let take := min (off + piece.data.length) (start + data.length) - off
    let skip := off - start
    if piece.data.take take ≠ (data.drop skip).take take then .error .inconsistent
    else gaps start data inside (off + take) new

/-- How many pieces there are once the new ones are added: one joins the pieces it touches. -/
def countPieces (pieces : BTreeMap ℕ Piece) (new : List (ℕ × List UInt8)) : ℤ :=
  new.foldl (fun n e =>
    let left := ((pieces.range (fun k => k < e.1)).getLast?).any
      (fun b => b.1 + b.2.data.length = e.1)
    let right := (pieces.get (e.1 + e.2.length)).isSome
    n + (if left && right then -1 else if left || right then 0 else 1)) pieces.len

/-- Adds bytes that overlap nothing held, joining the pieces they touch. -/
def add (r : Reassembler) (off : ℕ) (bytes : List UInt8) : Reassembler :=
  let stop := off + bytes.length
  let before := ((r.pieces.range (fun k => k < off)).getLast?).filter
    (fun b => b.1 + b.2.data.length = off)
  let (key, joined, pieces) :=
    match before with
    | some (b, p) => (b, p, r.pieces.remove b)
    | none => (off, ⟨[], 0⟩, r.pieces)
  let joined := joined.grow bytes
  match pieces.get stop with
  | some next =>
    { r with
      pieces := (pieces.remove stop).insert key ⟨joined.bytes ++ next.data, joined.pos⟩
      held := r.held + bytes.length }
  | none => { r with pieces := pieces.insert key joined, held := r.held + bytes.length }

/-- Takes a range that ends in the window and begins at the read offset or after. -/
def insertFrom (r : Reassembler) (start : ℕ) (data : List UInt8) : Except Error Reassembler := do
  let (start, data) ← skipHeld r.pieces start data
  let inside := r.pieces.range (fun k => start ≤ k ∧ k < start + data.length)
  let new ← gaps start data inside start []
  if countPieces r.pieces new > MAX_PIECES then throw .exceeded
  return new.foldl (fun r e => r.add e.1 e.2) r

/-- Takes the range `offset..offset + data.length`, which may end no further than `window` past the
read offset.  What of it was read already is dropped. -/
def insert (r : Reassembler) (offset : ℕ) (data : List UInt8) (window : ℕ) :
    Except Error Reassembler :=
  let stop := offset + data.length
  -- (`checked_add` and `saturating_add` of `u64`)
  if stop ≥ 2 ^ 64 then .error .exceeded
  else if stop > min (r.read + window) (2 ^ 64 - 1) then .error .exceeded
  else if stop ≤ r.read then .ok r
  else if offset < r.read then r.insertFrom r.read (data.drop (r.read - offset))
  else r.insertFrom offset data

/-- Reads at most `n` bytes from the front: nothing if there is a hole at the read offset. -/
def readInto (r : Reassembler) (n : ℕ) : List UInt8 × Reassembler :=
  match r.pieces.first with
  | none => ([], r)
  | some (off, piece) =>
    if off ≠ r.read then ([], r)
    else
      let n := min piece.data.length n
      let out := piece.data.take n
      let piece : Piece := ⟨piece.bytes, piece.pos + n⟩
      let pieces := r.pieces.remove off
      let pieces := if piece.data.isEmpty then pieces else pieces.insert (off + n) piece
      (out, ⟨r.read + n, pieces, r.held - n⟩)

def take (r : Reassembler) : List UInt8 × Reassembler := r.readInto r.readable

/-- The offset just after the last byte that has come. -/
def endOffset (r : Reassembler) : ℕ :=
  max (match r.pieces.last with
    | some (off, p) => off + p.data.length
    | none => r.read) r.read

/-- Throws away what can be read now; how many bytes it is. -/
def discard (r : Reassembler) : ℕ × Reassembler :=
  match r.pieces.first with
  | none => (0, r)
  | some (off, p) =>
    if off ≠ r.read then (0, r)
    else
      let n := p.data.length
      (n, ⟨r.read + n, r.pieces.remove off, r.held - n⟩)

/-! ### What is held -/

/-- The piece map has the byte `b` at offset `x`. -/
def Holds (m : BTreeMap ℕ Piece) (x : ℕ) (b : UInt8) : Prop :=
  ∃ e ∈ m, e.1 ≤ x ∧ e.2.data[x - e.1]? = some b

/-- The pieces are not empty, do not touch, and nothing of them has been read. -/
structure Wf (r : Reassembler) : Prop where
  nonempty : ∀ e ∈ r.pieces, e.2.data ≠ []
  apart : ∀ a ∈ r.pieces, ∀ b ∈ r.pieces, a.1 < b.1 → a.1 + a.2.data.length < b.1
  above : ∀ e ∈ r.pieces, r.read ≤ e.1

lemma wf_new : new.Wf := ⟨by simp [new], by simp [new], by simp [new]⟩

variable {r : Reassembler} {x : ℕ} {b : UInt8}

lemma lt_of_getElem? {l : List UInt8} {i : ℕ} (h : l[i]? = some b) : i < l.length := by
  by_contra hlt
  rw [getElem?_eq_none (by omega)] at h
  exact absurd h (by simp)

lemma piece_unique (hr : r.Wf) {e f : ℕ × Piece} (he : e ∈ r.pieces) (hf : f ∈ r.pieces)
    (h1 : e.1 ≤ x) (h2 : x < e.1 + e.2.data.length) (h3 : f.1 ≤ x)
    (h4 : x < f.1 + f.2.data.length) : e = f := by
  rcases eq_or_lt he hf with h | h | h
  · exact h
  · have := hr.apart e he f hf h
    omega
  · have := hr.apart f hf e he h
    omega

lemma holds_read_le (hr : r.Wf) (h : Holds r.pieces x b) : r.read ≤ x := by
  obtain ⟨e, he, h1, -⟩ := h
  exact (hr.above e he).trans h1

/-! ### Adding a range that overlaps nothing -/

variable {bytes : List UInt8} {off : ℕ}

lemma before_or_after (hr : r.Wf) (hne : bytes ≠ [])
    (hfree : ∀ x, off ≤ x → x < off + bytes.length → ∀ b, ¬Holds r.pieces x b)
    {e : ℕ × Piece} (he : e ∈ r.pieces) :
    e.1 + e.2.data.length ≤ off ∨ off + bytes.length ≤ e.1 := by
  have hlen : 0 < e.2.data.length := length_pos_iff.2 (hr.nonempty e he)
  have hpos : 0 < bytes.length := length_pos_iff.2 hne
  by_contra hcon
  -- the later of the two starts is in both
  have hx : max e.1 off - e.1 < e.2.data.length := by omega
  exact hfree (max e.1 off) (by omega) (by omega) _
    ⟨e, he, by omega, getElem?_eq_getElem hx⟩

/-- The piece that a new range joins on its left: its key, and its data, empty if there is none. -/
structure LeftOf (r : Reassembler) (off key : ℕ) (left : List UInt8) : Prop where
  ends : key + left.length = off
  above : r.read ≤ key
  source : left = [] ∨ ∃ e ∈ r.pieces, e.1 = key ∧ e.2.data = left
  unused : left = [] → ∀ e ∈ r.pieces, e.1 ≠ key
  apart : ∀ e ∈ r.pieces, e.1 < off → e.1 ≠ key → e.1 + e.2.data.length < key

lemma joined_spec (right : List UInt8) (joined : Piece) (hr : r.Wf) {key : ℕ}
    {left : List UInt8} (hne : bytes ≠ [])
    (hfree : ∀ x, off ≤ x → x < off + bytes.length → ∀ b, ¬Holds r.pieces x b)
    (hleft : LeftOf r off key left)
    (hright : ∀ e ∈ r.pieces, e.1 = off + bytes.length → e.2.data = right)
    (hright' : right = [] ∨ ∃ e ∈ r.pieces, e.1 = off + bytes.length ∧ e.2.data = right)
    {r' : Reassembler} (hread : r'.read = r.read)
    (hdata : joined.data = left ++ bytes ++ right)
    (hent : ∀ e, e ∈ r'.pieces ↔
      e = (key, joined) ∨ (e ∈ r.pieces ∧ e.1 ≠ key ∧ e.1 ≠ off + bytes.length)) :
    r'.Wf ∧ ∀ x b, Holds r'.pieces x b ↔
      Holds r.pieces x b ∨ (off ≤ x ∧ bytes[x - off]? = some b) := by
  have hpos : 0 < bytes.length := length_pos_iff.2 hne
  have hends := hleft.ends
  have hside : ∀ e ∈ r.pieces, e.1 ≠ key → e.1 ≠ off + bytes.length →
      e.1 + e.2.data.length < key ∨ off + bytes.length + right.length < e.1 := by
    intro e he hk hs
    rcases before_or_after hr hne hfree he with h | h
    · have hlen : 0 < e.2.data.length := length_pos_iff.2 (hr.nonempty e he)
      exact .inl (hleft.apart e he (by omega) hk)
    · rcases hright' with rfl | ⟨f, hf, hfk, rfl⟩
      · exact .inr (by simp only [length_nil]; omega)
      · have := hr.apart f hf e he (by omega)
        exact .inr (by omega)
  have hlen : joined.data.length = left.length + bytes.length + right.length := by
    rw [hdata]
    simp only [length_append]
  refine ⟨⟨fun e he => ?_, fun e he f hf hef => ?_, fun e he => ?_⟩, fun x b => ⟨?_, ?_⟩⟩
  · rcases (hent e).1 he with rfl | ⟨he, -⟩
    · exact ne_nil_of_length_pos (by simp only; omega)
    · exact hr.nonempty e he
  · rcases (hent e).1 he with rfl | ⟨he, he1, he2⟩ <;>
      rcases (hent f).1 hf with rfl | ⟨hf, hf1, hf2⟩
    · exact absurd hef (lt_irrefl _)
    · rcases hside f hf hf1 hf2 with h | h <;> simp only at * <;> omega
    · rcases hside e he he1 he2 with h | h <;> simp only at * <;> omega
    · exact hr.apart e he f hf hef
  · rw [hread]
    rcases (hent e).1 he with rfl | ⟨he, -⟩
    · exact hleft.above
    · exact hr.above e he
  · rintro ⟨e, he, h1, h2⟩
    rcases (hent e).1 he with rfl | ⟨he, -⟩
    · simp only at h1 h2
      rw [hdata, append_assoc, getElem?_append] at h2
      split_ifs at h2 with h3
      · rcases hleft.source with rfl | ⟨f, hf, rfl, rfl⟩
        · simp at h3
        · exact .inl ⟨f, hf, h1, h2⟩
      · rw [getElem?_append] at h2
        split_ifs at h2 with h4
        · exact .inr ⟨by omega, by rw [← h2]; congr 1; omega⟩
        · rcases hright' with rfl | ⟨f, hf, hfk, rfl⟩
          · simp at h2
          · refine .inl ⟨f, hf, by omega, ?_⟩
            rw [← h2]
            congr 1
            omega
    · exact .inl ⟨e, he, h1, h2⟩
  · have hjoined : (key, joined) ∈ r'.pieces := (hent _).2 (.inl rfl)
    rintro (⟨e, he, h1, h2⟩ | ⟨h1, h2⟩)
    · have hlt := lt_of_getElem? h2
      by_cases hk : e.1 = key
      · refine ⟨(key, joined), hjoined, by simp only; omega, ?_⟩
        rcases hleft.source with rfl | ⟨f, hf, hfk, rfl⟩
        · exact absurd hk (hleft.unused rfl e he)
        · have hflen : 0 < f.2.data.length := length_pos_iff.2 (hr.nonempty f hf)
          have hef : e = f :=
            piece_unique (x := e.1) hr he hf le_rfl (by omega) (by omega) (by omega)
          subst hef
          simp only
          rw [hdata, append_assoc, getElem?_append, if_pos (by omega), ← h2, hk]
      · by_cases hs : e.1 = off + bytes.length
        · refine ⟨(key, joined), hjoined, by simp only; omega, ?_⟩
          have hed := hright e he hs
          simp only
          rw [hdata, getElem?_append, if_neg (by simp only [length_append]; omega), ← h2, hed]
          congr 1
          simp only [length_append]
          omega
        · exact ⟨e, (hent e).2 (.inr ⟨he, hk, hs⟩), h1, h2⟩
    · have hlt := lt_of_getElem? h2
      refine ⟨(key, joined), hjoined, by simp only; omega, ?_⟩
      simp only
      rw [hdata, append_assoc, getElem?_append, if_neg (by omega), getElem?_append,
        if_pos (by omega), ← h2]
      congr 1
      omega

lemma read_add : (r.add off bytes).read = r.read := by
  unfold add
  dsimp only
  split
  · rfl
  · rfl

lemma add_spec (hr : r.Wf) (hne : bytes ≠ []) (hread : r.read ≤ off)
    (hfree : ∀ x, off ≤ x → x < off + bytes.length → ∀ b, ¬Holds r.pieces x b) :
    (r.add off bytes).Wf ∧ ∀ x b, Holds (r.add off bytes).pieces x b ↔
      Holds r.pieces x b ∨ (off ≤ x ∧ bytes[x - off]? = some b) := by
  have hpos : 0 < bytes.length := length_pos_iff.2 hne
  -- the left neighbour, or none: then the range is a piece of its own
  obtain ⟨key, joined, pieces, hbefore, hjoined, hleft, hpieces⟩ : ∃ key joined pieces,
      (match ((r.pieces.range (fun k => k < off)).getLast?).filter
          (fun b => b.1 + b.2.data.length = off) with
        | some (b, p) => (b, p, r.pieces.remove b)
        | none => (off, ⟨[], 0⟩, r.pieces)) = (key, joined, pieces) ∧
      joined.pos ≤ joined.bytes.length ∧ LeftOf r off key joined.data ∧
      (∀ e, e ∈ pieces ↔ e ∈ r.pieces ∧ e.1 ≠ key) := by
    cases hlast : ((r.pieces.range (fun k => k < off)).getLast?).filter
        (fun b => b.1 + b.2.data.length = off) with
    | none =>
      have hoff : ∀ e ∈ r.pieces, e.1 ≠ off := by
        intro e he heq
        have hlen : 0 < e.2.data.length := length_pos_iff.2 (hr.nonempty e he)
        rcases before_or_after hr hne hfree he with h | h <;> omega
      refine ⟨off, ⟨[], 0⟩, r.pieces, rfl, le_rfl, ⟨rfl, hread, .inl rfl, fun _ => hoff, ?_⟩,
        fun e => ⟨fun he => ⟨he, hoff e he⟩, fun he => he.1⟩⟩
      rintro e he hlt -
      rw [Option.filter_eq_none_iff] at hlast
      -- the last piece that begins before `off` does not end there, nor reaches past it
      cases hl : (r.pieces.range (fun k => k < off)).getLast? with
      | none =>
        rw [range_getLast?_eq_none] at hl
        exact absurd (hl e he) (by simp [hlt])
      | some f =>
        have hf := hlast f hl
        obtain ⟨hfm, hflt, hmax⟩ := range_getLast?_eq_some.1 hl
        simp only [decide_eq_true_eq] at hf hflt hmax
        have hfend : f.1 + f.2.data.length < off := by
          rcases before_or_after hr hne hfree hfm with h | h <;> omega
        rcases hmax e he hlt with rfl | h
        · exact hfend
        · have := hr.apart e he f hfm h
          omega
    | some e =>
      obtain ⟨b, p⟩ := e
      rw [Option.filter_eq_some_iff, range_getLast?_eq_some] at hlast
      obtain ⟨⟨hm, hlt, hmax⟩, hend⟩ := hlast
      simp only [decide_eq_true_eq] at hend hlt hmax
      have hdata := hr.nonempty _ hm
      refine ⟨b, p, r.pieces.remove b, rfl, Piece.pos_le_of_data hdata,
        ⟨hend, hr.above _ hm, .inr ⟨_, hm, rfl, rfl⟩, fun h => absurd h hdata, ?_⟩,
        fun e => mem_remove⟩
      intro e he helt hek
      rcases hmax e he helt with rfl | h
      · exact absurd rfl hek
      · exact hr.apart e he _ hm h
  have hgrow := Piece.data_grow hjoined bytes
  unfold add
  simp only [hbefore]
  -- the right neighbour
  cases hget : pieces.get (off + bytes.length) with
  | some next =>
    have hnext := ((hpieces _).1 (get_eq_some.1 hget)).1
    simp only
    refine joined_spec next.data
      ⟨(joined.grow bytes).bytes ++ next.data, (joined.grow bytes).pos⟩ hr hne hfree hleft ?_
      (.inr ⟨_, hnext, rfl, rfl⟩) rfl ?_ ?_
    · intro e he hek
      have he' : (off + bytes.length, e.2) ∈ r.pieces := by
        rw [← hek]
        exact he
      rw [value_unique he' hnext]
    · have hle : (joined.grow bytes).pos ≤ (joined.grow bytes).bytes.length := by
        apply Piece.pos_le_of_data
        rw [hgrow]
        simp [hne]
      rw [← hgrow]
      unfold Piece.data
      simp only [drop_append]
      rw [Nat.sub_eq_zero_of_le hle, drop_zero]
    · intro e
      rw [mem_insert, mem_remove, hpieces]
      constructor
      · rintro (rfl | ⟨⟨⟨he, h1⟩, h2⟩, h3⟩)
        · exact .inl rfl
        · exact .inr ⟨he, h1, h2⟩
      · rintro (rfl | ⟨he, h1, h2⟩)
        · exact .inl rfl
        · exact .inr ⟨⟨⟨he, h1⟩, h2⟩, h1⟩
  | none =>
    have hnone : ∀ e ∈ r.pieces, e.1 ≠ off + bytes.length := by
      intro e he hek
      have hkey := hleft.ends
      refine get_eq_none.1 hget e.2 ((hpieces _).2 ⟨by rw [← hek]; exact he, ?_⟩)
      simp only
      omega
    simp only
    refine joined_spec [] (joined.grow bytes) hr hne hfree hleft
      (fun e he hek => absurd hek (hnone e he)) (.inl rfl) rfl ?_ ?_
    · rw [hgrow, append_nil]
    · intro e
      rw [mem_insert, hpieces]
      constructor
      · rintro (rfl | ⟨⟨he, h1⟩, h2⟩)
        · exact .inl rfl
        · exact .inr ⟨he, h1, hnone e he⟩
      · rintro (rfl | ⟨he, h1, h2⟩)
        · exact .inl rfl
        · exact .inr ⟨⟨he, h1⟩, h1⟩

/-! ### Inserting -/

/-- What the range `start..start + data.length` says for the offsets that are held is the same. -/
def Agrees (m : BTreeMap ℕ Piece) (start : ℕ) (data : List UInt8) : Prop :=
  ∀ x b, start ≤ x → x < start + data.length → Holds m x b → data[x - start]? = some b

variable {n : ℕ}

lemma take_eq_take_iff {l l' : List UInt8} (h : n ≤ l.length) :
    l.take n = l'.take n ↔ ∀ i b, i < n → l[i]? = some b → l'[i]? = some b := by
  constructor
  · intro heq i b hi hb
    have := congrArg (fun l => l[i]?) heq
    simp only [getElem?_take, hi, if_true] at this
    rw [← this, hb]
  · intro hall
    apply ext_getElem?
    intro i
    simp only [getElem?_take]
    split_ifs with hi
    · have hlt : i < l.length := by omega
      rw [hall i _ hi (getElem?_eq_getElem hlt), getElem?_eq_getElem hlt]
    · rfl

lemma agree_iff (data : List UInt8) (start off n k : ℕ) {p : Piece} (hk : k + n ≤ p.data.length)
    (hs : start ≤ off + k) :
    (p.data.drop k).take n = (data.drop (off + k - start)).take n ↔
      ∀ x b, off + k ≤ x → x < off + k + n → p.data[x - off]? = some b →
        data[x - start]? = some b := by
  rw [take_eq_take_iff (by simp only [length_drop]; omega)]
  constructor
  · intro h x b h1 h2 h3
    have := h (x - (off + k)) b (by omega)
      (by rw [getElem?_drop, ← h3]; congr 1; omega)
    rw [getElem?_drop] at this
    rw [← this]
    congr 1
    omega
  · intro h i b hi hb
    rw [getElem?_drop] at hb ⊢
    have := h (off + k + i) b (by omega) (by omega) (by rw [← hb]; congr 1; omega)
    rw [← this]
    congr 1
    omega

lemma skipHeld_spec (hr : r.Wf) (start : ℕ) (data : List UInt8) :
    (skipHeld r.pieces start data = .error .inconsistent ∧ ¬Agrees r.pieces start data) ∨
      ∃ n ≤ data.length, skipHeld r.pieces start data = .ok (start + n, data.drop n) ∧
        (∀ x, start ≤ x → x < start + n → ∃ b, Holds r.pieces x b ∧ data[x - start]? = some b) ∧
        (data.drop n ≠ [] → ∀ e ∈ r.pieces, e.1 < start + n →
          e.1 + e.2.data.length ≤ start + n) := by
  unfold skipHeld
  cases hlast : (r.pieces.range (fun k => k ≤ start)).getLast? with
  | none =>
    rw [range_getLast?_eq_none] at hlast
    refine .inr ⟨0, by omega, by simp, fun x h1 h2 => by omega, fun _ e he hlt => ?_⟩
    have := hlast e he
    simp only [decide_eq_false_iff_not] at this
    omega
  | some e =>
    obtain ⟨off, piece⟩ := e
    simp only [range_getLast?_eq_some, decide_eq_true_eq] at hlast
    obtain ⟨he, hle, hmax⟩ := hlast
    dsimp only
    by_cases hend : off + piece.data.length > start
    · simp only [if_pos hend]
      set overlap := min (off + piece.data.length - start) data.length with hov
      have hiff := agree_iff data start off overlap (start - off) (p := piece)
        (by omega) (by omega)
      rw [show off + (start - off) - start = 0 by omega, drop_zero] at hiff
      by_cases hsame : (piece.data.drop (start - off)).take overlap = data.take overlap
      · rw [if_neg (not_not.2 hsame)]
        refine .inr ⟨overlap, by omega, rfl, fun x h1 h2 => ?_, fun hne f hf hlt => ?_⟩
        · have hxl : x - off < piece.data.length := by omega
          refine ⟨_, ⟨(off, piece), he, by simp only; omega, getElem?_eq_getElem hxl⟩, ?_⟩
          exact hiff.1 hsame x _ (by omega) (by omega) (getElem?_eq_getElem hxl)
        · have hlen : overlap < data.length := by
            by_contra hcon
            exact hne (drop_eq_nil_of_le (by omega))
          rcases eq_or_lt hf he with rfl | h | h
          · simp only
            omega
          · have := hr.apart f hf _ he h
            simp only at this
            omega
          · have := hr.apart _ he f hf h
            simp only at this
            omega
      · rw [if_pos hsame]
        refine .inl ⟨rfl, fun hag => hsame (hiff.2 fun x b h1 h2 h3 => ?_)⟩
        exact hag x b (by omega) (by omega) ⟨(off, piece), he, by simp only; omega, h3⟩
    · simp only [if_neg hend]
      refine .inr ⟨0, by omega, by simp, fun x h1 h2 => by omega, fun _ f hf hlt => ?_⟩
      rcases hmax f hf (by omega) with rfl | h
      · simp only
        omega
      · have := hr.apart f hf _ he h
        simp only at this
        omega

/-- Ranges of the stream that say what `data` says from `start` on: ascending, with something
between them, not empty, and held nowhere. -/
structure Fresh (r : Reassembler) (start : ℕ) (data : List UInt8) (new : List (ℕ × List UInt8)) :
    Prop where
  nonempty : ∀ g ∈ new, g.2 ≠ []
  within : ∀ g ∈ new, start ≤ g.1 ∧ g.1 + g.2.length ≤ start + data.length
  bytes : ∀ g ∈ new, ∀ i, i < g.2.length → g.2[i]? = data[g.1 + i - start]?
  free : ∀ g ∈ new, ∀ x, g.1 ≤ x → x < g.1 + g.2.length → ∀ b, ¬Holds r.pieces x b
  apart : new.Pairwise (fun a b => a.1 + a.2.length < b.1)

/-- Every offset from `start` up to `stop` is held, with the byte that `data` says, or is in one of
the ranges `new`. -/
def Covered (r : Reassembler) (start : ℕ) (data : List UInt8) (new : List (ℕ × List UInt8))
    (stop : ℕ) : Prop :=
  ∀ x, start ≤ x → x < stop → (∃ b, Holds r.pieces x b ∧ data[x - start]? = some b) ∨
    ∃ g ∈ new, g.1 ≤ x ∧ x < g.1 + g.2.length

lemma Fresh.snoc {start : ℕ} {data : List UInt8} {new : List (ℕ × List UInt8)}
    (hnew : Fresh r start data new) {cursor : ℕ} (hc : start ≤ cursor) (hlt : cursor < off)
    (hoff : off ≤ start + data.length) (hbelow : ∀ g ∈ new, g.1 + g.2.length < cursor)
    (hfree : ∀ x, cursor ≤ x → x < off → ∀ b, ¬Holds r.pieces x b) :
    Fresh r start data (new ++ [(cursor, (data.drop (cursor - start)).take (off - cursor))]) := by
  have hlen : ((data.drop (cursor - start)).take (off - cursor)).length = off - cursor := by
    simp only [length_take, length_drop]
    omega
  refine ⟨fun g hg => ?_, fun g hg => ?_, fun g hg i hi => ?_, fun g hg => ?_, ?_⟩
  · rcases mem_append.1 hg with hg | hg
    · exact hnew.nonempty g hg
    · rw [mem_singleton.1 hg]
      exact ne_nil_of_length_pos (by simp only; omega)
  · rcases mem_append.1 hg with hg | hg
    · exact hnew.within g hg
    · rw [mem_singleton.1 hg]
      simp only [hlen]
      omega
  · rcases mem_append.1 hg with hg | hg
    · exact hnew.bytes g hg i hi
    · rw [mem_singleton.1 hg] at hi ⊢
      simp only [hlen] at hi ⊢
      rw [getElem?_take, if_pos hi, getElem?_drop]
      congr 1
      omega
  · rcases mem_append.1 hg with hg | hg
    · exact hnew.free g hg
    · rw [mem_singleton.1 hg]
      simp only [hlen]
      intro x h1 h2
      exact hfree x h1 (by omega)
  · rw [pairwise_append]
    refine ⟨hnew.apart, by simp, fun a ha b hb => ?_⟩
    rw [mem_singleton.1 hb]
    exact hbelow a ha

/-- The walk of `gaps` over the pieces inside the range, from any point of it.  The invariant: below
`cursor` everything is held or in `new`, and no piece crosses it. -/
lemma gaps_spec (hr : r.Wf) (start : ℕ) (data : List UInt8) (inside : List (ℕ × Piece))
    (cursor : ℕ) (new : List (ℕ × List UInt8))
    (hsorted : inside.Pairwise (fun a b => a.1 < b.1))
    (hinside : ∀ e, e ∈ inside ↔ e ∈ r.pieces ∧ cursor ≤ e.1 ∧ e.1 < start + data.length)
    (hc : start ≤ cursor) (hc' : cursor ≤ start + data.length)
    (hcross : cursor < start + data.length →
      ∀ e ∈ r.pieces, e.1 < cursor → e.1 + e.2.data.length ≤ cursor)
    (hnew : Fresh r start data new) (hbelow : ∀ g ∈ new, g.1 + g.2.length < cursor)
    (hcov : Covered r start data new cursor) :
    (gaps start data inside cursor new = .error .inconsistent ∧ ¬Agrees r.pieces start data) ∨
      ∃ new', gaps start data inside cursor new = .ok new' ∧ Fresh r start data new' ∧
        Covered r start data new' (start + data.length) := by
  induction inside generalizing cursor new with
  | nil =>
    right
    rw [gaps]
    by_cases hend : cursor = start + data.length
    · have hnil : data.drop (cursor - start) = [] := drop_eq_nil_of_le (by omega)
      refine ⟨new, by simp [hnil], hnew, ?_⟩
      rw [← hend]
      exact hcov
    · have hlen : (data.drop (cursor - start)).length = start + data.length - cursor := by
        rw [length_drop]
        omega
      have hne : data.drop (cursor - start) ≠ [] := ne_nil_of_length_pos (by omega)
      have hfree : ∀ x, cursor ≤ x → x < start + data.length → ∀ b, ¬Holds r.pieces x b := by
        rintro x h1 h2 b ⟨e, he, h3, h4⟩
        have hlt := lt_of_getElem? h4
        by_cases hec : e.1 < cursor
        · have := hcross (by omega) e he hec
          omega
        · have := (hinside e).2 ⟨he, by omega, by omega⟩
          simp at this
      have hsnoc := hnew.snoc hc (by omega) le_rfl hbelow hfree
      rw [take_of_length_le (by omega)] at hsnoc
      refine ⟨_, by simp only [List.isEmpty_iff, if_neg hne], hsnoc, fun x h1 h2 => ?_⟩
      by_cases hxc : x < cursor
      · rcases hcov x h1 hxc with h | ⟨g, hg, h⟩
        · exact .inl h
        · exact .inr ⟨g, by simp [hg], h⟩
      · exact .inr ⟨_, mem_append_right _ (mem_singleton_self _), by simp only; omega,
          by simp only; omega⟩
  | cons e inside ih =>
    obtain ⟨off, piece⟩ := e
    rw [pairwise_cons] at hsorted
    obtain ⟨he, hoc, hoff⟩ := (hinside (off, piece)).1 (by simp)
    simp only at hoc hoff
    have hplen : 0 < piece.data.length := length_pos_iff.2 (hr.nonempty _ he)
    rw [gaps]
    set n := min (off + piece.data.length) (start + data.length) - off with hn
    have hiff := agree_iff data start off n 0 (p := piece) (by omega) (by omega)
    simp only [add_zero, drop_zero] at hiff
    by_cases hsame : piece.data.take n = (data.drop (off - start)).take n
    · rw [if_neg (not_not.2 hsame)]
      have hfree : ∀ x, cursor ≤ x → x < off → ∀ b, ¬Holds r.pieces x b := by
        rintro x h1 h2 b ⟨f, hf, h3, h4⟩
        have hlt := lt_of_getElem? h4
        by_cases hfc : f.1 < cursor
        · have := hcross (by omega) f hf hfc
          omega
        · rcases mem_cons.1 ((hinside f).2 ⟨hf, by omega, by omega⟩) with rfl | hmem
          · simp only at h3
            omega
          · have := hsorted.1 f hmem
            simp only at this
            omega
      have hinside' : ∀ f, f ∈ inside ↔
          f ∈ r.pieces ∧ off + n ≤ f.1 ∧ f.1 < start + data.length := by
        intro f
        constructor
        · intro hf
          obtain ⟨h1, h2, h3⟩ := (hinside f).1 (by simp [hf])
          have := hr.apart _ he f h1 (hsorted.1 f hf)
          simp only at this
          exact ⟨h1, by omega, h3⟩
        · rintro ⟨h1, h2, h3⟩
          rcases mem_cons.1 ((hinside f).2 ⟨h1, by omega, h3⟩) with rfl | hmem
          · simp only at h2
            omega
          · exact hmem
      have hcross' : off + n < start + data.length →
          ∀ f ∈ r.pieces, f.1 < off + n → f.1 + f.2.data.length ≤ off + n := by
        intro hlt f hf hfl
        rcases eq_or_lt hf he with rfl | h | h
        · simp only
          omega
        · have := hr.apart f hf _ he h
          simp only at this
          omega
        · have := hr.apart _ he f hf h
          simp only at this
          omega
      have hheld : ∀ x, off ≤ x → x < off + n →
          ∃ b, Holds r.pieces x b ∧ data[x - start]? = some b := by
        intro x h1 h2
        have hxl : x - off < piece.data.length := by omega
        exact ⟨_, ⟨(off, piece), he, h1, getElem?_eq_getElem hxl⟩,
          hiff.1 hsame x _ h1 h2 (getElem?_eq_getElem hxl)⟩
      by_cases hgap : off > cursor
      · rw [if_pos hgap]
        refine ih (off + n) _ hsorted.2 hinside' (by omega) (by omega) hcross'
          (hnew.snoc hc hgap hoff.le hbelow hfree) (fun g hg => ?_) (fun x h1 h2 => ?_)
        · rcases mem_append.1 hg with hg | hg
          · have := hbelow g hg
            omega
          · rw [mem_singleton.1 hg]
            simp only [length_take, length_drop]
            omega
        · by_cases hxo : off ≤ x
          · exact .inl (hheld x hxo h2)
          · by_cases hxc : x < cursor
            · rcases hcov x h1 hxc with h | ⟨g, hg, h⟩
              · exact .inl h
              · exact .inr ⟨g, by simp [hg], h⟩
            · refine .inr ⟨_, mem_append_right _ (mem_singleton_self _), ?_, ?_⟩
              · simp only
                omega
              · simp only [length_take, length_drop]
                omega
      · rw [if_neg hgap]
        refine ih (off + n) _ hsorted.2 hinside' (by omega) (by omega) hcross' hnew
          (fun g hg => ?_) (fun x h1 h2 => ?_)
        · have := hbelow g hg
          omega
        · by_cases hxo : off ≤ x
          · exact .inl (hheld x hxo h2)
          · exact hcov x h1 (by omega)
    · rw [if_pos hsame]
      refine .inl ⟨rfl, fun hag => hsame (hiff.2 fun x b h1 h2 h3 => ?_)⟩
      exact hag x b (by omega) (by omega) ⟨(off, piece), he, h1, h3⟩

lemma Fresh.add (hr : r.Wf) {start : ℕ} {data : List UInt8} {g : ℕ × List UInt8}
    {new : List (ℕ × List UInt8)} (hread : r.read ≤ start) (hnew : Fresh r start data (g :: new)) :
    (r.add g.1 g.2).Wf ∧ Fresh (r.add g.1 g.2) start data new ∧
      ∀ x b, Holds (r.add g.1 g.2).pieces x b ↔
        Holds r.pieces x b ∨ (g.1 ≤ x ∧ g.2[x - g.1]? = some b) := by
  have hw := hnew.within g (by simp)
  obtain ⟨hwf, hholds⟩ := add_spec hr (hnew.nonempty g (by simp)) (by omega)
    (hnew.free g (by simp))
  have hasc := pairwise_cons.1 hnew.apart
  refine ⟨hwf,
    ⟨fun a ha => hnew.nonempty a (by simp [ha]), fun a ha => hnew.within a (by simp [ha]),
    fun a ha => hnew.bytes a (by simp [ha]), ?_, hasc.2⟩, hholds⟩
  intro a ha x h1 h2 b hb
  rcases (hholds x b).1 hb with hb | ⟨h3, h4⟩
  · exact hnew.free a (by simp [ha]) x h1 h2 b hb
  · have := hasc.1 a ha
    have := lt_of_getElem? h4
    omega

lemma foldl_add_spec (hr : r.Wf) (start : ℕ) (data : List UInt8) (new : List (ℕ × List UInt8))
    (hread : r.read ≤ start) (hnew : Fresh r start data new) :
    (new.foldl (fun r e => r.add e.1 e.2) r).Wf ∧
      (new.foldl (fun r e => r.add e.1 e.2) r).read = r.read ∧
      ∀ x b, Holds (new.foldl (fun r e => r.add e.1 e.2) r).pieces x b ↔
        Holds r.pieces x b ∨ ∃ g ∈ new, g.1 ≤ x ∧ g.2[x - g.1]? = some b := by
  induction new generalizing r with
  | nil => simp [hr]
  | cons g new ih =>
    obtain ⟨hwf, hfresh, hholds⟩ := hnew.add hr hread
    obtain ⟨h1, h2, h3⟩ := ih hwf (by rw [read_add]; exact hread) hfresh
    refine ⟨h1, h2.trans read_add, fun x b => ?_⟩
    rw [foldl_cons, h3, hholds]
    simp only [exists_mem_cons_iff, or_assoc]

/-- What became of a range: why it was refused, or what is held now. -/
inductive Inserted (r : Reassembler) (offset : ℕ) (data : List UInt8) :
    Except Error Reassembler → Prop
  | exceeded : Inserted r offset data (.error .exceeded)
  | inconsistent (x : ℕ) (b : UInt8) (h1 : offset ≤ x) (h2 : x < offset + data.length)
      (hb : Holds r.pieces x b) (hne : data[x - offset]? ≠ some b) :
      Inserted r offset data (.error .inconsistent)
  | ok (r' : Reassembler) (hwf : r'.Wf) (hread : r'.read = r.read)
      (hholds : ∀ x b, Holds r'.pieces x b ↔
        Holds r.pieces x b ∨ (r.read ≤ x ∧ offset ≤ x ∧ data[x - offset]? = some b)) :
      Inserted r offset data (.ok r')

/-- A range contradicts what is held, or there are ranges to add that leave what is held and what it
says; whether they are added depends on their number alone. -/
lemma insertFrom_new (hr : r.Wf) (start : ℕ) (data : List UInt8) (hread : r.read ≤ start) :
    (r.insertFrom start data = .error .inconsistent ∧
      ∃ x b, start ≤ x ∧ x < start + data.length ∧ Holds r.pieces x b ∧ data[x - start]? ≠ some b) ∨
    ∃ lo rest new, Fresh r lo rest new ∧ r.read ≤ lo ∧
      r.insertFrom start data =
        (if countPieces r.pieces new > MAX_PIECES then .error .exceeded
          else .ok (new.foldl (fun r e => r.add e.1 e.2) r)) ∧
      ∀ x b, Holds (new.foldl (fun r e => r.add e.1 e.2) r).pieces x b ↔
        Holds r.pieces x b ∨ (start ≤ x ∧ data[x - start]? = some b) := by
  -- a range that does not agree names an offset that is held
  have hwit : ∀ k, k ≤ data.length → ¬Agrees r.pieces (start + k) (data.drop k) →
      ∃ x b, start ≤ x ∧ x < start + data.length ∧ Holds r.pieces x b ∧
        data[x - start]? ≠ some b := by
    intro k hk hdis
    simp only [Agrees, not_forall] at hdis
    obtain ⟨x, b, h1, h2, h3, h4⟩ := hdis
    rw [length_drop] at h2
    rw [getElem?_drop, show k + (x - (start + k)) = x - start by omega] at h4
    exact ⟨x, b, by omega, by omega, h3, h4⟩
  unfold insertFrom
  rcases skipHeld_spec hr start data with ⟨heq, hdis⟩ | ⟨n, hn, heq, hheld, hcross⟩
  · rw [heq]
    exact .inl ⟨rfl, hwit 0 (by omega) (by simpa using hdis)⟩
  · rw [heq]
    have hlen : (data.drop n).length = data.length - n := length_drop
    have hempty : Fresh r (start + n) (data.drop n) [] :=
      ⟨by simp, by simp, by simp, by simp, Pairwise.nil⟩
    rcases gaps_spec hr (start + n) (data.drop n)
        (r.pieces.range (fun k => start + n ≤ k ∧ k < start + n + (data.drop n).length))
        (start + n) [] (r.pieces.range_sorted _) (by simp) le_rfl (by omega)
        (fun hlt => hcross (ne_nil_of_length_pos (by omega))) hempty (by simp)
        (fun x h1 h2 => by omega) with ⟨hgap, hdis⟩ | ⟨new, hgap, hnew, hcov⟩
    · simp only [bind, Except.bind, hgap]
      exact .inl ⟨trivial, hwit n hn hdis⟩
    · simp only [bind, Except.bind, hgap]
      refine .inr ⟨start + n, data.drop n, new, hnew, by omega, ?_, fun x b => ?_⟩
      · split_ifs <;> rfl
      rw [(foldl_add_spec hr (start + n) (data.drop n) new (by omega) hnew).2.2]
      constructor
      · rintro (h | ⟨g, hg, h1, h2⟩)
        · exact .inl h
        · have hw := hnew.within g hg
          have hb := hnew.bytes g hg (x - g.1) (lt_of_getElem? h2)
          rw [h2, getElem?_drop] at hb
          refine .inr ⟨by omega, ?_⟩
          rw [hb]
          congr 1
          omega
      · rintro (h | ⟨h1, h2⟩)
        · exact .inl h
        · have hlt := lt_of_getElem? h2
          by_cases hxn : x < start + n
          · obtain ⟨b', h3, h4⟩ := hheld x h1 hxn
            rw [h2, Option.some.injEq] at h4
            exact .inl (h4 ▸ h3)
          · have hdrop : (data.drop n)[x - (start + n)]? = some b := by
              rw [getElem?_drop, ← h2]
              congr 1
              omega
            rcases hcov x (by omega) (by omega) with ⟨b', h3, h4⟩ | ⟨g, hg, h3, h4⟩
            · rw [hdrop, Option.some.injEq] at h4
              exact .inl (h4 ▸ h3)
            · refine .inr ⟨g, hg, h3, ?_⟩
              rw [hnew.bytes g hg (x - g.1) (by omega), ← hdrop]
              congr 1
              omega

lemma insertFrom_spec (hr : r.Wf) (start : ℕ) (data : List UInt8) (hread : r.read ≤ start) :
    Inserted r start data (r.insertFrom start data) := by
  obtain ⟨heq, x, b, h1, h2, h3, h4⟩ | ⟨lo, rest, new, hnew, hlo, heq, hholds⟩ :=
    insertFrom_new hr start data hread
  · rw [heq]
    exact Inserted.inconsistent x b h1 h2 h3 h4
  · rw [heq]
    split_ifs
    · exact Inserted.exceeded
    · obtain ⟨hwf, hsame, -⟩ := foldl_add_spec hr lo rest new hlo hnew
      refine Inserted.ok _ hwf hsame fun x b => (hholds x b).trans (or_congr_right ⟨?_, And.right⟩)
      exact fun hx => ⟨by omega, hx⟩

/-- `insert` refuses a range that reaches too far or makes too many pieces, or that says another
byte than what is held; else it adds what the range says past the read offset. -/
theorem insert_spec (hr : r.Wf) (offset : ℕ) (data : List UInt8) (window : ℕ) :
    Inserted r offset data (r.insert offset data window) := by
  unfold insert
  by_cases h1 : offset + data.length ≥ 2 ^ 64
  · simp only [if_pos h1]
    exact Inserted.exceeded
  by_cases h2 : offset + data.length > min (r.read + window) (2 ^ 64 - 1)
  · simp only [if_neg h1, if_pos h2]
    exact Inserted.exceeded
  by_cases h3 : offset + data.length ≤ r.read
  · simp only [if_neg h1, if_neg h2, if_pos h3]
    refine Inserted.ok r hr rfl fun x b => ⟨.inl, ?_⟩
    rintro (h | ⟨h4, h5, h6⟩)
    · exact h
    · have := lt_of_getElem? h6
      omega
  simp only [if_neg h1, if_neg h2, if_neg h3]
  by_cases h4 : offset < r.read
  · simp only [if_pos h4]
    have hsame : ∀ x, r.read ≤ x →
        (data.drop (r.read - offset))[x - r.read]? = data[x - offset]? := by
      intro x hx
      rw [getElem?_drop]
      congr 1
      omega
    have hcut := insertFrom_spec hr r.read (data.drop (r.read - offset)) le_rfl
    generalize r.insertFrom r.read (data.drop (r.read - offset)) = res at hcut ⊢
    cases hcut with
    | exceeded => exact Inserted.exceeded
    | inconsistent x b h5 h6 hb hne =>
      rw [length_drop] at h6
      rw [hsame x h5] at hne
      exact Inserted.inconsistent x b (by omega) (by omega) hb hne
    | ok r' hwf hread hholds =>
      refine Inserted.ok r' hwf hread fun x b => ?_
      rw [hholds]
      constructor
      · rintro (h | ⟨h5, -, h6⟩)
        · exact .inl h
        · exact .inr ⟨h5, by omega, by rw [← hsame x h5]; exact h6⟩
      · rintro (h | ⟨h5, -, h6⟩)
        · exact .inl h
        · exact .inr ⟨h5, h5, by rw [hsame x h5]; exact h6⟩
  · simp only [if_neg h4]
    exact insertFrom_spec hr offset data (by omega)

/-! ### Reading -/

theorem readInto_spec (hr : r.Wf) (n : ℕ) :
    (r.readInto n).2.Wf ∧ (r.readInto n).2.read = r.read + (r.readInto n).1.length ∧
      (∀ i b, (r.readInto n).1[i]? = some b → Holds r.pieces (r.read + i) b) ∧
      ∀ x b, Holds (r.readInto n).2.pieces x b ↔
        Holds r.pieces x b ∧ (r.readInto n).2.read ≤ x := by
  have hnothing : r.Wf ∧ r.read = r.read + ([] : List UInt8).length ∧
      (∀ i b, ([] : List UInt8)[i]? = some b → Holds r.pieces (r.read + i) b) ∧
      ∀ x b, Holds r.pieces x b ↔ Holds r.pieces x b ∧ r.read ≤ x :=
    ⟨hr, by simp, by simp, fun x b => ⟨fun h => ⟨h, holds_read_le hr h⟩, fun h => h.1⟩⟩
  unfold readInto
  cases hfirst : r.pieces.first with
  | none => exact hnothing
  | some e =>
    obtain ⟨off, piece⟩ := e
    dsimp only
    by_cases hoff : off = r.read
    · subst hoff
      rw [if_neg (by simp)]
      obtain ⟨he, hmin⟩ := first_eq_some.1 hfirst
      set k := min piece.data.length n with hk
      have hlen : (piece.data.take k).length = k := length_take_of_le (by omega)
      have hrest : (⟨piece.bytes, piece.pos + k⟩ : Piece).data = piece.data.drop k := by
        simp [Piece.data, drop_drop]
      -- the other pieces lie past what was read
      have hother : ∀ f ∈ r.pieces, f.1 ≠ r.read → r.read + piece.data.length < f.1 := by
        intro f hf hne
        rcases hmin f hf with rfl | h
        · exact absurd rfl hne
        · exact hr.apart _ he f hf h
      have hent : ∀ f, f ∈ (if (⟨piece.bytes, piece.pos + k⟩ : Piece).data.isEmpty then
          r.pieces.remove r.read else
          (r.pieces.remove r.read).insert (r.read + k) ⟨piece.bytes, piece.pos + k⟩) ↔
          (f = (r.read + k, ⟨piece.bytes, piece.pos + k⟩) ∧ k < piece.data.length) ∨
            (f ∈ r.pieces ∧ f.1 ≠ r.read) := by
        intro f
        by_cases hemp : piece.data.length ≤ k
        · have hnil : piece.data.drop k = [] := drop_eq_nil_of_le hemp
          rw [if_pos (by rw [hrest, hnil]; rfl), mem_remove]
          constructor
          · exact .inr
          · rintro (⟨-, h⟩ | h)
            · omega
            · exact h
        · have hne : piece.data.drop k ≠ [] :=
            ne_nil_of_length_pos (by rw [length_drop]; omega)
          rw [if_neg (by rw [hrest, List.isEmpty_iff]; exact hne), mem_insert, mem_remove]
          constructor
          · rintro (rfl | ⟨h, -⟩)
            · exact .inl ⟨rfl, by omega⟩
            · exact .inr h
          · rintro (⟨rfl, -⟩ | h)
            · exact .inl rfl
            · have := hother f h.1 h.2
              exact .inr ⟨h, by omega⟩
      refine ⟨⟨fun f hf => ?_, fun f hf g hg hfg => ?_, fun f hf => ?_⟩, ?_, ?_, fun x b => ?_⟩
      · rcases (hent f).1 hf with ⟨rfl, hlt⟩ | ⟨hf, -⟩
        · simp only
          rw [hrest]
          exact ne_nil_of_length_pos (by rw [length_drop]; omega)
        · exact hr.nonempty f hf
      · rcases (hent f).1 hf with ⟨rfl, hlt⟩ | ⟨hf, hf'⟩ <;>
          rcases (hent g).1 hg with ⟨rfl, hlt'⟩ | ⟨hg, hg'⟩
        · exact absurd hfg (lt_irrefl _)
        · have := hother g hg hg'
          simp only
          rw [hrest, length_drop]
          omega
        · have := hother f hf hf'
          simp only at hfg
          omega
        · exact hr.apart f hf g hg hfg
      · rcases (hent f).1 hf with ⟨rfl, hlt⟩ | ⟨hf, hf'⟩
        · exact le_rfl
        · have := hother f hf hf'
          simp only
          omega
      · simp only [hlen]
      · intro i b hi
        simp only [getElem?_take] at hi
        split_ifs at hi
        exact ⟨_, he, by simp only; omega, by rw [← hi]; simp⟩
      · constructor
        · rintro ⟨f, hf, h1, h2⟩
          rcases (hent f).1 hf with ⟨rfl, hlt⟩ | ⟨hf, hf'⟩
          · simp only at h1 h2
            rw [hrest, getElem?_drop] at h2
            refine ⟨⟨_, he, by simp only; omega, ?_⟩, h1⟩
            rw [← h2]
            congr 1
            omega
          · have := hother f hf hf'
            exact ⟨⟨f, hf, h1, h2⟩, by simp only; omega⟩
        · rintro ⟨⟨f, hf, h1, h2⟩, h3⟩
          by_cases hfr : f.1 = r.read
          · have hfe : f = (r.read, piece) := by
              rcases hmin f hf with h | h
              · exact h
              · simp only at h
                omega
            subst hfe
            have := lt_of_getElem? h2
            simp only at h1 h2 h3 this
            refine ⟨_, (hent _).2 (.inl ⟨rfl, by omega⟩), by simp only; omega, ?_⟩
            simp only
            rw [hrest, getElem?_drop, ← h2]
            congr 1
            omega
          · exact ⟨f, (hent f).2 (.inr ⟨hf, hfr⟩), h1, h2⟩
    · rw [if_pos hoff]
      exact hnothing

lemma length_take (hr : r.Wf) (hall : ∀ x, r.read ≤ x → x < n → ∃ b, Holds r.pieces x b)
    (hend : ∀ x b, Holds r.pieces x b → x < n) : r.take.1.length = n - r.read := by
  rcases lt_or_ge r.read n with hlt | hge
  · obtain ⟨b, ⟨off, piece⟩, he, h1, h2⟩ := hall r.read le_rfl hlt
    have hpl := lt_of_getElem? h2
    have habove := hr.above _ he
    simp only at h1 h2 hpl habove
    have hoff : off = r.read := by omega
    subst hoff
    have hfirst : r.pieces.first = some (r.read, piece) := by
      refine first_eq_some.2 ⟨he, fun a ha => ?_⟩
      rcases eq_or_lt ha he with h | h | h
      · exact .inl h
      · have := hr.above a ha
        simp only at h
        omega
      · exact .inr h
    -- the piece at the read offset reaches `n`: the position after it is held by no other piece
    have hlen : r.read + piece.data.length = n := by
      have hlast : r.read + piece.data.length - 1 < n := by
        refine hend _ (piece.data.get ⟨piece.data.length - 1, by omega⟩)
          ⟨_, he, by simp only; omega, ?_⟩
        simp only [get_eq_getElem]
        rw [← getElem?_eq_getElem]
        congr 1
        omega
      by_contra hne
      obtain ⟨b', f, hf, h3, h4⟩ := hall (r.read + piece.data.length) (by omega) (by omega)
      have hfl := lt_of_getElem? h4
      rcases eq_or_lt hf he with rfl | h | h
      · simp only at hfl
        omega
      · have := hr.above f hf
        simp only at h
        omega
      · have := hr.apart _ he f hf h
        simp only at this
        omega
    have hread : r.readable = piece.data.length := by simp [readable, hfirst]
    rw [take, hread, readInto, hfirst]
    simp only [ne_eq, not_true_eq_false, if_false, List.length_take]
    omega
  · have hnone : r.pieces.first = none := by
      rw [first_eq_none]
      intro e he
      have hpos : 0 < e.2.data.length := length_pos_iff.2 (hr.nonempty e he)
      have := hend e.1 _ ⟨e, he, le_rfl, getElem?_eq_getElem (by omega)⟩
      have := hr.above e he
      omega
    rw [take, readInto, hnone]
    simp only [length_nil]
    omega

theorem discard_eq (r : Reassembler) : r.discard = (r.take.1.length, r.take.2) := by
  rw [discard, take, readInto, readable]
  cases hfirst : r.pieces.first with
  | none => rfl
  | some e =>
    obtain ⟨off, p⟩ := e
    dsimp only
    by_cases hoff : off = r.read
    · have hrest : (⟨p.bytes, p.pos + p.data.length⟩ : Piece).data = [] := by
        simp only [Piece.data, length_drop]
        exact drop_eq_nil_of_le (by omega)
      simp [hoff, hrest]
    · simp [hoff]

lemma endOffset_le (hr : r.Wf) (hread : r.read ≤ n)
    (hheld : ∀ x b, Holds r.pieces x b → x < n) : r.endOffset ≤ n := by
  rw [endOffset]
  refine max_le ?_ hread
  cases hlast : r.pieces.last with
  | none => exact hread
  | some e =>
    obtain ⟨he, -⟩ := last_eq_some.1 hlast
    have hpos : 0 < e.2.data.length := length_pos_iff.2 (hr.nonempty e he)
    have hlt := hheld (e.1 + e.2.data.length - 1) (e.2.data.get ⟨e.2.data.length - 1, by omega⟩)
      ⟨e, he, by omega, by
        rw [get_eq_getElem, ← getElem?_eq_getElem]
        congr 1
        simp only
        omega⟩
    simp only
    omega

lemma readInto_read_le {m : ℕ} (hr : r.Wf) (hread : r.read ≤ n)
    (hheld : ∀ x b, Holds r.pieces x b → x < n) : (r.readInto m).2.read ≤ n := by
  obtain ⟨-, hsum, hbytes, -⟩ := readInto_spec hr m
  rw [hsum]
  by_cases hnil : (r.readInto m).1 = []
  · rw [hnil]
    exact hread
  · have hpos := length_pos_iff.2 hnil
    have hlast := hheld _ _ (hbytes _ _
      (getElem?_eq_getElem (Nat.sub_lt hpos Nat.one_pos)))
    omega

end Reassembler

end Lazaret.Quic
