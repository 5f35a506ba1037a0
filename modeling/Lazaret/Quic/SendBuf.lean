import Lazaret.Quic.RangeSet

/-!
# What an endpoint has to send on one stream

`SendBuf` (`quic/sendbuf.rs`) keeps the bytes written to a stream until they are acknowledged; lost
data is sent before new data.  The end of the stream is counted as one more position after the last
byte.  Offsets are natural numbers (a stream never has 2^64 bytes); only where a caller's number is
added to one are the sums those of `u64`.
-/

namespace Lazaret.Quic

open List RangeSet

structure Chunk where
  offset : ℕ
  /-- How many bytes of data (which `SendBuf.copy` gives). -/
  len : ℕ
  fin : Bool
  /-- How many of the bytes were never sent before. -/
  new : ℕ
deriving DecidableEq

def Chunk.stop (c : Chunk) : ℕ := c.offset + c.len + c.fin.toNat

structure SendBuf where
  /-- The bytes from `base` on. -/
  data : List UInt8
  /-- The offset of `data[0]`: everything below it is acknowledged. -/
  base : ℕ
  /-- No more data will be written; the position after the last byte is the end of the stream. -/
  fin : Bool
  next : ℕ
  /-- Positions at `base` and above that are acknowledged. -/
  acked : RangeSet
  /-- Positions that were sent, were lost, and have not been sent again or acknowledged since. -/
  lost : RangeSet
deriving DecidableEq

namespace SendBuf

def new : SendBuf := ⟨[], 0, false, 0, .new, .new⟩

/-- The offset after the last byte written: how many bytes the stream has so far. -/
def written (b : SendBuf) : ℕ := b.base + b.data.length

/-- One more than `written` once the end is set. -/
def «end» (b : SendBuf) : ℕ := b.written + b.fin.toNat

/-- Appends data.  Refused (the source panics) after `finish`. -/
def write (b : SendBuf) (data : List UInt8) : Option SendBuf :=
  if b.fin then none else some { b with data := b.data ++ data }

def finish (b : SendBuf) : SendBuf := { b with fin := true }

def buffered (b : SendBuf) : ℕ := b.data.length

/-- Whether there is anything to put in a frame: lost data, or data (or the end) never sent. -/
def hasPending (b : SendBuf) : Bool := !b.lost.isEmpty || b.next < b.end

/-- Whether there is anything to give with new data up to `limit`: lost data, new data below the
limit, or the end if all of the data has been sent. -/
def hasPendingWithin (b : SendBuf) (limit : ℕ) : Bool :=
  !b.lost.isEmpty || b.next < min b.written limit || (b.fin && b.next == b.written)

/-- The first position that the next chunk will carry. -/
def nextOffset (b : SendBuf) : Option ℕ :=
  match b.lost.min with
  | some l => some l
  | none => if b.next < b.end then some b.next else none

/-- The offset after the last byte sent for the first time: what flow control counts. -/
def sent (b : SendBuf) : ℕ := min b.next b.written

/-- How many bytes of data the next chunk would have without a limit to its length. -/
def peekLen (b : SendBuf) (limit : ℕ) : ℕ :=
  match b.lost.first with
  | some r => if r.start < b.written then min r.stop b.written - r.start else 0
  | none => min b.written limit - b.next

def clear (b : SendBuf) : SendBuf := ⟨[], b.written, false, b.written, .new, .new⟩

/-- Everything is acknowledged, the end too: nothing more will be sent. -/
def isFullyAcked (b : SendBuf) : Bool :=
  b.fin && b.base == b.written && b.acked.contains b.written

/-- Chooses what the next frame carries, at most `maxLen` bytes of data, and counts it as sent. -/
def nextChunk (b : SendBuf) (maxLen limit : ℕ) : Option (Chunk × SendBuf) :=
  match b.lost.first with
  | some r =>
    let written := b.written
    let first := r.start
    -- `s + max_len as u64` and the differences below it are those of `u64`
    let endOfData :=
      if first < written then min (min r.stop written) ((first + maxLen) % 2 ^ 64)
      else min first written
    let len := if first < written then (endOfData + 2 ^ 64 - first) % 2 ^ 64 else 0
    let fin := b.fin && endOfData == written && b.lost.contains written
    let lost := if fin then b.lost.remove ⟨written, written + 1⟩ else b.lost
    if len = 0 ∧ fin = false then none
    else
      some (⟨first, len, fin, 0⟩, { b with lost := lost.remove ⟨first, (first + len) % 2 ^ 64⟩ })
  | none =>
    let written := b.written
    let offset := b.next
    let room := min written limit - offset
    let len := min room maxLen
    let fin := b.fin && offset + len == written
    if len = 0 ∧ fin = false then none
    else some (⟨offset, len, fin, len⟩, { b with next := offset + len + fin.toNat })

/-- The `len` bytes at `offset`, or nothing where the source panics. -/
def copy (b : SendBuf) (offset len : ℕ) : Option (List UInt8) :=
  if len = 0 then some []
  else if b.base ≤ offset ∧ (offset + len) % 2 ^ 64 ≤ b.written then
    let start := offset - b.base
    if start + len ≤ b.data.length then some ((b.data.drop start).take len) else none
  else none

def onAcked (b : SendBuf) (offset len : ℕ) (fin : Bool) : SendBuf :=
  let r : Range := ⟨max offset b.base, offset + len + fin.toNat⟩
  if r.start ≥ r.stop then b
  else
    let b := { b with lost := b.lost.remove r, acked := (b.acked.insert r).2 }
    -- forget what is acknowledged from the bottom
    let b :=
      match b.acked.first with
      | some first =>
        if first.start ≤ b.base then
          let newBase := min first.stop b.written
          { b with
            data := b.data.drop (newBase - b.base)
            base := newBase
            acked := b.acked.removeBelow newBase }
        else b
      | none => b
    -- nothing that is below the base needs to be sent again
    { b with lost := b.lost.removeBelow b.base }

/-- A frame with this range was lost: send it again unless it was acknowledged in another frame in
the meantime. -/
def onLost (b : SendBuf) (offset len : ℕ) (fin : Bool) : SendBuf :=
  let r : Range := ⟨max offset b.base, min (offset + len + fin.toNat) b.next⟩
  if r.start ≥ r.stop then b
  else { b with lost := (b.acked.within r).foldl RangeSet.remove (b.lost.insert r).2 }

def markAllLost (b : SendBuf) : SendBuf := b.onLost b.base (b.next - b.base) false

/-! ### The positions of a buffer -/

/-- What holds of a buffer whatever happens to the frames: `stream` is what was written. -/
structure Wf (b : SendBuf) (stream : List UInt8) : Prop where
  data_eq : b.data = stream.drop b.base
  base_le : b.base ≤ stream.length
  base_le_next : b.base ≤ b.next
  next_le : b.next ≤ stream.length + b.fin.toNat
  lost_wf : b.lost.Wf
  acked_wf : b.acked.Wf
  lost_in : ∀ x ∈ b.lost, b.base ≤ x ∧ x < b.next
  acked_in : ∀ x ∈ b.acked, b.base ≤ x ∧ x < b.next

variable {b b' : SendBuf} {stream : List UInt8}

lemma Wf.written_eq (h : b.Wf stream) : b.written = stream.length := by
  have := h.base_le
  rw [written, h.data_eq, length_drop]
  omega

lemma wf_new : new.Wf [] :=
  ⟨rfl, le_rfl, le_rfl, by simp [new], RangeSet.wf_new,
  RangeSet.wf_new, by simp [new], by simp [new]⟩

lemma Wf.write (h : b.Wf stream) {data : List UInt8} (hw : b.write data = some b') :
    b'.Wf (stream ++ data) ∧ b.fin = false ∧
      b'.fin = false ∧ b'.base = b.base ∧ b'.next = b.next ∧ b'.acked = b.acked := by
  rw [SendBuf.write] at hw
  split_ifs at hw with hfin
  simp only [Option.some.injEq] at hw
  subst hw
  have hbase := h.base_le
  have hnext := h.next_le
  simp only [Bool.not_eq_true] at hfin
  simp only [hfin, Bool.toNat_false] at hnext
  refine ⟨⟨?_, ?_, h.base_le_next, ?_, h.lost_wf, h.acked_wf, h.lost_in, h.acked_in⟩, hfin, hfin,
    rfl, rfl, rfl⟩
  · simp only [drop_append, h.data_eq]
    rw [Nat.sub_eq_zero_of_le hbase, drop_zero]
  · simp only [length_append]
    omega
  · simp only [length_append, hfin, Bool.toNat_false]
    omega

lemma Wf.finish (h : b.Wf stream) : b.finish.Wf stream := by
  have hnext := h.next_le
  have hfin : b.fin.toNat ≤ 1 := Bool.toNat_le _
  refine ⟨h.data_eq, h.base_le, h.base_le_next, ?_, h.lost_wf, h.acked_wf, h.lost_in, h.acked_in⟩
  simp only [SendBuf.finish, Bool.toNat_true]
  omega

/-- The room given to `nextChunk` does not carry the lowest lost offset past the numbers of
`u64`. -/
def RoomOk (b : SendBuf) (maxLen : ℕ) : Prop :=
  ∀ r ∈ b.lost.first, r.start < b.written → r.start + maxLen < 2 ^ 64

instance (b : SendBuf) (maxLen : ℕ) : Decidable (RoomOk b maxLen) :=
  inferInstanceAs (Decidable (∀ r ∈ b.lost.first, _))

/-- The chunk lies in what is held, is counted as sent, and ends the stream only at its end. -/
structure Given (b : SendBuf) (stream : List UInt8) (c : Chunk) : Prop where
  base_le : b.base ≤ c.offset
  data_le : c.offset + c.len ≤ stream.length
  stop_le : c.stop ≤ b.next
  ends : c.fin = true → b.fin = true ∧ c.offset + c.len = stream.length

variable {limit maxLen : ℕ}

lemma nextChunk_of_first (h : b.Wf stream) {r : Range}
    (hroom : RoomOk b maxLen) (hfirst : b.lost.first = some r) :
    b.nextChunk maxLen limit =
      let len := min (min r.stop stream.length - r.start) maxLen
      let fin := b.fin && r.start + len == stream.length && b.lost.contains stream.length
      if len = 0 ∧ fin = false then none
      else some (⟨r.start, len, fin, 0⟩, { b with
        lost := (if fin then b.lost.remove ⟨stream.length, stream.length + 1⟩ else b.lost).remove
          ⟨r.start, r.start + len⟩ }) := by
  obtain ⟨-, hr2, -, hr4⟩ := first_eq_some h.lost_wf hfirst
  have hstart := h.lost_in r.start (hr4 r.start ⟨le_rfl, hr2⟩)
  have hnext := h.next_le
  have hfin := Bool.toNat_le b.fin
  have hover := hroom r hfirst
  rw [h.written_eq] at hover
  rw [nextChunk]
  simp only [hfirst, h.written_eq]
  by_cases hdata : r.start < stream.length
  · have hover := hover hdata
    have hlen : (min (min r.stop stream.length) (r.start + maxLen) + 2 ^ 64 - r.start) % 2 ^ 64 =
        min (min r.stop stream.length - r.start) maxLen := by
      rw [Nat.sub_add_comm (by omega), Nat.add_mod_right, Nat.mod_eq_of_lt (by omega)]
      omega
    have hsum : min (min r.stop stream.length) (r.start + maxLen) =
        r.start + min (min r.stop stream.length - r.start) maxLen := by omega
    rw [if_pos hdata, if_pos hdata, Nat.mod_eq_of_lt hover, hlen, hsum, Nat.mod_eq_of_lt (by omega)]
  · -- only the end of the stream is lost
    have hlen : min (min r.stop stream.length - r.start) maxLen = 0 := by omega
    have hempty : ∀ R : RangeSet, R.remove ⟨r.start, (r.start + 0) % 2 ^ 64⟩ =
        R.remove ⟨r.start, r.start + 0⟩ := fun R =>
      (remove_of_le (Nat.mod_le _ _)).trans (remove_of_le le_rfl).symm
    rw [if_neg hdata, if_neg hdata, hlen, min_eq_left (by omega), hempty]
    rfl

variable {c : Chunk}

lemma nextChunk_lost (h : b.Wf stream) {r : Range}
    (hroom : RoomOk b maxLen) (hfirst : b.lost.first = some r)
    (hc : b.nextChunk maxLen limit = some (c, b')) :
    b' = { b with lost := b'.lost } ∧ b'.lost.Wf ∧ c.new = 0 ∧
      (∀ x, x ∈ b'.lost ↔ x ∈ b.lost ∧ ¬(c.offset ≤ x ∧ x < c.stop)) ∧
      (∀ x, c.offset ≤ x → x < c.stop → x ∈ b.lost) ∧ Given b' stream c := by
  obtain ⟨-, hr2, -, hr4⟩ := first_eq_some h.lost_wf hfirst
  have hstart := h.lost_in r.start (hr4 r.start ⟨le_rfl, hr2⟩)
  have hnext := h.next_le
  have hfinle := Bool.toNat_le b.fin
  rw [nextChunk_of_first h hroom hfirst] at hc
  dsimp only at hc
  obtain ⟨len, hlen⟩ : ∃ len, len = min (min r.stop stream.length - r.start) maxLen := ⟨_, rfl⟩
  rw [← hlen] at hc
  have hdata : ∀ x, r.start ≤ x → x < r.start + len → x ∈ b.lost := by
    intro x h1 h2
    exact hr4 x ⟨h1, by omega⟩
  cases hfin : b.fin && r.start + len == stream.length && b.lost.contains stream.length with
  | true =>
    simp only [hfin, Bool.true_eq_false, and_false, if_false, if_true, Option.some.injEq,
      Prod.mk.injEq] at hc
    obtain ⟨rfl, rfl⟩ := hc
    simp only [Bool.and_eq_true, beq_iff_eq, contains_iff h.lost_wf] at hfin
    obtain ⟨⟨hbfin, hends⟩, hend⟩ := hfin
    have hwf := wf_remove (r := ⟨stream.length, stream.length + 1⟩) h.lost_wf
    have hlast := (h.lost_in _ hend).2
    refine ⟨rfl, wf_remove hwf, rfl, fun x => ?_, fun x h1 h2 => ?_,
      ⟨hstart.1, hends.le, ?_, fun _ => ⟨hbfin, hends⟩⟩⟩
    · simp only [mem_remove hwf, mem_remove h.lost_wf, Range.mem_def, Chunk.stop,
        Bool.toNat_true, and_assoc]
      refine and_congr_right fun _ => ?_
      omega
    · simp only [Chunk.stop, Bool.toNat_true] at h1 h2
      by_cases hx : x < r.start + len
      · exact hdata x h1 hx
      · rwa [(by omega : x = stream.length)]
    · simp only [Chunk.stop, Bool.toNat_true]
      omega
  | false =>
    simp only [hfin, and_true, Bool.false_eq_true, if_false] at hc
    split_ifs at hc with hlen0
    simp only [Option.some.injEq, Prod.mk.injEq] at hc
    obtain ⟨rfl, rfl⟩ := hc
    have hlast := (h.lost_in _ (hdata (r.start + len - 1) (by omega) (by omega))).2
    refine ⟨rfl, wf_remove h.lost_wf, rfl, fun x => ?_, hdata,
      ⟨hstart.1, by simp only; omega, ?_, fun hf => absurd hf (by simp)⟩⟩
    · simp only [mem_remove h.lost_wf, Range.mem_def, Chunk.stop, Bool.toNat_false, add_zero]
    · simp only [Chunk.stop, Bool.toNat_false]
      omega

lemma nextChunk_new (h : b.Wf stream)
    (hfirst : b.lost.first = none) (hc : b.nextChunk maxLen limit = some (c, b')) :
    b' = { b with next := c.stop } ∧ c.offset = b.next ∧ c.new = c.len ∧ Given b' stream c ∧
      b'.next ≤ stream.length + b.fin.toNat := by
  have hw := h.written_eq
  have hnext := h.next_le
  have hfin' := Bool.toNat_le b.fin
  rw [nextChunk] at hc
  simp only [hfirst, hw] at hc
  split_ifs at hc with hnone
  simp only [Option.some.injEq, Prod.mk.injEq] at hc
  obtain ⟨rfl, rfl⟩ := hc
  generalize hfin : (b.fin && b.next +
    min (min stream.length limit - b.next) maxLen == stream.length) = fin at hnone ⊢
  have hlen : b.next + min (min stream.length limit - b.next) maxLen ≤ stream.length := by
    by_contra hcon
    cases fin with
    | true =>
      simp only [Bool.and_eq_true, beq_iff_eq] at hfin
      omega
    | false => exact hnone ⟨by omega, rfl⟩
  have hends : fin = true → b.fin = true ∧
      b.next + min (min stream.length limit - b.next) maxLen = stream.length := by
    rintro rfl
    simpa only [Bool.and_eq_true, beq_iff_eq] using hfin
  refine ⟨rfl, rfl, rfl, ⟨h.base_le_next, hlen, le_rfl, hends⟩, ?_⟩
  cases fin with
  | true =>
    rw [(hends rfl).1]
    simp only [Bool.toNat_true]
    omega
  | false =>
    simp only [Bool.toNat_false]
    omega

theorem Wf.nextChunk (h : b.Wf stream) (hroom : RoomOk b maxLen)
    (hc : b.nextChunk maxLen limit = some (c, b')) :
    b'.Wf stream ∧ Given b' stream c ∧ b.next ≤ b'.next ∧ b'.fin = b.fin ∧ b'.base = b.base ∧
      b'.acked = b.acked := by
  cases hfirst : b.lost.first with
  | some r =>
    obtain ⟨heq, hwf, -, hmem, -, hgiven⟩ := nextChunk_lost h hroom hfirst hc
    refine ⟨?_, hgiven, by rw [heq], by rw [heq], by rw [heq], by rw [heq]⟩
    rw [heq]
    exact ⟨h.data_eq, h.base_le, h.base_le_next, h.next_le, hwf, h.acked_wf,
      fun x hx => h.lost_in x ((hmem x).1 hx).1, h.acked_in⟩
  | none =>
    obtain ⟨heq, hoff, -, hgiven, hle⟩ := nextChunk_new h hfirst hc
    have hmono : b.next ≤ b'.next := by
      rw [heq]
      simp only [Chunk.stop]
      omega
    refine ⟨?_, hgiven, hmono, by rw [heq], by rw [heq], by rw [heq]⟩
    have hbase := h.base_le_next
    rw [heq] at hmono hle ⊢
    simp only at hmono hle
    exact ⟨h.data_eq, h.base_le, hbase.trans hmono, hle, h.lost_wf, h.acked_wf,
      fun x hx => ⟨(h.lost_in x hx).1, (h.lost_in x hx).2.trans_le hmono⟩,
      fun x hx => ⟨(h.acked_in x hx).1, (h.acked_in x hx).2.trans_le hmono⟩⟩

lemma Wf.nextChunk_sent (h : b.Wf stream) (hroom : RoomOk b maxLen)
    (hc : b.nextChunk maxLen limit = some (c, b')) :
    b'.sent = max b.sent (c.offset + c.len) ∧ b'.sent = b.sent + c.new ∧
      b.sent + c.new ≤ max b.sent limit ∧ (c.new ≠ 0 → c.offset = b.sent) := by
  have hw := h.written_eq
  have hw' := (h.nextChunk hroom hc).1.written_eq
  cases hfirst : b.lost.first with
  | some r =>
    obtain ⟨heq, -, hnew, -, -, hgiven⟩ := nextChunk_lost h hroom hfirst hc
    have hle := hgiven.data_le
    have hstop := hgiven.stop_le
    have hnext : b'.next = b.next := by rw [heq]
    simp only [Chunk.stop, hnext] at hstop
    simp only [sent, hw, hw', hnext, hnew]
    omega
  | none =>
    obtain ⟨heq, hoff, hnew, hgiven, -⟩ := nextChunk_new h hfirst hc
    have hle := hgiven.data_le
    have hnext : b'.next = c.stop := by rw [heq]
    have hfin : c.fin.toNat = 0 ∨ c.offset + c.len = stream.length := by
      cases hf : c.fin with
      | false => exact .inl rfl
      | true => exact .inr (hgiven.ends hf).2
    have hfin' := Bool.toNat_le c.fin
    have hlimit : c.offset + c.len ≤ max b.next limit := by
      rw [SendBuf.nextChunk] at hc
      simp only [hfirst] at hc
      split_ifs at hc
      simp only [Option.some.injEq, Prod.mk.injEq] at hc
      rw [← hc.1]
      simp only
      omega
    simp only [Chunk.stop] at hnext
    simp only [sent, hw, hw', hnext, hnew]
    omega

lemma Wf.roomOk (h : b.Wf stream) (hle : maxLen ≤ b.peekLen limit)
    (hsent : b.sent < 2 ^ 64) : RoomOk b maxLen := by
  intro r hr hstart
  obtain ⟨-, hr1, -, hr2⟩ := first_eq_some h.lost_wf hr
  have hlast := (h.lost_in _ (hr2 (r.stop - 1) ⟨by omega, by omega⟩)).2
  rw [peekLen] at hle
  simp only [Option.mem_def.1 hr, if_pos hstart] at hle
  rw [sent] at hsent
  omega

lemma Wf.nextOffset_le (h : b.Wf stream) {offset : ℕ} (ho : b.nextOffset = some offset) :
    offset ≤ b.sent := by
  have hw := h.written_eq
  have hnext := h.next_le
  have hfin := Bool.toNat_le b.fin
  have hmin : b.lost.min = b.lost.first.map Range.start := by
    rw [RangeSet.min, first, Option.map_map]
    rfl
  rw [nextOffset, hmin] at ho
  rw [sent, hw]
  cases hfirst : b.lost.first with
  | some r =>
    obtain ⟨-, hr1, -, hr2⟩ := first_eq_some h.lost_wf hfirst
    have hlast := (h.lost_in _ (hr2 r.start ⟨le_rfl, hr1⟩)).2
    rw [hfirst, Option.map_some] at ho
    simp only [Option.some.injEq] at ho
    omega
  | none =>
    rw [hfirst, Option.map_none] at ho
    dsimp only at ho
    split_ifs at ho with hlt
    rw [SendBuf.end, hw] at hlt
    rw [Option.some.injEq] at ho
    omega

lemma Wf.peekLen_le (h : b.Wf stream) : b.peekLen limit ≤ max b.sent limit := by
  rw [peekLen, sent]
  cases hfirst : b.lost.first with
  | some r =>
    obtain ⟨-, hr1, -, hr2⟩ := first_eq_some h.lost_wf hfirst
    have hlast := (h.lost_in _ (hr2 (r.stop - 1) ⟨by omega, by omega⟩)).2
    dsimp only
    split_ifs <;> omega
  | none =>
    dsimp only
    omega

lemma Wf.clear (h : b.Wf stream) : b.clear.Wf stream := by
  have hw := h.written_eq
  refine ⟨?_, hw.le, le_rfl, by simp [SendBuf.clear, hw], RangeSet.wf_new, RangeSet.wf_new,
    by simp [SendBuf.clear], by simp [SendBuf.clear]⟩
  simp [SendBuf.clear, hw]

lemma Wf.copy (h : b.Wf stream) {offset len : ℕ} (hbase : b.base ≤ offset)
    (hlen : offset + len ≤ stream.length) :
    b.copy offset len = some ((stream.drop offset).take len) := by
  have hw := h.written_eq
  rw [SendBuf.copy]
  dsimp only
  split_ifs with h0 h1 h2
  · simp [h0]
  · rw [h.data_eq, drop_drop, show b.base + (offset - b.base) = offset by omega]
  · rw [written] at hw
    omega
  · have := Nat.mod_le (offset + len) (2 ^ 64)
    omega

/-! ### Acknowledgement and loss -/

/-- The position has been acknowledged, in a frame that carried it. -/
def Done (b : SendBuf) (x : ℕ) : Prop := x < b.base ∨ x ∈ b.acked

theorem Wf.onAcked (h : b.Wf stream) {offset len : ℕ} {fin : Bool}
    (hsent : offset + len + fin.toNat ≤ b.next) :
    (b.onAcked offset len fin).Wf stream ∧ (b.onAcked offset len fin).next = b.next ∧
      (b.onAcked offset len fin).fin = b.fin ∧ b.base ≤ (b.onAcked offset len fin).base ∧
      ∀ x, Done (b.onAcked offset len fin) x ↔
        Done b x ∨ (offset ≤ x ∧ x < offset + len + fin.toNat) := by
  rw [SendBuf.onAcked]
  dsimp only
  split_ifs with hempty
  · refine ⟨h, rfl, rfl, le_rfl, fun x => ⟨.inl, ?_⟩⟩
    rintro (hx | hx)
    · exact hx
    · exact .inl (by omega)
  · set r : Range := ⟨max offset b.base, offset + len + fin.toNat⟩ with hr
    have hawf := wf_insert (r := r) h.acked_wf
    have hlwf := wf_remove (r := r) h.lost_wf
    have hamem : ∀ x, x ∈ (b.acked.insert r).2 ↔ x ∈ b.acked ∨ (max offset b.base ≤ x ∧
        x < offset + len + fin.toNat) := fun x => mem_insert h.acked_wf
    have hain : ∀ x ∈ (b.acked.insert r).2, b.base ≤ x ∧ x < b.next := by
      intro x hx
      rcases (hamem x).1 hx with hx | hx
      · exact h.acked_in x hx
      · omega
    have hdone : ∀ x, x < b.base ∨ x ∈ (b.acked.insert r).2 ↔
        Done b x ∨ (offset ≤ x ∧ x < offset + len + fin.toNat) := by
      intro x
      rw [hamem, Done]
      constructor
      · rintro (hx | hx | hx)
        · exact .inl (.inl hx)
        · exact .inl (.inr hx)
        · exact .inr (by omega)
      · rintro ((hx | hx) | hx)
        · exact .inl hx
        · exact .inr (.inl hx)
        · by_cases hxb : x < b.base
          · exact .inl hxb
          · exact .inr (.inr (by omega))
    have hlin : ∀ x v, x ∈ RangeSet.removeBelow (b.lost.remove r) v → x ∈ b.lost ∧ v ≤ x := by
      intro x v hx
      rw [mem_removeBelow hlwf, mem_remove h.lost_wf] at hx
      exact ⟨hx.1.1, hx.2⟩
    have hstay : SendBuf.Wf ⟨b.data, b.base, b.fin, b.next, (b.acked.insert r).2,
        (b.lost.remove r).removeBelow b.base⟩ stream :=
      ⟨h.data_eq, h.base_le, h.base_le_next, h.next_le, wf_removeBelow hlwf, hawf,
        fun x hx => h.lost_in x (hlin x _ hx).1, hain⟩
    split
    · rename_i first hfirst
      obtain ⟨hf1, hf2, hf3, hf4⟩ := first_eq_some hawf hfirst
      split_ifs with hbottom
      · -- the lowest acknowledged range begins at the base
        have hw : SendBuf.written ⟨b.data, b.base, b.fin, b.next, (b.acked.insert r).2,
            b.lost.remove r⟩ = stream.length := h.written_eq
        have hfb : b.base ≤ first.start := (hain _ (hf4 first.start ⟨le_rfl, hf2⟩)).1
        have hfn : first.stop - 1 < b.next := (hain _ (hf4 (first.stop - 1) ⟨by omega, by omega⟩)).2
        have hbl := h.base_le
        simp only [hw]
        refine ⟨⟨?_, by simp only; omega, by simp only; omega, h.next_le,
          wf_removeBelow hlwf, wf_removeBelow hawf, ?_, ?_⟩, trivial, trivial,
          by omega, fun x => ?_⟩
        · simp only [h.data_eq, drop_drop]
          congr 1
          omega
        · intro x hx
          exact ⟨(hlin x _ hx).2, (h.lost_in x (hlin x _ hx).1).2⟩
        · intro x hx
          rw [mem_removeBelow hawf] at hx
          exact ⟨hx.2, (hain x hx.1).2⟩
        · rw [← hdone, Done]
          simp only [mem_removeBelow hawf]
          constructor
          · rintro (hx | ⟨hx, -⟩)
            · by_cases hxb : x < b.base
              · exact .inl hxb
              · exact .inr (hf4 x ⟨by omega, by omega⟩)
            · exact .inr hx
          · rintro (hx | hx)
            · exact .inl (by omega)
            · by_cases hxm : x < min first.stop stream.length
              · exact .inl hxm
              · exact .inr ⟨hx, by omega⟩
      · exact ⟨hstay, rfl, rfl, le_rfl, hdone⟩
    · exact ⟨hstay, rfl, rfl, le_rfl, hdone⟩

theorem Wf.onLost (h : b.Wf stream) (offset len : ℕ) (fin : Bool) :
    (b.onLost offset len fin).Wf stream ∧
      b.onLost offset len fin = { b with lost := (b.onLost offset len fin).lost } := by
  rw [SendBuf.onLost]
  dsimp only
  split_ifs with hempty
  · exact ⟨h, rfl⟩
  · set r : Range := ⟨max offset b.base, min (offset + len + fin.toNat) b.next⟩ with hr
    have hiwf := wf_insert (r := r) h.lost_wf
    obtain ⟨hwf, hmem⟩ := foldl_remove_spec hiwf (b.acked.within r)
    refine ⟨⟨h.data_eq, h.base_le, h.base_le_next, h.next_le, hwf, h.acked_wf, ?_, h.acked_in⟩, rfl⟩
    intro x hx
    rcases (mem_insert h.lost_wf).1 ((hmem x).1 hx).1 with hx | hx
    · exact h.lost_in x hx
    · have := Range.mem_def.1 hx
      simp only [hr] at this
      change b.base ≤ x ∧ x < b.next
      omega

end SendBuf

end Lazaret.Quic
