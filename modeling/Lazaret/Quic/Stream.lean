import Lazaret.Lib.Run
import Lazaret.Quic.SendBuf
import Lazaret.Quic.Reassembly

/-!
# A stream across a network

A sender with a `SendBuf`, a receiver with a `Reassembler`, and a network between them that may
lose, repeat and reorder what it carries.  The sender writes, ends the stream, takes chunks to send,
and is told that chunks were lost or acknowledged, in any order and as often as one likes; only a
chunk that the receiver took is ever acknowledged.
-/

namespace Lazaret.Quic

open List Option

/-- The two ends of a stream and what has happened so far. -/
structure Link where
  tx : SendBuf
  rx : Reassembler
  stream : List UInt8
  /-- The chunks given out, with the bytes copied for each. -/
  given : List (Chunk × List UInt8)
  delivered : List Chunk
  out : List UInt8
  /-- A `copy` of a chunk just given out found it not held. -/
  panicked : Bool
  /-- The receiver was sent other bytes for an offset than before. -/
  inconsistent : Bool

namespace Link

def init : Link := ⟨.new, .new, [], [], [], [], false, false⟩

inductive Event where
  | write (data : List UInt8)
  | finish
  /-- `next_chunk` with this room and flow-control limit, and `copy` of what it gave. -/
  | send (maxLen limit : ℕ)
  /-- The `i`-th chunk given out reaches the receiver, whose window is `window`. -/
  | deliver (i window : ℕ)
  /-- The `i`-th chunk given out is declared lost. -/
  | lose (i : ℕ)
  /-- The `i`-th delivery is acknowledged. -/
  | ack (i : ℕ)
  | loseAll
  /-- The application reads into a buffer of `n` bytes. -/
  | read (n : ℕ)
  | take

/-- What one event does; none where it cannot happen (a chunk that there is not, a write after the
end). -/
def step (s : Link) : Event → Option Link
  | .write data => (s.tx.write data).map fun tx => { s with tx, stream := s.stream ++ data }
  | .finish => if s.tx.fin then none else some { s with tx := s.tx.finish }
  | .send maxLen limit =>
    match s.tx.nextChunk maxLen limit with
    | none => some s
    | some (c, tx) =>
      match tx.copy c.offset c.len with
      | some bytes => some { s with tx, given := s.given ++ [(c, bytes)] }
      | none => some { s with tx, panicked := true }
  | .deliver i window =>
    s.given[i]?.map fun (c, bytes) =>
      match s.rx.insert c.offset bytes window with
      | .ok rx => { s with rx, delivered := s.delivered ++ [c] }
      | .error .inconsistent => { s with inconsistent := true }
      | .error .exceeded => s
  | .lose i => s.given[i]?.map fun (c, _) => { s with tx := s.tx.onLost c.offset c.len c.fin }
  | .ack i => s.delivered[i]?.map fun c => { s with tx := s.tx.onAcked c.offset c.len c.fin }
  | .loseAll => some { s with tx := s.tx.markAllLost }
  | .read n => some { s with rx := (s.rx.readInto n).2, out := s.out ++ (s.rx.readInto n).1 }
  | .take => some { s with rx := s.rx.take.2, out := s.out ++ s.rx.take.1 }

/-- A chunk is asked for only with a room that fits: see `SendBuf.RoomOk`. -/
def RoomsFit (s : Link) : Event → Prop
  | .send maxLen _ => s.tx.RoomOk maxLen
  | _ => True

instance (s : Link) : (e : Event) → Decidable (RoomsFit s e)
  | .send maxLen _ => inferInstanceAs (Decidable (s.tx.RoomOk maxLen))
  | .write _ | .finish | .deliver _ _ | .lose _ | .ack _ | .loseAll | .read _ | .take =>
    inferInstanceAs (Decidable True)

/-- The stream has come through so far: nothing went wrong, what was read is the start of what was
written, and once everything is acknowledged the receiver has all of it and every frame that ended
the stream ended it there. -/
structure Survives (s : Link) : Prop where
  no_panic : s.panicked = false
  consistent : s.inconsistent = false
  read_prefix : s.out <+: s.stream
  complete : s.tx.isFullyAcked = true → s.out ++ s.rx.take.1 = s.stream
  ends : s.tx.isFullyAcked = true → ∀ g ∈ s.given, g.1.fin = true →
    g.1.offset + g.1.len = s.tx.written

structure Inv (s : Link) : Prop where
  tx_wf : s.tx.Wf s.stream
  given_sent : ∀ g ∈ s.given, g.1.offset + g.1.len ≤ s.stream.length ∧ g.1.stop ≤ s.tx.next
  given_ends : ∀ g ∈ s.given, g.1.fin = true →
    s.tx.fin = true ∧ g.1.offset + g.1.len = s.stream.length
  given_bytes : ∀ g ∈ s.given, g.2 = (s.stream.drop g.1.offset).take g.1.len
  delivered_given : ∀ c ∈ s.delivered, ∃ g ∈ s.given, g.1 = c
  rx_wf : s.rx.Wf
  out_eq : s.out = s.stream.take s.rx.read
  read_le : s.rx.read ≤ s.stream.length
  held_eq : ∀ x b, Reassembler.Holds s.rx.pieces x b → s.stream[x]? = some b
  delivered_held : ∀ c ∈ s.delivered, ∀ x, c.offset ≤ x → x < c.offset + c.len →
    x < s.rx.read ∨ ∃ b, Reassembler.Holds s.rx.pieces x b
  done_delivered : ∀ x, s.tx.Done x → ∃ c ∈ s.delivered, c.offset ≤ x ∧ x < c.stop
  no_panic : s.panicked = false
  consistent : s.inconsistent = false

variable {s s' : Link}

lemma inv_init : init.Inv := by
  refine ⟨SendBuf.wf_new, by simp [init], by simp [init], by simp [init], by simp [init],
    Reassembler.wf_new, by simp [init, Reassembler.new], by simp [init, Reassembler.new], ?_,
    by simp [init], ?_, rfl, rfl⟩
  · rintro x b ⟨e, he, -⟩
    simp [init, Reassembler.new] at he
  · rintro x (hx | hx)
    · simp [init, SendBuf.new] at hx
    · simp [init, SendBuf.new] at hx

lemma slice_append {stream data : List UInt8} {offset len : ℕ} (h : offset + len ≤ stream.length) :
    ((stream ++ data).drop offset).take len = (stream.drop offset).take len := by
  rw [drop_append, Nat.sub_eq_zero_of_le (by omega), drop_zero,
    take_append_of_le_length (by rw [length_drop]; omega)]

lemma Inv.write (h : s.Inv) {data : List UInt8} {tx : SendBuf} (hw : s.tx.write data = some tx) :
    Inv { s with tx, stream := s.stream ++ data } := by
  obtain ⟨hwf, hfin, hfin', hbase, hnext, hacked⟩ := h.tx_wf.write hw
  have hopen : ∀ g ∈ s.given, g.1.fin = false := by
    intro g hg
    by_contra hf
    rw [Bool.not_eq_false] at hf
    rw [(h.given_ends g hg hf).1] at hfin
    exact absurd hfin (by simp)
  refine ⟨hwf, fun g hg => ?_, fun g hg hf => ?_, fun g hg => ?_, h.delivered_given,
    h.rx_wf, ?_, ?_,
    fun x b hb => ?_, h.delivered_held, fun x hx => ?_, h.no_panic, h.consistent⟩
  · have := h.given_sent g hg
    simp only [length_append, hnext]
    omega
  · rw [hopen g hg] at hf
    exact absurd hf (by simp)
  · exact (h.given_bytes g hg).trans (slice_append (h.given_sent g hg).1).symm
  · exact h.out_eq.trans (take_append_of_le_length h.read_le).symm
  · have := h.read_le
    simp only [length_append]
    omega
  · have hx := h.held_eq x b hb
    simp only
    rw [getElem?_append_left (Reassembler.lt_of_getElem? hx), hx]
  · rcases hx with hx | hx
    · exact h.done_delivered x (.inl (hbase ▸ hx))
    · exact h.done_delivered x (.inr (hacked ▸ hx))

lemma Inv.of_tx (h : s.Inv) {tx : SendBuf} (hwf : tx.Wf s.stream) (hnext : s.tx.next ≤ tx.next)
    (hfin : s.tx.fin = true → tx.fin = true)
    (hdone : ∀ x, tx.Done x → ∃ c ∈ s.delivered, c.offset ≤ x ∧ x < c.stop) :
    Inv { s with tx } :=
  ⟨hwf, fun g hg => ⟨(h.given_sent g hg).1, (h.given_sent g hg).2.trans hnext⟩,
    fun g hg hf => ⟨hfin (h.given_ends g hg hf).1, (h.given_ends g hg hf).2⟩, h.given_bytes,
    h.delivered_given, h.rx_wf, h.out_eq, h.read_le, h.held_eq, h.delivered_held, hdone, h.no_panic,
    h.consistent⟩

lemma Inv.send (h : s.Inv) {maxLen limit : ℕ} (hroom : s.tx.RoomOk maxLen)
    (hstep : s.step (.send maxLen limit) = some s') : s'.Inv := by
  rw [step] at hstep
  cases hc : s.tx.nextChunk maxLen limit with
  | none =>
    simp only [hc, some.injEq] at hstep
    exact hstep ▸ h
  | some r =>
    obtain ⟨c, tx⟩ := r
    obtain ⟨hwf, hgiven, hnext, hfin, hbase, hacked⟩ := h.tx_wf.nextChunk hroom hc
    have hdone : ∀ x, tx.Done x → ∃ c ∈ s.delivered, c.offset ≤ x ∧ x < c.stop := by
      rintro x (hx | hx)
      · exact h.done_delivered x (.inl (hbase ▸ hx))
      · exact h.done_delivered x (.inr (hacked ▸ hx))
    have htx := h.of_tx hwf hnext (fun hf => hfin ▸ hf) hdone
    simp only [hc, hwf.copy hgiven.base_le hgiven.data_le, some.injEq] at hstep
    subst hstep
    refine ⟨hwf, fun g hg => ?_, fun g hg hf => ?_, fun g hg => ?_, fun d hd => ?_, h.rx_wf,
      h.out_eq, h.read_le, h.held_eq, h.delivered_held, hdone, h.no_panic, h.consistent⟩
    · rcases mem_append.1 hg with hg | hg
      · exact htx.given_sent g hg
      · rw [mem_singleton.1 hg]
        exact ⟨hgiven.data_le, hgiven.stop_le⟩
    · rcases mem_append.1 hg with hg | hg
      · exact htx.given_ends g hg hf
      · rw [mem_singleton.1 hg] at hf ⊢
        exact hgiven.ends hf
    · rcases mem_append.1 hg with hg | hg
      · exact h.given_bytes g hg
      · rw [mem_singleton.1 hg]
    · obtain ⟨g, hg, rfl⟩ := h.delivered_given d hd
      exact ⟨g, mem_append_left _ hg, rfl⟩

lemma Inv.deliver (h : s.Inv) {i window : ℕ} (hstep : s.step (.deliver i window) = some s') :
    s'.Inv := by
  simp only [step, map_eq_some_iff] at hstep
  obtain ⟨⟨c, bytes⟩, hi, hs⟩ := hstep
  have hg : (c, bytes) ∈ s.given := mem_of_getElem? hi
  have hbytes := h.given_bytes _ hg
  have hlen := (h.given_sent _ hg).1
  simp only at hbytes hlen hs
  -- what the chunk says is what was written
  have htells : ∀ x b, c.offset ≤ x → (bytes[x - c.offset]? = some b ↔
      x < c.offset + c.len ∧ s.stream[x]? = some b) := by
    intro x b hx
    rw [hbytes, getElem?_take, getElem?_drop, show c.offset + (x - c.offset) = x by omega]
    split_ifs with hlt
    · exact ⟨fun hb => ⟨by omega, hb⟩, fun hb => hb.2⟩
    · exact ⟨fun hb => absurd hb (by simp), fun hb => absurd hb.1 (by omega)⟩
  have hins := Reassembler.insert_spec h.rx_wf c.offset bytes window
  generalize s.rx.insert c.offset bytes window = res at hins hs
  cases hins with
  | exceeded =>
    simp only at hs
    exact hs ▸ h
  | inconsistent x b h1 h2 hb hne =>
    exfalso
    refine hne ((htells x b h1).2 ⟨?_, h.held_eq x b hb⟩)
    rw [hbytes, length_take] at h2
    omega
  | ok rx hwf hread hholds =>
    simp only at hs
    subst hs
    refine ⟨h.tx_wf, h.given_sent, h.given_ends, h.given_bytes, fun d hd => ?_, hwf, ?_, ?_,
      fun x b hb => ?_, fun d hd x h1 h2 => ?_, fun x hx => ?_, h.no_panic, h.consistent⟩
    · rcases mem_append.1 hd with hd | hd
      · exact h.delivered_given d hd
      · exact ⟨_, hg, (mem_singleton.1 hd).symm⟩
    · simp only [hread]
      exact h.out_eq
    · simp only [hread]
      exact h.read_le
    · rcases (hholds x b).1 hb with hb | ⟨-, h1, h2⟩
      · exact h.held_eq x b hb
      · exact ((htells x b h1).1 h2).2
    · simp only [hread]
      rcases mem_append.1 hd with hd | hd
      · rcases h.delivered_held d hd x h1 h2 with hx | ⟨b, hb⟩
        · exact .inl hx
        · exact .inr ⟨b, (hholds x b).2 (.inl hb)⟩
      · rw [mem_singleton.1 hd] at h1 h2
        by_cases hxr : x < s.rx.read
        · exact .inl hxr
        · have hxl : x < s.stream.length := by omega
          have hb := (htells x _ h1).2 ⟨h2, getElem?_eq_getElem hxl⟩
          exact .inr ⟨_, (hholds x _).2 (.inr ⟨by omega, h1, hb⟩)⟩
    · obtain ⟨d, hd, hx⟩ := h.done_delivered x hx
      exact ⟨d, mem_append_left _ hd, hx⟩

lemma Inv.readInto (h : s.Inv) (n : ℕ) :
    Inv { s with rx := (s.rx.readInto n).2, out := s.out ++ (s.rx.readInto n).1 } := by
  obtain ⟨hwf, hread, hbytes, hholds⟩ := Reassembler.readInto_spec h.rx_wf n
  set got := (s.rx.readInto n).1 with hgot
  -- what was read is what was written from the read offset on
  have htells : ∀ i b, got[i]? = some b → s.stream[s.rx.read + i]? = some b :=
    fun i b hi => h.held_eq _ _ (hbytes i b hi)
  have hle : s.rx.read + got.length ≤ s.stream.length := by
    rcases eq_zero_or_pos got.length with h0 | hpos
    · rw [h0]
      exact h.read_le
    · have := htells (got.length - 1) _ (getElem?_eq_getElem (by omega))
      have := Reassembler.lt_of_getElem? this
      omega
  refine ⟨h.tx_wf, h.given_sent, h.given_ends, h.given_bytes, h.delivered_given, hwf, ?_, ?_,
    fun x b hb => h.held_eq x b ((hholds x b).1 hb).1, fun c hc x h1 h2 => ?_, h.done_delivered,
    h.no_panic, h.consistent⟩
  · simp only [hread, h.out_eq]
    rw [take_add]
    congr 1
    apply ext_getElem?
    intro i
    rw [getElem?_take, getElem?_drop]
    split_ifs with hi
    · have hb := getElem?_eq_getElem hi
      rw [htells i _ hb, hb]
    · exact getElem?_eq_none (by omega)
  · simp only [hread]
    exact hle
  · rcases h.delivered_held c hc x h1 h2 with hx | ⟨b, hb⟩
    · exact .inl (by simp only [hread]; omega)
    · by_cases hxr : x < (s.rx.readInto n).2.read
      · exact .inl hxr
      · exact .inr ⟨b, (hholds x b).2 ⟨hb, by omega⟩⟩

lemma Inv.step {e : Event} (h : s.Inv) (hroom : RoomsFit s e) (hstep : s.step e = some s') :
    s'.Inv := by
  cases e with
  | write data =>
    simp only [Link.step, map_eq_some_iff] at hstep
    obtain ⟨tx, hw, rfl⟩ := hstep
    exact h.write hw
  | finish =>
    simp only [Link.step] at hstep
    split_ifs at hstep with hfin
    simp only [some.injEq] at hstep
    subst hstep
    exact h.of_tx h.tx_wf.finish le_rfl (fun _ => rfl) h.done_delivered
  | send maxLen limit => exact h.send hroom hstep
  | deliver i window => exact h.deliver hstep
  | lose i =>
    simp only [Link.step, map_eq_some_iff] at hstep
    obtain ⟨⟨c, bytes⟩, -, rfl⟩ := hstep
    obtain ⟨hwf, heq⟩ := h.tx_wf.onLost c.offset c.len c.fin
    refine h.of_tx hwf (by rw [heq]) (fun hf => by rw [heq]; exact hf) fun x hx => ?_
    rw [heq] at hx
    exact h.done_delivered x hx
  | ack i =>
    simp only [Link.step, map_eq_some_iff] at hstep
    obtain ⟨c, hi, rfl⟩ := hstep
    have hc := mem_of_getElem? hi
    obtain ⟨g, hg, hgc⟩ := h.delivered_given c hc
    have hsent := (h.given_sent g hg).2
    rw [hgc] at hsent
    obtain ⟨hwf, hnext, hfin, -, hdone⟩ := h.tx_wf.onAcked hsent
    refine h.of_tx hwf hnext.ge (fun hf => by rw [hfin]; exact hf) fun x hx => ?_
    rcases (hdone x).1 hx with hx | hx
    · exact h.done_delivered x hx
    · exact ⟨c, hc, hx⟩
  | loseAll =>
    simp only [Link.step, some.injEq] at hstep
    subst hstep
    obtain ⟨hwf, heq⟩ := h.tx_wf.onLost s.tx.base (s.tx.next - s.tx.base) false
    rw [← SendBuf.markAllLost] at hwf heq
    refine h.of_tx hwf (by rw [heq]) (fun hf => by rw [heq]; exact hf) fun x hx => ?_
    rw [heq] at hx
    exact h.done_delivered x hx
  | read n =>
    simp only [Link.step, some.injEq] at hstep
    exact hstep ▸ h.readInto n
  | take =>
    simp only [Link.step, some.injEq] at hstep
    exact hstep ▸ h.readInto s.rx.readable

lemma Inv.complete (h : s.Inv) (hacked : s.tx.isFullyAcked = true) :
    s.out ++ s.rx.take.1 = s.stream := by
  simp only [SendBuf.isFullyAcked, Bool.and_eq_true, beq_iff_eq, h.tx_wf.written_eq] at hacked
  obtain ⟨⟨-, hbase⟩, -⟩ := hacked
  have hall : ∀ x, s.rx.read ≤ x → x < s.stream.length →
      ∃ b, Reassembler.Holds s.rx.pieces x b := by
    intro x h1 h2
    obtain ⟨c, hc, h3, h4⟩ := h.done_delivered x (.inl (by omega))
    obtain ⟨g, hg, rfl⟩ := h.delivered_given c hc
    have hdata : x < g.1.offset + g.1.len := by
      rw [Chunk.stop] at h4
      cases hf : g.1.fin with
      | true =>
        have := (h.given_ends g hg hf).2
        omega
      | false =>
        rw [hf, Bool.toNat_false] at h4
        omega
    rcases h.delivered_held _ hc x h3 hdata with hx | hx
    · omega
    · exact hx
  have hlen := Reassembler.length_take h.rx_wf hall
    (fun x b hb => Reassembler.lt_of_getElem? (h.held_eq x b hb))
  have htake := (h.readInto s.rx.readable).out_eq
  rw [← Reassembler.take] at htake
  have hread := (Reassembler.readInto_spec h.rx_wf s.rx.readable).2.1
  rw [← Reassembler.take] at hread
  have hle := h.read_le
  simp only at htake
  rw [htake]
  exact take_of_length_le (by omega)

lemma Inv.survives (h : s.Inv) : s.Survives := by
  refine ⟨h.no_panic, h.consistent, ?_, h.complete, fun _ g hg hf => ?_⟩
  · rw [h.out_eq]
    exact take_prefix _ _
  · rw [h.tx_wf.written_eq]
    exact (h.given_ends g hg hf).2

/-- In every run whose chunks are asked for with rooms that fit, nothing goes wrong on either side,
what is read is a prefix of what was written, and all of it once everything is acknowledged. -/
theorem survives_run {es : List Event} (h : Run step RoomsFit init es s) : s.Survives :=
  (h.invariant (fun _ _ _ hs hok hstep => hs.step hok hstep) inv_init).survives

/-- A run in which the first chunk is lost and sent again, the second comes twice, and everything is
acknowledged, some of it late. -/
def lossy : List Event :=
  [.write [1, 2, 3], .send 2 100, .finish, .send 2 100, .lose 0, .deliver 1 100, .take, .send 9 100,
    .deliver 1 100, .ack 0, .deliver 2 100, .read 1, .loseAll, .ack 2, .ack 1, .take]

theorem survives_run_lossy : ∃ s, Run step RoomsFit init lossy s ∧ s.Survives ∧
    s.tx.isFullyAcked = true ∧ s.out = [1, 2, 3] := by
  have hend : (Run.exec step RoomsFit init lossy).any
      (fun s => s.tx.isFullyAcked && s.out == [1, 2, 3]) = true := by decide
  obtain ⟨s, hs, hdone⟩ := (any_eq_true _ _).1 hend
  rw [Bool.and_eq_true, beq_iff_eq] at hdone
  have hrun := Run.of_exec hs
  exact ⟨s, hrun, survives_run hrun, hdone.1, hdone.2⟩

/-- With a room of `usize::MAX`, lost data at offset 1 makes `next_chunk` give out a chunk that is
not held: the sum of the offset and the room wraps to 0. -/
theorem wide_room_panics :
    ¬∀ es s, Run step (fun _ _ => True) init es s → s.Survives := by
  intro hall
  have hend : (Run.exec step (fun _ _ => True) init
      [.write [1, 2], .send 1 100, .send 1 100, .lose 1, .send (2 ^ 64 - 1) 100]).any
      (fun s => s.panicked) = true := by decide
  obtain ⟨s, hs, hpanic⟩ := (any_eq_true _ _).1 hend
  rw [(hall _ s (Run.of_exec hs)).no_panic] at hpanic
  exact absurd hpanic (by simp)

end Link

end Lazaret.Quic
