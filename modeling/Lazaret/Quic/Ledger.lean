import Lazaret.Lib.Run
import Lazaret.Quic.SendBuf

/-!
# What becomes of every position

In every state of a run of a `SendBuf` each position that was sent is acknowledged, waits to be sent
again, or is in flight, and is only one of these; the new bytes of the chunks add up to what was
sent, and what the buffer says of its next chunk is what the chunk is (`Accounts`).
-/

namespace Lazaret.Quic

open List Option RangeSet

namespace SendBuf

variable {b b' : SendBuf} {stream : List UInt8} {x : ℕ}

lemma Wf.mem_onAcked (h : b.Wf stream) (offset len : ℕ) (fin : Bool) :
    x ∈ (b.onAcked offset len fin).lost ↔ x ∈ b.lost ∧
      ¬(offset ≤ x ∧ x < offset + len + fin.toNat) ∧ (b.onAcked offset len fin).base ≤ x := by
  rw [SendBuf.onAcked]
  dsimp only
  split_ifs with hempty
  · refine ⟨fun hx => ⟨hx, ?_, (h.lost_in x hx).1⟩, fun hx => hx.1⟩
    have := (h.lost_in x hx).1
    omega
  · have hleft : ∀ v, x ∈ RangeSet.removeBelow
        (b.lost.remove ⟨max offset b.base, offset + len + fin.toNat⟩) v ↔
        x ∈ b.lost ∧ ¬(offset ≤ x ∧ x < offset + len + fin.toNat) ∧ v ≤ x := by
      intro v
      rw [mem_removeBelow (wf_remove h.lost_wf), mem_remove h.lost_wf, Range.mem_def, and_assoc]
      refine and_congr_right fun hx => ?_
      have := (h.lost_in x hx).1
      simp only
      omega
    split
    · split_ifs <;> exact hleft _
    · exact hleft _

lemma Wf.mem_onLost (h : b.Wf stream) (hapart : ∀ x ∈ b.lost, x ∉ b.acked) (offset len : ℕ)
    (fin : Bool) : x ∈ (b.onLost offset len fin).lost ↔
      x ∈ b.lost ∨ (offset ≤ x ∧ x < offset + len + fin.toNat) ∧ x < b.next ∧ ¬b.Done x := by
  rw [SendBuf.onLost, Done]
  dsimp only
  split_ifs with hempty
  · refine ⟨.inl, fun hx => hx.elim id fun hx => ?_⟩
    omega
  · obtain ⟨r, hr⟩ : ∃ r : Range, r = ⟨max offset b.base, min (offset + len + fin.toNat) b.next⟩ :=
      ⟨_, rfl⟩
    have hin : x ∈ r ↔ (offset ≤ x ∧ x < offset + len + fin.toNat) ∧ x < b.next ∧ b.base ≤ x := by
      rw [hr, Range.mem_def]
      simp only
      omega
    have hwithin : (∀ a ∈ b.acked.within r, x ∉ a) ↔ ¬(x ∈ b.acked ∧ x ∈ r) := by
      rw [← mem_within h.acked_wf, not_exists]
      exact forall_congr' fun a => not_and.symm
    rw [← hr, (foldl_remove_spec (wf_insert h.lost_wf) _).2,
      mem_insert h.lost_wf, hwithin, hin, not_or, not_lt]
    have := hapart x
    tauto

/-- The length of what `nextChunk` gives, nothing being a length of zero. -/
def givenLen (b : SendBuf) (maxLen limit : ℕ) : ℕ := (b.nextChunk maxLen limit).elim 0 (·.1.len)

/-- With room for it, the next chunk is as long as `peekLen` says, and there is one when
`hasPendingWithin` says so. -/
theorem Wf.peek (h : b.Wf stream) {maxLen limit : ℕ} (hroom : RoomOk b maxLen)
    (hpeek : b.peekLen limit ≤ maxLen) : b.givenLen maxLen limit = b.peekLen limit ∧
      (b.hasPendingWithin limit = true ↔ (b.nextChunk maxLen limit).isSome = true) := by
  have hnext := h.next_le
  rw [givenLen, hasPendingWithin]
  rw [peekLen] at hpeek ⊢
  cases hfirst : b.lost.first with
  | some r =>
    obtain ⟨-, hr2, -, hr4⟩ := first_eq_some h.lost_wf hfirst
    have hin := hr4 r.start ⟨le_rfl, hr2⟩
    have hstart := h.lost_in r.start hin
    have hsome : b.lost.isEmpty = false := by
      rw [← Bool.not_eq_true, isEmpty_iff h.lost_wf, not_forall]
      exact ⟨r.start, not_not.2 hin⟩
    simp only [hfirst, h.written_eq] at hpeek
    rw [nextChunk_of_first h hroom hfirst, hsome]
    dsimp only
    rw [h.written_eq]
    by_cases hdata : r.start < stream.length
    · rw [if_pos hdata] at hpeek ⊢
      rw [min_eq_left hpeek, if_neg (by omega)]
      simp
    · -- only the end of the stream is lost
      have hfin : b.fin = true := by
        by_contra hf
        rw [Bool.eq_false_iff.2 hf, Bool.toNat_false] at hnext
        omega
      have hlen : min (min r.stop stream.length - r.start) maxLen = 0 := by omega
      have hends : r.start = stream.length := by
        rw [hfin, Bool.toNat_true] at hnext
        omega
      have hend : b.lost.contains stream.length = true :=
        (contains_iff h.lost_wf).2 (hends ▸ hin)
      rw [if_neg hdata, hlen, hfin, hend, hends]
      simp
  | none =>
    have hempty : b.lost.isEmpty = true := by
      rw [isEmpty_iff h.lost_wf]
      exact (first_eq_none h.lost_wf).1 hfirst
    simp only [hfirst, h.written_eq] at hpeek
    simp only [SendBuf.nextChunk, hfirst, h.written_eq, hempty]
    rw [min_eq_left hpeek]
    by_cases hlen : min stream.length limit - b.next = 0
    · have hno : ¬b.next < min stream.length limit := by omega
      cases hf : b.fin && b.next == stream.length <;> simp [hlen, hno, hf]
    · have hlt : b.next < min stream.length limit := by omega
      simp [hlen, hlt]

end SendBuf

def Chunk.positions (c : Chunk) : Set ℕ := {x | c.offset ≤ x ∧ x < c.stop}

structure Ledger where
  buf : SendBuf
  /-- The chunks given out, each with the limit it was asked for with. -/
  given : List (Chunk × ℕ)
  /-- The positions of the chunks that were acknowledged. -/
  acknowledged : Set ℕ
  /-- The positions that a chunk carried since they were last put in `lost`, until one is
  acknowledged. -/
  flight : Set ℕ

namespace Ledger

def init : Ledger := ⟨.new, [], ∅, ∅⟩

inductive Event where
  | write (data : List UInt8)
  | finish
  | next (maxLen limit : ℕ)
  /-- The `i`-th chunk given out is acknowledged. -/
  | ack (i : ℕ)
  /-- The `i`-th chunk given out is declared lost. -/
  | lose (i : ℕ)
  | loseAll

def putLost (s : Ledger) (buf : SendBuf) : Ledger :=
  { s with buf, flight := {x | x ∈ s.flight ∧ x ∉ buf.lost} }

/-- What one event does; none where it cannot happen (a chunk that there is not, a write after the
end). -/
def step (s : Ledger) : Event → Option Ledger
  | .write data => (s.buf.write data).map fun buf => { s with buf }
  | .finish => some { s with buf := s.buf.finish }
  | .next maxLen limit =>
    match s.buf.nextChunk maxLen limit with
    | none => some s
    | some (c, buf) =>
      some { s with buf, given := s.given ++ [(c, limit)], flight := s.flight ∪ c.positions }
  | .ack i =>
    s.given[i]?.map fun (c, _) => { s with
      buf := s.buf.onAcked c.offset c.len c.fin
      acknowledged := s.acknowledged ∪ c.positions
      flight := s.flight \ c.positions }
  | .lose i => s.given[i]?.map fun (c, _) => s.putLost (s.buf.onLost c.offset c.len c.fin)
  | .loseAll => some (s.putLost s.buf.markAllLost)

/-- A chunk is asked for only with a room that fits: see `SendBuf.RoomOk`. -/
def RoomsFit (s : Ledger) : Event → Prop
  | .next maxLen _ => s.buf.RoomOk maxLen
  | _ => True

instance (s : Ledger) : (e : Event) → Decidable (RoomsFit s e)
  | .next maxLen _ => inferInstanceAs (Decidable (s.buf.RoomOk maxLen))
  | .write _ | .finish | .ack _ | .lose _ | .loseAll => inferInstanceAs (Decidable True)

/-- Every position is accounted for, and so is every byte that flow control counts. -/
structure Accounts (s : Ledger) : Prop where
  apart : ∀ x ∈ s.buf.lost, x ∉ s.buf.acked
  within : ∀ x, x ∈ s.buf.lost ∨ x ∈ s.buf.acked → s.buf.base ≤ x ∧ x < s.buf.next
  next_le : s.buf.next ≤ s.buf.written + s.buf.fin.toNat
  acknowledged_iff : ∀ x, x ∈ s.acknowledged ↔ s.buf.Done x
  one : ∀ x < s.buf.next, x ∈ s.acknowledged ∧ x ∉ s.buf.lost ∧ x ∉ s.flight ∨
    x ∉ s.acknowledged ∧ x ∈ s.buf.lost ∧ x ∉ s.flight ∨
      x ∉ s.acknowledged ∧ x ∉ s.buf.lost ∧ x ∈ s.flight
  new_sum : (s.given.map (·.1.new)).sum = s.buf.sent
  new_below : ∀ g ∈ s.given, g.1.new ≠ 0 → g.1.offset + g.1.new ≤ g.2
  /-- With any room that fits and is enough, the next chunk is the one the buffer speaks of. -/
  peek : ∀ maxLen limit, s.buf.RoomOk maxLen → s.buf.peekLen limit ≤ maxLen →
    s.buf.givenLen maxLen limit = s.buf.peekLen limit ∧
      (s.buf.hasPendingWithin limit = true ↔ (s.buf.nextChunk maxLen limit).isSome = true)

structure Inv (s : Ledger) : Prop where
  wf : ∃ stream, s.buf.Wf stream
  given_sent : ∀ g ∈ s.given, g.1.stop ≤ s.buf.next
  acknowledged_iff : ∀ x, x ∈ s.acknowledged ↔ s.buf.Done x
  apart : ∀ x ∈ s.buf.lost, x ∉ s.buf.acked
  flight_iff : ∀ x, x ∈ s.flight ↔ x < s.buf.next ∧ ¬s.buf.Done x ∧ x ∉ s.buf.lost
  new_sum : (s.given.map (·.1.new)).sum = s.buf.sent
  new_below : ∀ g ∈ s.given, g.1.new ≠ 0 → g.1.offset + g.1.new ≤ g.2

variable {s s' : Ledger}

lemma inv_init : init.Inv := by
  refine ⟨⟨[], SendBuf.wf_new⟩, ?_, ?_, ?_, ?_, rfl, ?_⟩ <;>
    simp [init, SendBuf.new, SendBuf.Done]

lemma Inv.not_done (h : s.Inv) {x : ℕ} (hx : x ∈ s.buf.lost) : ¬s.buf.Done x := by
  obtain ⟨stream, hwf⟩ := h.wf
  rintro (hbase | hacked)
  · have := (hwf.lost_in x hx).1
    omega
  · exact h.apart x hx hacked

lemma Inv.write (h : s.Inv) {data : List UInt8} {buf : SendBuf} (hw : s.buf.write data = some buf) :
    Inv { s with buf } := by
  obtain ⟨stream, hwf⟩ := h.wf
  obtain ⟨hwf', hfin, -⟩ := hwf.write hw
  have hnext := hwf.next_le
  have hsent := h.new_sum
  rw [hfin, Bool.toNat_false] at hnext
  rw [SendBuf.write, hfin, if_neg (by simp), some.injEq] at hw
  rw [SendBuf.sent, hwf.written_eq] at hsent
  subst hw
  refine ⟨⟨_, hwf'⟩, h.given_sent, h.acknowledged_iff, h.apart, h.flight_iff, ?_, h.new_below⟩
  rw [SendBuf.sent, hwf'.written_eq, length_append]
  simp only
  omega

lemma Inv.next (h : s.Inv) {maxLen limit : ℕ} {c : Chunk} {buf : SendBuf}
    (hroom : s.buf.RoomOk maxLen) (hc : s.buf.nextChunk maxLen limit = some (c, buf)) :
    Inv { s with buf, given := s.given ++ [(c, limit)], flight := s.flight ∪ c.positions } := by
  obtain ⟨stream, hwf⟩ := h.wf
  obtain ⟨hwf', hgiven, hmono, -, hbase, hacked⟩ := hwf.nextChunk hroom hc
  obtain ⟨-, hsent, hlimit, hnew⟩ := hwf.nextChunk_sent hroom hc
  have hdone : ∀ x, buf.Done x ↔ s.buf.Done x := by
    intro x
    rw [SendBuf.Done, SendBuf.Done, hbase, hacked]
  have hlost : (∀ x ∈ buf.lost, x ∈ s.buf.lost) ∧ ∀ x, x ∈ s.flight ∪ c.positions ↔
      x < buf.next ∧ ¬s.buf.Done x ∧ x ∉ buf.lost := by
    cases hfirst : s.buf.lost.first with
    | some r =>
      obtain ⟨heq, -, -, hmem, hin, -⟩ := SendBuf.nextChunk_lost hwf hroom hfirst hc
      have hnext : buf.next = s.buf.next := by rw [heq]
      refine ⟨fun x hx => ((hmem x).1 hx).1, fun x => ?_⟩
      rw [Set.mem_union, h.flight_iff, hmem, hnext]
      have hsub : x ∈ c.positions → x < s.buf.next ∧ ¬s.buf.Done x := fun hx =>
        ⟨(hwf.lost_in x (hin x hx.1 hx.2)).2, h.not_done (hin x hx.1 hx.2)⟩
      have hpos : x ∈ c.positions ↔ c.offset ≤ x ∧ x < c.stop := Iff.rfl
      tauto
    | none =>
      obtain ⟨heq, hoff, -, -, -⟩ := SendBuf.nextChunk_new hwf hfirst hc
      have hnext : buf.next = c.stop := by rw [heq]
      have hsame : buf.lost = s.buf.lost := by rw [heq]
      refine ⟨fun x hx => hsame ▸ hx, fun x => ?_⟩
      rw [Set.mem_union, h.flight_iff, hsame, hnext]
      have hpos : x ∈ c.positions ↔ s.buf.next ≤ x ∧ x < c.stop := hoff ▸ Iff.rfl
      have hfresh : s.buf.next ≤ x → ¬s.buf.Done x ∧ x ∉ s.buf.lost := by
        intro hx
        refine ⟨?_, fun hl => absurd (hwf.lost_in x hl).2 (by omega)⟩
        rintro (hb | ha)
        · exact absurd hwf.base_le_next (by omega)
        · exact absurd (hwf.acked_in x ha).2 (by omega)
      rw [hpos]
      by_cases hx : x < s.buf.next
      · have : x < c.stop := by omega
        simp [hx, this, not_le.2 hx]
      · simp [hx, not_lt.1 hx, hfresh (not_lt.1 hx)]
  refine ⟨⟨_, hwf'⟩, fun g hg => ?_, fun x => ?_, fun x hx => ?_, fun x => ?_, ?_, fun g hg => ?_⟩
  · obtain hg | rfl := mem_append.1 hg |>.imp_right mem_singleton.1
    · exact (h.given_sent g hg).trans hmono
    · exact hgiven.stop_le
  · rw [hdone, h.acknowledged_iff]
  · simp only [hacked]
    exact h.apart x (hlost.1 x hx)
  · rw [hdone]
    exact hlost.2 x
  · simp only [map_append, sum_append, h.new_sum, map_cons, map_nil, sum_cons,
      sum_nil, hsent, add_zero]
  · obtain hg | rfl := mem_append.1 hg |>.imp_right mem_singleton.1
    · exact h.new_below g hg
    · intro (h0 : c.new ≠ 0)
      have := hnew h0
      show c.offset + c.new ≤ limit
      omega

lemma Inv.ack (h : s.Inv) {c : Chunk} (hc : c.stop ≤ s.buf.next) :
    Inv { s with
      buf := s.buf.onAcked c.offset c.len c.fin
      acknowledged := s.acknowledged ∪ c.positions
      flight := s.flight \ c.positions } := by
  obtain ⟨stream, hwf⟩ := h.wf
  obtain ⟨hwf', hnext, hfin, -, hdone⟩ := hwf.onAcked hc
  have hlost := fun x => hwf.mem_onAcked (x := x) c.offset c.len c.fin
  have hpos : ∀ x, x ∈ c.positions ↔ c.offset ≤ x ∧ x < c.offset + c.len + c.fin.toNat :=
    fun _ => Iff.rfl
  have hsent : (s.buf.onAcked c.offset c.len c.fin).sent = s.buf.sent := by
    rw [SendBuf.sent, SendBuf.sent, hnext, hwf'.written_eq, hwf.written_eq]
  refine ⟨⟨_, hwf'⟩, fun g hg => (h.given_sent g hg).trans hnext.ge, fun x => ?_, fun x hx ha => ?_,
    fun x => ?_, h.new_sum.trans hsent.symm, h.new_below⟩
  · rw [Set.mem_union, h.acknowledged_iff, hdone, hpos]
  · obtain ⟨hx, hout, -⟩ := (hlost x).1 hx
    exact ((hdone x).1 (.inr ha)).elim (h.not_done hx) hout
  · have hbelow : x < (s.buf.onAcked c.offset c.len c.fin).base →
        (s.buf.onAcked c.offset c.len c.fin).Done x := .inl
    have hge := not_lt (a := x) (b := (s.buf.onAcked c.offset c.len c.fin).base)
    simp only [Set.mem_sdiff, h.flight_iff, hnext, hlost, hpos]
    rw [hdone] at hbelow ⊢
    tauto

lemma Inv.lose (h : s.Inv) (offset len : ℕ) (fin : Bool) :
    Inv (s.putLost (s.buf.onLost offset len fin)) := by
  obtain ⟨stream, hwf⟩ := h.wf
  obtain ⟨hwf', heq⟩ := hwf.onLost offset len fin
  have hlost := fun x => hwf.mem_onLost (x := x) h.apart offset len fin
  obtain ⟨lost, hnew⟩ : ∃ lost, lost = (s.buf.onLost offset len fin).lost := ⟨_, rfl⟩
  rw [← hnew] at heq hlost
  rw [heq] at hwf' ⊢
  refine ⟨⟨_, hwf'⟩, h.given_sent, h.acknowledged_iff, fun x hx => ?_, fun x => ?_, h.new_sum,
    h.new_below⟩
  · obtain hx | ⟨-, -, hx⟩ := (hlost x).1 hx
    · exact h.apart x hx
    · exact fun ha => hx (.inr ha)
  · show x ∈ s.flight ∧ x ∉ lost ↔ x < s.buf.next ∧ ¬s.buf.Done x ∧ x ∉ lost
    rw [h.flight_iff]
    have := hlost x
    tauto

lemma Inv.step {e : Event} (h : s.Inv) (hroom : RoomsFit s e) (hstep : s.step e = some s') :
    s'.Inv := by
  cases e with
  | write data =>
    obtain ⟨buf, hw, rfl⟩ := map_eq_some_iff.1 hstep
    exact h.write hw
  | finish =>
    obtain rfl := some.inj hstep
    obtain ⟨stream, hwf⟩ := h.wf
    exact ⟨⟨stream, hwf.finish⟩, h.given_sent, h.acknowledged_iff, h.apart, h.flight_iff, h.new_sum,
      h.new_below⟩
  | next maxLen limit =>
    rw [Ledger.step] at hstep
    split at hstep
    next => exact some.inj hstep ▸ h
    next c buf hc => exact some.inj hstep ▸ h.next hroom hc
  | ack i =>
    obtain ⟨g, hg, rfl⟩ := map_eq_some_iff.1 hstep
    exact h.ack (h.given_sent g (mem_of_getElem? hg))
  | lose i =>
    obtain ⟨g, hg, rfl⟩ := map_eq_some_iff.1 hstep
    exact h.lose g.1.offset g.1.len g.1.fin
  | loseAll => exact some.inj hstep ▸ h.lose _ _ _

lemma Inv.accounts (h : s.Inv) : s.Accounts := by
  obtain ⟨stream, hwf⟩ := h.wf
  refine ⟨h.apart, fun x hx => hx.elim (hwf.lost_in x) (hwf.acked_in x), ?_, h.acknowledged_iff,
    fun x hx => ?_, h.new_sum, h.new_below, fun maxLen limit hroom => hwf.peek hroom⟩
  · rw [hwf.written_eq]
    exact hwf.next_le
  · have := h.not_done (x := x)
    rw [h.acknowledged_iff, h.flight_iff]
    tauto

/-- In every run whose chunks are asked for with rooms that fit, every position is accounted for. -/
theorem accounts_run {es : List Event} (h : Run step RoomsFit init es s) : s.Accounts :=
  (h.invariant (fun _ _ _ hs hok hstep => hs.step hok hstep) inv_init).accounts

/-- Both chunks of a stream are lost, one is sent again, and one is acknowledged after all. -/
def resent : List Event :=
  [.write [1, 2, 3], .next 2 100, .finish, .next 2 100, .loseAll, .next 1 0, .ack 1, .lose 2]

theorem accounts_run_resent : ∃ s, Run step RoomsFit init resent s ∧ s.Accounts ∧
    s.buf.sent = 3 := by
  have hend : (Run.exec step RoomsFit init resent).any (fun s => s.buf.sent == 3) = true := by
    decide
  obtain ⟨s, hs, hsent⟩ := (any_eq_true _ _).1 hend
  have hrun := Run.of_exec hs
  exact ⟨s, hrun, accounts_run hrun, beq_iff_eq.1 hsent⟩

/-- When the byte at offset 1 is lost, `peek_len` says one byte, and `next_chunk` with a room of
`usize::MAX` gives a chunk of `2 ^ 64 - 1`: the sum of the offset and the room wraps to 0. -/
theorem peek_wide_room : ¬∀ es s, Run step RoomsFit init es s →
    ∀ limit, s.buf.givenLen (2 ^ 64 - 1) limit = s.buf.peekLen limit := by
  intro hall
  have hend : (Run.exec step RoomsFit init [.write [1, 2], .next 1 100, .next 1 100, .lose 1]).any
      (fun s => s.buf.givenLen (2 ^ 64 - 1) 100 != s.buf.peekLen 100) = true := by decide
  obtain ⟨s, hs, hne⟩ := (any_eq_true _ _).1 hend
  exact bne_iff_ne.1 hne (hall _ s (Run.of_exec hs) 100)

end Ledger

end Lazaret.Quic
