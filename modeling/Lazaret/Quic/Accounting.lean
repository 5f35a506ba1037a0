import Lazaret.Quic.StreamFrames
import Mathlib.Algebra.Order.BigOperators.Group.List
import Mathlib.Order.Interval.Finset.Nat

/-!
# The accounting of the streams

What holds of the streams and of the flow control whatever happens, in three parts: of the sending
sides and the queues (`SendSide`), of the receiving sides and what was received (`RecvSide`), and of
which streams there are (`Opens`).  Each part says what an operation may do and stay.
-/

namespace Lazaret.Quic.Flow

open List BTreeMap
open Wire (MAX_VARINT MAX_STREAMS_LIMIT)

/-! ### The bytes that were sent -/

def StreamFrame.bytes : StreamFrame → Finset (ℕ × ℕ)
  | .stream id offset len _ => {id} ×ˢ Finset.Ico offset (offset + len)
  | _ => ∅

/-- The bytes of streams that were sent: a resend is not new. -/
def carried (log : List StreamFrame) : Finset (ℕ × ℕ) := log.foldr (fun f c => f.bytes ∪ c) ∅

lemma mem_carried {log : List StreamFrame} {p : ℕ × ℕ} :
    p ∈ carried log ↔ ∃ f ∈ log, p ∈ f.bytes := by
  induction log with
  | nil => simp [carried]
  | cons f log ih =>
    rw [carried, foldr_cons, Finset.mem_union]
    simp only [mem_cons, exists_eq_or_imp]
    exact or_congr Iff.rfl ih

lemma carried_append (log : List StreamFrame) (f : StreamFrame) :
    carried (log ++ [f]) = carried log ∪ f.bytes := by
  refine Finset.ext fun p => ?_
  simp only [mem_carried, Finset.mem_union, mem_append, mem_singleton, or_and_right,
    exists_or, exists_eq_left]

lemma mem_bytes_stream {id offset len j y : ℕ} {fin : Bool} :
    (j, y) ∈ (StreamFrame.stream id offset len fin).bytes ↔
      j = id ∧ offset ≤ y ∧ y < offset + len := by
  rw [StreamFrame.bytes, Finset.mem_product, Finset.mem_singleton, Finset.mem_Ico]

lemma carried_again {log : List StreamFrame} {id offset len sent : ℕ} {fin : Bool}
    (hall : ∀ y, (id, y) ∈ carried log ↔ y < sent) (hle : offset + len ≤ sent) :
    carried (log ++ [.stream id offset len fin]) = carried log := by
  rw [carried_append, Finset.union_eq_left]
  rintro ⟨j, y⟩ hp
  obtain ⟨rfl, -, hy⟩ := mem_bytes_stream.1 hp
  exact (hall y).2 (by omega)

lemma card_carried_new {log : List StreamFrame} {id len sent : ℕ} {fin : Bool}
    (hall : ∀ y, (id, y) ∈ carried log ↔ y < sent) :
    (carried (log ++ [.stream id sent len fin])).card = (carried log).card + len := by
  rw [carried_append, Finset.card_union_of_disjoint, StreamFrame.bytes, Finset.card_product]
  · simp
  · rw [Finset.disjoint_left]
    rintro ⟨j, y⟩ hlog hp
    obtain ⟨rfl, hy, -⟩ := mem_bytes_stream.1 hp
    have := (hall y).1 hlog
    omega

lemma carried_stream {log : List StreamFrame} {id offset len sent sent' new : ℕ} (fin : Bool)
    (hall : ∀ y, (id, y) ∈ carried log ↔ y < sent) (hsent : sent' = max sent (offset + len))
    (hnew : sent' = sent + new) (hgap : new ≠ 0 → offset = sent) :
    (carried (log ++ [.stream id offset len fin])).card = (carried log).card + new ∧
      ∀ y, (id, y) ∈ carried (log ++ [.stream id offset len fin]) ↔ y < sent' := by
  have hmem : ∀ y, (id, y) ∈ carried (log ++ [.stream id offset len fin]) ↔ y < sent' := by
    intro y
    rw [carried_append, Finset.mem_union, hall, mem_bytes_stream]
    by_cases h0 : new = 0
    · omega
    · have := hgap h0
      omega
  refine ⟨?_, hmem⟩
  by_cases h0 : new = 0
  · rw [carried_again hall (by omega), h0]
    rfl
  · obtain rfl := hgap h0
    rw [card_carried_new hall]
    omega

/-! ### One sending side -/

/-- What holds of a sending side of stream `id` when the frames of `log` were sent. -/
structure SendOk (log : List StreamFrame) (id : ℕ) (x : Send) : Prop where
  wf : ∃ stream, x.buf.Wf stream
  max_le : x.max_data ≤ MAX_VARINT
  below : ∀ y, (id, y) ∈ carried log → y < x.max_data
  sent : x.sending = true → ∀ y, (id, y) ∈ carried log ↔ y < x.buf.sent
  out : x.sending = true → ∀ offset len fin, StreamFrame.stream id offset len fin ∈ log →
    offset + len + fin.toNat ≤ x.buf.next
  unfinished : x.state = .open → x.buf.fin = false
  reset : x.state = .reset → x.reset.isSome = true
  reset_le : ∀ r ∈ x.reset, r.error ≤ MAX_VARINT ∧ r.final_size ≤ MAX_VARINT
  blocked_le : ∀ n ∈ x.blocked_sent, n ≤ MAX_VARINT
  resting : x.sending = false → x.queued = false
  apart : ¬(x.queued = true ∧ x.parked = true)

namespace SendOk

variable {log : List StreamFrame} {id : ℕ} {x x' : Send} {s t : Streams}

lemma sent_le (h : SendOk log id x) (hx : x.sending = true) : x.buf.sent ≤ x.max_data := by
  by_contra hlt
  have := h.below _ ((h.sent hx (x.buf.sent - 1)).2 (by omega))
  omega

lemma new {max : ℕ} (hmax : max ≤ MAX_VARINT)
    (hlog : ∀ offset len fin, StreamFrame.stream id offset len fin ∉ log) :
    SendOk log id (Send.new max) := by
  have hnone : ∀ y, (id, y) ∉ carried log := by
    intro y hy
    obtain ⟨f, hf, hy⟩ := mem_carried.1 hy
    cases f with
    | stream j offset len fin =>
      obtain ⟨rfl, -⟩ := mem_bytes_stream.1 hy
      exact hlog _ _ _ hf
    | _ => simp [StreamFrame.bytes] at hy
  refine ⟨⟨[], SendBuf.wf_new⟩, hmax, fun y hy => absurd hy (hnone y), fun _ y => ?_,
    fun _ offset len fin hf => absurd hf (hlog _ _ _), fun _ => rfl,
      fun h => ?_, by simp [Send.new],
    by simp [Send.new], fun _ => rfl, ?_⟩
  · simp [hnone, Send.new, SendBuf.new, SendBuf.sent]
  · simp [Send.new] at h
  · simp [Send.new]

variable (h : SendOk log id x)
include h

lemma remark (hbuf : x'.buf = x.buf) (hmax : x'.max_data = x.max_data)
    (hstate : x'.state = x.state) (hreset : x'.reset = x.reset)
    (hblocked : x'.blocked_sent = x.blocked_sent ∨ x'.blocked_sent = some x.max_data)
    (hrest : x'.sending = false → x'.queued = false)
    (hapart : ¬(x'.queued = true ∧ x'.parked = true)) :
    SendOk log id x' := by
  have hsending : x'.sending = x.sending := by rw [Send.sending, hstate, Send.sending]
  refine ⟨by rw [hbuf]; exact h.wf, by rw [hmax]; exact h.max_le, by rw [hmax]; exact h.below,
    by rw [hsending, hbuf]; exact h.sent, by rw [hsending, hbuf]; exact h.out,
    by rw [hstate, hbuf]; exact h.unfinished, by rw [hstate, hreset]; exact h.reset,
    hreset ▸ h.reset_le, ?_, hrest, hapart⟩
  rcases hblocked with heq | heq
  · exact heq ▸ h.blocked_le
  · rw [heq]
    rintro n ⟨⟩
    exact h.max_le

lemma marked (hm : s.Marked t id x x') : SendOk log id x' := by
  have hsending : x'.sending = x.sending := by rw [Send.sending, hm.state, Send.sending]
  refine h.remark hm.buf hm.max_data hm.state hm.reset hm.blocked (fun hrest => ?_)
    (fun hboth => ?_)
  · by_contra hq
    rw [Bool.not_eq_false] at hq
    rw [hsending, (hm.ready hq).1] at hrest
    cases hrest
  · rw [(hm.ready hboth.1).2] at hboth
    exact absurd hboth.2 (by simp)

lemma setBuf {b : SendBuf} (hwf : ∃ stream, b.Wf stream)
    (hsent : b.sent = x.buf.sent) (hnext : b.next = x.buf.next)
    (hfin : x.state = .open → b.fin = false) : SendOk log id { x with buf := b } :=
  ⟨hwf, h.max_le, h.below, fun hx => by rw [hsent]; exact h.sent hx,
    fun hx => by rw [hnext]; exact h.out hx, hfin, h.reset, h.reset_le, h.blocked_le, h.resting,
    h.apart⟩

lemma write (hopen : x.state = .open) (data : List UInt8) :
    ∃ b, x.buf.write data = some b ∧ (∃ stream, b.Wf stream) ∧ b.sent = x.buf.sent ∧
      b.next = x.buf.next ∧ b.fin = false := by
  obtain ⟨stream, hwf⟩ := h.wf
  have hfin := h.unfinished hopen
  have hw : x.buf.write data = some { x.buf with data := x.buf.data ++ data } := by
    rw [SendBuf.write, if_neg (by simp [hfin])]
  obtain ⟨hwf', -, hfin', -, hnext, -⟩ := hwf.write hw
  refine ⟨_, hw, ⟨_, hwf'⟩, ?_, rfl, hfin'⟩
  have hle := hwf.next_le
  rw [hfin, Bool.toNat_false] at hle
  rw [SendBuf.sent, SendBuf.sent, hwf.written_eq, hwf'.written_eq, length_append]
  simp only
  omega

lemma rest (hx' : x'.sending = false) (hwf : ∃ stream, x'.buf.Wf stream)
    (hmax : x'.max_data = x.max_data) (hblocked : x'.blocked_sent = x.blocked_sent)
    (hreset : x'.state = .reset → x'.reset.isSome = true)
    (hreset_le : ∀ r ∈ x'.reset, r.error ≤ MAX_VARINT ∧ r.final_size ≤ MAX_VARINT)
    (hq : x'.queued = false) : SendOk log id x' := by
  refine ⟨hwf, by rw [hmax]; exact h.max_le, by rw [hmax]; exact h.below, fun hs => ?_,
    fun hs => ?_,
    fun hopen => ?_, hreset, hreset_le, hblocked ▸ h.blocked_le, fun _ => hq, fun hboth => ?_⟩
  · rw [hx'] at hs
    cases hs
  · rw [hx'] at hs
    cases hs
  · rw [Send.sending, hopen] at hx'
    simp at hx'
  · rw [hq] at hboth
    exact absurd hboth.1 (by simp)

lemma append {f : StreamFrame}
    (hf : ∀ offset len fin, f ≠ .stream id offset len fin) : SendOk (log ++ [f]) id x := by
  have hmem : ∀ y, (id, y) ∈ carried (log ++ [f]) ↔ (id, y) ∈ carried log := by
    intro y
    rw [carried_append, Finset.mem_union, or_iff_left]
    intro hy
    cases f with
    | stream j offset len fin =>
      obtain ⟨rfl, -⟩ := mem_bytes_stream.1 hy
      exact hf _ _ _ rfl
    | _ => simp [StreamFrame.bytes] at hy
  refine ⟨h.wf, h.max_le, fun y hy => h.below y ((hmem y).1 hy),
    fun hx y => (hmem y).trans (h.sent hx y), fun hx offset len fin hin => ?_, h.unfinished,
      h.reset,
    h.reset_le, h.blocked_le, h.resting, h.apart⟩
  rcases mem_append.1 hin with hin | hin
  · exact h.out hx offset len fin hin
  · exact absurd (mem_singleton.1 hin).symm (hf _ _ _)

end SendOk

/-! ### The sending sides and the queues -/

/-- What holds of the sending sides.  The streams of `rest` are marked as waiting for the
connection's credit and taken out of the set of those, to be looked at again. -/
structure SendSide (rest : List ℕ) (log : List StreamFrame) (s : Streams) : Prop where
  sides : ∀ id x, s.sendOf id = some x → SendOk log id x
  nodup : s.send_queue.Nodup
  queue : ∀ id, id ∈ s.send_queue ↔ ∃ x, s.sendOf id = some x ∧ x.queued = true
  parked : ∀ id, (s.parked.get id).isSome = true ∨ id ∈ rest ↔
    ∃ x, s.sendOf id = some x ∧ x.parked = true
  waiting : ∀ id ∈ rest, s.parked.get id = none
  total : s.sent_total = (carried log).card
  le : s.sent_total ≤ s.send_max_data
  max_le : s.send_max_data ≤ MAX_VARINT

namespace SendSide

variable {rest : List ℕ} {log log' : List StreamFrame} {s t : Streams} {id : ℕ} {x x' : Send}

section

variable (h : SendSide rest log s)
include h

lemma isSome_parked (hx : s.sendOf id = some x) (hid : id ∉ rest) :
    (s.parked.get id).isSome = x.parked := by
  rw [Bool.eq_iff_iff]
  constructor
  · intro hp
    obtain ⟨y, hy, hyp⟩ := (h.parked id).1 (.inl hp)
    rw [hx, Option.some.injEq] at hy
    rw [hy]
    exact hyp
  · intro hp
    exact ((h.parked id).2 ⟨x, hx, hp⟩).resolve_right hid

lemma update (hid : id ∉ rest)
    (hsend : ∀ j, t.sendOf j = if j = id then some x' else s.sendOf j)
    (hok : SendOk log' id x') (hlog : ∀ j y, j ≠ id → SendOk log j y → SendOk log' j y)
    (hnodup : t.send_queue.Nodup)
    (hqueue : ∀ j, j ∈ t.send_queue ↔ if j = id then x'.queued = true else j ∈ s.send_queue)
    (hparked : ∀ j, (t.parked.get j).isSome = if j = id then x'.parked else (s.parked.get j).isSome)
    (htotal : t.sent_total = (carried log').card) (hle : t.sent_total ≤ t.send_max_data)
    (hmax : t.send_max_data ≤ MAX_VARINT) : SendSide rest log' t := by
  refine ⟨fun j y hy => ?_, hnodup, fun j => ?_, fun j => ?_, fun j hj => ?_, htotal, hle, hmax⟩
  · rw [hsend] at hy
    split_ifs at hy with hj
    · rw [Option.some.injEq] at hy
      exact hj ▸ hy ▸ hok
    · exact hlog j y hj (h.sides j y hy)
  · rw [hqueue, hsend]
    split_ifs with hj
    · simp
    · exact h.queue j
  · rw [hparked, hsend]
    split_ifs with hj
    · simp [hj, hid]
    · exact h.parked j
  · have hne : j ≠ id := fun hj' => hid (hj' ▸ hj)
    have hp := hparked j
    rw [if_neg hne, h.waiting j hj] at hp
    exact Option.isNone_iff_eq_none.1 (by simpa using hp)

lemma congr (hsend : ∀ j, t.sendOf j = s.sendOf j)
    (hqueue : t.send_queue = s.send_queue) (hparked : t.parked = s.parked)
    (htotal : t.sent_total = s.sent_total) (hmax : t.send_max_data = s.send_max_data) :
    SendSide rest log t := by
  refine ⟨fun j y hy => h.sides j y (hsend j ▸ hy), hqueue ▸ h.nodup, fun j => ?_, fun j => ?_,
    hparked ▸ h.waiting, htotal ▸ h.total, ?_, hmax ▸ h.max_le⟩
  · rw [hqueue, hsend]
    exact h.queue j
  · rw [hparked, hsend]
    exact h.parked j
  · rw [htotal, hmax]
    exact h.le

lemma recvOnly (ht : s.RecvOnly t) : SendSide rest log t :=
  h.congr ht.sendOf ht.send_queue ht.parked (congrArg (·.sent_total) ht.accounts)
    (congrArg (·.send_max_data) ht.accounts)

lemma setSend (hx : s.sendOf id = some x) (hid : id ∉ rest)
    (hok : SendOk log id x') (hq : x'.queued = x.queued) (hp : x'.parked = x.parked) :
    SendSide rest log (s.setSend id x') := by
  obtain ⟨hqueue, hparked⟩ := Streams.waiting_setSend s id x'
  obtain ⟨htotal, hmax⟩ := Streams.sendCounts_eq (Streams.accounts_setSend s id x')
  refine h.update hid (Streams.sendOf_setSend hx _) hok (fun _ _ _ hy => hy) (hqueue ▸ h.nodup)
    (fun j => ?_) (fun j => ?_) (htotal.trans h.total) (htotal.trans_le (h.le.trans hmax.ge))
    (hmax.trans_le h.max_le)
  · rw [hqueue, hq]
    split_ifs with hj
    · rw [hj, h.queue]
      simp [hx]
    · rfl
  · rw [hparked, hp]
    split_ifs with hj
    · rw [hj]
      exact h.isSome_parked hx hid
    · rfl

lemma schedule (hid : id ∉ rest) : SendSide rest log (s.schedule id) := by
  cases hx : s.sendOf id with
  | none => rwa [Streams.schedule_of_none hx]
  | some x =>
    cases hq : x.queued with
    | true => rwa [Streams.schedule_of_queued hx hq]
    | false =>
      obtain ⟨x', hm⟩ := Streams.marked_schedule hx hq (h.isSome_parked hx hid)
      obtain ⟨htotal, hmax⟩ := Streams.sendCounts_eq (Streams.SendOnly.schedule s id).accounts
      have hnot : id ∉ s.send_queue := by
        rw [h.queue]
        simp [hx, hq]
      refine h.update hid hm.sendOf ((h.sides id x hx).marked hm) (fun _ _ _ hy => hy) ?_
        (fun j => ?_) hm.parked (htotal.trans h.total) (htotal.trans_le (h.le.trans hmax.ge))
        (hmax.trans_le h.max_le)
      · rw [hm.queue]
        split_ifs with hq'
        · exact nodup_append'.2 ⟨h.nodup, nodup_singleton _, by simpa using hnot⟩
        · exact h.nodup
      · rw [hm.queue]
        by_cases hj : j = id
        · rw [if_pos hj, hj]
          split_ifs with hq' <;> simp [hq', hnot]
        · rw [if_neg hj]
          split_ifs with hq' <;> simp [hj]

lemma popQueue {ids : List ℕ} (hq : s.send_queue = id :: ids)
    (hid : id ∉ rest) : SendSide rest log (s.popQueue id) := by
  obtain ⟨x, hx, hxq⟩ := (h.queue id).1 (by rw [hq]; exact mem_cons_self)
  have hnodup := h.nodup
  rw [hq, nodup_cons] at hnodup
  have hx' : ({ s with send_queue := s.send_queue.tail } : Streams).sendOf id = some x := hx
  rw [Streams.popQueue]
  simp only [hx']
  set u : Streams := { s with send_queue := s.send_queue.tail } with hu
  obtain ⟨hqueue, hparked⟩ := Streams.waiting_setSend u id { x with queued := false }
  have htail : u.send_queue = ids := by rw [hu, hq]; rfl
  obtain ⟨htotal, hmax⟩ := Streams.sendCounts_eq
    (Streams.accounts_setSend u id { x with queued := false })
  have hok : SendOk log id { x with queued := false } :=
    (h.sides id x hx).remark rfl rfl rfl rfl (.inl rfl) (fun _ => rfl) (by simp)
  refine h.update hid (Streams.sendOf_setSend hx' _) hok (fun _ _ _ hy => hy) ?_ (fun j => ?_)
    (fun j => ?_) (htotal.trans h.total) (htotal.trans_le (h.le.trans hmax.ge))
    (hmax.trans_le h.max_le)
  · rw [hqueue, htail]
    exact hnodup.2
  · rw [hqueue, htail, hq]
    split_ifs with hj
    · simp [hj, hnodup.1]
    · simp [hj]
  · rw [hparked]
    split_ifs with hj
    · have hpark := h.isSome_parked hx hid
      rw [hj]
      exact hpark
    · rfl

end

lemma unpark (h : SendSide (id :: rest) log s) (hid : id ∉ rest) :
    SendSide rest log (s.unpark id) := by
  obtain ⟨x, hx, hxp⟩ := (h.parked id).1 (.inr mem_cons_self)
  have hok := h.sides id x hx
  obtain ⟨hqueue, hparked⟩ := Streams.waiting_setSend s id { x with parked := false }
  obtain ⟨htotal, hmax⟩ := Streams.sendCounts_eq
    (Streams.accounts_setSend s id { x with parked := false })
  have hsend := Streams.sendOf_setSend hx { x with parked := false }
  rw [Streams.unpark, hx]
  refine SendSide.schedule ⟨fun j y hy => ?_, hqueue ▸ h.nodup, fun j => ?_, fun j => ?_,
    fun j hj => ?_, htotal.trans h.total, htotal.trans_le (h.le.trans hmax.ge),
    hmax.trans_le h.max_le⟩ hid
  · rw [hsend] at hy
    split_ifs at hy with hj
    · rw [Option.some.injEq] at hy
      exact hj ▸ hy ▸ hok.remark rfl rfl rfl rfl (.inl rfl) hok.resting (by simp)
    · exact h.sides j y hy
  · rw [hqueue, hsend]
    split_ifs with hj
    · rw [hj, h.queue]
      simp [hx]
    · exact h.queue j
  · rw [hparked, hsend]
    have hall := h.parked j
    by_cases hj : j = id
    · simp [hj, hid, h.waiting id mem_cons_self]
    · rw [if_neg hj, ← hall, mem_cons]
      simp [hj]
  · rw [hparked]
    exact h.waiting j (mem_cons_of_mem _ hj)

lemma doReset (h : SendSide rest log s) (hid : id ∉ rest)
    (hsending : ∀ x, s.sendOf id = some x → x.sending = true) {error : ℕ}
    (herror : error ≤ MAX_VARINT) :
    SendSide rest log (s.doReset id error) := by
  cases hx : s.sendOf id with
  | none =>
    rw [Streams.doReset, hx]
    exact h
  | some x =>
    obtain ⟨x', hsend, hbuf, hmax, hstate, hreset, hblocked, hq, hp, hqueue, hparked⟩ :=
      Streams.doReset_spec hx error
    have hold := h.sides id x hx
    have hok : SendOk log id x' := by
      refine hold.rest (by simp [Send.sending, hstate]) ?_ hmax hblocked
        (fun _ => by rw [hreset]; rfl) ?_ hq
      · obtain ⟨stream, hwf⟩ := hold.wf
        exact ⟨stream, hbuf ▸ hwf.clear⟩
      · rw [hreset]
        rintro r ⟨⟩
        exact ⟨herror, (hold.sent_le (hsending x hx)).trans hold.max_le⟩
    obtain ⟨htotal, hle⟩ := Streams.sendCounts_eq (Streams.SendOnly.doReset s id error).accounts
    refine h.update hid hsend hok (fun _ _ _ hy => hy) ?_ (fun j => ?_) (fun j => ?_)
      (htotal.trans h.total) (htotal.trans_le (h.le.trans hle.ge)) (hle.trans_le h.max_le)
    · rw [hqueue]
      split_ifs
      · exact h.nodup.filter _
      · exact h.nodup
    · have hid' : id ∈ s.send_queue ↔ x.queued = true := by
        rw [h.queue]
        simp [hx]
      rw [hqueue, hq]
      by_cases hj : j = id
      · rw [if_pos hj, hj]
        split_ifs with hxq
        · simp
        · simp [hid', hxq]
      · rw [if_neg hj]
        split_ifs with hxq <;> simp [hj]
    · rw [hparked, get_remove, hp]
      split_ifs <;> rfl

lemma forgot (h : SendSide [] log s) {st : Stream} (hst : s.streams.get id = some st)
    (hover : st.isOver = true) (hf : s.Forgot t id st) : SendSide [] log t := by
  have hquiet : ∀ x, s.sendOf id = some x → x.queued = false := by
    intro x hx
    refine (h.sides id x hx).resting ?_
    obtain ⟨st', hst', hsend⟩ := Streams.get_of_sendOf hx
    rw [hst, Option.some.injEq] at hst'
    rw [Stream.isOver, hst', hsend] at hover
    simp only [Option.all_some, Bool.and_eq_true, decide_eq_true_eq] at hover
    simp [Send.sending, hover.1]
  have hnot : id ∉ s.send_queue := by
    rw [h.queue]
    rintro ⟨x, hx, hxq⟩
    rw [hquiet x hx] at hxq
    cases hxq
  have htotal : t.sent_total = s.sent_total := congrArg (·.sent_total) hf.accounts
  have hmax : t.send_max_data = s.send_max_data := congrArg (·.send_max_data) hf.accounts
  refine ⟨fun j y hy => ?_, hf.send_queue ▸ h.nodup, fun j => ?_, fun j => ?_, by simp,
    htotal.trans h.total, htotal.trans_le (h.le.trans hmax.ge), hmax.trans_le h.max_le⟩
  · rw [hf.sendOf] at hy
    split_ifs at hy
    exact h.sides j y hy
  · rw [hf.send_queue, hf.sendOf]
    split_ifs with hj
    · simp [hj, hnot]
    · exact h.queue j
  · rw [hf.parked, hf.sendOf, get_remove]
    split_ifs with hj
    · simp
    · exact h.parked j

lemma cleanup (h : SendSide [] log s) (id : ℕ) : SendSide [] log (s.cleanup id) := by
  rcases Streams.cleanup_cases s id with heq | ⟨st, hst, hover, hf⟩
  · rwa [heq]
  · exact h.forgot hst hover hf

lemma insert (h : SendSide rest log s) (hget : s.streams.get id = none) {st : Stream}
    (hstreams : t.streams = s.streams.insert id st)
    (hok : ∀ x, st.send = some x → SendOk log id x ∧ x.queued = false ∧ x.parked = false)
    (hqueue : t.send_queue = s.send_queue) (hparked : t.parked = s.parked)
    (htotal : t.sent_total = s.sent_total) (hmax : t.send_max_data = s.send_max_data) :
    SendSide rest log t := by
  have hnone : s.sendOf id = none := by rw [Streams.sendOf, hget]; rfl
  have hsend : ∀ j, t.sendOf j = if j = id then st.send else s.sendOf j := by
    intro j
    rw [Streams.sendOf, hstreams, get_insert]
    split_ifs <;> rfl
  have hnot : id ∉ s.send_queue := by
    rw [h.queue]
    simp [hnone]
  have hnot' : ¬((s.parked.get id).isSome = true ∨ id ∈ rest) := by
    rw [h.parked]
    simp [hnone]
  refine ⟨fun j y hy => ?_, hqueue ▸ h.nodup, fun j => ?_, fun j => ?_, hparked ▸ h.waiting,
    htotal ▸ h.total, by rw [htotal, hmax]; exact h.le, hmax ▸ h.max_le⟩
  · rw [hsend] at hy
    split_ifs at hy with hj
    · exact hj ▸ (hok y hy).1
    · exact h.sides j y hy
  · rw [hqueue, hsend]
    split_ifs with hj
    · rw [hj]
      refine ⟨fun hq => absurd hq hnot, ?_⟩
      rintro ⟨y, hy, hyq⟩
      rw [(hok y hy).2.1] at hyq
      cases hyq
    · exact h.queue j
  · rw [hparked, hsend]
    split_ifs with hj
    · rw [hj]
      refine ⟨fun hp => absurd hp hnot', ?_⟩
      rintro ⟨y, hy, hyp⟩
      rw [(hok y hy).2.2] at hyp
      cases hyp
    · exact h.parked j

lemma append (h : SendSide rest log s) {f : StreamFrame}
    (hf : ∀ id offset len fin, f ≠ .stream id offset len fin) : SendSide rest (log ++ [f]) s := by
  refine ⟨fun j y hy => (h.sides j y hy).append fun _ _ _ => hf _ _ _ _, h.nodup, h.queue, h.parked,
    h.waiting, ?_, h.le, h.max_le⟩
  have hnone : f.bytes = ∅ := by
    cases f with
    | stream id offset len fin => exact absurd rfl (hf id offset len fin)
    | _ => rfl
  rw [carried_append, hnone, Finset.union_empty]
  exact h.total

end SendSide

/-! ### The receiving sides and what was received -/

/-- How much of a stream counts as read: all of it, once it was reset. -/
def Recv.consumed (r : Recv) : ℕ :=
  match r.state with
  | .reset _ => r.high
  | .resetRead _ => r.high
  | _ => r.buf.read

structure RecvOk (r : Recv) : Prop where
  wf : r.buf.Wf
  held : ∀ x b, Reassembler.Holds r.buf.pieces x b → x < r.high
  read_le : r.buf.read ≤ r.high
  high_le : r.high ≤ r.max_data
  final : ∀ size ∈ r.final_size, r.high ≤ size
  max_le : r.max_data ≤ MAX_VARINT
  window_le : r.window ≤ MAX_VARINT
  stop_le : ∀ stop ∈ r.stop, stop.error ≤ MAX_VARINT

namespace RecvOk

variable {r : Recv}

lemma new {window : ℕ} (hwindow : window ≤ MAX_VARINT) : RecvOk (Recv.new window) := by
  refine ⟨Reassembler.wf_new, ?_, le_rfl, Nat.zero_le _, by simp [Recv.new], hwindow, hwindow,
    by simp [Recv.new]⟩
  rintro x b ⟨e, he, -⟩
  simp [Recv.new, Reassembler.new] at he

lemma consumed_le (h : RecvOk r) : r.consumed ≤ r.high := by
  rw [Recv.consumed]
  split
  · exact le_rfl
  · exact le_rfl
  · exact h.read_le

lemma endOffset_le (h : RecvOk r) : r.buf.endOffset ≤ r.high :=
  Reassembler.endOffset_le h.wf h.read_le h.held

lemma readInto (h : RecvOk r) (n : ℕ) (r' : Recv) (hbuf : r'.buf = (r.buf.readInto n).2)
    (hmax : r'.max_data = r.max_data) (hhigh : r'.high = r.high)
    (hfinal : r'.final_size = r.final_size) (hwindow : r'.window = r.window)
    (hstop : r'.stop = r.stop) :
    RecvOk r' ∧ r'.buf.read = r.buf.read + (r.buf.readInto n).1.length := by
  obtain ⟨hwf, hread, -, hholds⟩ := Reassembler.readInto_spec h.wf n
  have hle := Reassembler.readInto_read_le (m := n) h.wf h.read_le h.held
  refine ⟨⟨hbuf ▸ hwf, fun x b hx => ?_, by rw [hbuf, hhigh]; exact hle,
    by rw [hhigh, hmax]; exact h.high_le, by rw [hfinal, hhigh]; exact h.final, hmax ▸ h.max_le,
    hwindow ▸ h.window_le, hstop ▸ h.stop_le⟩, by rw [hbuf, hread]⟩
  rw [hbuf] at hx
  rw [hhigh]
  exact h.held x b ((hholds x b).1 hx).1

lemma raise (h : RecvOk r) (r' : Recv) (hbuf : r'.buf = r.buf) (hmax : r.max_data ≤ r'.max_data)
    (hmax' : r'.max_data ≤ MAX_VARINT) (hhigh : r'.high = r.high)
    (hfinal : r'.final_size = r.final_size) (hwindow : r'.window = r.window)
    (hstop : ∀ stop ∈ r'.stop, stop.error ≤ MAX_VARINT) : RecvOk r' :=
  ⟨hbuf ▸ h.wf, by rw [hbuf, hhigh]; exact h.held, by rw [hbuf, hhigh]; exact h.read_le,
    by rw [hhigh]; exact h.high_le.trans hmax, by rw [hfinal, hhigh]; exact h.final, hmax',
    hwindow ▸ h.window_le, hstop⟩

end RecvOk

/-- If a limit that is kept a window ahead moves up to `new`, a frame can say so. -/
def LimitFits (limit window new : ℕ) : Prop :=
  limit < new → new - limit ≥ window / 2 → new ≤ MAX_VARINT

instance (limit window new : ℕ) : Decidable (LimitFits limit window new) :=
  inferInstanceAs (Decidable (_ → _ → _))

/-- The credit of a stream can be told when `n` more bytes of it were read. -/
def Recv.CreditFits (r : Recv) (n : ℕ) : Prop :=
  r.final_size = none → LimitFits r.max_data r.window (r.buf.read + n + r.window)

instance (r : Recv) (n : ℕ) : Decidable (r.CreditFits n) := inferInstanceAs (Decidable (_ → _))

lemma Recv.CreditFits.read {r r' : Recv} {n : ℕ} (h : r.CreditFits n)
    (hread : r'.buf.read = r.buf.read + n) (hfinal : r'.final_size = r.final_size)
    (hmax : r'.max_data = r.max_data) (hwindow : r'.window = r.window) : r'.CreditFits 0 := by
  rwa [Recv.CreditFits, hread, hfinal, hmax, hwindow]

/-- The credit of the connection can be told when `n` more bytes were read. -/
def Streams.CreditFits (s : Streams) (n : ℕ) : Prop :=
  LimitFits s.recv_limit s.cfg.max_data (s.consumed + n + s.cfg.max_data)

instance (s : Streams) (n : ℕ) : Decidable (s.CreditFits n) :=
  inferInstanceAs (Decidable (LimitFits _ _ _))

/-- What holds of the receiving sides, of those that are forgotten too.  `owed` bytes were read and
are not counted yet. -/
structure RecvSide (owed : ℕ) (s : Streams) : Prop where
  sides : ∀ id r, s.recvOf id = some r → RecvOk r
  gone : ∀ e ∈ s.forgotten, ∀ r, e.2.recv = some r → RecvOk r
  total : s.recv_total = s.total Recv.high
  consumed : s.consumed + owed = s.total Recv.consumed
  le : s.recv_total ≤ s.recv_limit
  limit_le : s.recv_limit ≤ MAX_VARINT

lemma Stream.part_le {f g : Recv → ℕ} {st : Stream} (h : ∀ r, st.recv = some r → f r ≤ g r) :
    st.part f ≤ st.part g := by
  rw [Stream.part, Stream.part]
  cases hr : st.recv with
  | none => exact le_rfl
  | some r => exact h r hr

namespace RecvSide

variable {s t : Streams} {id owed : ℕ} {r r' : Recv}

variable (h : RecvSide owed s)
include h

lemma consumed_le : s.consumed + owed ≤ s.recv_total := by
  rw [h.consumed, h.total, Streams.total, Streams.total]
  refine add_le_add ?_ ?_
  · rw [BTreeMap.sum, BTreeMap.sum]
    refine sum_le_sum fun e he => Stream.part_le fun r hr => ?_
    refine (h.sides e.1 r ?_).consumed_le
    rw [Streams.recvOf, get_eq_some.2 (mem_def.2 he)]
    exact hr
  · exact sum_le_sum fun e he => Stream.part_le fun r hr => (h.gone e he r hr).consumed_le

lemma sendOnly (ht : s.SendOnly t) : RecvSide owed t := by
  have hforgotten := congrArg (·.forgotten) ht.accounts
  obtain ⟨htotal, hconsumed, hlimit⟩ := Streams.recvCounts_eq ht.accounts
  simp only [Streams.accounts] at hforgotten
  refine ⟨fun j y hy => h.sides j y (ht.recvOf j ▸ hy), by rw [hforgotten]; exact h.gone, ?_, ?_,
    ?_, hlimit ▸ h.limit_le⟩
  · rw [htotal, ht.total, h.total]
  · rw [hconsumed, ht.total, h.consumed]
  · rw [htotal, hlimit]
    exact h.le

lemma update (hr : s.recvOf id = some r) (hok : RecvOk r')
    (htotal : t.recv_total + r.high = s.recv_total + r'.high)
    {owed' : ℕ} (hconsumed : t.consumed + owed' + r.consumed = s.consumed + owed + r'.consumed)
    (hle : t.recv_total ≤ s.recv_limit) (hlimit : t.recv_limit = s.recv_limit)
    (hstreams : t.streams = (s.setRecv id r').streams)
    (hforgotten : t.forgotten = s.forgotten) : RecvSide owed' t := by
  have hf : (s.setRecv id r').forgotten = s.forgotten :=
    congrArg (·.forgotten) (Streams.accounts_setRecv s id r')
  have ht : ∀ f, t.total f = (s.setRecv id r').total f := by
    intro f
    rw [Streams.total, Streams.total, hstreams, hforgotten, hf]
  have hrecv : ∀ j, t.recvOf j = if j = id then some r' else s.recvOf j := by
    intro j
    rw [← Streams.recvOf_setRecv hr, Streams.recvOf, hstreams, Streams.recvOf]
  refine ⟨fun j y hy => ?_, hforgotten ▸ h.gone, ?_, ?_, hle.trans hlimit.ge, hlimit ▸ h.limit_le⟩
  · rw [hrecv] at hy
    split_ifs at hy
    · rw [Option.some.injEq] at hy
      exact hy ▸ hok
    · exact h.sides j y hy
  · have := Streams.total_setRecv hr r' Recv.high
    rw [ht]
    have := h.total
    omega
  · have := Streams.total_setRecv hr r' Recv.consumed
    rw [ht]
    have := h.consumed
    omega

lemma setRecv (hr : s.recvOf id = some r) (r' : Recv) (hok : RecvOk r')
    (hhigh : r'.high = r.high) (hconsumed : r'.consumed = r.consumed) :
    RecvSide owed (s.setRecv id r') := by
  have ha := Streams.accounts_setRecv s id r'
  obtain ⟨htotal, hc, hlimit⟩ := Streams.recvCounts_eq ha
  exact h.update hr hok (by rw [htotal, hhigh]) (by rw [hc, hconsumed])
    (htotal.trans_le h.le) hlimit
    rfl (congrArg (·.forgotten) ha)

lemma forgot {st : Stream} (hst : s.streams.get id = some st)
    (hf : s.Forgot t id st) : RecvSide owed t := by
  have htotal : t.recv_total = s.recv_total := congrArg (·.recv_total) hf.accounts
  have hc : t.consumed = s.consumed := congrArg (·.consumed) hf.accounts
  have hlimit : t.recv_limit = s.recv_limit := congrArg (·.recv_limit) hf.accounts
  refine ⟨fun j y hy => ?_, fun e he y hy => ?_, ?_, ?_, ?_, hlimit ▸ h.limit_le⟩
  · rw [hf.recvOf] at hy
    split_ifs at hy
    exact h.sides j y hy
  · rw [hf.forgotten, mem_append, mem_singleton] at he
    rcases he with he | rfl
    · exact h.gone e he y hy
    · exact h.sides id y (by rw [Streams.recvOf, hst]; exact hy)
  · rw [htotal, hf.total hst, h.total]
  · rw [hc, hf.total hst, h.consumed]
  · rw [htotal, hlimit]
    exact h.le

lemma cleanup (id : ℕ) : RecvSide owed (s.cleanup id) := by
  rcases Streams.cleanup_cases s id with heq | ⟨st, hst, -, hf⟩
  · rwa [heq]
  · exact h.forgot hst hf

lemma growConnectionWindow (hfits : s.CreditFits 0) : RecvSide owed s.growConnectionWindow := by
  have hconsumed := h.consumed_le
  have hlimit := h.le.trans h.limit_le
  rw [Streams.growConnectionWindow, addU64_eq (by omega) s.cfg.max_data_le]
  split
  · rename_i hnew
    exact ⟨h.sides, h.gone, h.total, h.consumed, h.le.trans hnew.1.le, hfits hnew.1 hnew.2⟩
  · exact h

lemma insert (hnone : s.streams.get id = none) {st : Stream}
    (hstreams : t.streams = s.streams.insert id st)
    (hrecv : ∀ r, st.recv = some r → RecvOk r ∧ r.high = 0 ∧ r.consumed = 0)
    (hforgotten : t.forgotten = s.forgotten) (htotal : t.recv_total = s.recv_total)
    (hconsumed : t.consumed = s.consumed) (hlimit : t.recv_limit = s.recv_limit) :
    RecvSide owed t := by
  have hpart : ∀ f : Recv → ℕ, (∀ r, st.recv = some r → f r = 0) → t.total f = s.total f := by
    intro f hf
    have hzero : st.part f = 0 := by
      rw [Stream.part]
      cases hr : st.recv with
      | none => rfl
      | some r => exact hf r hr
    rw [Streams.total, Streams.total, hstreams, hforgotten, sum_insert,
      remove_of_get_none hnone, hzero]
    rfl
  refine ⟨fun j y hy => ?_, hforgotten ▸ h.gone, ?_, ?_, ?_, hlimit ▸ h.limit_le⟩
  · rw [Streams.recvOf, hstreams, get_insert] at hy
    split_ifs at hy with hj
    · exact (hrecv y hy).1
    · exact h.sides j y hy
  · rw [htotal, h.total, hpart _ fun r hr => (hrecv r hr).2.1]
  · rw [hconsumed, h.consumed, hpart _ fun r hr => (hrecv r hr).2.2]
  · rw [htotal, hlimit]
    exact h.le

end RecvSide

/-! ### Which streams there are -/

lemma indexOf_makeId (i : ℕ) (k : Kind) (c : Bool) : indexOf (makeId i k c) = i := by
  cases k <;> cases c <;> simp only [indexOf, makeId, Kind.index, Bool.not_true, Bool.not_false,
    Bool.toNat_true, Bool.toNat_false] <;> omega

lemma kindOf_makeId (i : ℕ) (k : Kind) (c : Bool) : kindOf (makeId i k c) = k := by
  cases k <;> cases c <;> simp only [kindOf, makeId, Kind.index, Bool.not_true, Bool.not_false,
    Bool.toNat_true, Bool.toNat_false] <;> split_ifs <;> first | rfl | omega

lemma isClientInitiated_makeId (i : ℕ) (k : Kind) (c : Bool) :
    isClientInitiated (makeId i k c) = c := by
  cases k <;> cases c <;> simp only [isClientInitiated, makeId, Kind.index, Bool.not_true,
    Bool.not_false, Bool.toNat_true, Bool.toNat_false, decide_eq_true_eq,
      decide_eq_false_iff_not] <;>
    omega

lemma makeId_indexOf (id : ℕ) : makeId (indexOf id) (kindOf id) (isClientInitiated id) = id := by
  by_cases h1 : id / 2 % 2 = 0 <;> by_cases h2 : id % 2 = 0 <;>
    simp only [makeId, indexOf, kindOf, isClientInitiated, h1, h2, if_true, if_false, Kind.index,
      decide_true, decide_false, Bool.not_true, Bool.not_false, Bool.toNat_true,
        Bool.toNat_false] <;>
    omega

namespace Streams

def Opened (s : Streams) (id : ℕ) : Prop :=
  indexOf id <
    (if isClientInitiated id = s.cfg.client then s.opened else s.peer_opened).get (kindOf id)

def counts (s : Streams) : Streams :=
  { s.accounts with
    recv_limit := 0
    recv_total := 0
    consumed := 0
    send_max_data := 0
    sent_total := 0 }

/-- What holds of the streams that there are: each that was opened is there or was forgotten. -/
structure Opens (log : List StreamFrame) (s : Streams) : Prop where
  ever : ∀ id, s.Opened id ↔ s.contains id = true ∨ id ∈ s.forgotten.map Prod.fst
  nodup : (s.forgotten.map Prod.fst).Nodup
  apart : ∀ id ∈ s.forgotten.map Prod.fst, s.contains id = false
  used : ∀ id offset len fin, StreamFrame.stream id offset len fin ∈ log → s.Opened id
  opened : ∀ k, s.opened.get k ≤ s.peer_max_streams.get k
  peer_opened : ∀ k, s.peer_opened.get k ≤ s.max_streams.get k
  streams_le : ∀ k, s.peer_max_streams.get k ≤ MAX_STREAMS_LIMIT
  peer_le : ∀ k, s.peer_opened.get k ≤ MAX_STREAMS_LIMIT
  max_le : ∀ k, s.max_streams.get k ≤ MAX_VARINT
  peer : ∀ p ∈ s.peer, p.bidi_local ≤ MAX_VARINT ∧ p.bidi_remote ≤ MAX_VARINT ∧ p.uni ≤ MAX_VARINT

namespace Opens

variable {log log' : List StreamFrame} {s t : Streams} {id : ℕ}

variable (h : Opens log s)
include h

lemma congr (hcontains : ∀ j, t.contains j = s.contains j)
    (ha : t.counts = s.counts)
    (hlog : ∀ id offset len fin, StreamFrame.stream id offset len fin ∈ log' → s.Opened id) :
    Opens log' t := by
  have hcfg : t.cfg = s.cfg := congrArg (·.cfg) ha
  have hopened : t.opened = s.opened := congrArg (·.opened) ha
  have hpeer : t.peer_opened = s.peer_opened := congrArg (·.peer_opened) ha
  have hforgotten : t.forgotten = s.forgotten := congrArg (·.forgotten) ha
  have hlimit : t.peer_max_streams = s.peer_max_streams := congrArg (·.peer_max_streams) ha
  have hlimit' : t.max_streams = s.max_streams := congrArg (·.max_streams) ha
  have hparams : t.peer = s.peer := congrArg (·.peer) ha
  have hOpened : ∀ j, t.Opened j ↔ s.Opened j := by
    intro j
    rw [Opened, Opened, hcfg, hopened, hpeer]
  refine ⟨fun j => ?_, hforgotten ▸ h.nodup, fun j hj => ?_, fun j o l f hf => ?_, ?_, ?_,
    hlimit ▸ h.streams_le, hpeer ▸ h.peer_le, hlimit' ▸ h.max_le, hparams ▸ h.peer⟩
  · rw [hOpened, hcontains, hforgotten]
    exact h.ever j
  · rw [hcontains]
    rw [hforgotten] at hj
    exact h.apart j hj
  · exact (hOpened j).2 (hlog j o l f hf)
  · rw [hopened, hlimit]
    exact h.opened
  · rw [hpeer, hlimit']
    exact h.peer_opened

lemma sendOnly (ht : s.SendOnly t) : Opens log t :=
  h.congr ht.contains (by rw [counts, ht.accounts, counts]) h.used

lemma recvOnly (ht : s.RecvOnly t) : Opens log t :=
  h.congr ht.contains
    (congrArg (fun u : Streams => { u with send_max_data := 0, sent_total := 0 }) ht.accounts)
    h.used

lemma append {f : StreamFrame}
    (hf : ∀ id offset len fin, f = .stream id offset len fin → s.contains id = true) :
    Opens (log ++ [f]) s := by
  refine h.congr (fun _ => rfl) rfl fun j o l b hin => ?_
  rcases mem_append.1 hin with hin | hin
  · exact h.used j o l b hin
  · exact (h.ever j).2 (.inl (hf j o l b (mem_singleton.1 hin).symm))

lemma forgot {st : Stream} (hst : s.streams.get id = some st)
    (hf : s.Forgot t id st) : Opens log t := by
  have hcfg : t.cfg = s.cfg := congrArg (·.cfg) hf.accounts
  have hopened : t.opened = s.opened := congrArg (·.opened) hf.accounts
  have hpeer : t.peer_opened = s.peer_opened := congrArg (·.peer_opened) hf.accounts
  have hlimit : t.peer_max_streams = s.peer_max_streams :=
    congrArg (·.peer_max_streams) hf.accounts
  have hparams : t.peer = s.peer := congrArg (·.peer) hf.accounts
  have hthere : s.contains id = true := by
    rw [contains, hst]
    rfl
  have hcontains : ∀ j, t.contains j = if j = id then false else s.contains j := by
    intro j
    rw [contains, hf.streams, get_remove]
    split_ifs <;> rfl
  have hOpened : ∀ j, t.Opened j ↔ s.Opened j := by
    intro j
    rw [Opened, Opened, hcfg, hopened, hpeer]
  have hnot : id ∉ s.forgotten.map Prod.fst := by
    intro hin
    rw [h.apart id hin] at hthere
    cases hthere
  have hids : t.forgotten.map Prod.fst = s.forgotten.map Prod.fst ++ [id] := by
    rw [hf.forgotten, map_append]
    rfl
  refine ⟨fun j => ?_, ?_, fun j hj => ?_,
    fun j o l f hin => (hOpened j).2 (h.used j o l f hin), ?_,
    fun k => ?_, hlimit ▸ h.streams_le, hpeer ▸ h.peer_le, fun k => (hf.max_streams h.max_le k).2,
    hparams ▸ h.peer⟩
  · rw [hOpened, hids, hcontains, h.ever, mem_append, mem_singleton]
    by_cases hj : j = id
    · simp [hj, hthere]
    · simp [hj]
  · rw [hids]
    exact nodup_append'.2 ⟨h.nodup, nodup_singleton _, by simpa using hnot⟩
  · rw [hids, mem_append, mem_singleton] at hj
    rw [hcontains]
    split_ifs with hid
    · rfl
    · exact h.apart j (hj.resolve_right hid)
  · rw [hopened, hlimit]
    exact h.opened
  · rw [hpeer]
    exact (h.peer_opened k).trans (hf.max_streams h.max_le k).1

lemma cleanup (id : ℕ) : Opens log (s.cleanup id) := by
  rcases cleanup_cases s id with heq | ⟨st, hst, -, hf⟩
  · rwa [heq]
  · exact h.forgot hst hf

lemma id_le (hthere : s.contains id = true) : id ≤ MAX_VARINT := by
  have hopened := (h.ever id).2 (.inl hthere)
  have h1 := (h.opened (kindOf id)).trans (h.streams_le _)
  have h2 := h.peer_le (kindOf id)
  rw [Opened, indexOf] at hopened
  rw [MAX_STREAMS_LIMIT] at h1 h2
  rw [MAX_VARINT]
  split_ifs at hopened <;> omega

lemma insert {c : Bool} {k : Kind}
    (hcontains : ∀ j, t.contains j =
      if j = makeId ((if c = s.cfg.client then s.opened else s.peer_opened).get k) k c then true
      else s.contains j)
    (hcount : ∀ k', (if c = s.cfg.client then t.opened else t.peer_opened).get k' =
      if k' = k then (if c = s.cfg.client then s.opened else s.peer_opened).get k + 1
      else (if c = s.cfg.client then s.opened else s.peer_opened).get k')
    (hother : (if c = s.cfg.client then t.peer_opened else t.opened) =
      if c = s.cfg.client then s.peer_opened else s.opened)
    (hcfg : t.cfg = s.cfg) (hforgotten : t.forgotten = s.forgotten) (hpeer : t.peer = s.peer)
    (hopened : ∀ k, t.opened.get k ≤ t.peer_max_streams.get k)
    (hpeer_opened : ∀ k, t.peer_opened.get k ≤ t.max_streams.get k)
    (hstreams_le : t.peer_max_streams = s.peer_max_streams)
    (hpeer_le : ∀ k, t.peer_opened.get k ≤ MAX_STREAMS_LIMIT)
    (hmax_le : t.max_streams = s.max_streams) : Opens log t := by
  set i := (if c = s.cfg.client then s.opened else s.peer_opened).get k with hi
  have hOpened : ∀ j, t.Opened j ↔ s.Opened j ∨ j = makeId i k c := by
    intro j
    have hid : j = makeId i k c ↔ indexOf j = i ∧ kindOf j = k ∧ isClientInitiated j = c := by
      constructor
      · rintro rfl
        exact ⟨indexOf_makeId _ _ _, kindOf_makeId _ _ _, isClientInitiated_makeId _ _ _⟩
      · rintro ⟨h1, h2, h3⟩
        rw [← makeId_indexOf j, h1, h2, h3]
    rw [hid, Opened, Opened, hcfg]
    by_cases hc : isClientInitiated j = c
    · rw [hc, hcount]
      by_cases hk : kindOf j = k
      · rw [if_pos hk, hk, ← hi]
        simp only [and_true]
        omega
      · rw [if_neg hk]
        simp [hk]
    · have hsame : (if isClientInitiated j = s.cfg.client then t.opened else t.peer_opened) =
          if isClientInitiated j = s.cfg.client then s.opened else s.peer_opened := by
        by_cases hcc : c = s.cfg.client
        · rw [if_pos hcc, if_pos hcc] at hother
          rw [if_neg (hcc ▸ hc), if_neg (hcc ▸ hc), hother]
        · have hj : isClientInitiated j = s.cfg.client := by
            cases h1 : isClientInitiated j <;> cases h2 : s.cfg.client <;> cases h3 : c <;>
              simp_all
          rw [if_neg hcc, if_neg hcc] at hother
          rw [if_pos hj, if_pos hj, hother]
      rw [hsame]
      simp [hc]
  have hnew : ¬s.Opened (makeId i k c) := by
    rw [Opened, indexOf_makeId, kindOf_makeId, isClientInitiated_makeId]
    exact lt_irrefl _
  refine ⟨fun j => ?_, hforgotten ▸ h.nodup, fun j hj => ?_,
    fun j o l f hin => (hOpened j).2 (.inl (h.used j o l f hin)), hopened, hpeer_opened,
    hstreams_le ▸ h.streams_le, hpeer_le, hmax_le ▸ h.max_le, hpeer ▸ h.peer⟩
  · rw [hOpened, h.ever, hcontains, hforgotten]
    by_cases hj : j = makeId i k c
    · simp [hj]
    · simp [hj]
  · rw [hforgotten] at hj
    rw [hcontains]
    split_ifs with hid
    · exact absurd ((h.ever _).2 (.inr (hid ▸ hj))) hnew
    · exact h.apart j hj

end Opens

end Streams

end Lazaret.Quic.Flow
