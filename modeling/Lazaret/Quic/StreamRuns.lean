import Lazaret.Quic.StreamSteps

/-!
# The streams over whole runs

The accounting is right in every run of calls in which no acknowledgment completes a stream that is
in the queue of those that have something to send: such a stream is forgotten, or stays, without
leaving the queue.  A probe leads there: the frame of a packet that is still out is put back to be
sent, and the packet is acknowledged.  Nor may a number be left to be sent that is no
variable-length integer: writing its frame panics.
-/

namespace Lazaret.Quic.Flow

open List BTreeMap
open Wire (Frame MAX_VARINT MAX_STREAMS_LIMIT)

def firstWrong : List (Bool × String) → Except String Unit
  | [] => .ok ()
  | (wrong, what) :: rest => if wrong then .error what else firstWrong rest

lemma firstWrong_eq_ok {l : List (Bool × String)} (h : ∀ e ∈ l, e.1 = false) :
    firstWrong l = .ok () := by
  induction l with
  | nil => rfl
  | cons e l ih =>
    rw [firstWrong, if_neg (by simp [h e mem_cons_self])]
    exact ih fun e he => h e (mem_cons_of_mem _ he)

lemma forM_eq_ok {α : Type} {l : List α} {f : α → Except String Unit}
    (h : ∀ a ∈ l, f a = .ok ()) : l.forM f = .ok () := by
  induction l with
  | nil => rfl
  | cons a l ih =>
    change (f a >>= fun _ => l.forM f) = .ok ()
    rw [h a mem_cons_self]
    exact ih fun a ha => h a (mem_cons_of_mem _ ha)

/-- A number that may be missing, as the debugging output has it. -/
def debug : Option ℕ → String
  | some n => s!"Some({n})"
  | none => "None"

namespace Streams

def checkSendSide (s : Streams) (id : ℕ) (x : Send) : Except String Unit :=
  firstWrong
    -- the buffer of a stream that was reset is cleared
    [(x.sending && x.max_data < x.buf.sent,
        s!"stream {id}: sent {x.buf.sent} beyond the limit {x.max_data}"),
      (x.queued && x.parked, s!"stream {id} is queued and parked"),
      (x.queued ≠ decide (id ∈ s.send_queue) || x.parked ≠ (s.parked.get id).isSome,
        s!"stream {id}: the queue and the stream disagree"),
      (x.state = .reset && x.reset.isNone, s!"stream {id}: reset with no reset")]

def checkRecvSide (id : ℕ) (r : Recv) : Except String Unit :=
  firstWrong
    [(r.high < r.buf.read || r.max_data < r.high || r.high < r.buf.endOffset,
        s!"stream {id}: read {r.buf.read}, high {r.high}, limit {r.max_data}, end " ++
          s!"{r.buf.endOffset}"),
      (r.final_size.any fun size => size < r.high,
        s!"stream {id}: final size {debug r.final_size} below {r.high}")]

def checkStream (s : Streams) (e : ℕ × Stream) : Except String Unit := do
  match e.2.send with
  | some x => s.checkSendSide e.1 x
  | none => pure ()
  match e.2.recv with
  | some r => checkRecvSide e.1 r
  | none => pure ()

def checkKind (s : Streams) (k : Kind) : List (Bool × String) :=
  [(s.peer_max_streams.get k < s.opened.get k,
      s!"opened {s.opened.get k} streams of kind {k.index}, the limit is " ++
        s!"{s.peer_max_streams.get k}"),
    (s.max_streams.get k < s.peer_opened.get k,
      s!"the peer opened {s.peer_opened.get k} streams of kind {k.index}, the limit is " ++
        s!"{s.max_streams.get k}")]

/-- How many streams have a mark on their sending side. -/
def count (s : Streams) (mark : Send → Bool) : ℕ :=
  (s.streams.entries.filter fun e => e.2.send.any mark).length

/-- Checks what must hold of the accounting, whatever has happened.  The error says what does
not. -/
def check (s : Streams) : Except String Unit := do
  firstWrong
    ([(decide (s.send_max_data < s.sent_total),
        s!"sent {s.sent_total} beyond the connection's limit {s.send_max_data}"),
      (s.recv_limit < s.recv_total || s.recv_total < s.consumed,
        s!"received {s.recv_total} (limit {s.recv_limit}), consumed {s.consumed}")] ++
      s.checkKind .bidi ++ s.checkKind .uni)
  s.streams.entries.forM s.checkStream
  let queued := s.count Send.queued
  let parked := s.count Send.parked
  firstWrong
    [(queued ≠ s.send_queue.length || parked ≠ s.parked.len,
      s!"{queued} queued, {s.send_queue.length} in the queue; {parked} parked, {s.parked.len} " ++
        "in the set")]

lemma count_eq {s : Streams} {mark : Send → Bool} {ids : List ℕ} (hids : ids.Nodup)
    (h : ∀ id, id ∈ ids ↔ ∃ x, s.sendOf id = some x ∧ mark x = true) : s.count mark =
      ids.length := by
  have hkeys : ((s.streams.entries.filter fun e => e.2.send.any mark).map Prod.fst).Nodup :=
    ((s.streams.sorted.filter _).imp fun hab => hab.ne).map Prod.fst fun _ _ hab => hab
  have hperm : ((s.streams.entries.filter fun e => e.2.send.any mark).map Prod.fst).Perm ids := by
    refine (perm_ext_iff_of_nodup hkeys hids).2 fun id => ?_
    rw [h]
    simp only [mem_map, mem_filter]
    constructor
    · rintro ⟨e, ⟨he, hmark⟩, rfl⟩
      rw [Option.any_eq_true] at hmark
      obtain ⟨x, hx, hxm⟩ := hmark
      refine ⟨x, ?_, hxm⟩
      rw [sendOf, get_eq_some.2 (mem_def.2 he)]
      exact hx
    · rintro ⟨x, hx, hxm⟩
      obtain ⟨st, hst, hsend⟩ := get_of_sendOf hx
      refine ⟨(id, st), ⟨mem_def.1 (get_eq_some.1 hst), ?_⟩, rfl⟩
      rw [Option.any_eq_true]
      exact ⟨x, hsend, hxm⟩
  rw [count, ← hperm.length_eq, length_map]

theorem check_eq_ok {log : List StreamFrame} {s : Streams} (h : Sound [] log s) :
    s.check = .ok () := by
  have hparked : ∀ id, id ∈ s.parked.entries.map Prod.fst ↔ (s.parked.get id).isSome = true := by
    intro id
    rw [Option.isSome_iff_exists]
    simp only [get_eq_some, mem_def, mem_map]
    constructor
    · rintro ⟨e, he, rfl⟩
      exact ⟨e.2, he⟩
    · rintro ⟨v, hv⟩
      exact ⟨_, hv, rfl⟩
  have hstart : firstWrong
      ([(decide (s.send_max_data < s.sent_total),
          s!"sent {s.sent_total} beyond the connection's limit {s.send_max_data}"),
        (s.recv_limit < s.recv_total || s.recv_total < s.consumed,
          s!"received {s.recv_total} (limit {s.recv_limit}), consumed {s.consumed}")] ++
        s.checkKind .bidi ++ s.checkKind .uni) = .ok () := by
    have h1 := h.send.le
    have h2 := h.recv.le
    have h3 := h.recv.consumed_le
    have h4 := h.opens.opened
    have h5 := h.opens.peer_opened
    refine firstWrong_eq_ok ?_
    simp only [checkKind, mem_append, mem_cons, not_mem_nil, or_false]
    rintro e ((((rfl | rfl) | rfl | rfl)) | rfl | rfl)
    · simpa using h1
    · simp only [Bool.or_eq_false_iff, decide_eq_false_iff_not]
      omega
    · simpa using h4 .bidi
    · simpa using h5 .bidi
    · simpa using h4 .uni
    · simpa using h5 .uni
  have hstreams : ∀ e ∈ s.streams.entries, s.checkStream e = .ok () := by
    intro e he
    have hget := get_eq_some.2 (mem_def.2 he)
    have hsend : ∀ x, e.2.send = some x → s.checkSendSide e.1 x = .ok () := by
      intro x hx
      have hat : s.sendOf e.1 = some x := by rw [sendOf, hget]; exact hx
      have hok := h.send.sides e.1 x hat
      have hpark := h.send.isSome_parked hat (by simp)
      have hq : decide (e.1 ∈ s.send_queue) = x.queued := by
        rw [Bool.eq_iff_iff, decide_eq_true_eq, h.send.queue]
        simp [hat]
      refine firstWrong_eq_ok ?_
      simp only [mem_cons, not_mem_nil, or_false]
      rintro e (rfl | rfl | rfl | rfl)
      · simp only [Bool.and_eq_false_imp, decide_eq_false_iff_not, not_lt]
        exact hok.sent_le
      · have := hok.apart
        simpa using this
      · simp [hq, hpark]
      · simp only [Bool.and_eq_false_imp, decide_eq_true_eq]
        intro hreset
        have := hok.reset hreset
        rwa [← Option.not_isSome, Bool.not_eq_false']
    have hrecv : ∀ r, e.2.recv = some r → checkRecvSide e.1 r = .ok () := by
      intro r hr
      have hat : s.recvOf e.1 = some r := by rw [recvOf, hget]; exact hr
      have hok := h.recv.sides e.1 r hat
      refine firstWrong_eq_ok ?_
      simp only [mem_cons, not_mem_nil, or_false]
      rintro e (rfl | rfl)
      · have h1 := hok.read_le
        have h2 := hok.high_le
        have h3 := hok.endOffset_le
        simp only [Bool.or_eq_false_iff, decide_eq_false_iff_not]
        omega
      · simp only [Option.any_eq_false, decide_eq_false_iff_not, not_lt]
        exact fun size hsize => hok.final size hsize
    rw [checkStream]
    cases hs : e.2.send with
    | none =>
      cases hr : e.2.recv with
      | none => rfl
      | some r => exact hrecv r hr
    | some x =>
      dsimp only
      rw [hsend x hs]
      cases hr : e.2.recv with
      | none => rfl
      | some r => exact hrecv r hr
  have hall := forM_eq_ok hstreams
  have hqueued := count_eq h.send.nodup h.send.queue
  have hpark : s.count Send.parked = (s.parked.entries.map Prod.fst).length :=
    count_eq ((s.parked.sorted.imp fun hab => hab.ne).map Prod.fst fun _ _ hab => hab) fun id => by
      rw [hparked, ← h.send.parked]
      simp
  rw [length_map] at hpark
  rw [check, hstart, hall]
  refine firstWrong_eq_ok ?_
  simp [hqueued, hpark, BTreeMap.len]

end Streams

/-! ### Runs -/

inductive Op where
  | «open» (bidirectional : Bool)
  | write (id : ℕ) (data : List UInt8) (fin : Bool)
  | read (id n : ℕ)
  | reset (id error : ℕ)
  | stopSending (id error : ℕ)
  | pollEvent
  | frame (f : Frame)
  | writeFrames (budget : ℕ)
  | acked (f : StreamFrame)
  | lost (f : StreamFrame)
deriving DecidableEq

structure World where
  streams : Streams
  sent : List StreamFrame
deriving DecidableEq

namespace World

/-- The streams at the start: the peer's parameters may be known. -/
def start (cfg : StreamsConfig) (params : Option TransportParameters) : World :=
  match params with
  | some p => ⟨(Streams.new cfg).setPeerParams p, []⟩
  | none => ⟨Streams.new cfg, []⟩

/-- A call; none if it ends the connection, or panics. -/
def step (w : World) : Op → Option World
  | .open bidirectional => some { w with streams := (w.streams.open bidirectional).2 }
  | .write id data fin => (w.streams.write id data fin).map fun p => { w with streams := p.2 }
  | .read id n => some { w with streams := (w.streams.read id n).2 }
  | .reset id error => some { w with streams := (w.streams.reset id error).2 }
  | .stopSending id error => some { w with streams := (w.streams.stopSending id error).2 }
  | .pollEvent => some { w with streams := w.streams.pollEvent.2 }
  | .frame f =>
    match w.streams.onFrame f with
    | .ok s => some { w with streams := s }
    | .error _ => none
  | .writeFrames budget => (w.streams.writeFrames budget).map fun p => ⟨p.1, w.sent ++ p.2.sent⟩
  | .acked f => some { w with streams := w.streams.onAcked f }
  | .lost f => some { w with streams := w.streams.onLost f }

/-- A frame that arrives is one that is read, and what is said of a frame is said of one that was
sent, however often and in whatever order. -/
def Allowed (w : World) : Op → Prop
  | .frame f => Accepted f
  | .acked f => f ∈ w.sent
  | .lost f => f ∈ w.sent
  | _ => True

instance (w : World) (op : Op) : Decidable (w.Allowed op) := by
  cases op <;> unfold Allowed <;> infer_instance

/-- The call acknowledges no frame that completes a stream which is in the queue. -/
def Quiet (w : World) : Op → Prop
  | .acked f => w.streams.completesQueued f = false
  | _ => True

instance (w : World) (op : Op) : Decidable (w.Quiet op) := by
  cases op <;> unfold Quiet <;> infer_instance

/-- The numbers that the call leaves to be sent are variable-length integers: the code of an
application that gives up a stream or does not want it, and a limit that moves up. -/
def Fits (w : World) : Op → Prop
  | .read id n => ∀ r ∈ w.streams.recvOf id, r.state = .open → r.discard = false →
      w.streams.Room r (r.buf.readInto n).1.length
  | .reset id error => ∀ x ∈ w.streams.sendOf id, x.sending = true → error ≤ MAX_VARINT
  | .stopSending id error => ∀ r ∈ w.streams.recvOf id, r.state = .open → r.discard = false →
      (r.allReceived = false → error ≤ MAX_VARINT) ∧ w.streams.Room r r.buf.discard.1
  | .frame f => w.streams.FrameFits f
  | _ => True

instance (w : World) (op : Op) : Decidable (w.Fits op) := by
  cases op <;> unfold Fits <;> infer_instance

/-- The step is one of the connection's, meets no stream in the queue, and leaves room for what it
has to tell the peer. -/
def Keeps (w : World) (op : Op) : Prop := w.Allowed op ∧ w.Quiet op ∧ w.Fits op

instance (w : World) (op : Op) : Decidable (w.Keeps op) := inferInstanceAs (Decidable (_ ∧ _ ∧ _))

/-- What holds of the accounting, whatever has happened. -/
structure Accounted (w : World) : Prop where
  check : w.streams.check = .ok ()
  sent_le : w.streams.sent_total ≤ w.streams.send_max_data
  consumed_le : w.streams.consumed ≤ w.streams.recv_total
  received_le : w.streams.recv_total ≤ w.streams.recv_limit
  opened : ∀ k, w.streams.opened.get k ≤ w.streams.peer_max_streams.get k
  peer_opened : ∀ k, w.streams.peer_opened.get k ≤ w.streams.max_streams.get k
  /-- No byte at the limit of its stream, or past it, was ever sent. -/
  stream_sent : ∀ id x, w.streams.sendOf id = some x → ∀ y, (id, y) ∈ carried w.sent →
    y < x.max_data
  /-- What the buffer of a side that sends says was sent is what was sent. -/
  buf_sent : ∀ id x, w.streams.sendOf id = some x → x.sending = true →
    x.buf.sent ≤ x.max_data ∧ ∀ y, (id, y) ∈ carried w.sent ↔ y < x.buf.sent
  read_le : ∀ id r, w.streams.recvOf id = some r →
    r.buf.read ≤ r.high ∧ r.buf.endOffset ≤ r.high ∧ r.high ≤ r.max_data
  final : ∀ id r, w.streams.recvOf id = some r → ∀ size ∈ r.final_size, r.high ≤ size
  queue : w.streams.send_queue.Nodup ∧ ∀ id, id ∈ w.streams.send_queue ↔
    ∃ x, w.streams.sendOf id = some x ∧ x.queued = true
  parked : ∀ id, (w.streams.parked.get id).isSome = true ↔
    ∃ x, w.streams.sendOf id = some x ∧ x.parked = true
  apart : ∀ id x, w.streams.sendOf id = some x → ¬(x.queued = true ∧ x.parked = true)
  /-- The streams ever opened are those that are there and those that were forgotten, each once. -/
  ever : ∀ id, w.streams.Opened id ↔
    (w.streams.contains id = true ∧ id ∉ w.streams.forgotten.map Prod.fst) ∨
      (w.streams.contains id = false ∧ id ∈ w.streams.forgotten.map Prod.fst)
  once : (w.streams.forgotten.map Prod.fst).Nodup
  received : w.streams.recv_total = w.streams.total Recv.high
  /-- The bytes sent, each counted once however often it was sent again. -/
  sent : w.streams.sent_total = (carried w.sent).card
  total : (∀ id data fin, (w.streams.write id data fin).isSome = true) ∧
    ∀ budget, (w.streams.writeFrames budget).isSome = true

/-- The accounting of the streams with the frames that were sent. -/
def Sound (w : World) : Prop := Streams.Sound [] w.sent w.streams

lemma sound_start (cfg : StreamsConfig) (params : Option TransportParameters) :
    (start cfg params).Sound := by
  have hnew : ∀ s : Streams, s.streams = .empty → s.send_queue = [] → s.parked = .empty →
      s.sent_total = 0 → s.recv_total = 0 → s.consumed = 0 → s.opened = ⟨0, 0⟩ →
      s.peer_opened = ⟨0, 0⟩ → s.forgotten = [] → s.send_max_data ≤ MAX_VARINT →
      s.recv_limit ≤ MAX_VARINT → (∀ k, s.peer_max_streams.get k ≤ MAX_STREAMS_LIMIT) →
      (∀ k, s.max_streams.get k ≤ MAX_VARINT) →
      (∀ p ∈ s.peer, p.bidi_local ≤ MAX_VARINT ∧ p.bidi_remote ≤ MAX_VARINT ∧ p.uni ≤ MAX_VARINT) →
      Streams.Sound [] [] s := by
    intro s h1 h2 h3 h4 h5 h6 h7 h8 h9 hsendmax hlimit hpeermax hmax hparams
    have hsend : ∀ id, s.sendOf id = none := fun id => by
      rw [Streams.sendOf, h1, get_empty]
      rfl
    have hrecv : ∀ id, s.recvOf id = none := fun id => by
      rw [Streams.recvOf, h1, get_empty]
      rfl
    have hzero : ∀ (k : Kind), (⟨0, 0⟩ : PerKind ℕ).get k = 0 := fun k => by cases k <;> rfl
    have htotal : ∀ f, s.total f = 0 := fun f => by simp [Streams.total, h1, h9]
    refine ⟨⟨?_, ?_, ?_, ?_, ?_, ?_, ?_, hsendmax⟩, ⟨?_, ?_, ?_, ?_, ?_, hlimit⟩,
      ⟨?_, ?_, ?_, ?_, ?_, ?_, hpeermax, ?_, hmax, hparams⟩⟩
    · simp [hsend]
    · simp [h2]
    · simp [h2, hsend]
    · simp [h3, hsend]
    · simp
    · simp [h4, carried]
    · simp [h4]
    · simp [hrecv]
    · simp [h9]
    · rw [h5, htotal]
    · rw [h6, htotal]
    · rw [h5]
      exact Nat.zero_le _
    · intro id
      have hnot : ¬s.Opened id := by
        rw [Streams.Opened, h7, h8, ite_self, hzero]
        exact Nat.not_lt_zero _
      simp [hnot, Streams.contains, h1, h9]
    · simp [h9]
    · simp [h9]
    · simp
    · intro k
      rw [h7, hzero]
      exact Nat.zero_le _
    · intro k
      rw [h8, hzero]
      exact Nat.zero_le _
    · intro k
      rw [h8, hzero]
      exact Nat.zero_le _
  have hstreams : ∀ k, (Streams.new cfg).max_streams.get k ≤ MAX_VARINT := fun k => by
    cases k
    · exact cfg.streams_bidi_le
    · exact cfg.streams_uni_le
  cases params with
  | none =>
    refine hnew _ rfl rfl rfl rfl rfl rfl rfl rfl rfl (Nat.zero_le _) cfg.max_data_le (fun k => ?_)
      hstreams (by simp [start, Streams.new])
    cases k <;> exact Nat.zero_le _
  | some p =>
    refine hnew _ rfl rfl rfl rfl rfl rfl rfl rfl rfl p.data_le cfg.max_data_le
      (fun k => ?_) hstreams
      fun q hq => ?_
    · cases k <;> exact min_le_right _ _
    · simp only [start, Streams.setPeerParams, Option.mem_def, Option.some.injEq] at hq
      subst hq
      exact ⟨p.local_le, p.remote_le, p.uni_le⟩

lemma sound_step {w w' : World} {op : Op} (h : w.Sound) (hkeeps : w.Keeps op)
    (hstep : w.step op = some w') : w'.Sound := by
  obtain ⟨hok, hquiet, hfits⟩ := hkeeps
  change Streams.Sound [] w.sent w.streams at h
  cases op with
  | «open» bidirectional =>
    cases hstep
    exact h.open bidirectional
  | write id data fin =>
    obtain ⟨res, t, heq, ht⟩ := h.write id data fin
    rw [step, heq] at hstep
    cases hstep
    exact ht
  | read id n =>
    cases hstep
    exact h.read id n hfits
  | reset id error =>
    cases hstep
    exact h.reset id error hfits
  | stopSending id error =>
    cases hstep
    exact h.stopSending id error hfits
  | pollEvent =>
    cases hstep
    exact h.due rfl rfl rfl rfl
  | frame f =>
    rw [step] at hstep
    split at hstep
    · rename_i s hs
      cases hstep
      exact h.onFrame hok hfits hs
    · cases hstep
  | writeFrames budget =>
    obtain ⟨q, heq, hq⟩ := h.writeFrames budget
    rw [step, heq] at hstep
    cases hstep
    exact hq
  | acked f =>
    cases hstep
    exact h.onAcked hok hquiet
  | lost f =>
    cases hstep
    exact h.onLost f

lemma accounted_of_sound {w : World} (h : w.Sound) : w.Accounted where
  check := Streams.check_eq_ok h
  sent_le := h.send.le
  consumed_le := h.recv.consumed_le
  received_le := h.recv.le
  opened := h.opens.opened
  peer_opened := h.opens.peer_opened
  stream_sent := fun id x hx => (h.send.sides id x hx).below
  buf_sent := fun id x hx hs => ⟨(h.send.sides id x hx).sent_le hs, (h.send.sides id x hx).sent hs⟩
  read_le := fun id r hr =>
    ⟨(h.recv.sides id r hr).read_le, (h.recv.sides id r hr).endOffset_le,
    (h.recv.sides id r hr).high_le⟩
  final := fun id r hr => (h.recv.sides id r hr).final
  queue := ⟨h.send.nodup, h.send.queue⟩
  parked := fun id => by simpa using h.send.parked id
  apart := fun id x hx => (h.send.sides id x hx).apart
  ever := fun id => by
    rw [h.opens.ever]
    have hapart := h.opens.apart id
    cases hc : w.streams.contains id <;> by_cases hf : id ∈ w.streams.forgotten.map Prod.fst
    · simp [hf]
    · simp [hf]
    · rw [hapart hf] at hc
      cases hc
    · simp [hf]
  once := h.opens.nodup
  received := h.recv.total
  sent := h.send.total
  total := by
    refine ⟨fun id data fin => ?_, fun budget => ?_⟩
    · obtain ⟨res, t, heq, -⟩ := h.write id data fin
      rw [heq]
      rfl
    · obtain ⟨q, heq, -⟩ := h.writeFrames budget
      rw [heq]
      rfl

/-- The accounting holds in every state that a run reaches in which no acknowledgment completes a
stream that is in the queue, and no number is left to be sent that cannot be written. -/
theorem accounts_hold {cfg : StreamsConfig} {params : Option TransportParameters} {ops : List Op}
    {w : World} (h : Run step Keeps (start cfg params) ops w) : w.Accounted :=
  accounted_of_sound (h.invariant (fun _ _ _ hs hkeeps hstep => sound_step hs hkeeps hstep)
    (sound_start cfg params))

def client : StreamsConfig :=
  ⟨true, 1000, 100, 100, 100, 1, 1, 100, by decide, by decide, by decide, by decide, by decide,
    by decide⟩

def allowed : TransportParameters :=
  ⟨1000, 100, 100, 100, 1, 1, by decide, by decide, by decide, by decide⟩

/-- A stream of one byte, whose frame is acknowledged, and one of the peer's, which is read, not
wanted any more and reset; the answers are written. -/
def oneByte : List Op :=
  [.open false, .write 2 [65] true, .writeFrames 100, .acked (.stream 2 0 1 true),
    .frame (.stream 3 0 [1, 2, 3] false), .read 3 2, .stopSending 3 7, .writeFrames 100,
    .frame (.resetStream 3 7 5), .writeFrames 100]

/-- A stream of one byte, whose frame is sent again for a probe before it is acknowledged. -/
def probed : List Op :=
  [.open false, .write 2 [65] true, .writeFrames 100, .lost (.stream 2 0 1 true),
    .acked (.stream 2 0 1 true)]

theorem accounts_hold_one_byte : ∃ w,
    Run step Keeps (start client (some allowed)) oneByte w ∧
      w.Accounted ∧ w.streams.forgotten.length = 2 := by
  have hrun : (Run.exec step Keeps (start client (some allowed)) oneByte).any (fun w =>
      w.streams.forgotten.length = 2) = true := by with_unfolding_all decide
  obtain ⟨w, hw, hlen⟩ := (Option.any_eq_true _ _).1 hrun
  exact ⟨w, Run.of_exec hw, accounts_hold (Run.of_exec hw), by simpa using hlen⟩

/-- A stream that is acknowledged while it is in the queue stays there when it is forgotten. -/
theorem probed_stream_stays_queued : ∃ w,
    Run step Allowed (start client (some allowed)) probed w ∧ w.streams.send_queue = [2] ∧
      w.streams.contains 2 = false ∧
      w.streams.check = .error "0 queued, 1 in the queue; 0 parked, 0 in the set" ∧
      ¬w.Accounted := by
  have hrun : (Run.exec step Allowed (start client (some allowed)) probed).any (fun w =>
      w.streams.send_queue = [2] && w.streams.contains 2 = false &&
        w.streams.check = .error "0 queued, 1 in the queue; 0 parked, 0 in the set") = true := by
    with_unfolding_all decide
  obtain ⟨w, hw, hall⟩ := (Option.any_eq_true _ _).1 hrun
  simp only [Bool.and_eq_true, decide_eq_true_eq] at hall
  refine ⟨w, Run.of_exec hw, hall.1.1, hall.1.2, hall.2, fun hacc => ?_⟩
  have hok := hacc.check
  rw [hall.2] at hok
  cases hok

theorem wide_code_panics : ∃ w,
    Run step Allowed (start client (some allowed)) [.open false, .reset 2 (2 ^ 62)] w ∧
      w.streams.check = .ok () ∧ w.streams.writeFrames 100 = none := by
  have hrun : (Run.exec step Allowed (start client (some allowed))
      [.open false, .reset 2 (2 ^ 62)]).any (fun w =>
        w.streams.check = .ok () && w.streams.writeFrames 100 = none) = true := by
    with_unfolding_all decide
  obtain ⟨w, hw, hall⟩ := (Option.any_eq_true _ _).1 hrun
  simp only [Bool.and_eq_true, decide_eq_true_eq] at hall
  exact ⟨w, Run.of_exec hw, hall.1, hall.2⟩

end World

end Lazaret.Quic.Flow
