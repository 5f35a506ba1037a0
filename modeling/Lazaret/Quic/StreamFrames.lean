import Lazaret.Quic.StreamSides

/-!
# The frames that the streams send

What `Streams` (`quic/streams.rs`) puts in a packet: the flow control and the resets first, then
stream data, a frame for each stream in turn while there is room (`writeFrames`).  What it does when
it is told what became of a frame: `onAcked`, `onLost`.
-/

namespace Lazaret.Quic.Flow

open Wire (Frame MAX_VARINT MAX_STREAMS_LIMIT)

structure Writer where
  used : ℕ
  out : List Frame
  sent : List StreamFrame
deriving DecidableEq

/-- Writes the frame, and records it, if it fits in what is left of `budget`; whether it did.
Nothing where the source panics. -/
def Writer.put (w : Writer) (budget : ℕ) (f : Frame) (record : StreamFrame) :
    Option (Bool × Writer) := do
  let len ← f.len
  if w.used + len > budget then some (false, w)
  else some (true, ⟨w.used + len, w.out ++ [f], w.sent ++ [record]⟩)

/-- RESET_STREAM, if it is due, and whether it did not fit. -/
def Send.writeReset (x : Send) (id budget : ℕ) (w : Writer) : Option (Send × Writer × Bool) :=
  match x.reset with
  | some r =>
    if r.pending then do
      let (written, w) ← w.put budget (.resetStream id r.error r.final_size)
        (.resetStream id r.error r.final_size)
      some (if written then { x with reset := some { r with pending := false } } else x, w,
        !written)
    else some (x, w, false)
  | none => some (x, w, false)

/-- STREAM_DATA_BLOCKED, if it is due, and whether it did not fit. -/
def Send.writeBlocked (x : Send) (id budget : ℕ) (w : Writer) : Option (Send × Writer × Bool) :=
  if x.blocked_pending then do
    let limit := x.blocked_sent.getD x.max_data
    let (written, w) ← w.put budget (.streamDataBlocked id limit) (.streamDataBlocked id limit)
    some (if written then { x with blocked_pending := false } else x, w, !written)
  else some (x, w, false)

/-- The frames of the sending side of a stream that are due, and whether one did not fit. -/
def Send.writeControl (x : Send) (id budget : ℕ) (w : Writer) : Option (Send × Writer × Bool) := do
  let (x, w, more) ← x.writeReset id budget w
  let (x, w, more') ← x.writeBlocked id budget w
  some (x, w, more || more')

/-- STOP_SENDING, if it is due, and whether it did not fit. -/
def Recv.writeStop (r : Recv) (id budget : ℕ) (w : Writer) : Option (Recv × Writer × Bool) :=
  match r.stop with
  | some stop =>
    if stop.pending then do
      let (written, w) ← w.put budget (.stopSending id stop.error) (.stopSending id stop.error)
      some (if written then { r with stop := some { stop with pending := false } } else r, w,
        !written)
    else some (r, w, false)
  | none => some (r, w, false)

/-- MAX_STREAM_DATA, if it is due, and whether it did not fit. -/
def Recv.writeMaxData (r : Recv) (id budget : ℕ) (w : Writer) : Option (Recv × Writer × Bool) :=
  if r.max_data_pending then do
    let (written, w) ← w.put budget (.maxStreamData id r.max_data) (.maxStreamData id r.max_data)
    some (if written then { r with max_data_pending := false } else r, w, !written)
  else some (r, w, false)

/-- The frames of the receiving side of a stream that are due, and whether one did not fit. -/
def Recv.writeControl (r : Recv) (id budget : ℕ) (w : Writer) : Option (Recv × Writer × Bool) := do
  let r := if r.state ≠ .open then { r with max_data_pending := false, stop := none } else r
  let (r, w, more) ← r.writeStop id budget w
  let (r, w, more') ← r.writeMaxData id budget w
  some (r, w, more || more')

namespace Streams

def writeMaxData (budget : ℕ) (p : Streams × Writer) : Option (Streams × Writer) :=
  let (s, w) := p
  if s.max_data_pending then do
    let (written, w) ← w.put budget (.maxData s.recv_limit) (.maxData s.recv_limit)
    some (if written then { s with max_data_pending := false } else s, w)
  else some (s, w)

/-- How many streams of a kind the peer may open now. -/
def writeMaxStreams (budget : ℕ) (p : Streams × Writer) (k : Kind) : Option (Streams × Writer) :=
  let (s, w) := p
  let bidirectional := decide (k = .bidi)
  if s.max_streams_pending.get k then do
    let (written, w) ← w.put budget (.maxStreams bidirectional (s.max_streams.get k))
      (.maxStreams bidirectional (s.max_streams.get k))
    some (if written then { s with max_streams_pending := s.max_streams_pending.set k false }
      else s, w)
  else some (s, w)

/-- The frames about how many streams of a kind there may be. -/
def writeKind (budget : ℕ) (p : Streams × Writer) (k : Kind) : Option (Streams × Writer) := do
  let (s, w) ← writeMaxStreams budget p k
  if s.streams_blocked_pending.get k then
    let bidirectional := decide (k = .bidi)
    let limit := s.peer_max_streams.get k
    let unset := { s with streams_blocked_pending := s.streams_blocked_pending.set k false }
    if !s.open_blocked.get k then some (unset, w)
    else
      let (written, w) ← w.put budget (.streamsBlocked bidirectional limit)
        (.streamsBlocked bidirectional limit)
      some (if written then unset else s, w)
  else some (s, w)

def writeDataBlocked (budget : ℕ) (p : Streams × Writer) : Option (Streams × Writer) :=
  let (s, w) := p
  if s.data_blocked_pending then
    let unset := { s with data_blocked_pending := false }
    if s.parked.isEmpty then some (unset, w)
    else do
      let (written, w) ← w.put budget (.dataBlocked s.send_max_data) (.dataBlocked s.send_max_data)
      some (if written then unset else s, w)
  else some (s, w)

/-- The control frames of the sending side of a stream, and whether one did not fit. -/
def writeSendControl (budget : ℕ) (s : Streams) (w : Writer) (id : ℕ) :
    Option (Streams × Writer × Bool) :=
  match s.sendOf id with
  | some x => do
    let (x, w, more) ← x.writeControl id budget w
    some (s.setSend id x, w, more)
  | none => some (s, w, false)

/-- The control frames of the receiving side of a stream, and whether one did not fit. -/
def writeRecvControl (budget : ℕ) (s : Streams) (w : Writer) (id : ℕ) :
    Option (Streams × Writer × Bool) :=
  match s.recvOf id with
  | some r => do
    let (r, w, more) ← r.writeControl id budget w
    some (s.setRecv id r, w, more)
  | none => some (s, w, false)

def writeControl (budget : ℕ) (p : Streams × Writer) (id : ℕ) : Option (Streams × Writer) :=
  let (s, w) := p
  if !s.contains id then some ({ s with control := s.control.remove id }, w)
  else do
    let (s, w, more) ← writeSendControl budget s w id
    let (s, w, more') ← writeRecvControl budget s w id
    some (if more || more' then s else { s with control := s.control.remove id }, w)

/-! ### Stream data -/

/-- The longest data, at most `n` bytes, that fits in `room` with a Length field: there is room for
the field and no data. -/
def shorten (id offset room : ℕ) : ℕ → Option ℕ
  | 0 => some 0
  | n + 1 => do
    let header ← streamHeaderLen id offset (some (n + 1))
    if header + (n + 1) > room then shorten id offset room n else some (n + 1)

/-- Writes a STREAM frame for the stream, using at most `room` bytes.  An error if there is none to
write, a fault where the source panics. -/
def writeStreamFrame (s : Streams) (id room : ℕ) (w : Writer) : Outcome Unit (Streams × Writer) :=
  match s.sendOf id with
  | none => .err ()
  | some x =>
    let limit := min x.max_data (addU64 x.buf.sent (s.send_max_data - s.sent_total))
    match x.buf.nextOffset with
    | none => .err ()
    | some offset =>
      let available := x.buf.peekLen limit
      match streamHeaderLen id offset none with
      | none => .fault
      | some header =>
        let fill := room - header
        if room < header + 1 then .err ()
        -- a frame that would hold a few bytes of much more waits for the next packet
        else if available > 16 ∧ fill < 16 then .err ()
        else
          -- it fills the room, or has a Length field
          match if available ≥ fill ∧ available > 0 then some fill
            else shorten id offset room available with
          | none => .fault
          | some max_len =>
            match x.buf.nextChunk max_len limit with
            | none => .err ()
            | some (c, buf) =>
              let len := if c.len = fill ∧ available ≥ fill then none else some c.len
              match streamHeaderLen id c.offset len, buf.copy c.offset c.len with
              | some header, some data =>
                .ok ({ s.setSend id { x with buf := buf } with
                    sent_total := addU64 s.sent_total c.new },
                  ⟨w.used + (header + c.len), w.out ++ [.stream id c.offset data c.fin],
                    w.sent ++ [.stream id c.offset c.len c.fin]⟩)
              | _, _ => .fault

def popQueue (s : Streams) (id : ℕ) : Streams :=
  let s := { s with send_queue := s.send_queue.tail }
  match s.sendOf id with
  | some x => s.setSend id { x with queued := false }
  | none => s

/-- The stream has something to send and the credit to send it. -/
def ready (s : Streams) (id : ℕ) : Bool :=
  (s.sendOf id).any fun x => gate x (s.send_max_data - s.sent_total) = .ready

/-- One turn of the loop over the streams that have data to send; it ends with nothing where the
source panics. -/
def dataTurn (budget : ℕ) (p : Streams × Writer) : (Streams × Writer) ⊕ Option (Streams × Writer) :=
  let (s, w) := p
  let room := budget - w.used
  if room < 4 then .inr (some (s, w))
  else
    match s.send_queue with
    | [] => .inr (some (s, w))
    | id :: _ =>
      if s.ready id = false then .inl ((s.popQueue id).schedule id, w)
      else
        match s.writeStreamFrame id room w with
        | .fault => .inr none
        | .err () => .inr (some (s, w))
        | .ok (s, w) => .inl ((s.popQueue id).schedule id, w)

lemma popQueue_queue (s : Streams) (id : ℕ) : (s.popQueue id).send_queue = s.send_queue.tail := by
  rw [popQueue]
  split
  · exact (waiting_setSend _ id _).1
  · rfl

lemma ready_popQueue (s : Streams) (id : ℕ) : (s.popQueue id).ready id = s.ready id := by
  rw [popQueue]
  split
  · rename_i x hx
    have hx' : s.sendOf id = some x := hx
    have ha := accounts_setSend { s with send_queue := s.send_queue.tail } id
      { x with queued := false }
    obtain ⟨htotal, hmax⟩ := sendCounts_eq ha
    rw [ready, ready, sendOf_setSend hx, if_pos rfl, hx', Option.any_some, Option.any_some,
      htotal, hmax]
    rfl
  · rfl

lemma schedule_queue (s : Streams) (id : ℕ) :
    (s.schedule id).send_queue = s.send_queue ∨
      (s.ready id = true ∧ (s.schedule id).send_queue = s.send_queue ++ [id]) := by
  rw [schedule]
  split
  · exact .inl rfl
  rename_i x hx
  have hleave : (s.leavePark id x).send_queue = s.send_queue := by
    rw [leavePark]
    split
    · exact (waiting_setSend s id _).1
    · rfl
  split
  · exact .inl rfl
  split
  · left
    rw [noteDataBlocked, park]
    split <;> split <;> first | rfl | exact (waiting_setSend s id _).1
  · rename_i hgate
    refine .inr ⟨?_, congrArg (· ++ [id]) hleave⟩
    rw [ready, hx, Option.any_some, hgate]
    rfl
  · left
    rw [noteStreamBlocked]
    split
    · exact (waiting_setSend _ id _).1.trans hleave
    · exact hleave
  · exact .inl hleave

lemma used_writeStreamFrame {s s' : Streams} {id room : ℕ} {w w' : Writer}
    (h : s.writeStreamFrame id room w = .ok (s', w')) :
    w.used < w'.used ∧ s'.send_queue = s.send_queue := by
  rw [writeStreamFrame] at h
  split at h
  · cases h
  split at h
  · cases h
  dsimp only at h
  split at h
  · cases h
  split at h
  · cases h
  split at h
  · cases h
  split at h
  · cases h
  split at h
  · cases h
  split at h
  · rename_i header data hheader hdata
    simp only [Outcome.ok.injEq, Prod.mk.injEq] at h
    obtain ⟨rfl, rfl⟩ := h
    have hpos := streamHeaderLen_pos hheader
    exact ⟨by simp only; omega, (waiting_setSend s id _).1⟩
  · cases h

lemma dataTurn_progress (budget : ℕ) (p p' : Streams × Writer) (h : dataTurn budget p = .inl p') :
    2 * (budget - p'.2.used) + p'.1.send_queue.length <
      2 * (budget - p.2.used) + p.1.send_queue.length := by
  obtain ⟨s, w⟩ := p
  rw [dataTurn] at h
  split at h
  · cases h
  rename_i hroom
  split at h
  · cases h
  rename_i id ids hqueue
  split at h
  · rename_i hready
    cases h
    rcases schedule_queue (s.popQueue id) id with heq | ⟨hr, -⟩
    · simp only [heq, popQueue_queue, hqueue, List.tail_cons, List.length_cons]
      omega
    · rw [ready_popQueue, hready] at hr
      cases hr
  · split at h
    · cases h
    · cases h
    · rename_i s' w' hok
      cases h
      obtain ⟨hused, hsame⟩ := used_writeStreamFrame hok
      have hlen : ((s'.popQueue id).schedule id).send_queue.length ≤ s.send_queue.length := by
        rcases schedule_queue (s'.popQueue id) id with heq | ⟨-, heq⟩
        · rw [heq, popQueue_queue, hsame, List.length_tail]
          omega
        · rw [heq, List.length_append, popQueue_queue, hsame, hqueue]
          simp
      simp only
      omega

/-- The loop over the streams that have data to send. -/
def dataLoop (budget : ℕ) : Loop (Streams × Writer) (Option (Streams × Writer)) where
  turn := dataTurn budget
  measure := fun p => 2 * (budget - p.2.used) + p.1.send_queue.length
  progress := dataTurn_progress budget

/-- Writes the frames that are due, no more than `budget` bytes of them: first the flow control and
the resets, then stream data.  Nothing where the source panics. -/
def writeFrames (s : Streams) (budget : ℕ) : Option (Streams × Writer) := do
  let p ← writeMaxData budget (s, ⟨0, [], []⟩)
  let p ← writeKind budget p .bidi
  let p ← writeKind budget p .uni
  let p ← writeDataBlocked budget p
  let p ← (p.1.control.entries.map Prod.fst).foldlM (writeControl budget) p
  (dataLoop budget).run p

/-! ### What became of the frames sent -/

def onAcked (s : Streams) : StreamFrame → Streams
  | .stream id offset len fin =>
    match s.sendOf id with
    | none => s
    | some x =>
      if !x.sending then s
      else
        let x := { x with buf := x.buf.onAcked offset len fin }
        let x := if x.state = .finished ∧ x.buf.isFullyAcked then { x with state := .done } else x
        if x.write_blocked ∧ x.state = .open ∧ x.buf.buffered ≤ s.cfg.send_buffer / 2 then
          ((s.setSend id { x with write_blocked := false }).pushEvent (.writable id)).cleanup id
        else (s.setSend id x).cleanup id
  | .resetStream id _ _ =>
    let s :=
      match s.sendOf id with
      | some x => if x.state = SendState.reset then s.setSend id
        { x with state := .done, reset := none } else s
      | none => s
    s.cleanup id
  | _ => s

def onLost (s : Streams) : StreamFrame → Streams
  | .stream id offset len fin =>
    match s.sendOf id with
    | none => s
    | some x =>
      if !x.sending then s
      else (s.setSend id { x with buf := x.buf.onLost offset len fin }).schedule id
  | .resetStream id _ _ =>
    match s.sendOf id with
    | none => s
    | some x =>
      match x.reset with
      | some r =>
        if x.state = .reset then
          (s.setSend id { x with reset := some { r with pending := true } }).addControl id
        else s
      | none => s
  | .stopSending id _ =>
    match s.recvOf id with
    | none => s
    | some r =>
      match r.stop with
      | some stop =>
        if r.state = .open then
          (s.setRecv id { r with stop := some { stop with pending := true } }).addControl id
        else s
      | none => s
  -- a limit is sent again if it is still the one we gave
  | .maxData v => if v = s.recv_limit then { s with max_data_pending := true } else s
  | .maxStreamData id max =>
    match s.recvOf id with
    | none => s
    | some r =>
      if r.state = .open ∧ r.max_data = max then
        (s.setRecv id { r with max_data_pending := true }).addControl id
      else s
  | .maxStreams bidirectional max =>
    let k := Kind.of bidirectional
    if s.max_streams.get k = max then
      { s with max_streams_pending := s.max_streams_pending.set k true }
    else s
  -- the blocked frames are sent again if the stream is still blocked at the same limit
  | .dataBlocked v =>
    if v = s.send_max_data ∧ !s.parked.isEmpty then { s with data_blocked_pending := true } else s
  | .streamDataBlocked id limit =>
    match s.sendOf id with
    | none => s
    | some x =>
      if x.max_data = limit ∧ x.sending then
        (s.setSend id { x with blocked_pending := true }).addControl id
      else s
  | .streamsBlocked bidirectional limit =>
    let k := Kind.of bidirectional
    if s.open_blocked.get k ∧ s.peer_max_streams.get k = limit then
      { s with streams_blocked_pending := s.streams_blocked_pending.set k true }
    else s

/-- The acknowledgment of the frame completes the sending side of a stream that is in the queue of
those that have something to send. -/
def completesQueued (s : Streams) : StreamFrame → Bool
  | .stream id offset len fin =>
    (s.sendOf id).any fun x =>
      x.state = .finished && x.queued && (x.buf.onAcked offset len fin).isFullyAcked
  | _ => false

end Streams

end Lazaret.Quic.Flow
