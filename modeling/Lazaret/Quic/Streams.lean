import Lazaret.Lib.Loop
import Lazaret.Quic.Acknowledge
import Lazaret.Quic.ConnectionId
import Lazaret.Quic.FrameAccepted
import Lazaret.Quic.Reassembly
import Lazaret.Quic.SendBuf

/-!
# Streams and flow control

`Streams` (`quic/streams.rs`): the streams of a connection, each with a sending and a receiving
side, the credit that the peer gave and the credit that it was given, and what is due to be sent.

The numbers of a connection are added as numbers of 64 bits (`addU64`); a count goes up by one only
while it is below another.  The frames of a packet are a list with the length that they take.  A
field called `forgotten` is not in the source, and nothing reads it: it keeps the streams that
`cleanup` forgets, as they were.
-/

namespace Lazaret.Quic.Flow

open Cid (TransportError PROTOCOL_VIOLATION)
open Wire (Frame MAX_VARINT MAX_STREAMS_LIMIT)

def addU64 (a b : ℕ) : ℕ := (a + b) % 2 ^ 64

lemma addU64_eq {a b : ℕ} (ha : a ≤ MAX_VARINT) (hb : b ≤ MAX_VARINT) : addU64 a b = a + b := by
  rw [MAX_VARINT] at ha hb
  rw [addU64, Nat.mod_eq_of_lt (by omega)]

/-! ### Ids -/

/-- The kinds of streams: an index for what is kept for each. -/
inductive Kind where
  | bidi
  | uni
deriving DecidableEq

structure PerKind (α : Type*) where
  bidi : α
  uni : α
deriving DecidableEq

namespace PerKind

variable {α : Type*}

def get (p : PerKind α) : Kind → α
  | .bidi => p.bidi
  | .uni => p.uni

def set (p : PerKind α) (k : Kind) (v : α) : PerKind α :=
  match k with
  | .bidi => { p with bidi := v }
  | .uni => { p with uni := v }

@[simp] lemma get_set (p : PerKind α) (k k' : Kind) (v : α) :
    (p.set k v).get k' = if k' = k then v else p.get k' := by
  cases k <;> cases k' <;> rfl

end PerKind

def isBidirectional (id : ℕ) : Bool := id / 2 % 2 = 0

def isClientInitiated (id : ℕ) : Bool := id % 2 = 0

def kindOf (id : ℕ) : Kind := if id / 2 % 2 = 0 then .bidi else .uni

/-- Which of the streams of its kind and initiator this is. -/
def indexOf (id : ℕ) : ℕ := id / 4

def Kind.index : Kind → ℕ
  | .bidi => 0
  | .uni => 1

def makeId (index : ℕ) (kind : Kind) (client_initiated : Bool) : ℕ :=
  4 * index + 2 * kind.index + (!client_initiated).toNat

/-- The kind that a flag of a frame or a call says. -/
def Kind.of (bidirectional : Bool) : Kind := if bidirectional then .bidi else .uni

/-! ### What the application sees -/

/-- Why an operation on a stream could not be done. -/
inductive StreamError where
  | unknown
  | blocked
  | reset (error : ℕ)
  | stopped (error : ℕ)
  | closed
deriving DecidableEq

/-- What happened to the streams that the application might want to know. -/
inductive StreamEvent where
  | readable (id : ℕ)
  | writable (id : ℕ)
  | stopped (id error : ℕ)
  | available (bidirectional : Bool)
deriving DecidableEq

/-- What a frame was, kept with the packet that carried it. -/
inductive StreamFrame where
  | stream (id offset len : ℕ) (fin : Bool)
  | resetStream (id error final_size : ℕ)
  | stopSending (id error : ℕ)
  | maxData (max : ℕ)
  | maxStreamData (id max : ℕ)
  | maxStreams (bidirectional : Bool) (max : ℕ)
  | dataBlocked (limit : ℕ)
  | streamDataBlocked (id limit : ℕ)
  | streamsBlocked (bidirectional : Bool) (limit : ℕ)
deriving DecidableEq

/-- What `Frame::read` accepts: the numbers are variable-length integers, the data of a stream ends
at one, and no limit on streams is more than 2^60. -/
def Accepted (f : Frame) : Prop :=
  (∀ v ∈ f.numbers, v ≤ MAX_VARINT) ∧
    match f with
    | .stream _ offset data _ => offset + data.length ≤ MAX_VARINT
    | .maxStreams _ n | .streamsBlocked _ n => n ≤ MAX_STREAMS_LIMIT
    | _ => True

instance (f : Frame) : Decidable (Accepted f) := by
  cases f <;> unfold Accepted <;> infer_instance

/-- How many bytes of a STREAM frame come before its data; none where a number is past
`MAX_VARINT`. -/
def streamHeaderLen (id offset : ℕ) (len : Option ℕ) : Option ℕ :=
  (Wire.lens (id :: (if offset ≠ 0 then [offset] else []) ++ len.toList)).map (1 + ·)

lemma streamHeaderLen_pos {id offset n : ℕ} {len : Option ℕ}
    (h : streamHeaderLen id offset len = some n) : 0 < n := by
  obtain ⟨k, -, rfl⟩ := Option.map_eq_some_iff.1 h
  omega

/-- What the streams are to be given to start with: the peer was told of it in the transport
parameters, which are variable-length integers. -/
structure StreamsConfig where
  client : Bool
  max_data : ℕ
  bidi_local : ℕ
  bidi_remote : ℕ
  uni : ℕ
  max_streams_bidi : ℕ
  max_streams_uni : ℕ
  send_buffer : ℕ
  max_data_le : max_data ≤ MAX_VARINT
  local_le : bidi_local ≤ MAX_VARINT
  remote_le : bidi_remote ≤ MAX_VARINT
  uni_le : uni ≤ MAX_VARINT
  streams_bidi_le : max_streams_bidi ≤ MAX_VARINT
  streams_uni_le : max_streams_uni ≤ MAX_VARINT
deriving DecidableEq

/-- How many streams of a kind the peer may open, to start with. -/
def StreamsConfig.maxStreams (cfg : StreamsConfig) : Kind → ℕ
  | .bidi => cfg.max_streams_bidi
  | .uni => cfg.max_streams_uni

lemma StreamsConfig.maxStreams_le (cfg : StreamsConfig) (k : Kind) :
    cfg.maxStreams k ≤ MAX_VARINT := by
  cases k
  · exact cfg.streams_bidi_le
  · exact cfg.streams_uni_le

/-- The peer's transport parameters that are for the streams: variable-length integers. -/
structure TransportParameters where
  initial_max_data : ℕ
  initial_max_stream_data_bidi_local : ℕ
  initial_max_stream_data_bidi_remote : ℕ
  initial_max_stream_data_uni : ℕ
  initial_max_streams_bidi : ℕ
  initial_max_streams_uni : ℕ
  data_le : initial_max_data ≤ MAX_VARINT
  local_le : initial_max_stream_data_bidi_local ≤ MAX_VARINT
  remote_le : initial_max_stream_data_bidi_remote ≤ MAX_VARINT
  uni_le : initial_max_stream_data_uni ≤ MAX_VARINT

/-! ### State -/

/-- The limits that the peer's transport parameters set. -/
structure PeerLimits where
  bidi_local : ℕ
  bidi_remote : ℕ
  uni : ℕ
deriving DecidableEq

inductive SendState where
  | «open»
  | finished
  | reset
  /-- Everything was acknowledged, or the reset was. -/
  | done
deriving DecidableEq

structure Reset where
  error : ℕ
  final_size : ℕ
  pending : Bool
deriving DecidableEq

structure Send where
  buf : SendBuf
  max_data : ℕ
  state : SendState
  reset : Option Reset
  /-- The code of the STOP_SENDING that the peer sent. -/
  stopped : Option ℕ
  blocked_sent : Option ℕ
  blocked_pending : Bool
  write_blocked : Bool
  /-- In the queue of streams that have something to send. -/
  queued : Bool
  parked : Bool
deriving DecidableEq

def Send.new (max_data : ℕ) : Send where
  buf := .new
  max_data := max_data
  state := .open
  reset := none
  stopped := none
  blocked_sent := none
  blocked_pending := false
  write_blocked := false
  queued := false
  parked := false

/-- The side is open or finished: it has data to send or to have acknowledged. -/
def Send.sending (x : Send) : Bool := x.state = .open || x.state = .finished

inductive RecvState where
  | «open»
  /-- The peer reset the stream and the application does not know yet. -/
  | reset (error : ℕ)
  | fin
  | resetRead (error : ℕ)
deriving DecidableEq

structure Stop where
  error : ℕ
  pending : Bool
deriving DecidableEq

structure Recv where
  buf : Reassembler
  max_data : ℕ
  /-- How far ahead of what has been read the limit is kept. -/
  window : ℕ
  high : ℕ
  final_size : Option ℕ
  state : RecvState
  discard : Bool
  stop : Option Stop
  max_data_pending : Bool
  queued : Bool
deriving DecidableEq

namespace Recv

def new (window : ℕ) : Recv where
  buf := .new
  max_data := window
  window := window
  high := 0
  final_size := none
  state := .open
  discard := false
  stop := none
  max_data_pending := false
  queued := false

/-- There is something for the application to read. -/
def readable (r : Recv) : Bool :=
  match r.state with
  | .reset _ => true
  | .open => !r.discard && (r.buf.readable > 0 || r.final_size = some r.buf.read)
  | _ => false

def allReceived (r : Recv) : Bool :=
  r.final_size.any fun fs => addU64 r.buf.read r.buf.readable = fs

/-- A range that ends at `stop` has come; `buf` holds it. -/
def grow (r : Recv) (buf : Reassembler) (stop : ℕ) (fin : Bool) : Recv :=
  { r with
    buf := buf
    high := max r.high stop
    final_size := if fin then some stop else r.final_size }

/-- The peer reset the stream: what was not read is not going to be. -/
def giveUp (r : Recv) (error final_size : ℕ) : Recv :=
  { r with
    final_size := some final_size
    high := final_size
    buf := .new
    stop := none
    state := if r.discard then .resetRead error else .reset error
    queued := !r.discard || r.queued }

/-- The application has read to the end or knows of the reset. -/
def isOver (r : Recv) : Bool :=
  match r.state with
  | .fin => true
  | .resetRead _ => true
  | _ => false

end Recv

structure Stream where
  send : Option Send
  recv : Option Recv
deriving DecidableEq

def Stream.isOver (st : Stream) : Bool :=
  st.send.all (fun x => x.state = .done) && st.recv.all Recv.isOver

/-- Whether a stream with something to send can send it. -/
inductive Gate where
  | ready
  | streamBlocked
  | connBlocked
  | nothing
deriving DecidableEq

def gate (x : Send) (conn_room : ℕ) : Gate :=
  if !x.sending || !x.buf.hasPending then .nothing
  else if x.buf.hasPendingWithin (min x.max_data (addU64 x.buf.sent conn_room)) then .ready
  else if x.buf.sent ≥ x.max_data then .streamBlocked
  else .connBlocked

/-- The streams of a connection and the flow control of the connection. -/
structure Streams where
  cfg : StreamsConfig
  streams : BTreeMap ℕ Stream
  peer : Option PeerLimits
  send_max_data : ℕ
  sent_total : ℕ
  peer_max_streams : PerKind ℕ
  opened : PerKind ℕ
  open_blocked : PerKind Bool
  recv_limit : ℕ
  /-- The end of the data that has come, summed over the streams. -/
  recv_total : ℕ
  consumed : ℕ
  max_streams : PerKind ℕ
  peer_opened : PerKind ℕ
  peer_closed : PerKind ℕ
  max_data_pending : Bool
  max_streams_pending : PerKind Bool
  data_blocked_sent : Option ℕ
  data_blocked_pending : Bool
  streams_blocked_sent : PerKind (Option ℕ)
  streams_blocked_pending : PerKind Bool
  /-- The streams that have a control frame to send. -/
  control : BTreeMap ℕ Unit
  /-- The streams that have data to send and the credit to send it, in turn. -/
  send_queue : List ℕ
  /-- The streams that have data to send and wait for the connection's credit. -/
  parked : BTreeMap ℕ Unit
  events : List StreamEvent
  forgotten : List (ℕ × Stream)
deriving DecidableEq

namespace Streams

def new (cfg : StreamsConfig) : Streams where
  cfg := cfg
  streams := .empty
  peer := none
  send_max_data := 0
  sent_total := 0
  peer_max_streams := ⟨0, 0⟩
  opened := ⟨0, 0⟩
  open_blocked := ⟨false, false⟩
  recv_limit := cfg.max_data
  recv_total := 0
  consumed := 0
  max_streams := ⟨cfg.max_streams_bidi, cfg.max_streams_uni⟩
  peer_opened := ⟨0, 0⟩
  peer_closed := ⟨0, 0⟩
  max_data_pending := false
  max_streams_pending := ⟨false, false⟩
  data_blocked_sent := none
  data_blocked_pending := false
  streams_blocked_sent := ⟨none, none⟩
  streams_blocked_pending := ⟨false, false⟩
  control := .empty
  send_queue := []
  parked := .empty
  events := []
  forgotten := []

def setPeerParams (s : Streams) (p : TransportParameters) : Streams :=
  { s with
    peer := some ⟨p.initial_max_stream_data_bidi_local, p.initial_max_stream_data_bidi_remote,
      p.initial_max_stream_data_uni⟩
    send_max_data := p.initial_max_data
    peer_max_streams := ⟨min p.initial_max_streams_bidi MAX_STREAMS_LIMIT,
      min p.initial_max_streams_uni MAX_STREAMS_LIMIT⟩ }

def pollEvent (s : Streams) : Option StreamEvent × Streams :=
  (s.events.head?, { s with events := s.events.tail })

/-- The sending side of a stream, if the stream is there and has one. -/
def sendOf (s : Streams) (id : ℕ) : Option Send := (s.streams.get id).bind Stream.send

/-- The receiving side of a stream, if the stream is there and has one. -/
def recvOf (s : Streams) (id : ℕ) : Option Recv := (s.streams.get id).bind Stream.recv

/-- The sending side of a stream that is there is now `x`. -/
def setSend (s : Streams) (id : ℕ) (x : Send) : Streams :=
  match s.streams.get id with
  | some st => { s with streams := s.streams.insert id { st with send := some x } }
  | none => s

/-- The receiving side of a stream that is there is now `r`. -/
def setRecv (s : Streams) (id : ℕ) (r : Recv) : Streams :=
  match s.streams.get id with
  | some st => { s with streams := s.streams.insert id { st with recv := some r } }
  | none => s

def addControl (s : Streams) (id : ℕ) : Streams := { s with control := s.control.insert id () }

def pushEvent (s : Streams) (e : StreamEvent) : Streams := { s with events := s.events ++ [e] }

/-! ### Internals -/

/-- The stream does not wait for the connection's credit any more. -/
def leavePark (s : Streams) (id : ℕ) (x : Send) : Streams :=
  if x.parked then
    { s.setSend id { x with parked := false } with parked := s.parked.remove id }
  else s

def park (s : Streams) (id : ℕ) (x : Send) : Streams :=
  if x.parked then s
  else { s.setSend id { x with parked := true } with parked := s.parked.insert id () }

/-- DATA_BLOCKED is due, unless it was for this limit. -/
def noteDataBlocked (s : Streams) : Streams :=
  if s.data_blocked_sent ≠ some s.send_max_data then
    { s with data_blocked_sent := some s.send_max_data, data_blocked_pending := true }
  else s

/-- STREAM_DATA_BLOCKED is due, unless it was for this limit. -/
def noteStreamBlocked (s : Streams) (id : ℕ) (x : Send) : Streams :=
  if x.blocked_sent ≠ some x.max_data then
    (s.setSend id { x with blocked_sent := some x.max_data, blocked_pending := true }).addControl id
  else s

/-- The stream is the last of those that have something to send. -/
def enqueue (s : Streams) (id : ℕ) (x : Send) : Streams :=
  { s.setSend id { x with queued := true } with send_queue := s.send_queue ++ [id] }

/-- Puts the stream in the queue of those that have something to send if it has, and the credit to
send it; if it waits for credit, makes a note to say so. -/
def schedule (s : Streams) (id : ℕ) : Streams :=
  match s.sendOf id with
  | none => s
  | some x =>
    if x.queued then s
    else
      match gate x (s.send_max_data - s.sent_total) with
      | .connBlocked => (s.park id x).noteDataBlocked
      -- a stream that waits for the connection's credit is looked at again whatever happens to it
      | .ready => (s.leavePark id x).enqueue id { x with parked := false }
      | .streamBlocked => (s.leavePark id x).noteStreamBlocked id { x with parked := false }
      | .nothing => s.leavePark id x

def growConnectionWindow (s : Streams) : Streams :=
  let new := addU64 s.consumed s.cfg.max_data
  if new > s.recv_limit ∧ new - s.recv_limit ≥ s.cfg.max_data / 2 then
    { s with recv_limit := new, max_data_pending := true }
  else s

/-- A stream that the peer opened is finished and forgotten: it may open another. -/
def growStreamLimit (s : Streams) (k : Kind) : Streams :=
  let initial := s.cfg.maxStreams k
  let new := min (addU64 initial (s.peer_closed.get k)) MAX_STREAMS_LIMIT
  if new ≥ addU64 (s.max_streams.get k) (max (initial / 2) 1) then
    { s with
      max_streams := s.max_streams.set k new
      max_streams_pending := s.max_streams_pending.set k true }
  else s

/-- Forgets the stream if nothing more can happen to it, and lets the peer open another if it was
one of its. -/
def cleanup (s : Streams) (id : ℕ) : Streams :=
  match s.streams.get id with
  | none => s
  | some st =>
    if !st.isOver then s
    else
      let s := { s with
        streams := s.streams.remove id
        control := s.control.remove id
        parked := s.parked.remove id
        forgotten := s.forgotten ++ [(id, st)] }
      if isClientInitiated id ≠ s.cfg.client then
        let k := kindOf id
        let s := { s with peer_closed := s.peer_closed.set k (addU64 (s.peer_closed.get k) 1) }
        s.growStreamLimit k
      else s

/-- Gives up the sending side (the caller has checked that it is open or finished). -/
def doReset (s : Streams) (id error : ℕ) : Streams :=
  match s.sendOf id with
  | none => s
  | some x =>
    let s := s.setSend id
      { x with
        buf := x.buf.clear
        reset := some ⟨error, x.buf.sent, true⟩
        state := .reset
        blocked_pending := false
        write_blocked := false
        queued := false
        parked := false }
    let s := if x.queued then { s with send_queue := s.send_queue.filter (· ≠ id) } else s
    { s with parked := s.parked.remove id, control := s.control.insert id () }

/-- `n` bytes of the stream were read (or thrown away): the credit that the peer has can move up. -/
def afterConsume (s : Streams) (id n : ℕ) : Streams :=
  let s := { s with consumed := addU64 s.consumed n }
  let s :=
    match s.recvOf id with
    | none => s
    | some r =>
      let new := addU64 r.buf.read r.window
      if r.final_size = none ∧ r.state = RecvState.open ∧
          new > r.max_data ∧ new - r.max_data ≥ r.window / 2 then
        (s.setRecv id { r with max_data := new, max_data_pending := true }).addControl id
      else s
  s.growConnectionWindow

/-- Throws away what has come on a stream that the application does not want, and finishes it if the
end has come. -/
def drain (s : Streams) (id : ℕ) : Streams :=
  match s.recvOf id with
  | none => s
  | some r =>
    if !r.discard || r.state ≠ .open then s
    else
      let (n, buf) := r.buf.discard
      let done := r.final_size = some buf.read
      let s := s.setRecv id { r with buf := buf, state := if done then .fin else r.state }
      let s := s.afterConsume id n
      if done then s.cleanup id else s

/-! ### The application -/

def «open» (s : Streams) (bidirectional : Bool) : Except StreamError ℕ × Streams :=
  match s.peer with
  | none => (.error .blocked, s)
  | some peer =>
    let k := Kind.of bidirectional
    let limit := s.peer_max_streams.get k
    if s.opened.get k ≥ limit then
      let s := { s with open_blocked := s.open_blocked.set k true }
      (.error .blocked,
        if s.streams_blocked_sent.get k ≠ some limit then
          { s with
            streams_blocked_sent := s.streams_blocked_sent.set k (some limit)
            streams_blocked_pending := s.streams_blocked_pending.set k true }
        else s)
    else
      let id := makeId (s.opened.get k) k s.cfg.client
      let send := Send.new (if bidirectional then peer.bidi_remote else peer.uni)
      let recv := if bidirectional then some (Recv.new s.cfg.bidi_local) else none
      (.ok id,
        { s with
          opened := s.opened.set k (s.opened.get k + 1)
          streams := s.streams.insert id ⟨some send, recv⟩ })

/-- Writes `data` on the stream, and ends the stream after it if `fin` and all of it was taken; how
many bytes were taken.  Nothing where the source panics. -/
def write (s : Streams) (id : ℕ) (data : List UInt8) (fin : Bool) :
    Option (Except StreamError ℕ × Streams) :=
  match s.sendOf id with
  | none => some (.error .unknown, s)
  | some x =>
    if x.state ≠ .open then
      some (.error (match x.stopped with
        | some c => if x.state = .reset ∨ x.state = .done then .stopped c else .closed
        | none => .closed), s)
    else
      let room := s.cfg.send_buffer - x.buf.buffered
      let n := min data.length room
      if n = 0 ∧ data ≠ [] then
        some (.error .blocked, s.setSend id { x with write_blocked := true })
      else
        match x.buf.write (data.take n) with
        | none => none
        | some buf =>
          let x :=
            if n < data.length then { x with buf := buf, write_blocked := true }
            else if fin then { x with buf := buf.finish, state := .finished }
            else { x with buf := buf }
          some (.ok n, (s.setSend id x).schedule id)

/-- Reads what has come on the stream, at most `n` bytes, and whether the stream ends with them. -/
def read (s : Streams) (id n : ℕ) : Except StreamError (List UInt8 × Bool) × Streams :=
  match s.recvOf id with
  | none => (.error .unknown, s)
  | some r =>
    match r.state with
    | .reset c =>
      (.error (.reset c),
        (s.setRecv id { r with state := .resetRead c, queued := false }).cleanup id)
    | .resetRead c => (.error (.reset c), s)
    | .fin => (.ok ([], true), s)
    | .open =>
      if r.discard then (.error .closed, s)
      else
        let (bytes, buf) := r.buf.readInto n
        let fin := decide (r.final_size = some buf.read)
        if bytes = [] ∧ fin = false then
          (if n = 0 then .ok ([], false) else .error .blocked,
            s.setRecv id { r with buf := buf, queued := false })
        else
          let s := s.setRecv id
            { r with
              buf := buf
              state := if fin then .fin else r.state
              queued := if fin || buf.readable = 0 then false else r.queued }
          let s := s.afterConsume id bytes.length
          (.ok (bytes, fin), if fin then s.cleanup id else s)

def reset (s : Streams) (id error : ℕ) : Except StreamError Unit × Streams :=
  match s.sendOf id with
  | none => (.error .unknown, s)
  | some x => (.ok (), if x.sending then s.doReset id error else s)

/-- Asks the peer to stop sending on the stream: what comes after this is thrown away. -/
def stopSending (s : Streams) (id error : ℕ) : Except StreamError Unit × Streams :=
  match s.recvOf id with
  | none => (.error .unknown, s)
  | some r =>
    if r.state ≠ .open ∨ r.discard then (.ok (), s)
    else
      let s :=
        if r.allReceived then s.setRecv id { r with discard := true, queued := false }
        else
          (s.setRecv id
            { r with discard := true, queued := false, stop := some ⟨error, true⟩ }).addControl id
      (.ok (), s.drain id)

/-! ### Frames that arrive -/

def FLOW_CONTROL_ERROR : ℕ := 0x03
def STREAM_LIMIT_ERROR : ℕ := 0x04
def STREAM_STATE_ERROR : ℕ := 0x05
def FINAL_SIZE_ERROR : ℕ := 0x06

def openNext (s : Streams) (k : Kind) : Streams :=
  let i := s.peer_opened.get k
  let bidirectional := k = .bidi
  let send := if bidirectional then some (Send.new ((s.peer.map PeerLimits.bidi_local).getD 0))
    else none
  let recv := Recv.new (if bidirectional then s.cfg.bidi_remote else s.cfg.uni)
  { s with
    peer_opened := s.peer_opened.set k (i + 1)
    streams := s.streams.insert (makeId i k (!s.cfg.client)) ⟨send, some recv⟩ }

def openMany (s : Streams) (k : Kind) : ℕ → Streams
  | 0 => s
  | n + 1 => (s.openNext k).openMany k n

/-- The peer uses the stream `id` that it opens: it is open, and so are all of its kind with lower
numbers. -/
def openRemote (s : Streams) (id : ℕ) : Except TransportError Streams :=
  let k := kindOf id
  let index := indexOf id
  if index ≥ s.max_streams.get k then
    .error ⟨STREAM_LIMIT_ERROR, "a stream beyond the limit on the streams the peer may open"⟩
  else .ok (s.openMany k (index + 1 - s.peer_opened.get k))

def contains (s : Streams) (id : ℕ) : Bool := (s.streams.get id).isSome

/-- For a frame about the receiving side of stream `id`: checks that the peer may send it, and opens
the stream if it is one of the peer's.  False if the stream is finished and forgotten. -/
def checkRecv (s : Streams) (id : ℕ) : Except TransportError (Bool × Streams) :=
  if isClientInitiated id = s.cfg.client then
    if isBidirectional id = false then
      .error ⟨STREAM_STATE_ERROR, "a frame for a stream that only we send on"⟩
    else if indexOf id ≥ s.opened.get (kindOf id) then
      .error ⟨STREAM_STATE_ERROR, "a frame for a stream of ours that was not opened"⟩
    else .ok (s.contains id, s)
  else (s.openRemote id).map fun s => (s.contains id, s)

/-- For a frame about the sending side of stream `id`. -/
def checkSend (s : Streams) (id : ℕ) : Except TransportError (Bool × Streams) :=
  if isClientInitiated id = s.cfg.client then
    if indexOf id ≥ s.opened.get (kindOf id) then
      .error ⟨STREAM_STATE_ERROR, "a frame for a stream of ours that was not opened"⟩
    else .ok (s.contains id, s)
  else if isBidirectional id = false then
    .error ⟨STREAM_STATE_ERROR, "a frame for a stream that only the peer sends on"⟩
  else (s.openRemote id).map fun s => (s.contains id, s)

/-- The application is told of what it can read, unless it does not want it. -/
def announce (s : Streams) (id : ℕ) (r : Recv) : Streams :=
  if r.discard then s.drain id
  else if r.readable ∧ r.queued = false then
    (s.setRecv id { r with queued := true }).pushEvent (.readable id)
  else s

/-- What a STREAM frame does to the receiving side of its stream. -/
def takeStream (s : Streams) (id : ℕ) (r : Recv) (offset : ℕ) (data : List UInt8) (fin : Bool) :
    Except TransportError Streams :=
  let stop := addU64 offset data.length
  let delta := stop - r.high
  if r.final_size.any fun fs => stop > fs || (fin && stop ≠ fs) then
    .error ⟨FINAL_SIZE_ERROR, "stream data that does not agree with the final size"⟩
  else if r.final_size = none ∧ fin ∧ r.high > stop then
    .error ⟨FINAL_SIZE_ERROR, "the end of a stream below data that has come"⟩
  else if stop > r.max_data then
    .error ⟨FLOW_CONTROL_ERROR, "stream data beyond the limit of the stream"⟩
  else if addU64 s.recv_total delta > s.recv_limit then
    .error ⟨FLOW_CONTROL_ERROR, "stream data beyond the limit of the connection"⟩
  else
    match r.buf.insert offset data (r.max_data - r.buf.read) with
    | .error .exceeded =>
      .error ⟨FLOW_CONTROL_ERROR,
        "stream data beyond the limit of the stream, or in too many pieces"⟩
    | .error .inconsistent =>
      .error ⟨PROTOCOL_VIOLATION, "stream data that differs from what came before"⟩
    | .ok buf =>
      let r := r.grow buf stop fin
      .ok ({ s.setRecv id r with recv_total := addU64 s.recv_total delta }.announce id r)

def onStream (s : Streams) (id offset : ℕ) (data : List UInt8) (fin : Bool) :
    Except TransportError Streams := do
  let (there, s) ← s.checkRecv id
  if !there then return s
  match s.recvOf id with
  | none => return s
  | some r => if r.state ≠ .open then return s else s.takeStream id r offset data fin

/-- What a RESET_STREAM frame does to the receiving side of its stream. -/
def takeReset (s : Streams) (id : ℕ) (r : Recv) (error final_size : ℕ) :
    Except TransportError Streams :=
  let delta := final_size - r.high
  if r.final_size.any (fun fs => fs ≠ final_size) ∨ r.high > final_size then
    .error ⟨FINAL_SIZE_ERROR, "RESET_STREAM with a final size that does not agree with the data"⟩
  else if final_size > r.max_data then
    .error ⟨FLOW_CONTROL_ERROR, "RESET_STREAM with a final size beyond the limit of the stream"⟩
  else if addU64 s.recv_total delta > s.recv_limit then
    .error ⟨FLOW_CONTROL_ERROR, "RESET_STREAM with a final size beyond the limit of the connection"⟩
  else if r.state ≠ .open then .ok s
  else
    let unread := final_size - r.buf.read
    let wanted := !r.discard
    let events := wanted && !r.queued
    let s := { s.setRecv id (r.giveUp error final_size) with
      recv_total := addU64 s.recv_total delta
      consumed := addU64 s.consumed unread }
    let s := if events then s.pushEvent (.readable id) else s
    let s := s.growConnectionWindow
    .ok (if wanted then s else s.cleanup id)

def onResetStream (s : Streams) (id error final_size : ℕ) : Except TransportError Streams := do
  let (there, s) ← s.checkRecv id
  if !there then return s
  match s.recvOf id with
  | none => return s
  | some r => s.takeReset id r error final_size

def onStopSending (s : Streams) (id error : ℕ) : Except TransportError Streams := do
  let (there, s) ← s.checkSend id
  if !there then return s
  match s.sendOf id with
  | none => return s
  | some x =>
    if x.sending then
      let s := s.setSend id { x with stopped := some error }
      return (s.pushEvent (.stopped id error)).doReset id error
    else return s

/-- One of the streams that waited for the connection's credit is looked at again. -/
def unpark (s : Streams) (id : ℕ) : Streams :=
  let s :=
    match s.sendOf id with
    | some x => s.setSend id { x with parked := false }
    | none => s
  s.schedule id

def onMaxData (s : Streams) (max : ℕ) : Streams :=
  if max > s.send_max_data then
    let parked := s.parked.entries.map Prod.fst
    parked.foldl unpark { s with send_max_data := max, parked := .empty }
  else s

def onMaxStreamData (s : Streams) (id max : ℕ) : Except TransportError Streams := do
  let (there, s) ← s.checkSend id
  if !there then return s
  match s.sendOf id with
  | none => return s
  | some x =>
    if max > x.max_data then
      return (s.setSend id { x with max_data := max, blocked_pending := false }).schedule id
    else return s

def onMaxStreams (s : Streams) (bidirectional : Bool) (max : ℕ) : Streams :=
  let k := Kind.of bidirectional
  if max > s.peer_max_streams.get k then
    let s := { s with peer_max_streams := s.peer_max_streams.set k max }
    if s.open_blocked.get k then
      { s with open_blocked := s.open_blocked.set k false }.pushEvent (.available bidirectional)
    else s
  else s

/-- A frame of streams or of flow control arrived.  An error is for the connection to end with. -/
def onFrame (s : Streams) : Frame → Except TransportError Streams
  | .stream id offset data fin => s.onStream id offset data fin
  | .resetStream id error final_size => s.onResetStream id error final_size
  | .stopSending id error => s.onStopSending id error
  | .maxData max => .ok (s.onMaxData max)
  | .maxStreamData id max => s.onMaxStreamData id max
  | .maxStreams bidirectional max => .ok (s.onMaxStreams bidirectional max)
  | .streamDataBlocked id _ => (s.checkRecv id).map Prod.snd
  | _ => .ok s

end Streams

end Lazaret.Quic.Flow
