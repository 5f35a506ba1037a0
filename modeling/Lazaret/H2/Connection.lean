import Lazaret.H2.Fields
import Lazaret.Lib.BTreeMap

/-!
# The client side of an HTTP/2 connection

The state machine of `http/h2/connection.rs`: what it holds, what the application calls, and what
each frame of the server does.  Windows are integers, as the source's `i64`; credit that is not
announced is a `u32`, whose sums wrap (`addU32`).  Lengths and the count of received bytes are
natural numbers.  The streams are in the order of their identifiers, where the source's `HashMap`
has no order.  Who is woken by a frame (`News`) is left out.
-/

namespace Lazaret.H2

open Hpack (Decoder Encoder Field FieldRef)

/-- What this endpoint asks of the peer and allows it. -/
structure Config where
  /-- How much of a response the peer may send on a stream before we read some. -/
  stream_window : ℕ
  /-- How much the peer may send on all streams together before we read some. -/
  connection_window : ℕ
  max_header_list : ℕ
  stream_window_lt : stream_window < 2 ^ 32
  connection_window_lt : connection_window < 2 ^ 32
  max_header_list_lt : max_header_list < 2 ^ 32
deriving DecidableEq

def Config.default : Config where
  stream_window := 8 <<< 20
  connection_window := 32 <<< 20
  max_header_list := 64 <<< 10
  stream_window_lt := by decide
  connection_window_lt := by decide
  max_header_list_lt := by decide

/-- How much the peer may send on all streams together, at first. -/
def Config.window (config : Config) : ℕ := max config.connection_window DEFAULT_WINDOW

/-- How much credit may build up before it is announced, at most. -/
def REFRESH_CAP : ℕ := 1 <<< 20

/-- The most that `take_stream_data` moves in one go. -/
def TAKE_MAX : ℕ := 1 <<< 20

/-- Why a collected response that goes past its limit loses its stream. -/
def BODY_TOO_BIG : String := "response body exceeds the configured size limit"

def HEADER_TABLE_SIZE : ℕ := Hpack.DEFAULT_TABLE_SIZE

/-- The most frames one header block may be made of. -/
def MAX_BLOCK_FRAMES : ℕ := 256

/-- The most 1xx responses one stream may get before its final one. -/
def MAX_INTERIM : ℕ := 32

/-- How much output may wait to be sent before `send_data` takes no more. -/
def OUTPUT_HIGH_WATER : ℕ := 256 <<< 10

/-- How much output the peer may make us queue by asking for answers. -/
def CONTROL_BACKLOG : ℕ := 1 <<< 20

/-- How many frames in a row that carry nothing are too many. -/
def EMPTY_FRAMES : ℕ := 10000

def MAX_STREAM_ID : ℕ := 0x7fffffff

/-- The credit at which a window of this size is refreshed. -/
def refreshThreshold (window : ℕ) : ℕ := min (window / 2) REFRESH_CAP

def asU32 (n : ℕ) : ℕ := n % 2 ^ 32

def addU32 (a b : ℕ) : ℕ := (a + b) % 2 ^ 32

/-! ### Errors -/

structure Head where
  status : ℕ
  headers : Fields
deriving DecidableEq

structure ConnectionError where
  code : ErrorCode
  reason : Bytes
  local_ : Bool
deriving DecidableEq

structure StreamError where
  code : ErrorCode
  reason : Bytes
  /-- True if the request cannot have been acted on. -/
  retry_safe : Bool
deriving DecidableEq

inductive OpenError where
  | Full
  | Unavailable
  | Invalid (why : Invalid)
deriving DecidableEq

def ConnectionError.display (e : ConnectionError) : Bytes :=
  asBytes "HTTP/2 connection " ++
    asBytes (if e.local_ then "failed" else "closed by the server") ++ asBytes ": " ++ e.reason ++
    asBytes " (" ++ e.code.display ++ asBytes ")"

def decimal (n : ℕ) : Bytes := (Nat.toDigits 10 n).map fun c => UInt8.ofNat c.toNat

/-- The error of a header block as `Display` writes it. -/
def hpackDisplay : Hpack.Error → Bytes
  | .Truncated => asBytes "the header block ended inside a field"
  | .Integer => asBytes "a header block has an integer that is too large"
  | .Index i => asBytes "a header block refers to table index " ++ decimal i ++
      asBytes ", which does not exist"
  | .Huffman .Eos => asBytes "a Huffman string contains the end-of-string symbol"
  | .Huffman .Padding => asBytes "a Huffman string ends with bad padding"
  | .Huffman .TooLong => asBytes "a Huffman string decodes to more than the allowed length"
  | .StringTooLong => asBytes "a header block has a string that is too long"
  | .SizeUpdateLate => asBytes "a header block has a table size update after a field"
  | .SizeUpdateTooLarge n => asBytes "a header block sets the table size to " ++ decimal n ++
      asBytes ", more than was allowed"

def connectionError (code : ErrorCode) (reason : String) : ConnectionError :=
  ⟨code, asBytes reason, true⟩

def localError (reason : String) : StreamError := ⟨.CANCEL, asBytes reason, false⟩

/-! ### Streams -/

structure Stream where
  send_window : ℤ
  recv_window : ℤ
  /-- Body bytes that were read and for which the peer has not yet been given the credit. -/
  unannounced : ℕ
  local_ended : Bool
  remote_ended : Bool
  head_request : Bool
  /-- The response has no body, whatever Content-Length says. -/
  bodiless : Bool
  /-- How many 1xx responses came before the final one. -/
  interim : ℕ
  head : Option Head
  got_head : Bool
  trailers : Option Fields
  body : Bytes
  body_pos : ℕ
  expected : Option ℕ
  received : ℕ
  failure : Option StreamError
  /-- The application will take the whole body at once. -/
  collecting : Bool
  /-- How much body a collecting stream may take, all told. -/
  collect_limit : ℕ
deriving DecidableEq

namespace Stream

def active (s : Stream) : Bool := s.failure.isNone && !(s.local_ended && s.remote_ended)

def unread (s : Stream) : ℕ := if s.collecting then 0 else s.body.length - s.body_pos

/-- False if the response says it is more than the limit of a stream that is collecting. -/
def makeRoom (s : Stream) : Bool :=
  !s.collecting || !s.got_head || !s.expected.any (· > s.collect_limit)

/-- Drops the part of the body that has been read, once that is a good part of it. -/
def compact (s : Stream) : Stream :=
  if s.body_pos ≥ 32 * 1024 ∧ s.body_pos * 2 ≥ s.body.length then
    { s with body := s.body.drop s.body_pos, body_pos := 0 }
  else s

def advance (s : Stream) (n : ℕ) : Stream :=
  let body_pos := s.body_pos + n
  let s := { s with unannounced := addU32 s.unannounced (asU32 n) }
  if body_pos ≥ s.body.length then { s with body := [], body_pos := 0 }
  else { s with body_pos := body_pos }

/-- A stream that takes in bytes of its body, of which `read` are read. -/
def takeIn (s : Stream) (bytes : Bytes) (read : ℕ) : Stream :=
  let n := bytes.length
  let s := { s with recv_window := s.recv_window - n, received := s.received + n }
  let s := if read < n then { s.compact with body := s.compact.body ++ bytes.drop read } else s
  { s with unannounced := addU32 s.unannounced (asU32 (if s.collecting then n else read)) }

end Stream

/-- What a header block does for a stream: the response head, or the trailers.  The error is the
stream's. -/
def headersFor (s : Stream) (end_stream : Bool) (fields : List Field) :
    Stream × Except (ErrorCode × String) Unit :=
  if s.remote_ended then (s, .error (.STREAM_CLOSED, "HEADERS after the end of the response"))
  else if s.got_head then
    -- trailers
    if !end_stream then
      (s, .error (.PROTOCOL_ERROR, "a second HEADERS that does not end the stream"))
    else
      match parseTrailers fields with
      | .error why => (s, .error (.PROTOCOL_ERROR, why))
      | .ok trailers =>
        let s := { s with remote_ended := true }
        if s.expected.any (s.received ≠ ·) then
          (s, .error (.PROTOCOL_ERROR, "less DATA than the Content-Length says"))
        else ({ s with trailers := some trailers }, .ok ())
  else
    match parseResponse fields with
    | .error why => (s, .error (.PROTOCOL_ERROR, why))
    | .ok (status, headers, length) =>
      if 100 ≤ status ∧ status < 200 then
        -- an interim response: nothing for the application
        let s := { s with interim := s.interim + 1 }
        if end_stream || status = 101 || s.interim > MAX_INTERIM then
          (s, .error (.PROTOCOL_ERROR,
            "a 1xx response that ends the stream, a 101, or too many 1xx"))
        else (s, .ok ())
      else
        let bodiless := s.head_request || status = 204 || status = 304
        let s := { s with
          got_head := true
          bodiless := bodiless
          expected := if bodiless then none else length
          head := some ⟨status, headers⟩ }
        if !s.makeRoom then (s, .error (.CANCEL, BODY_TOO_BIG))
        else if end_stream then
          let s := { s with remote_ended := true }
          if s.expected.any (· ≠ 0) then
            (s, .error (.PROTOCOL_ERROR,
              "the response ends without the DATA its Content-Length promised"))
          else (s, .ok ())
        else (s, .ok ())

/-! ### The connection -/

structure Block where
  stream : ℕ
  end_stream : Bool
  bytes : Bytes
  frames : ℕ
deriving DecidableEq

structure Incoming where
  stream : ℕ
  remaining : ℕ
  end_stream : Bool
  /-- True if the bytes are the stream's body; false if they are thrown away. -/
  keep : Bool
deriving DecidableEq

/-- The buffer of the application that reads one stream. -/
structure Direct where
  stream : ℕ
  len : ℕ
  written : Bytes
deriving DecidableEq

structure Connection where
  config : Config
  decoder : Decoder
  encoder : Encoder
  inbound : Bytes
  out : Bytes
  out_pos : ℕ
  streams : BTreeMap ℕ Stream
  next_stream_id : ℕ
  /-- How much DATA we may still send, over all streams. -/
  send_window : ℤ
  /-- How much the peer may still send, over all streams. -/
  recv_window : ℤ
  /-- Credit for the connection that the application has earned and the peer has not been given. -/
  unannounced : ℕ
  peer_initial_window : ℤ
  peer_max_frame : FrameSize
  peer_max_concurrent : ℕ
  peer_max_header_list : ℕ
  got_peer_settings : Bool
  block : Option Block
  /-- The DATA frame whose payload is arriving, if one is. -/
  incoming : Option Incoming
  empty_frames : ℕ
  goaway : Option (ℕ × ErrorCode)
  error : Option ConnectionError

namespace Connection

/-- A client connection whose preface and SETTINGS are waiting in the output. -/
def new (config : Config) : Connection where
  config := config
  decoder := Decoder.new HEADER_TABLE_SIZE config.max_header_list
  encoder := Encoder.new
  inbound := []
  out := PREFACE ++ writeSettings [(setting.HEADER_TABLE_SIZE, HEADER_TABLE_SIZE),
      (setting.ENABLE_PUSH, 0), (setting.INITIAL_WINDOW_SIZE, config.stream_window),
      (setting.MAX_HEADER_LIST_SIZE, config.max_header_list)] ++
    if config.connection_window > DEFAULT_WINDOW then
      writeWindowUpdate 0 (config.connection_window - DEFAULT_WINDOW)
    else []
  out_pos := 0
  streams := BTreeMap.empty
  next_stream_id := 1
  send_window := DEFAULT_WINDOW
  recv_window := config.window
  unannounced := 0
  peer_initial_window := DEFAULT_WINDOW
  peer_max_frame := ⟨DEFAULT_MAX_FRAME_SIZE, le_rfl, by decide⟩
  peer_max_concurrent := 2 ^ 32 - 1
  peer_max_header_list := 2 ^ 32 - 1
  got_peer_settings := false
  block := none
  incoming := none
  empty_frames := 0
  goaway := none
  error := none

def write (c : Connection) (bytes : Bytes) : Connection := { c with out := c.out ++ bytes }

def setStream (c : Connection) (id : ℕ) (s : Stream) : Connection :=
  { c with streams := c.streams.insert id s }

/-- The stream `id`, if it is held and has not failed. -/
def live (c : Connection) (id : ℕ) : Option Stream :=
  (c.streams.get id).filter fun s => s.failure.isNone

def consumeOutput (c : Connection) (n : ℕ) : Connection :=
  let out_pos := min (c.out_pos + n) c.out.length
  if out_pos = c.out.length then { c with out := [], out_pos := 0 }
  else { c with out_pos := out_pos }

/-! ### Credit -/

/-- Tells the peer it may send more on the stream, once the credit for it is worth a frame. -/
def announceStream (c : Connection) (id : ℕ) : Connection :=
  match c.streams.get id with
  | none => c
  | some s =>
    if s.remote_ended || s.failure.isSome || c.error.isSome || s.unannounced == 0 ||
        decide (s.unannounced < refreshThreshold c.config.stream_window) then c
    else
      (c.setStream id
        { s with unannounced := 0, recv_window := s.recv_window + s.unannounced }).write
          (writeWindowUpdate id s.unannounced)

/-- Gives the peer credit for `n` bytes of DATA that are no longer held here. -/
def creditConnection (c : Connection) (n : ℕ) : Connection :=
  if n = 0 then c
  else
    let unannounced := addU32 c.unannounced n
    if unannounced ≥ refreshThreshold c.config.window ∧ c.error.isNone then
      { c with
        unannounced := 0
        recv_window := c.recv_window + unannounced
        out := c.out ++ writeWindowUpdate 0 unannounced }
    else { c with unannounced := unannounced }

/-! ### Failures -/

/-- The stream has failed: what it held unread is dropped and the peer is given the credit. -/
def failStream (c : Connection) (id : ℕ) (failure : StreamError) : Connection :=
  match c.live id with
  | none => c
  | some s =>
    (c.setStream id { s with body := [], body_pos := 0, failure := some failure }).creditConnection
      (asU32 s.unread)

def streamError (c : Connection) (id : ℕ) (code : ErrorCode) (reason : String) : Connection :=
  match c.live id with
  | none => c
  | some _ => (c.failStream id ⟨code, asBytes reason, false⟩).write (writeRstStream id code)

/-- What the loss of the connection does to a stream: it fails unless its response is complete. -/
def dieStream (error : ConnectionError) (s : Stream) : Stream :=
  if s.failure.isNone && !s.remote_ended then
    { s with
      failure := some ⟨error.code, error.display, false⟩
      body := if s.collecting then [] else s.body }
  else s

def die (c : Connection) (error : ConnectionError) : Connection :=
  { c with
    incoming := none
    streams := c.streams.map fun _ => dieStream error
    error := some error }

/-- The end of a feed: a connection error ends the connection. -/
def finish (c : Connection) (result : Outcome ConnectionError Unit) : Connection :=
  match result with
  | .err e =>
    let c := { c with inbound := [] }
    (if e.local_ then c.write (writeGoaway 0 e.code e.reason) else c).die e
  | _ => c

/-! ### Requests -/

def activeStreams (c : Connection) : ℕ := (c.streams.entries.filter fun e => e.2.active).length

/-- False once the connection is lost, has been told to go away, or has used all its ids. -/
def usable (c : Connection) : Bool :=
  c.error.isNone && c.goaway.isNone && decide (c.next_stream_id ≤ MAX_STREAM_ID)

/-- True if the connection may be given another request now. -/
def canOpenStream (c : Connection) : Bool :=
  c.usable && decide (c.activeStreams < c.peer_max_concurrent)

def opened (c : Connection) (request : Request) (end_stream : Bool) : Stream where
  send_window := c.peer_initial_window
  recv_window := c.config.stream_window
  unannounced := 0
  local_ended := end_stream
  remote_ended := false
  head_request := eqIgnoreAsciiCase request.method (asBytes "HEAD")
  bodiless := false
  interim := 0
  head := none
  got_head := false
  trailers := none
  body := []
  body_pos := 0
  expected := none
  received := 0
  failure := none
  collecting := false
  collect_limit := 2 ^ 64 - 1

def openStream (c : Connection) (request : Request) (end_stream : Bool) :
    Connection × Outcome OpenError ℕ :=
  if !c.usable then (c, .err .Unavailable)
  else if !c.canOpenStream then (c, .err .Full)
  else
    match requestFields request (lowerNames request.headers) with
    | .error why => (c, .err (.Invalid why))
    | .ok list =>
      let size := (list.map fun f => f.name.length + f.value.length + 32).sum
      if size > c.peer_max_header_list then
        (c, .err (.Invalid (.ListSize size c.peer_max_header_list)))
      else
        match c.encoder.encode list with
        | .ok (block, encoder) =>
          let id := c.next_stream_id
          ({ c with
            encoder := encoder
            next_stream_id := id + 2
            out := c.out ++ writeHeaderBlock id end_stream block c.peer_max_frame
            streams := c.streams.insert id (c.opened request end_stream) }, .ok id)
        | _ => (c, .fault)

/-- How many bytes of body `send_data` would take now on this stream. -/
def sendCapacity (c : Connection) (id : ℕ) : ℕ :=
  match c.streams.get id with
  | none => 0
  | some s =>
    if s.failure.isSome || s.local_ended || c.error.isSome then 0
    else
      let room := OUTPUT_HIGH_WATER - (c.out.length - c.out_pos)
      (min (max (min s.send_window c.send_window) 0) (room : ℤ)).toNat

/-- The loop of `send_data` over what is left. -/
def writeDataRest (stream : ℕ) (finish : Bool) (max_frame : FrameSize) (rest : Bytes) : Bytes :=
  if _h : rest.length ≤ max_frame.size then writeData stream finish rest
  else
    writeData stream false (rest.take max_frame.size) ++
      writeDataRest stream finish max_frame (rest.drop max_frame.size)
termination_by rest.length
decreasing_by
  have := max_frame.ge
  rw [DEFAULT_MAX_FRAME_SIZE] at this
  rw [List.length_drop]
  omega

/-- Sends as much of `data` as the windows and the output backlog allow, and says how much. -/
def sendData (c : Connection) (id : ℕ) (data : Bytes) (end_stream : Bool) :
    Connection × Except StreamError ℕ :=
  let n := min (c.sendCapacity id) data.length
  match c.streams.get id with
  | none => (c, .error (localError "there is no such stream"))
  | some s =>
    match s.failure with
    | some f => (c, .error f)
    | none =>
      if s.local_ended then (c, .error (localError "the request body was already ended"))
      else if c.error.isSome then (c, .error (localError "the connection is lost"))
      else
        let finish := end_stream && decide (n = data.length)
        if n = 0 ∧ finish = false then (c, .ok 0)
        else
          ({ c with
            out := c.out ++ writeDataRest id finish c.peer_max_frame (data.take n)
            send_window := c.send_window - n
            streams := c.streams.insert id { s with
              send_window := s.send_window - n
              local_ended := s.local_ended || finish } }, .ok n)

/-! ### Reading -/

inductive StreamEvent where
  | Pending
  | Head (head : Head)
  /-- This many bytes of the body were handed over. -/
  | Data (n : ℕ)
  | Trailers (trailers : Fields)
  | End
  | Failed (error : StreamError)
deriving DecidableEq

inductive Collected where
  /-- The response is not complete; how far it has come. -/
  | Pending (progress : ℕ)
  /-- The whole body was handed over; and the head, if the application has not taken it. -/
  | Done (head : Option Head)
  | Failed (error : StreamError) (got_head : Bool)
deriving DecidableEq

/-- Where the body bytes of a poll go: copied into a buffer of this length, or moved. -/
inductive Sink where
  | Copy (len : ℕ)
  | Take
deriving DecidableEq

/-- How many bytes the sink takes of those that are waiting, at most. -/
def Sink.most : Sink → ℕ
  | .Copy len => len
  | .Take => TAKE_MAX

/-- What the stream has for the application, and the body bytes that were handed over. -/
def poll (c : Connection) (id : ℕ) (sink : Sink) : Connection × StreamEvent × Bytes :=
  match c.streams.get id with
  | none => (c, .Failed (localError "there is no such stream"), [])
  | some s =>
    match s.head with
    | some head => (c.setStream id { s with head := none }, .Head head, [])
    | none =>
      if s.unread > 0 ∧ sink.most > 0 then
        let n := min s.unread sink.most
        (((c.setStream id (s.advance n)).announceStream id).creditConnection (asU32 n),
          .Data n, (s.body.drop s.body_pos).take n)
      else
        match s.failure with
        | some f => (c, .Failed f, [])
        | none =>
          if s.unread = 0 then
            match s.trailers with
            | some t => (c.setStream id { s with trailers := none }, .Trailers t, [])
            | none => if s.remote_ended then (c, .End, []) else (c, .Pending, [])
          else (c, .Pending, [])

/-- The rest of a DATA frame that is arriving for the stream. -/
def arriving (c : Connection) (id : ℕ) : ℕ :=
  match c.incoming with
  | some i => if i.stream = id ∧ i.keep then i.remaining else 0
  | none => 0

/-- The application will read the rest of the response whole. -/
def collectStream (c : Connection) (id limit : ℕ) : Connection :=
  match c.live id with
  | none => c
  | some s =>
    if s.collecting then c
    else
      -- what is held unread is the start of what is collected, and as good as read
      let body := s.body.drop s.body_pos
      let s := { s with
        body := body
        body_pos := 0
        collecting := true
        collect_limit := limit
        unannounced := addU32 s.unannounced (asU32 body.length) }
      let too_big := decide (s.received + c.arriving id > limit) || !s.makeRoom
      let c := ((c.setStream id s).announceStream id).creditConnection (asU32 body.length)
      if too_big then c.streamError id .CANCEL BODY_TOO_BIG else c

/-- The body of a stream that is collecting, if its response is complete. -/
def collected (c : Connection) (id : ℕ) : Connection × Collected × Bytes :=
  match c.streams.get id with
  | none => (c, .Failed (localError "there is no such stream") false, [])
  | some s =>
    match s.failure with
    | some f => (c, .Failed f s.got_head, [])
    | none =>
      if !s.collecting then (c, .Failed (localError "the stream is not collecting") s.got_head, [])
      else if s.remote_ended then
        (c.setStream id { s with body := [], head := none }, .Done s.head, s.body)
      else (c, .Pending (s.received + if s.got_head then 1 else 0), [])

def releaseStream (c : Connection) (id : ℕ) : Connection :=
  match c.streams.get id with
  | none => c
  | some s =>
    let c := { c with streams := c.streams.remove id }
    let c := if s.active && c.error.isNone then c.write (writeRstStream id .CANCEL) else c
    c.creditConnection (asU32 s.unread)

/-! ### Frames -/

/-- A frame for a stream of the server's own or one that was never opened is a connection error. -/
def requireServerStreamKnown (c : Connection) (stream : ℕ) : Outcome ConnectionError Unit :=
  if stream % 2 = 0 then
    .err (connectionError .PROTOCOL_ERROR
      "a frame on a stream the server would have to start, though push is switched off")
  else if stream ≥ c.next_stream_id then
    .err (connectionError .PROTOCOL_ERROR "a frame on a stream that was never opened")
  else .ok ()

def controlBacklog (c : Connection) : Outcome ConnectionError Unit :=
  if c.out.length - c.out_pos > CONTROL_BACKLOG then
    .err (connectionError .ENHANCE_YOUR_CALM "more frames needing an answer than can be answered")
  else .ok ()

/-- What is wrong with a DATA frame for the stream, from its header alone. -/
def badData (s : Stream) (end_stream : Bool) (len flow_len : ℕ) : Option (ErrorCode × String) :=
  if s.remote_ended then some (.STREAM_CLOSED, "DATA after the end of the response")
  else if !s.got_head then some (.PROTOCOL_ERROR, "DATA before the response headers")
  else if (flow_len : ℤ) > s.recv_window then
    some (.FLOW_CONTROL_ERROR, "the server sent more than the stream window allows")
  else if s.bodiless && decide (len > 0) then
    some (.PROTOCOL_ERROR, "DATA in a response that has no body")
  else if s.collecting && decide (s.received + len > s.collect_limit) then
    some (.CANCEL, BODY_TOO_BIG)
  else if s.expected.any (s.received + len > ·) then
    some (.PROTOCOL_ERROR, "more DATA than the Content-Length says")
  else if end_stream && s.expected.any (s.received + len ≠ ·) then
    some (.PROTOCOL_ERROR, "less DATA than the Content-Length says")
  else none

def countEmpty (c : Connection) (end_stream : Bool) (len : ℕ) :
    Connection × Outcome ConnectionError Unit :=
  if len = 0 ∧ end_stream = false then
    let c := { c with empty_frames := c.empty_frames + 1 }
    if c.empty_frames > EMPTY_FRAMES then
      (c, .err (connectionError .ENHANCE_YOUR_CALM "a flood of empty DATA frames"))
    else (c, .ok ())
  else (c, .ok ())

/-- Whether the bytes of a DATA frame are kept; if the frame is wrong for the stream, it loses
it. -/
def keepData (c : Connection) (id : ℕ) (end_stream : Bool) (len flow_len : ℕ) : Connection × Bool :=
  match c.live id with
  | none => (c, false)
  | some s =>
    match badData s end_stream len flow_len with
    | none => (c, true)
    | some (code, reason) => (c.streamError id code reason, false)

/-- What can be said of a DATA frame from its header alone: whether its bytes are kept. -/
def checkData (c : Connection) (id : ℕ) (end_stream : Bool) (len flow_len : ℕ) :
    Connection × Outcome ConnectionError Bool :=
  match c.requireServerStreamKnown id with
  | .err e => (c, .err e)
  | .fault => (c, .fault)
  | .ok () =>
    if (flow_len : ℤ) > c.recv_window then
      (c, .err (connectionError .FLOW_CONTROL_ERROR
        "the server sent more than the connection window allows"))
    else
      match c.countEmpty end_stream len with
      | (c, .err e) => (c, .err e)
      | (c, .fault) => (c, .fault)
      | (c, .ok ()) =>
        let (c, keep) := c.keepData id end_stream len flow_len
        (c, .ok keep)

end Connection

/-- A connection that is being fed, with the buffer of the reader that feeds it. -/
structure Feeding where
  c : Connection
  direct : Option Direct

namespace Connection

/-- How many of `n` bytes of the stream go straight to the reader: those that it would read next. -/
def directRoom (direct : Option Direct) (id : ℕ) (s : Stream) (n : ℕ) : ℕ :=
  match direct with
  | none => 0
  | some d =>
    if d.stream = id ∧ !s.collecting ∧ s.head.isNone ∧ s.unread = 0 then
      min n (d.len - d.written.length)
    else 0

/-- Some of the payload of a DATA frame: it counts against the windows as it comes, and it is the
stream's body or thrown away. -/
def dataBytes (f : Feeding) (id : ℕ) (keep : Bool) (bytes : Bytes) : Feeding :=
  let n := bytes.length
  let c := { f.c with recv_window := f.c.recv_window - n }
  match if keep then c.live id else none with
  | none => { f with c := c.creditConnection (asU32 n) }
  | some s =>
    let read := directRoom f.direct id s n
    let direct := f.direct.map fun d => { d with written := d.written ++ bytes.take read }
    let c := c.setStream id (s.takeIn bytes read)
    if s.collecting then ⟨c.creditConnection (asU32 n), direct⟩
    else if read > 0 then ⟨(c.announceStream id).creditConnection (asU32 read), direct⟩
    else ⟨c, direct⟩

/-- The end of a DATA frame: the padding, and the end of the response if the frame was its last. -/
def dataEnd (c : Connection) (id : ℕ) (keep end_stream : Bool) (padding : ℕ) : Connection :=
  let c := { c with recv_window := c.recv_window - padding }
  match if keep then c.live id else none with
  | none => c.creditConnection padding
  | some s =>
    ((c.setStream id { s with
      recv_window := s.recv_window - padding
      unannounced := addU32 s.unannounced padding
      remote_ended := s.remote_ended || end_stream }).creditConnection padding).announceStream id

def onData (f : Feeding) (id : ℕ) (end_stream : Bool) (data : Bytes) (flow_len : ℕ) :
    Feeding × Outcome ConnectionError Unit :=
  match f.c.checkData id end_stream data.length flow_len with
  | (c, .ok keep) =>
    let f := dataBytes { f with c := c } id keep data
    ({ f with c := f.c.dataEnd id keep end_stream (flow_len - data.length) }, .ok ())
  | (c, .err e) => ({ f with c := c }, .err e)
  | (c, .fault) => ({ f with c := c }, .fault)

/-- The start of a DATA frame that is not all here. -/
def beginData (c : Connection) (h : Header) : Connection × Outcome ConnectionError Unit :=
  let c := { c with empty_frames := 0 }
  let end_stream := h.has flag.END_STREAM
  match c.checkData h.stream end_stream h.length h.length with
  | (c, .ok keep) => ({ c with incoming := some ⟨h.stream, h.length, end_stream, keep⟩ }, .ok ())
  | (c, .err e) => (c, .err e)
  | (c, .fault) => (c, .fault)

/-- Passes on the payload of the DATA frame that is arriving, and says how many bytes that was. -/
def passOn (f : Feeding) (bytes : Bytes) : Feeding × ℕ :=
  match f.c.incoming with
  | none => (f, 0)
  | some i =>
    let n := min bytes.length i.remaining
    let remaining := i.remaining - n
    let c := { f.c with
      incoming := if remaining = 0 then none else some { i with remaining := remaining } }
    let f := dataBytes { f with c := c } i.stream i.keep (bytes.take n)
    if remaining = 0 then
      ({ f with c := f.c.dataEnd i.stream i.keep i.end_stream 0 }, n)
    else (f, n)

def onHeaders (c : Connection) (id : ℕ) (end_stream : Bool) (fields : List Field) : Connection :=
  match c.live id with
  | none => c
  | some s =>
    match headersFor s end_stream fields with
    | (s, .error (code, why)) => (c.setStream id s).streamError id code why
    | (s, .ok ()) => c.setStream id s

/-- A header block is complete.  (The decoder of a connection that is lost to a bad block is not
used again: what such a block leaves in its table is not modelled.) -/
def onBlock (c : Connection) (b : Block) : Connection × Outcome ConnectionError Unit :=
  match c.decoder.decode b.bytes [] with
  | .err e => (c, .err ⟨.COMPRESSION_ERROR, hpackDisplay e, true⟩)
  | .fault => (c, .fault)
  | .ok (within, fields, decoder) =>
    let c := { c with decoder := decoder }
    if !within then
      (c.streamError b.stream .PROTOCOL_ERROR
        "the response header list is larger than this client takes", .ok ())
    else (c.onHeaders b.stream b.end_stream fields, .ok ())

/-- A part of the header block `b` that is in progress. -/
def onFragment (c : Connection) (b : Block) (end_headers : Bool) (fragment : Bytes) :
    Connection × Outcome ConnectionError Unit :=
  let limit := c.config.max_header_list + 1024
  if b.frames + 1 > MAX_BLOCK_FRAMES ∨ b.bytes.length + fragment.length > limit then
    ({ c with block := some { b with frames := b.frames + 1 } },
      .err (connectionError .ENHANCE_YOUR_CALM "a header block that goes on too long"))
  else
    let b := { b with frames := b.frames + 1, bytes := b.bytes ++ fragment }
    if !end_headers then ({ c with block := some b }, .ok ())
    else { c with block := none }.onBlock b

def onReset (c : Connection) (id : ℕ) (code : ErrorCode) :
    Connection × Outcome ConnectionError Unit :=
  if id % 2 = 0 ∨ id ≥ c.next_stream_id then
    (c, .err (connectionError .PROTOCOL_ERROR "RST_STREAM on a stream that was never opened"))
  else
    match c.live id with
    | none => (c, .ok ())
    | some s =>
      -- a server may say it is done with a stream whose response is complete
      if s.remote_ended then (c.setStream id { s with local_ended := true }, .ok ())
      else
        -- what arrived before the reset stays for the application to read
        (c.setStream id { s with
          failure := some ⟨code, asBytes "the server reset the stream: " ++ code.display,
            code = .REFUSED_STREAM⟩ }, .ok ())

/-- A new SETTINGS_INITIAL_WINDOW_SIZE for the streams that are held. -/
def moveWindows (c : Connection) (delta : ℤ) : Connection × Outcome ConnectionError Unit :=
  let move := fun s : Stream => { s with send_window := s.send_window + delta }
  match c.streams.entries.find? fun e => e.2.send_window + delta > (MAX_WINDOW : ℤ) with
  | none => ({ c with streams := c.streams.map fun _ => move }, .ok ())
  | some (last, _) =>
    -- the loop stops at the first stream whose window is too large
    ({ c with streams := c.streams.map fun id s => if id ≤ last then move s else s },
      .err (connectionError .FLOW_CONTROL_ERROR
        "a new SETTINGS_INITIAL_WINDOW_SIZE makes a stream window too large"))

def onSetting (c : Connection) (id value : ℕ) : Connection × Outcome ConnectionError Unit :=
  if id = setting.HEADER_TABLE_SIZE then
    match c.encoder.setPeerTableSize value with
    | .ok encoder => ({ c with encoder := encoder }, .ok ())
    | _ => (c, .fault)
  else if id = setting.ENABLE_PUSH then
    if value > 1 then
      (c, .err (connectionError .PROTOCOL_ERROR "SETTINGS_ENABLE_PUSH is neither 0 nor 1"))
    else (c, .ok ())
  else if id = setting.MAX_CONCURRENT_STREAMS then
    ({ c with peer_max_concurrent := value }, .ok ())
  else if id = setting.INITIAL_WINDOW_SIZE then
    if value > MAX_WINDOW then
      (c, .err (connectionError .FLOW_CONTROL_ERROR
        "SETTINGS_INITIAL_WINDOW_SIZE is over 2^31 - 1"))
    else
      { c with peer_initial_window := value }.moveWindows (value - c.peer_initial_window)
  else if id = setting.MAX_FRAME_SIZE then
    if h : DEFAULT_MAX_FRAME_SIZE ≤ value ∧ value ≤ MAX_FRAME_SIZE_LIMIT then
      ({ c with peer_max_frame := ⟨value, h.1, h.2⟩ }, .ok ())
    else (c, .err (connectionError .PROTOCOL_ERROR "SETTINGS_MAX_FRAME_SIZE out of range"))
  else if id = setting.MAX_HEADER_LIST_SIZE then
    ({ c with peer_max_header_list := value }, .ok ())
  -- settings that are not known are to be ignored
  else (c, .ok ())

def onSettingsRest (c : Connection) : List (ℕ × ℕ) → Connection × Outcome ConnectionError Unit
  | [] => (c, .ok ())
  | (id, value) :: values =>
    match c.onSetting id value with
    | (c, .ok ()) => onSettingsRest c values
    | (c, r) => (c, r)

def onSettings (c : Connection) (ack : Bool) (values : List (ℕ × ℕ)) :
    Connection × Outcome ConnectionError Unit :=
  if ack then (c, .ok ())
  else
    match { c with got_peer_settings := true }.onSettingsRest values with
    | (c, .ok ()) =>
      match c.controlBacklog with
      | .ok () => (c.write writeSettingsAck, .ok ())
      | r => (c, r)
    | (c, r) => (c, r)

def refused (c : Connection) (last : ℕ) : List ℕ :=
  (c.streams.entries.filter fun e =>
    decide (e.1 > last) && e.2.failure.isNone && !e.2.remote_ended).map Prod.fst

def onGoaway (c : Connection) (last_stream : ℕ) (code : ErrorCode) (debug : Bytes) :
    Connection × Outcome ConnectionError Unit :=
  -- a later GOAWAY may only lower the last stream id
  let last := match c.goaway with
    | none => last_stream
    | some (l, _) => min l last_stream
  let c := { c with goaway := some (last, code) }
  let note := fromUtf8Lossy (debug.take 200)
  let failure : StreamError := ⟨code, asBytes "the server is going away (" ++ code.display ++
    asBytes ") and did not take this request: " ++ note, true⟩
  let c := (c.refused last).foldl (fun c id => c.failStream id failure) c
  if code = .NO_ERROR then (c, .ok ())
  else (c, .err ⟨code, asBytes "the server sent GOAWAY: " ++ note, false⟩)

def onWindowUpdate (c : Connection) (id increment : ℕ) :
    Connection × Outcome ConnectionError Unit :=
  if id = 0 then
    let c := { c with send_window := c.send_window + increment }
    if c.send_window > (MAX_WINDOW : ℤ) then
      (c, .err (connectionError .FLOW_CONTROL_ERROR "the connection window went over 2^31 - 1"))
    else (c, .ok ())
  else if id % 2 = 0 ∨ id ≥ c.next_stream_id then
    (c, .err (connectionError .PROTOCOL_ERROR "WINDOW_UPDATE on a stream that was never opened"))
  else
    match c.streams.get id with
    | none => (c, .ok ())
    | some s =>
      let s := { s with send_window := s.send_window + increment }
      let c := c.setStream id s
      if s.send_window > (MAX_WINDOW : ℤ) then
        (c.streamError id .FLOW_CONTROL_ERROR "the stream window went over 2^31 - 1", .ok ())
      else (c, .ok ())

def onPing (c : Connection) (ack : Bool) (data : Bytes) :
    Connection × Outcome ConnectionError Unit :=
  if ack then (c, .ok ())
  else
    match c.controlBacklog with
    | .ok () => (c.write (writePing true data), .ok ())
    | r => (c, r)

def onHeadersFrame (c : Connection) (stream : ℕ) (end_stream end_headers : Bool)
    (fragment : Bytes) : Connection × Outcome ConnectionError Unit :=
  match c.requireServerStreamKnown stream with
  | .ok () => c.onFragment ⟨stream, end_stream, [], 0⟩ end_headers fragment
  | r => (c, r)

/-- The frame may come now: a header block in progress is followed by its CONTINUATION frames and
nothing else. -/
def inOrder (c : Connection) (f : Frame) : Bool :=
  match c.block, f with
  | none, _ => true
  | some b, .Continuation stream _ _ => stream = b.stream
  | some _, _ => false

/-- A DATA frame that carries nothing and does not end its stream. -/
def isEmptyData : Frame → Bool
  | .Data _ false [] _ => true
  | _ => false

def handleControl (c : Connection) : Frame → Connection × Outcome ConnectionError Unit
  | .Headers stream end_stream end_headers fragment =>
    c.onHeadersFrame stream end_stream end_headers fragment
  | .Continuation _ end_headers fragment =>
    match c.block with
    | some b => c.onFragment b end_headers fragment
    | none => (c, .err (connectionError .PROTOCOL_ERROR
        "CONTINUATION with no header block to continue"))
  | .RstStream stream code => c.onReset stream code
  | .Settings ack values => c.onSettings ack values
  | .PushPromise _ => (c, .err (connectionError .PROTOCOL_ERROR
      "PUSH_PROMISE, though push is switched off"))
  | .Ping ack data => c.onPing ack data
  | .GoAway last_stream code debug => c.onGoaway last_stream code debug
  | .WindowUpdate stream increment => c.onWindowUpdate stream increment
  | .Priority _ | .Unknown _ _ | .Data _ _ _ _ => (c, .ok ())

/-- A frame that carries something ends a row of frames that carry nothing. -/
def resetEmpty (c : Connection) (frame : Frame) : Connection :=
  if isEmptyData frame then c else { c with empty_frames := 0 }

def dispatch (f : Feeding) : Frame → Feeding × Outcome ConnectionError Unit
  | .Data stream end_stream data flow_len => onData f stream end_stream data flow_len
  | frame => ({ f with c := (f.c.handleControl frame).1 }, (f.c.handleControl frame).2)

def handle (f : Feeding) (frame : Frame) : Feeding × Outcome ConnectionError Unit :=
  if !f.c.inOrder frame then
    (f, .err (connectionError .PROTOCOL_ERROR "a frame in the middle of a header block"))
  else dispatch { f with c := f.c.resetEmpty frame } frame

end Connection

end Lazaret.H2
