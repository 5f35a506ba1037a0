import Lazaret.H2.Hpack
import Lazaret.Lib.Framing

/-!
# Frames of HTTP/2

The header of a frame, the checks of a payload that depend on the frame alone, and what the
`write_*` functions append (`http/h2/frame.rs`).  Lengths, stream identifiers and error codes are
natural numbers; they are below 2³² because they are read from four bytes.
-/

namespace Lazaret.H2

abbrev Bytes := List UInt8

export Hpack (asBytes)

def PREFACE : Bytes := asBytes "PRI * HTTP/2.0\r\n\r\nSM\r\n\r\n"

def HEADER_LEN : ℕ := 9

/-- The largest frame payload a peer may send until it has been told otherwise. -/
def DEFAULT_MAX_FRAME_SIZE : ℕ := 16384

def MAX_FRAME_SIZE_LIMIT : ℕ := 16777215

/-- The flow-control window every stream and the connection start with. -/
def DEFAULT_WINDOW : ℕ := 65535

def MAX_WINDOW : ℕ := 0x7fffffff

namespace kind

def DATA : UInt8 := 0x0
def HEADERS : UInt8 := 0x1
def PRIORITY : UInt8 := 0x2
def RST_STREAM : UInt8 := 0x3
def SETTINGS : UInt8 := 0x4
def PUSH_PROMISE : UInt8 := 0x5
def PING : UInt8 := 0x6
def GOAWAY : UInt8 := 0x7
def WINDOW_UPDATE : UInt8 := 0x8
def CONTINUATION : UInt8 := 0x9

end kind

namespace flag

/-- DATA and HEADERS: no more frames on this stream from the sender. -/
def END_STREAM : UInt8 := 0x1
def ACK : UInt8 := 0x1
/-- HEADERS, PUSH_PROMISE and CONTINUATION: the header block is complete. -/
def END_HEADERS : UInt8 := 0x4
/-- DATA, HEADERS and PUSH_PROMISE: the payload has padding. -/
def PADDED : UInt8 := 0x8
def PRIORITY : UInt8 := 0x20

end flag

namespace setting

def HEADER_TABLE_SIZE : ℕ := 0x1
def ENABLE_PUSH : ℕ := 0x2
def MAX_CONCURRENT_STREAMS : ℕ := 0x3
def INITIAL_WINDOW_SIZE : ℕ := 0x4
def MAX_FRAME_SIZE : ℕ := 0x5
def MAX_HEADER_LIST_SIZE : ℕ := 0x6

end setting

/-- An error code; the codes the source does not know are kept as they came. -/
structure ErrorCode where
  code : ℕ
deriving DecidableEq

namespace ErrorCode

def NO_ERROR : ErrorCode := ⟨0x0⟩
def PROTOCOL_ERROR : ErrorCode := ⟨0x1⟩
def FLOW_CONTROL_ERROR : ErrorCode := ⟨0x3⟩
def STREAM_CLOSED : ErrorCode := ⟨0x5⟩
def FRAME_SIZE_ERROR : ErrorCode := ⟨0x6⟩
def REFUSED_STREAM : ErrorCode := ⟨0x7⟩
def CANCEL : ErrorCode := ⟨0x8⟩
def COMPRESSION_ERROR : ErrorCode := ⟨0x9⟩
def ENHANCE_YOUR_CALM : ErrorCode := ⟨0xb⟩

def NAMES : List String := ["NO_ERROR", "PROTOCOL_ERROR", "INTERNAL_ERROR", "FLOW_CONTROL_ERROR",
  "SETTINGS_TIMEOUT", "STREAM_CLOSED", "FRAME_SIZE_ERROR", "REFUSED_STREAM", "CANCEL",
  "COMPRESSION_ERROR", "CONNECT_ERROR", "ENHANCE_YOUR_CALM", "INADEQUATE_SECURITY",
  "HTTP_1_1_REQUIRED"]

def display (e : ErrorCode) : Bytes :=
  match NAMES[e.code]? with
  | some name => asBytes name
  | none => asBytes "an unknown error (0x" ++
      (Nat.toDigits 16 e.code).map (fun c => UInt8.ofNat c.toNat) ++ asBytes ")"

end ErrorCode

structure FrameError where
  code : ErrorCode
  /-- The stream that is lost, if only one is; `none` if the whole connection is. -/
  stream : Option ℕ
  reason : String
deriving DecidableEq

namespace FrameError

def connectionError (code : ErrorCode) (reason : String) : FrameError := ⟨code, none, reason⟩

end FrameError

/-! ### Headers -/

def fromBe (b : Bytes) : ℕ := b.foldl (fun n x => n * 256 + x.toNat) 0

/-- A number of 32 bits as four bytes, the highest first. -/
def toBe (n : ℕ) : Bytes :=
  [UInt8.ofNat (n / 2 ^ 24), UInt8.ofNat (n / 2 ^ 16), UInt8.ofNat (n / 2 ^ 8), UInt8.ofNat n]

structure Header where
  length : ℕ
  kind : UInt8
  flags : UInt8
  stream : ℕ
deriving DecidableEq

namespace Header

def parse (b : Bytes) : Header where
  length := fromBe [b.getD 0 0, b.getD 1 0, b.getD 2 0]
  kind := b.getD 3 0
  flags := b.getD 4 0
  -- the highest bit is reserved
  stream := fromBe [b.getD 5 0, b.getD 6 0, b.getD 7 0, b.getD 8 0] % 2 ^ 31

def write (h : Header) : Bytes :=
  (toBe h.length).drop 1 ++ [h.kind, h.flags] ++ toBe h.stream

def has (h : Header) (flag : UInt8) : Bool := h.flags &&& flag ≠ 0

end Header

/-! ### Payloads -/

/-- A frame whose payload has passed the checks that need nothing but the frame. -/
inductive Frame where
  /-- `flow_len` is what the frame takes from the flow-control windows: the whole payload. -/
  | Data (stream : ℕ) (end_stream : Bool) (data : Bytes) (flow_len : ℕ)
  | Headers (stream : ℕ) (end_stream end_headers : Bool) (fragment : Bytes)
  | Priority (stream : ℕ)
  | RstStream (stream : ℕ) (code : ErrorCode)
  | Settings (ack : Bool) (values : List (ℕ × ℕ))
  | PushPromise (stream : ℕ)
  | Ping (ack : Bool) (data : Bytes)
  | GoAway (last_stream : ℕ) (code : ErrorCode) (debug : Bytes)
  | WindowUpdate (stream increment : ℕ)
  | Continuation (stream : ℕ) (end_headers : Bool) (fragment : Bytes)
  /-- A frame of a kind that is not known, which is to be ignored. -/
  | Unknown (kind : UInt8) (stream : ℕ)
deriving DecidableEq

namespace Frame

open FrameError (connectionError)

def unpad (h : Header) (payload : Bytes) : Except FrameError Bytes :=
  if h.has flag.PADDED then
    match payload with
    | [] => .error (connectionError .FRAME_SIZE_ERROR "a padded frame without its Pad Length")
    | pad :: _ =>
      if pad.toNat ≥ payload.length then
        .error (connectionError .PROTOCOL_ERROR "padding as long as the frame")
      else .ok ((payload.take (payload.length - pad.toNat)).drop 1)
  else .ok payload

def onAStream (h : Header) (what : String) : Except FrameError ℕ :=
  if h.stream = 0 then .error (connectionError .PROTOCOL_ERROR what) else .ok h.stream

def onTheConnection (h : Header) (what : String) : Except FrameError Unit :=
  if h.stream ≠ 0 then .error (connectionError .PROTOCOL_ERROR what) else .ok ()

def sized (ok : Bool) (what : String) : Except FrameError Unit :=
  if ok then .ok () else .error (connectionError .FRAME_SIZE_ERROR what)

/-- What is left of a HEADERS payload without its priority fields. -/
def unprioritized (h : Header) (body : Bytes) : Except FrameError Bytes :=
  if h.has flag.PRIORITY then do
    sized (body.length ≥ 5) "HEADERS too short for its priority fields"
    .ok (body.drop 5)
  else .ok body

def settings : Bytes → List (ℕ × ℕ)
  | a :: b :: c :: d :: e :: f :: rest => (fromBe [a, b], fromBe [c, d, e, f]) :: settings rest
  | _ => []

def parseData (h : Header) (payload : Bytes) : Except FrameError Frame := do
  let stream ← onAStream h "DATA on stream 0"
  let data ← unpad h payload
  .ok (Data stream (h.has flag.END_STREAM) data h.length)

def parseHeaders (h : Header) (payload : Bytes) : Except FrameError Frame := do
  let stream ← onAStream h "HEADERS on stream 0"
  let body ← unpad h payload
  let body ← unprioritized h body
  .ok (Headers stream (h.has flag.END_STREAM) (h.has flag.END_HEADERS) body)

def parsePriority (h : Header) (payload : Bytes) : Except FrameError Frame := do
  let stream ← onAStream h "PRIORITY on stream 0"
  if payload.length ≠ 5 then
    .error ⟨.FRAME_SIZE_ERROR, some stream, "PRIORITY of the wrong length"⟩
  else .ok (Priority stream)

def parseRstStream (h : Header) (payload : Bytes) : Except FrameError Frame := do
  let stream ← onAStream h "RST_STREAM on stream 0"
  sized (payload.length = 4) "RST_STREAM of the wrong length"
  .ok (RstStream stream ⟨fromBe payload⟩)

def parseSettings (h : Header) (payload : Bytes) : Except FrameError Frame := do
  onTheConnection h "SETTINGS on a stream"
  sized (!h.has flag.ACK || payload.isEmpty) "a SETTINGS acknowledgement with settings in it"
  sized (payload.length % 6 = 0) "SETTINGS of a length that is not a multiple of 6"
  .ok (Settings (h.has flag.ACK) (settings payload))

def parsePushPromise (h : Header) (payload : Bytes) : Except FrameError Frame := do
  let stream ← onAStream h "PUSH_PROMISE on stream 0"
  let body ← unpad h payload
  sized (body.length ≥ 4) "PUSH_PROMISE too short for the promised stream"
  .ok (PushPromise stream)

def parsePing (h : Header) (payload : Bytes) : Except FrameError Frame := do
  onTheConnection h "PING on a stream"
  sized (payload.length = 8) "PING of the wrong length"
  .ok (Ping (h.has flag.ACK) payload)

def parseGoaway (h : Header) (payload : Bytes) : Except FrameError Frame := do
  onTheConnection h "GOAWAY on a stream"
  sized (payload.length ≥ 8) "GOAWAY too short"
  .ok (GoAway (fromBe (payload.take 4) % 2 ^ 31) ⟨fromBe ((payload.drop 4).take 4)⟩
    (payload.drop 8))

def parseWindowUpdate (h : Header) (payload : Bytes) : Except FrameError Frame := do
  sized (payload.length = 4) "WINDOW_UPDATE of the wrong length"
  if fromBe payload % 2 ^ 31 = 0 then
    .error ⟨.PROTOCOL_ERROR, if h.stream = 0 then none else some h.stream, "a WINDOW_UPDATE of 0"⟩
  else .ok (WindowUpdate h.stream (fromBe payload % 2 ^ 31))

def parseContinuation (h : Header) (payload : Bytes) : Except FrameError Frame := do
  let stream ← onAStream h "CONTINUATION on stream 0"
  .ok (Continuation stream (h.has flag.END_HEADERS) payload)

/-- Checks the payload of the frame `h` describes and takes it apart. -/
def parse (h : Header) (payload : Bytes) : Except FrameError Frame :=
  if h.kind = kind.DATA then parseData h payload
  else if h.kind = kind.HEADERS then parseHeaders h payload
  else if h.kind = kind.PRIORITY then parsePriority h payload
  else if h.kind = kind.RST_STREAM then parseRstStream h payload
  else if h.kind = kind.SETTINGS then parseSettings h payload
  else if h.kind = kind.PUSH_PROMISE then parsePushPromise h payload
  else if h.kind = kind.PING then parsePing h payload
  else if h.kind = kind.GOAWAY then parseGoaway h payload
  else if h.kind = kind.WINDOW_UPDATE then parseWindowUpdate h payload
  else if h.kind = kind.CONTINUATION then parseContinuation h payload
  else .ok (Unknown h.kind h.stream)

end Frame

/-! ### Writing -/

structure FrameSize where
  size : ℕ
  ge : DEFAULT_MAX_FRAME_SIZE ≤ size
  le : size ≤ MAX_FRAME_SIZE_LIMIT
deriving DecidableEq

def start (length : ℕ) (kind flags : UInt8) (stream : ℕ) : Bytes :=
  Header.write ⟨length, kind, flags, stream⟩

/-- A SETTINGS frame with these (identifier, value) pairs. -/
def writeSettings (values : List (ℕ × ℕ)) : Bytes :=
  start (values.length * 6) kind.SETTINGS 0 0 ++
    values.flatMap fun v => (toBe v.1).drop 2 ++ toBe v.2

def writeSettingsAck : Bytes := start 0 kind.SETTINGS flag.ACK 0

def writePing (ack : Bool) (data : Bytes) : Bytes :=
  start 8 kind.PING (if ack then flag.ACK else 0) 0 ++ data

def writeWindowUpdate (stream increment : ℕ) : Bytes :=
  start 4 kind.WINDOW_UPDATE 0 stream ++ toBe increment

def writeRstStream (stream : ℕ) (code : ErrorCode) : Bytes :=
  start 4 kind.RST_STREAM 0 stream ++ toBe code.code

def writeGoaway (last_stream : ℕ) (code : ErrorCode) (debug : Bytes) : Bytes :=
  start (8 + debug.length) kind.GOAWAY 0 0 ++ (toBe last_stream ++ toBe code.code ++ debug)

/-- One DATA frame; the caller keeps `data` within the frame size the peer allows. -/
def writeData (stream : ℕ) (end_stream : Bool) (data : Bytes) : Bytes :=
  start data.length kind.DATA (if end_stream then flag.END_STREAM else 0) stream ++ data

def blockFlags (end_stream first last : Bool) : UInt8 :=
  (if last then flag.END_HEADERS else 0) ||| (if first && end_stream then flag.END_STREAM else 0)

/-- The loop of `write_header_block` over what is left of the block. -/
def writeHeaderBlockRest (stream : ℕ) (end_stream : Bool) (max_frame : FrameSize) (first : Bool)
    (rest : Bytes) : Bytes :=
  let kind := if first then kind.HEADERS else kind.CONTINUATION
  if _h : rest.length ≤ max_frame.size then
    start rest.length kind (blockFlags end_stream first true) stream ++ rest
  else
    start max_frame.size kind (blockFlags end_stream first false) stream ++
      rest.take max_frame.size ++
      writeHeaderBlockRest stream end_stream max_frame false (rest.drop max_frame.size)
termination_by rest.length
decreasing_by
  have := max_frame.ge
  rw [DEFAULT_MAX_FRAME_SIZE] at this
  rw [List.length_drop]
  omega

/-- A header block as a HEADERS frame and as many CONTINUATION frames as `max_frame` needs. -/
def writeHeaderBlock (stream : ℕ) (end_stream : Bool) (block : Bytes) (max_frame : FrameSize) :
    Bytes :=
  writeHeaderBlockRest stream end_stream max_frame true block

/-! ### What parses -/

namespace Frame

def isData : Frame → Bool
  | Data _ _ _ _ => true
  | _ => false

/-- The lengths of a frame are as its payload had them. -/
def Wf : Frame → Prop
  | Data _ _ data flow_len => data.length ≤ flow_len
  | Ping _ data => data.length = 8
  | _ => True

variable {h : Header} {payload : Bytes} {f : Frame}

lemma length_unpad {data : Bytes} (hok : unpad h payload = .ok data) :
    data.length ≤ payload.length := by
  rw [unpad.eq_def] at hok
  split_ifs at hok
  · split at hok
    · cases hok
    · split_ifs at hok
      cases hok
      rw [List.length_drop, List.length_take]
      omega
  · cases hok
    exact le_rfl

lemma onAStream_eq_ok {what : String} {stream : ℕ} (hok : onAStream h what = .ok stream) :
    stream = h.stream ∧ h.stream ≠ 0 := by
  rw [onAStream] at hok
  split_ifs at hok with h0
  cases hok
  exact ⟨rfl, h0⟩

lemma sized_eq_ok {p : Prop} [Decidable p] {what : String} {u : Unit}
    (hok : sized (decide p) what = .ok u) : p := by
  by_contra hp
  rw [decide_eq_false hp, sized, if_neg (by simp)] at hok
  cases hok

lemma parse_data (hkind : h.kind = kind.DATA) (hok : parse h payload = .ok f) :
    ∃ data, unpad h payload = .ok data ∧ h.stream ≠ 0 ∧
      f = Data h.stream (h.has flag.END_STREAM) data h.length := by
  rw [parse, if_pos hkind, parseData] at hok
  obtain ⟨stream, hstream, hok⟩ := except_bind_eq_ok.1 hok
  obtain ⟨data, hdata, hok⟩ := except_bind_eq_ok.1 hok
  obtain ⟨rfl, h0⟩ := onAStream_eq_ok hstream
  cases hok
  exact ⟨data, hdata, h0, rfl⟩

lemma parse_data_error {e : FrameError} (hkind : h.kind = kind.DATA)
    (herr : parse h payload = .error e) : e.stream = none := by
  rw [parse, if_pos hkind, parseData] at herr
  rcases except_bind_eq_error.1 herr with herr | ⟨stream, -, herr⟩
  · rw [onAStream] at herr
    split_ifs at herr
    cases herr
    rfl
  · rcases except_bind_eq_error.1 herr with herr | ⟨data, -, herr⟩
    · rw [unpad.eq_def] at herr
      split_ifs at herr
      split at herr
      · cases herr
        rfl
      · split_ifs at herr
        cases herr
        rfl
    · cases herr

lemma parse_control (hkind : h.kind ≠ kind.DATA) (hok : parse h payload = .ok f) :
    f.isData = false ∧ f.Wf ∧
      ∀ stream increment, f = .WindowUpdate stream increment → h.kind = kind.WINDOW_UPDATE := by
  rw [parse, if_neg hkind] at hok
  split_ifs at hok
  · obtain ⟨stream, -, hok⟩ := except_bind_eq_ok.1 hok
    obtain ⟨body, -, hok⟩ := except_bind_eq_ok.1 hok
    obtain ⟨body', -, hok⟩ := except_bind_eq_ok.1 hok
    cases hok
    exact ⟨rfl, trivial, nofun⟩
  · obtain ⟨stream, -, hok⟩ := except_bind_eq_ok.1 hok
    split_ifs at hok
    cases hok
    exact ⟨rfl, trivial, nofun⟩
  · obtain ⟨stream, -, hok⟩ := except_bind_eq_ok.1 hok
    obtain ⟨-, -, hok⟩ := except_bind_eq_ok.1 hok
    cases hok
    exact ⟨rfl, trivial, nofun⟩
  · obtain ⟨-, -, hok⟩ := except_bind_eq_ok.1 hok
    obtain ⟨-, -, hok⟩ := except_bind_eq_ok.1 hok
    obtain ⟨-, -, hok⟩ := except_bind_eq_ok.1 hok
    cases hok
    exact ⟨rfl, trivial, nofun⟩
  · obtain ⟨stream, -, hok⟩ := except_bind_eq_ok.1 hok
    obtain ⟨body, -, hok⟩ := except_bind_eq_ok.1 hok
    obtain ⟨-, -, hok⟩ := except_bind_eq_ok.1 hok
    cases hok
    exact ⟨rfl, trivial, nofun⟩
  · obtain ⟨-, -, hok⟩ := except_bind_eq_ok.1 hok
    obtain ⟨u, hsized, hok⟩ := except_bind_eq_ok.1 hok
    have h8 := sized_eq_ok hsized
    cases hok
    exact ⟨rfl, h8, nofun⟩
  · obtain ⟨-, -, hok⟩ := except_bind_eq_ok.1 hok
    obtain ⟨-, -, hok⟩ := except_bind_eq_ok.1 hok
    cases hok
    exact ⟨rfl, trivial, nofun⟩
  · obtain ⟨-, -, hok⟩ := except_bind_eq_ok.1 hok
    split_ifs at hok
    cases hok
    exact ⟨rfl, trivial, fun _ _ _ => ‹_›⟩
  · obtain ⟨stream, -, hok⟩ := except_bind_eq_ok.1 hok
    cases hok
    exact ⟨rfl, trivial, nofun⟩
  · cases hok
    exact ⟨rfl, trivial, nofun⟩

lemma parse_windowUpdate (hkind : h.kind = kind.WINDOW_UPDATE) (hok : parse h payload = .ok f) :
    f = .WindowUpdate h.stream (fromBe payload % 2 ^ 31) := by
  rw [parse, hkind, if_neg (by decide), if_neg (by decide), if_neg (by decide), if_neg (by decide),
    if_neg (by decide), if_neg (by decide), if_neg (by decide), if_neg (by decide),
    if_pos rfl] at hok
  obtain ⟨-, -, hok⟩ := except_bind_eq_ok.1 hok
  split_ifs at hok
  cases hok
  rfl

lemma parse_windowUpdate_error {code : ErrorCode} {id : ℕ} {reason : String}
    (hkind : h.kind = kind.WINDOW_UPDATE)
    (herr : parse h payload = .error ⟨code, some id, reason⟩) :
    fromBe payload % 2 ^ 31 = 0 := by
  by_contra hne
  rw [parse, hkind, if_neg (by decide), if_neg (by decide), if_neg (by decide), if_neg (by decide),
    if_neg (by decide), if_neg (by decide), if_neg (by decide), if_neg (by decide),
    if_pos rfl, parseWindowUpdate, if_neg hne, sized] at herr
  split_ifs at herr <;> cases herr

lemma parse_ne_windowUpdate (hkind : h.kind ≠ kind.WINDOW_UPDATE) (hok : parse h payload = .ok f)
    (stream increment : ℕ) : f ≠ .WindowUpdate stream increment := by
  rintro rfl
  by_cases hdata : h.kind = kind.DATA
  · obtain ⟨data, -, -, hf⟩ := parse_data hdata hok
    cases hf
  · exact hkind ((parse_control hdata hok).2.2 stream increment rfl)

lemma parse_wf (hpayload : payload.length = h.length) (hok : parse h payload = .ok f) : f.Wf := by
  by_cases hkind : h.kind = kind.DATA
  · obtain ⟨data, hdata, -, rfl⟩ := parse_data hkind hok
    exact hpayload ▸ length_unpad hdata
  · exact (parse_control hkind hok).2.1

end Frame

/-! ### Frames on the wire -/

lemma fromBe_toBe (n : ℕ) : fromBe (toBe n) = n % 2 ^ 32 := by
  simp only [fromBe, toBe, List.foldl_cons, List.foldl_nil, UInt8.toNat_ofNat']
  omega

lemma Header.length_write (h : Header) : h.write.length = HEADER_LEN := rfl

lemma Header.parse_write {h : Header} (hlength : h.length < 2 ^ 24) (hstream : h.stream < 2 ^ 31) :
    parse h.write = h := by
  have h1 : (parse h.write).length = h.length := by
    change fromBe [UInt8.ofNat (h.length / 2 ^ 16), UInt8.ofNat (h.length / 2 ^ 8),
      UInt8.ofNat h.length] = h.length
    simp only [fromBe, List.foldl_cons, List.foldl_nil, UInt8.toNat_ofNat']
    omega
  have h2 : (parse h.write).stream = h.stream := by
    change fromBe (toBe h.stream) % 2 ^ 31 = h.stream
    rw [fromBe_toBe]
    omega
  have hext : ∀ a b : Header, a.length = b.length → a.kind = b.kind → a.flags = b.flags →
      a.stream = b.stream → a = b := by
    rintro ⟨⟩ ⟨⟩ rfl rfl rfl rfl
    rfl
  exact hext _ _ h1 rfl rfl h2

/-- How long the payload is that a header announces. -/
def payloadLen (header : Bytes) : ℕ := (Header.parse header).length

/-- The frames of a stream of bytes; the last one may be cut short. -/
def frames (s : Bytes) : List (Bytes × Bytes) := Framing.frames HEADER_LEN payloadLen s

def Whole (s : Bytes) : Prop := Framing.Whole HEADER_LEN payloadLen s

lemma Whole.nil : Whole [] := Framing.Whole.nil

lemma Whole.append {a b : Bytes} (ha : Whole a) (hb : Whole b) : Whole (a ++ b) :=
  Framing.Whole.append ha hb

lemma frames_append {a : Bytes} (ha : Whole a) (b : Bytes) :
    frames (a ++ b) = frames a ++ frames b :=
  Framing.Whole.frames_append (by decide) ha b

section Start

variable {length stream : ℕ} {payload : Bytes} (kind flags : UInt8)

lemma payloadLen_start (hlength : length < 2 ^ 24) (hstream : stream < 2 ^ 31) :
    payloadLen (start length kind flags stream) = length := by
  rw [payloadLen, start, Header.parse_write hlength hstream]

lemma whole_start (hlength : length < 2 ^ 24) (hstream : stream < 2 ^ 31)
    (hpayload : payload.length = length) : Whole (start length kind flags stream ++ payload) :=
  Framing.Whole.single (Header.length_write _)
    (by rw [payloadLen_start kind flags hlength hstream, hpayload])

lemma frames_start (hlength : length < 2 ^ 24) (hstream : stream < 2 ^ 31)
    (hpayload : payload.length = length) :
    frames (start length kind flags stream ++ payload) =
      [(start length kind flags stream, payload)] :=
  Framing.frames_last (by decide) (Header.length_write _)
    (by rw [payloadLen_start kind flags hlength hstream, hpayload])

end Start

end Lazaret.H2
