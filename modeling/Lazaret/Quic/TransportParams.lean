import Lazaret.Quic.Frames
import Mathlib.Data.List.Sort

/-!
# Transport parameters

The content of the `quic_transport_parameters` extension (`pratique/src/quic/transport_params.rs`):
a list of parameters in any order, each an id, a length and a value.  A parameter that is not known
is kept; one that is sent twice, a known one with a value it may not have, and one that only a
server may send but a client sent, are errors.
-/

namespace Lazaret.Quic.TransportParams

open Cursor Wire

/-- The smallest `max_udp_payload_size`. -/
def MIN_UDP_PAYLOAD_SIZE : ℕ := 1200

/-! The values of parameters that are not sent. -/

def DEFAULT_MAX_UDP_PAYLOAD_SIZE : ℕ := 65527
def DEFAULT_ACK_DELAY_EXPONENT : UInt8 := 3
def DEFAULT_MAX_ACK_DELAY : ℕ := 25
def DEFAULT_ACTIVE_CONNECTION_ID_LIMIT : ℕ := 2

def MAX_ACK_DELAY_EXPONENT : ℕ := 20

/-- `max_ack_delay` is less than this, in milliseconds. -/
def MAX_ACK_DELAY_LIMIT : ℕ := 1 <<< 14

/-! The ids of the parameters that are known. -/
namespace id

def ORIGINAL_DESTINATION_CONNECTION_ID : ℕ := 0x00
def MAX_IDLE_TIMEOUT : ℕ := 0x01
def STATELESS_RESET_TOKEN : ℕ := 0x02
def MAX_UDP_PAYLOAD_SIZE : ℕ := 0x03
def INITIAL_MAX_DATA : ℕ := 0x04
def INITIAL_MAX_STREAM_DATA_BIDI_LOCAL : ℕ := 0x05
def INITIAL_MAX_STREAM_DATA_BIDI_REMOTE : ℕ := 0x06
def INITIAL_MAX_STREAM_DATA_UNI : ℕ := 0x07
def INITIAL_MAX_STREAMS_BIDI : ℕ := 0x08
def INITIAL_MAX_STREAMS_UNI : ℕ := 0x09
def ACK_DELAY_EXPONENT : ℕ := 0x0a
def MAX_ACK_DELAY : ℕ := 0x0b
def DISABLE_ACTIVE_MIGRATION : ℕ := 0x0c
def PREFERRED_ADDRESS : ℕ := 0x0d
def ACTIVE_CONNECTION_ID_LIMIT : ℕ := 0x0e
def INITIAL_SOURCE_CONNECTION_ID : ℕ := 0x0f
def RETRY_SOURCE_CONNECTION_ID : ℕ := 0x10
def MAX_DATAGRAM_FRAME_SIZE : ℕ := 0x20

end id

inductive Sender
  | client
  | server
deriving DecidableEq

structure Error where
  what : String
deriving DecidableEq

/-- A server's preferred address: addresses and ports, and the connection id to use there. -/
structure PreferredAddress where
  ipv4 : List.Vector UInt8 4 × UInt16
  ipv6 : List.Vector UInt8 16 × UInt16
  connectionId : List UInt8
  statelessResetToken : List.Vector UInt8 16
deriving DecidableEq

structure TransportParameters where
  originalDestinationConnectionId : Option (List UInt8)
  maxIdleTimeout : ℕ
  statelessResetToken : Option (List.Vector UInt8 16)
  maxUdpPayloadSize : ℕ
  initialMaxData : ℕ
  initialMaxStreamDataBidiLocal : ℕ
  initialMaxStreamDataBidiRemote : ℕ
  initialMaxStreamDataUni : ℕ
  initialMaxStreamsBidi : ℕ
  initialMaxStreamsUni : ℕ
  ackDelayExponent : UInt8
  maxAckDelay : ℕ
  disableActiveMigration : Bool
  preferredAddress : Option PreferredAddress
  activeConnectionIdLimit : ℕ
  initialSourceConnectionId : Option (List UInt8)
  retrySourceConnectionId : Option (List UInt8)
  maxDatagramFrameSize : Option ℕ
  /-- Parameters of ids that are not known, in the order they came. -/
  unknown : List (ℕ × List UInt8)
deriving DecidableEq

/-- `TransportParameters::default`: parameters that are not sent. -/
def default : TransportParameters where
  originalDestinationConnectionId := none
  maxIdleTimeout := 0
  statelessResetToken := none
  maxUdpPayloadSize := DEFAULT_MAX_UDP_PAYLOAD_SIZE
  initialMaxData := 0
  initialMaxStreamDataBidiLocal := 0
  initialMaxStreamDataBidiRemote := 0
  initialMaxStreamDataUni := 0
  initialMaxStreamsBidi := 0
  initialMaxStreamsUni := 0
  ackDelayExponent := DEFAULT_ACK_DELAY_EXPONENT
  maxAckDelay := DEFAULT_MAX_ACK_DELAY
  disableActiveMigration := false
  preferredAddress := none
  activeConnectionIdLimit := DEFAULT_ACTIVE_CONNECTION_ID_LIMIT
  initialSourceConnectionId := none
  retrySourceConnectionId := none
  maxDatagramFrameSize := none
  unknown := []

/-! ## Reading -/

def whole {α : Type} (p : Cursor UInt8 Error α) (longer : String) (value : List UInt8) :
    Except Error α := do
  let (a, rest) ← p value
  if rest = [] then .ok a else .error ⟨longer⟩

def connectionId (value : List UInt8) : Except Error (List UInt8) :=
  if value.length > MAX_CID_LEN then .error ⟨"a connection id is longer than 20 bytes"⟩
  else .ok value

/-- `number`: a value that is one integer and nothing else. -/
def number (value : List UInt8) : Except Error ℕ :=
  whole (varint.mapError fun _ => ⟨"a number that is cut short"⟩)
    "a number with more bytes than its length says" value

def checked (ok : ℕ → Bool) (what : String) (value : List UInt8) : Except Error ℕ := do
  let v ← number value
  if ok v then .ok v else .error ⟨what⟩

def resetToken (value : List UInt8) : Except Error (List.Vector UInt8 16) :=
  if h : value.length = 16 then .ok ⟨value, h⟩
  else .error ⟨"a stateless_reset_token that is not 16 bytes"⟩

def fromBeBytes (b : List.Vector UInt8 2) : UInt16 :=
  UInt16.ofNat ((b.get 0).toNat * 256 + (b.get 1).toNat)

/-- The fields of `preferred_address`. -/
def addressFields : Cursor UInt8 Error PreferredAddress := do
  let short : Error := ⟨"preferred_address is cut short"⟩
  let v4 ← array 4 short
  let p4 ← array 2 short
  let v6 ← array 16 short
  let p6 ← array 2 short
  let len ← u8.mapError fun _ => short
  require (len.toNat ≠ 0 ∧ len.toNat ≤ MAX_CID_LEN)
    ⟨"preferred_address has a connection id that is not 1 to 20 bytes"⟩
  let connectionId ← (bytes len.toNat).mapError fun _ => short
  let token ← array 16 short
  pure ⟨(v4, fromBeBytes p4), (v6, fromBeBytes p6), connectionId, token⟩

def preferredAddress (value : List UInt8) : Except Error PreferredAddress :=
  whole addressFields "preferred_address is longer than what it holds" value

/-- What the loop of `decode` has read of one parameter. -/
inductive Parameter
  | originalDestinationConnectionId (cid : List UInt8)
  | maxIdleTimeout (v : ℕ)
  | statelessResetToken (token : List.Vector UInt8 16)
  | maxUdpPayloadSize (v : ℕ)
  | initialMaxData (v : ℕ)
  | initialMaxStreamDataBidiLocal (v : ℕ)
  | initialMaxStreamDataBidiRemote (v : ℕ)
  | initialMaxStreamDataUni (v : ℕ)
  | initialMaxStreamsBidi (v : ℕ)
  | initialMaxStreamsUni (v : ℕ)
  | ackDelayExponent (v : ℕ)
  | maxAckDelay (v : ℕ)
  | disableActiveMigration
  | preferredAddress (address : PreferredAddress)
  | activeConnectionIdLimit (v : ℕ)
  | initialSourceConnectionId (cid : List UInt8)
  | retrySourceConnectionId (cid : List UInt8)
  | maxDatagramFrameSize (v : ℕ)
  | unknown (pid : ℕ) (value : List UInt8)

def serverOnly (sender : Sender) (read : Except Error Parameter) : Except Error Parameter :=
  if sender = .client then .error ⟨"a client sent a parameter that only a server sends"⟩ else read

/-- The checks that the loop of `decode` makes of a parameter. -/
def parameter (sender : Sender) (pid : ℕ) (value : List UInt8) : Except Error Parameter :=
  if pid = id.ORIGINAL_DESTINATION_CONNECTION_ID then
    serverOnly sender (.originalDestinationConnectionId <$> connectionId value)
  else if pid = id.MAX_IDLE_TIMEOUT then .maxIdleTimeout <$> number value
  else if pid = id.STATELESS_RESET_TOKEN then
    serverOnly sender (.statelessResetToken <$> resetToken value)
  else if pid = id.MAX_UDP_PAYLOAD_SIZE then
    .maxUdpPayloadSize <$>
      checked (MIN_UDP_PAYLOAD_SIZE ≤ ·) "max_udp_payload_size below 1200" value
  else if pid = id.INITIAL_MAX_DATA then .initialMaxData <$> number value
  else if pid = id.INITIAL_MAX_STREAM_DATA_BIDI_LOCAL then
    .initialMaxStreamDataBidiLocal <$> number value
  else if pid = id.INITIAL_MAX_STREAM_DATA_BIDI_REMOTE then
    .initialMaxStreamDataBidiRemote <$> number value
  else if pid = id.INITIAL_MAX_STREAM_DATA_UNI then .initialMaxStreamDataUni <$> number value
  else if pid = id.INITIAL_MAX_STREAMS_BIDI then
    .initialMaxStreamsBidi <$>
      checked (· ≤ MAX_STREAMS_LIMIT) "initial_max_streams_bidi above 2^60" value
  else if pid = id.INITIAL_MAX_STREAMS_UNI then
    .initialMaxStreamsUni <$>
      checked (· ≤ MAX_STREAMS_LIMIT) "initial_max_streams_uni above 2^60" value
  else if pid = id.ACK_DELAY_EXPONENT then
    .ackDelayExponent <$>
      checked (· ≤ MAX_ACK_DELAY_EXPONENT) "ack_delay_exponent above 20" value
  else if pid = id.MAX_ACK_DELAY then
    .maxAckDelay <$> checked (· < MAX_ACK_DELAY_LIMIT) "max_ack_delay of 2^14 or more" value
  else if pid = id.DISABLE_ACTIVE_MIGRATION then
    if value ≠ [] then .error ⟨"disable_active_migration with a value"⟩
    else .ok .disableActiveMigration
  else if pid = id.PREFERRED_ADDRESS then
    serverOnly sender (.preferredAddress <$> preferredAddress value)
  else if pid = id.ACTIVE_CONNECTION_ID_LIMIT then
    .activeConnectionIdLimit <$> checked (2 ≤ ·) "active_connection_id_limit below 2" value
  else if pid = id.INITIAL_SOURCE_CONNECTION_ID then
    .initialSourceConnectionId <$> connectionId value
  else if pid = id.RETRY_SOURCE_CONNECTION_ID then
    serverOnly sender (.retrySourceConnectionId <$> connectionId value)
  else if pid = id.MAX_DATAGRAM_FRAME_SIZE then .maxDatagramFrameSize <$> number value
  else .ok (.unknown pid value)

/-- What the loop of `decode` does with a parameter that it has checked. -/
def TransportParameters.set (p : TransportParameters) : Parameter → TransportParameters
  | .originalDestinationConnectionId cid => { p with originalDestinationConnectionId := some cid }
  | .maxIdleTimeout v => { p with maxIdleTimeout := v }
  | .statelessResetToken token => { p with statelessResetToken := some token }
  | .maxUdpPayloadSize v => { p with maxUdpPayloadSize := v }
  | .initialMaxData v => { p with initialMaxData := v }
  | .initialMaxStreamDataBidiLocal v => { p with initialMaxStreamDataBidiLocal := v }
  | .initialMaxStreamDataBidiRemote v => { p with initialMaxStreamDataBidiRemote := v }
  | .initialMaxStreamDataUni v => { p with initialMaxStreamDataUni := v }
  | .initialMaxStreamsBidi v => { p with initialMaxStreamsBidi := v }
  | .initialMaxStreamsUni v => { p with initialMaxStreamsUni := v }
  | .ackDelayExponent v => { p with ackDelayExponent := UInt8.ofNat v }
  | .maxAckDelay v => { p with maxAckDelay := v }
  | .disableActiveMigration => { p with disableActiveMigration := true }
  | .preferredAddress address => { p with preferredAddress := some address }
  | .activeConnectionIdLimit v => { p with activeConnectionIdLimit := v }
  | .initialSourceConnectionId cid => { p with initialSourceConnectionId := some cid }
  | .retrySourceConnectionId cid => { p with retrySourceConnectionId := some cid }
  | .maxDatagramFrameSize v => { p with maxDatagramFrameSize := some v }
  | .unknown pid value => { p with unknown := p.unknown ++ [(pid, value)] }

/-- A parameter as it comes: its id, its length and its value. -/
def item : Cursor UInt8 Error (ℕ × List UInt8) := do
  let pid ← varint.mapError fun _ => (⟨"an id that is cut short"⟩ : Error)
  let len ← varint.mapError fun _ => (⟨"a length that is cut short"⟩ : Error)
  let value ← (bytes len).mapError fun _ => (⟨"a parameter longer than what is left"⟩ : Error)
  pure (pid, value)

lemma local_item : Local item :=
  (local_varint.mapError _).bind fun _ => (local_varint.mapError _).bind fun len =>
    ((local_bytes len).mapError _).bind fun _ => Local.pure _

lemma length_lt_of_item {s t : List UInt8} {i : ℕ × List UInt8} (h : item s = .ok (i, t)) :
    t.length < s.length := by
  obtain ⟨pid, u, hpid, h⟩ := bind_eq_ok.1 h
  have hlt := length_lt_of_varint (mapError_eq_ok.1 hpid)
  have hrest : Local (do
      let len ← varint.mapError fun _ => (⟨"a length that is cut short"⟩ : Error)
      let value ← (bytes len).mapError fun _ => (⟨"a parameter longer than what is left"⟩ : Error)
      pure (pid, value)) :=
    (local_varint.mapError _).bind fun len => ((local_bytes len).mapError _).bind fun _ =>
      Local.pure _
  exact ((Forward.of_local hrest) u i t h).length_le.trans_lt hlt

/-- The loop of `decode`: the parameters so far, and their ids. -/
def readAll (sender : Sender) (s : List UInt8) (p : TransportParameters) (ids : List ℕ) :
    Except Error (TransportParameters × List ℕ) :=
  if s = [] then .ok (p, ids)
  else
    match _h : item s with
    | .error e => .error e
    | .ok ((pid, value), rest) => do
      let c ← parameter sender pid value
      readAll sender rest (p.set c) (ids ++ [pid])
termination_by s.length
decreasing_by exact length_lt_of_item _h

/-- Two neighbours are equal: `windows(2).any(|w| w[0] == w[1])`. -/
def neighboursEqual : List ℕ → Bool
  | a :: b :: rest => a = b || neighboursEqual (b :: rest)
  | _ => false

def decode (data : List UInt8) (sender : Sender) : Except Error TransportParameters := do
  let (p, ids) ← readAll sender data default []
  if sender = .server ∧ p.originalDestinationConnectionId = none then
    .error ⟨"no original_destination_connection_id"⟩
  else if p.initialSourceConnectionId = none then .error ⟨"no initial_source_connection_id"⟩
  else if neighboursEqual (ids.mergeSort (· ≤ ·)) then
    .error ⟨"a parameter that is sent twice"⟩
  else .ok p

/-! ## Writing -/

inductive Value
  | number (v : ℕ)
  | bytes (v : List UInt8)

/-- `number` and `bytes` in `encode`: a parameter that is written; none where it panics. -/
def put (pid : ℕ) : Value → Option (List UInt8)
  | .number v => do
    let head ← putVarint pid
    let len ← varintLen v
    let len ← putVarint len
    let value ← putVarint v
    some (head ++ (len ++ value))
  | .bytes v => do
    let head ← putVarint pid
    let len ← putVarint v.length
    some (head ++ (len ++ v))

def toBeBytes (p : UInt16) : List.Vector UInt8 2 :=
  ⟨[UInt8.ofNat (p.toNat / 256), UInt8.ofNat p.toNat], rfl⟩

/-- The value of `preferred_address`. -/
def addressBytes (pa : PreferredAddress) : List UInt8 :=
  pa.ipv4.1.toList ++ ((toBeBytes pa.ipv4.2).toList ++ (pa.ipv6.1.toList ++
    ((toBeBytes pa.ipv6.2).toList ++ (UInt8.ofNat pa.connectionId.length ::
      (pa.connectionId ++ pa.statelessResetToken.toList)))))

def unlessDefault (pid v d : ℕ) : List (ℕ × Value) := if v ≠ d then [(pid, .number v)] else []

def ifSome {α : Type} (pid : ℕ) (f : α → List UInt8) (v : Option α) : List (ℕ × Value) :=
  match v with
  | some a => [(pid, .bytes (f a))]
  | none => []

def ifNumber (pid : ℕ) (v : Option ℕ) : List (ℕ × Value) :=
  match v with
  | some v => [(pid, .number v)]
  | none => []

def ifServer {α : Type} (sender : Sender) (pid : ℕ) (f : α → List UInt8) (v : Option α) :
    List (ℕ × Value) :=
  if sender = .server then ifSome pid f v else []

/-- The known parameters that `encode` writes: those that are not the default, in the order of
their ids. -/
def TransportParameters.known (p : TransportParameters) (sender : Sender) : List (ℕ × Value) :=
  List.flatten [
    ifServer sender id.ORIGINAL_DESTINATION_CONNECTION_ID (fun cid => cid)
      p.originalDestinationConnectionId,
    unlessDefault id.MAX_IDLE_TIMEOUT p.maxIdleTimeout 0,
    ifServer sender id.STATELESS_RESET_TOKEN List.Vector.toList p.statelessResetToken,
    unlessDefault id.MAX_UDP_PAYLOAD_SIZE p.maxUdpPayloadSize DEFAULT_MAX_UDP_PAYLOAD_SIZE,
    unlessDefault id.INITIAL_MAX_DATA p.initialMaxData 0,
    unlessDefault id.INITIAL_MAX_STREAM_DATA_BIDI_LOCAL p.initialMaxStreamDataBidiLocal 0,
    unlessDefault id.INITIAL_MAX_STREAM_DATA_BIDI_REMOTE p.initialMaxStreamDataBidiRemote 0,
    unlessDefault id.INITIAL_MAX_STREAM_DATA_UNI p.initialMaxStreamDataUni 0,
    unlessDefault id.INITIAL_MAX_STREAMS_BIDI p.initialMaxStreamsBidi 0,
    unlessDefault id.INITIAL_MAX_STREAMS_UNI p.initialMaxStreamsUni 0,
    unlessDefault id.ACK_DELAY_EXPONENT p.ackDelayExponent.toNat DEFAULT_ACK_DELAY_EXPONENT.toNat,
    unlessDefault id.MAX_ACK_DELAY p.maxAckDelay DEFAULT_MAX_ACK_DELAY,
    if p.disableActiveMigration then [(id.DISABLE_ACTIVE_MIGRATION, .bytes [])] else [],
    ifServer sender id.PREFERRED_ADDRESS addressBytes p.preferredAddress,
    unlessDefault id.ACTIVE_CONNECTION_ID_LIMIT p.activeConnectionIdLimit
      DEFAULT_ACTIVE_CONNECTION_ID_LIMIT,
    ifSome id.INITIAL_SOURCE_CONNECTION_ID (fun cid => cid) p.initialSourceConnectionId,
    ifServer sender id.RETRY_SOURCE_CONNECTION_ID (fun cid => cid) p.retrySourceConnectionId,
    ifNumber id.MAX_DATAGRAM_FRAME_SIZE p.maxDatagramFrameSize]

/-- All that `encode` writes: the known parameters, and then the others. -/
def TransportParameters.written (p : TransportParameters) (sender : Sender) : List (ℕ × Value) :=
  p.known sender ++ p.unknown.map fun u => (u.1, .bytes u.2)

/-- Parameters one after another; none where one of them panics. -/
def putAll (items : List (ℕ × Value)) : Option (List UInt8) :=
  (items.mapM fun i => put i.1 i.2).map List.flatten

/-- `TransportParameters::encode`; none where it panics. -/
def TransportParameters.encode (p : TransportParameters) (sender : Sender) : Option (List UInt8) :=
  putAll (p.written sender)

end Lazaret.Quic.TransportParams
