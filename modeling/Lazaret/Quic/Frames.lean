import Lazaret.Quic.Wire
import Mathlib.Tactic.FinCases

/-!
# Frames

QUIC frames as bytes (`pratique/src/quic/frame.rs`): the payload of a packet read as the frames in
it, and frames written.  Reading is strict: what a frame says about itself is checked while it is
read.
-/

namespace Lazaret.Quic

inductive PacketType
  | initial
  | zeroRtt
  | handshake
  | retry
  | versionNegotiation
  | oneRtt
deriving DecidableEq

def MAX_CID_LEN : ℕ := 20

namespace Wire

open Cursor

def MAX_STREAMS_LIMIT : ℕ := 2 ^ 60

/-! ## Frames -/

inductive FrameErrorKind
  | empty
  | truncated
  | unknownType
  | typeNotMinimal
  | notAllowed
  | invalid (what : String)
deriving DecidableEq

structure FrameError where
  kind : FrameErrorKind
  frameType : ℕ
deriving DecidableEq

structure EcnCounts where
  ect0 : ℕ
  ect1 : ℕ
  ce : ℕ
deriving DecidableEq

/-- An ACK frame.  The ranges after the first are kept as they were sent. -/
structure Ack where
  largest : ℕ
  delay : ℕ
  firstRange : ℕ
  rangeCount : ℕ
  rangeBytes : List UInt8
  ecn : Option EcnCounts
deriving DecidableEq

inductive Frame
  /-- A run of so many PADDING frames, which are a byte each. -/
  | padding (n : ℕ)
  | ping
  | ack (a : Ack)
  | resetStream (id error finalSize : ℕ)
  | stopSending (id error : ℕ)
  | crypto (offset : ℕ) (data : List UInt8)
  | newToken (token : List UInt8)
  | stream (id offset : ℕ) (data : List UInt8) (fin : Bool)
  | maxData (max : ℕ)
  | maxStreamData (id max : ℕ)
  | maxStreams (bidirectional : Bool) (max : ℕ)
  | dataBlocked (limit : ℕ)
  | streamDataBlocked (id limit : ℕ)
  | streamsBlocked (bidirectional : Bool) (limit : ℕ)
  | newConnectionId (sequence retirePriorTo : ℕ) (cid : List UInt8)
      (resetToken : List.Vector UInt8 16)
  | retireConnectionId (sequence : ℕ)
  | pathChallenge (data : List.Vector UInt8 8)
  | pathResponse (data : List.Vector UInt8 8)
  | connectionClose (code : ℕ) (frameType : Option ℕ) (reason : List UInt8)
  | handshakeDone
deriving DecidableEq

/-! The frame types. -/
namespace types

def PADDING : ℕ := 0x00
def PING : ℕ := 0x01
def ACK : ℕ := 0x02
def ACK_ECN : ℕ := 0x03
def RESET_STREAM : ℕ := 0x04
def STOP_SENDING : ℕ := 0x05
def CRYPTO : ℕ := 0x06
def NEW_TOKEN : ℕ := 0x07
/-- STREAM frames are 0x08 to 0x0f: this with the bits below. -/
def STREAM : ℕ := 0x08
def STREAM_FIN : ℕ := 0x01
def STREAM_LEN : ℕ := 0x02
def STREAM_OFF : ℕ := 0x04
def MAX_DATA : ℕ := 0x10
def MAX_STREAM_DATA : ℕ := 0x11
def MAX_STREAMS_BIDI : ℕ := 0x12
def MAX_STREAMS_UNI : ℕ := 0x13
def DATA_BLOCKED : ℕ := 0x14
def STREAM_DATA_BLOCKED : ℕ := 0x15
def STREAMS_BLOCKED_BIDI : ℕ := 0x16
def STREAMS_BLOCKED_UNI : ℕ := 0x17
def NEW_CONNECTION_ID : ℕ := 0x18
def RETIRE_CONNECTION_ID : ℕ := 0x19
def PATH_CHALLENGE : ℕ := 0x1a
def PATH_RESPONSE : ℕ := 0x1b
def CONNECTION_CLOSE : ℕ := 0x1c
def CONNECTION_CLOSE_APP : ℕ := 0x1d
def HANDSHAKE_DONE : ℕ := 0x1e

end types

open types

/-- Whether a frame of a type may be in a packet of a type. -/
def allowedIn (ft : ℕ) (ty : PacketType) : Bool :=
  if ft = PADDING ∨ ft = PING ∨ ft = CONNECTION_CLOSE then
    ty = .initial ∨ ty = .handshake ∨ ty = .zeroRtt ∨ ty = .oneRtt
  else if ft = ACK ∨ ft = ACK_ECN ∨ ft = CRYPTO then
    ty = .initial ∨ ty = .handshake ∨ ty = .oneRtt
  else if ft = NEW_TOKEN ∨ ft = PATH_RESPONSE ∨ ft = HANDSHAKE_DONE then ty = .oneRtt
  else if ft = RESET_STREAM ∨ ft = STOP_SENDING ∨ (0x08 ≤ ft ∧ ft ≤ 0x0f) ∨
      (MAX_DATA ≤ ft ∧ ft ≤ PATH_CHALLENGE) ∨ ft = CONNECTION_CLOSE_APP then
    ty = .zeroRtt ∨ ty = .oneRtt
  else false

/-! ## The ranges of an ACK frame -/

def checkedSub (a b : ℕ) : Option ℕ := if b ≤ a then some (a - b) else none

/-- The range after a gap below `smallest`: its smallest and largest number, if there are such. -/
def nextRange (smallest gap len : ℕ) : Option (ℕ × ℕ) := do
  let v ← checkedSub smallest gap
  let largest ← checkedSub v 2
  let next ← checkedSub largest len
  some (next, largest)

def gapAndLen : Reader (ℕ × ℕ) := do
  let gap ← varint
  let len ← varint
  pure (gap, len)

/-- `AckRanges`: a range, and those that the bytes have after it. -/
def rangesFrom : ℕ → ℕ × ℕ → List UInt8 → List (ℕ × ℕ)
  | 0, this, _ => [this]
  | left + 1, this, rest =>
    this :: match gapAndLen rest with
      | .error _ => []
      | .ok (p, rest) =>
        match nextRange this.1 p.1 p.2 with
        | none => []
        | some r => rangesFrom left r rest

/-- `Ack::ranges`: the packet numbers acknowledged, as ranges from the highest down. -/
def Ack.ranges (a : Ack) : List (ℕ × ℕ) :=
  rangesFrom a.rangeCount (a.largest - a.firstRange, a.largest) a.rangeBytes

/-- The loop of `Ack::acknowledges`. -/
def inRanges (pn : ℕ) : List (ℕ × ℕ) → Bool
  | [] => false
  | r :: rest => if pn > r.2 then false else if pn ≥ r.1 then true else inRanges pn rest

def Ack.acknowledges (a : Ack) (pn : ℕ) : Bool := inRanges pn a.ranges

/-! ## Reading -/

inductive Bad
  | short
  | invalid (what : String)
deriving DecidableEq

/-- A read of a frame body: input that ends is `Bad::Short`. -/
def orShort {α : Type} (p : Reader α) : Cursor UInt8 Bad α := p.mapError fun _ => .short

def checkEnd (offset len : ℕ) : Cursor UInt8 Bad Unit :=
  require (offset + len ≤ MAX_VARINT) (.invalid "offset and length go past 2^62 - 1")

/-- A run of PADDING, whose first byte was the type. -/
def paddingRun : Cursor UInt8 Bad ℕ := fun s =>
  .ok (1 + (s.takeWhile (· = 0)).length, s.dropWhile (· = 0))

/-- The loop over the ranges of an ACK frame after the first. -/
def checkRanges : ℕ → ℕ → Cursor UInt8 Bad Unit
  | 0, _ => pure ()
  | n + 1, smallest => do
    let p ← orShort gapAndLen
    match nextRange smallest p.1 p.2 with
    | none => fail (.invalid "a range of an ACK goes below packet number 0")
    | some r => checkRanges n r.1

def ecnCounts : Cursor UInt8 Bad EcnCounts := do
  let ect0 ← orShort varint
  let ect1 ← orShort varint
  let ce ← orShort varint
  pure ⟨ect0, ect1, ce⟩

def ecnOf (ft : ℕ) : Cursor UInt8 Bad (Option EcnCounts) :=
  if ft = ACK_ECN then some <$> ecnCounts else pure none

def ackBody (ft : ℕ) : Cursor UInt8 Bad Ack := do
  let largest ← orShort varint
  let delay ← orShort varint
  let rangeCount ← orShort varint
  let firstRange ← orShort varint
  require (firstRange ≤ largest) (.invalid "the first range of an ACK goes below packet number 0")
  let start ← get
  require (rangeCount ≤ start.length / 2) .short
  checkRanges rangeCount (largest - firstRange)
  let rest ← get
  let ecn ← ecnOf ft
  pure ⟨largest, delay, firstRange, rangeCount, start.take (start.length - rest.length), ecn⟩

/-- The offset of a STREAM frame, 0 where it has none. -/
def streamOffset (ft : ℕ) : Cursor UInt8 Bad ℕ :=
  if ft &&& STREAM_OFF ≠ 0 then orShort varint else pure 0

/-- The data of a STREAM frame: without a length it is the rest of the packet. -/
def streamData (ft : ℕ) : Cursor UInt8 Bad (List UInt8) :=
  if ft &&& STREAM_LEN ≠ 0 then orShort lengthPrefixed else takeRest .short

def streamBody (ft : ℕ) : Cursor UInt8 Bad Frame := do
  let id ← orShort varint
  let offset ← streamOffset ft
  let data ← streamData ft
  checkEnd offset data.length
  pure (.stream id offset data (ft &&& STREAM_FIN ≠ 0))

def streamCount : Cursor UInt8 Bad ℕ := do
  let n ← orShort varint
  require (n ≤ MAX_STREAMS_LIMIT) (.invalid "more than 2^60 streams")
  pure n

def newConnectionIdBody : Cursor UInt8 Bad Frame := do
  let sequence ← orShort varint
  let retirePriorTo ← orShort varint
  let len ← orShort u8
  require (len.toNat ≠ 0 ∧ len.toNat ≤ MAX_CID_LEN)
    (.invalid "a connection id that is not of 1 to 20 bytes")
  require (retirePriorTo ≤ sequence)
    (.invalid "retire_prior_to is more than the sequence number")
  let cid ← orShort (bytes len.toNat)
  let resetToken ← array 16 .short
  pure (.newConnectionId sequence retirePriorTo cid resetToken)

/-- `Frame::body`: what follows the type of a frame. -/
def body (ft : ℕ) : Cursor UInt8 Bad Frame :=
  if ft = PADDING then .padding <$> paddingRun
  else if ft = PING then pure .ping
  else if ft = ACK ∨ ft = ACK_ECN then .ack <$> ackBody ft
  else if ft = RESET_STREAM then do
    let id ← orShort varint
    let error ← orShort varint
    let finalSize ← orShort varint
    pure (.resetStream id error finalSize)
  else if ft = STOP_SENDING then do
    let id ← orShort varint
    let error ← orShort varint
    pure (.stopSending id error)
  else if ft = CRYPTO then do
    let offset ← orShort varint
    let data ← orShort lengthPrefixed
    checkEnd offset data.length
    pure (.crypto offset data)
  else if ft = NEW_TOKEN then do
    let token ← orShort lengthPrefixed
    require (token ≠ []) (.invalid "an empty token")
    pure (.newToken token)
  else if 0x08 ≤ ft ∧ ft ≤ 0x0f then streamBody ft
  else if ft = MAX_DATA then .maxData <$> orShort varint
  else if ft = MAX_STREAM_DATA then do
    let id ← orShort varint
    let max ← orShort varint
    pure (.maxStreamData id max)
  else if ft = MAX_STREAMS_BIDI ∨ ft = MAX_STREAMS_UNI then
    .maxStreams (ft = MAX_STREAMS_BIDI) <$> streamCount
  else if ft = DATA_BLOCKED then .dataBlocked <$> orShort varint
  else if ft = STREAM_DATA_BLOCKED then do
    let id ← orShort varint
    let limit ← orShort varint
    pure (.streamDataBlocked id limit)
  else if ft = STREAMS_BLOCKED_BIDI ∨ ft = STREAMS_BLOCKED_UNI then
    .streamsBlocked (ft = STREAMS_BLOCKED_BIDI) <$> streamCount
  else if ft = NEW_CONNECTION_ID then newConnectionIdBody
  else if ft = RETIRE_CONNECTION_ID then .retireConnectionId <$> orShort varint
  else if ft = PATH_CHALLENGE then .pathChallenge <$> array 8 .short
  else if ft = PATH_RESPONSE then .pathResponse <$> array 8 .short
  else if ft = CONNECTION_CLOSE then do
    let code ← orShort varint
    let frameType ← orShort varint
    let reason ← orShort lengthPrefixed
    pure (.connectionClose code (some frameType) reason)
  else if ft = CONNECTION_CLOSE_APP then do
    let code ← orShort varint
    let reason ← orShort lengthPrefixed
    pure (.connectionClose code none reason)
  -- `Frame::read` has refused every type past this one
  else pure .handshakeDone

def Bad.error (ft : ℕ) : Bad → FrameError
  | .short => ⟨.truncated, ft⟩
  | .invalid what => ⟨.invalid what, ft⟩

/-- `Frame::read`: one frame, for a packet of a type. -/
def Frame.read (ty : PacketType) : Cursor UInt8 FrameError Frame := do
  let (ft, minimal) ← varintMinimal.mapError fun _ => (⟨.truncated, 0⟩ : FrameError)
  require (minimal = true) ⟨.typeNotMinimal, ft⟩
  require (ft ≤ HANDSHAKE_DONE) ⟨.unknownType, ft⟩
  require (allowedIn ft ty = true) ⟨.notAllowed, ft⟩
  (body ft).mapError (Bad.error ft)

/-! ### What is left of the payload -/

lemma forward_orShort {α : Type} {p : Reader α} (h : Local p) : Forward (orShort p) :=
  Forward.of_local (h.mapError _)

lemma forward_number : Forward (orShort varint) := forward_orShort local_varint

lemma forward_data : Forward (orShort lengthPrefixed) := forward_orShort local_lengthPrefixed

lemma forward_checkEnd (offset len : ℕ) : Forward (checkEnd offset len) := Forward.require _ _

lemma forward_paddingRun : Forward paddingRun := by
  intro s n t h
  cases h
  exact List.dropWhile_suffix _

lemma local_checkRanges (n smallest : ℕ) : Local (checkRanges n smallest) := by
  induction n generalizing smallest with
  | zero => exact Local.pure ()
  | succ n ih =>
    refine Local.bind (Local.mapError _ ?_) fun p => ?_
    · exact local_varint.bind fun gap => local_varint.bind fun len => Local.pure _
    · cases nextRange smallest p.1 p.2 with
      | none => exact Local.fail _
      | some r => exact ih r.1

lemma forward_ecnOf (ft : ℕ) : Forward (ecnOf ft) := by
  refine Forward.ite (Forward.map _ ?_) (Forward.pure _)
  exact forward_number.bind fun _ => forward_number.bind fun _ =>
    forward_number.bind fun _ => Forward.pure _

lemma forward_ackBody (ft : ℕ) : Forward (ackBody ft) :=
  forward_number.bind fun _ => forward_number.bind fun _ => forward_number.bind fun _ =>
    forward_number.bind fun _ => (Forward.require _ _).bind fun _ => Forward.get.bind fun _ =>
      (Forward.require _ _).bind fun _ => (Forward.of_local (local_checkRanges _ _)).bind fun _ =>
        Forward.get.bind fun _ => (forward_ecnOf ft).bind fun _ => Forward.pure _

lemma forward_streamBody (ft : ℕ) : Forward (streamBody ft) :=
  forward_number.bind fun _ =>
    (Forward.ite forward_number (Forward.pure _)).bind fun _ =>
      (Forward.ite forward_data (Forward.takeRest _)).bind fun _ =>
        (forward_checkEnd _ _).bind fun _ => Forward.pure _

lemma forward_streamCount : Forward streamCount :=
  forward_number.bind fun _ => (Forward.require _ _).bind fun _ => Forward.pure _

lemma forward_newConnectionIdBody : Forward newConnectionIdBody :=
  forward_number.bind fun _ => forward_number.bind fun _ =>
    (forward_orShort local_u8).bind fun _ => (Forward.require _ _).bind fun _ =>
      (Forward.require _ _).bind fun _ => (forward_orShort (local_bytes _)).bind fun _ =>
        (Forward.array _ _).bind fun _ => Forward.pure _

lemma forward_two (mk : ℕ → ℕ → Frame) : Forward (ε := Bad) (do
    let v ← orShort varint
    let w ← orShort varint
    pure (mk v w)) :=
  forward_number.bind fun _ => forward_number.bind fun _ => Forward.pure _

lemma forward_body (ft : ℕ) : Forward (body ft) := by
  rw [body]
  refine Forward.ite (forward_paddingRun.map _) ?_
  refine Forward.ite (Forward.pure _) ?_
  refine Forward.ite ((forward_ackBody ft).map _) ?_
  refine Forward.ite (forward_number.bind fun _ => forward_two _) ?_
  refine Forward.ite (forward_two _) ?_
  refine Forward.ite (forward_number.bind fun _ => forward_data.bind fun _ =>
    (forward_checkEnd _ _).bind fun _ => Forward.pure _) ?_
  refine Forward.ite (forward_data.bind fun _ => (Forward.require _ _).bind fun _ =>
    Forward.pure _) ?_
  refine Forward.ite (forward_streamBody ft) ?_
  refine Forward.ite (forward_number.map _) ?_
  refine Forward.ite (forward_two _) ?_
  refine Forward.ite (forward_streamCount.map _) ?_
  refine Forward.ite (forward_number.map _) ?_
  refine Forward.ite (forward_two _) ?_
  refine Forward.ite (forward_streamCount.map _) ?_
  refine Forward.ite forward_newConnectionIdBody ?_
  refine Forward.ite (forward_number.map _) ?_
  refine Forward.ite ((Forward.array _ _).map _) ?_
  refine Forward.ite ((Forward.array _ _).map _) ?_
  refine Forward.ite (forward_number.bind fun _ => forward_number.bind fun _ =>
    forward_data.bind fun _ => Forward.pure _) ?_
  exact Forward.ite (forward_number.bind fun _ => forward_data.bind fun _ => Forward.pure _)
    (Forward.pure _)

lemma read_eq_ok {ty : PacketType} {s t : List UInt8} {f : Frame} :
    Frame.read ty s = .ok (f, t) ↔ ∃ ft u, varintMinimal s = .ok ((ft, true), u) ∧
      ft ≤ HANDSHAKE_DONE ∧ allowedIn ft ty = true ∧ body ft u = .ok (f, t) := by
  rw [Frame.read, bind_eq_ok]
  constructor
  · rintro ⟨⟨ft, minimal⟩, u, hft, h⟩
    dsimp only at h
    rw [require_bind_eq_ok, require_bind_eq_ok, require_bind_eq_ok, mapError_eq_ok] at h
    obtain ⟨rfl, hle, hallowed, hbody⟩ := h
    exact ⟨ft, u, mapError_eq_ok.1 hft, hle, hallowed, hbody⟩
  · rintro ⟨ft, u, hft, hle, hallowed, hbody⟩
    refine ⟨(ft, true), u, mapError_eq_ok.2 hft, ?_⟩
    dsimp only
    rw [require_bind_eq_ok, require_bind_eq_ok, require_bind_eq_ok, mapError_eq_ok]
    exact ⟨rfl, hle, hallowed, hbody⟩

lemma length_lt_of_read {ty : PacketType} {s t : List UInt8} {f : Frame}
    (h : Frame.read ty s = .ok (f, t)) : t.length < s.length := by
  obtain ⟨ft, u, hft, -, -, hbody⟩ := read_eq_ok.1 h
  obtain ⟨n, hget, -, rfl⟩ := varintMinimal_eq_ok.1 hft
  have hpos := H3.getVarint_pos hget
  have hle := (forward_body ft _ f t hbody).length_le
  rw [List.length_drop] at hle
  omega

/-- The frames of a payload that is not empty: `Frames::next` until it gives no more. -/
def framesFrom (ty : PacketType) (s : List UInt8) : List (Except FrameError Frame) :=
  if s = [] then []
  else
    match _h : Frame.read ty s with
    | .error e => [.error e]
    | .ok (f, rest) => .ok f :: framesFrom ty rest
termination_by s.length
decreasing_by exact length_lt_of_read _h

/-- `frames`: what a payload is read as, up to the first error. -/
def frames (payload : List UInt8) (ty : PacketType) : List (Except FrameError Frame) :=
  if payload = [] then [.error ⟨.empty, 0⟩] else framesFrom ty payload

/-! ## Writing -/

def Frame.frameType : Frame → ℕ
  | .padding _ => PADDING
  | .ping => PING
  | .ack a => if a.ecn.isSome then ACK_ECN else ACK
  | .resetStream .. => RESET_STREAM
  | .stopSending .. => STOP_SENDING
  | .crypto .. => CRYPTO
  | .newToken _ => NEW_TOKEN
  | .stream _ offset _ fin =>
    STREAM ||| STREAM_LEN ||| (if offset ≠ 0 then STREAM_OFF else 0) ||| fin.toNat
  | .maxData _ => MAX_DATA
  | .maxStreamData .. => MAX_STREAM_DATA
  | .maxStreams bidirectional _ => if bidirectional then MAX_STREAMS_BIDI else MAX_STREAMS_UNI
  | .dataBlocked _ => DATA_BLOCKED
  | .streamDataBlocked .. => STREAM_DATA_BLOCKED
  | .streamsBlocked bidirectional _ =>
    if bidirectional then STREAMS_BLOCKED_BIDI else STREAMS_BLOCKED_UNI
  | .newConnectionId .. => NEW_CONNECTION_ID
  | .retireConnectionId _ => RETIRE_CONNECTION_ID
  | .pathChallenge _ => PATH_CHALLENGE
  | .pathResponse _ => PATH_RESPONSE
  | .connectionClose _ (some _) _ => CONNECTION_CLOSE
  | .connectionClose _ none _ => CONNECTION_CLOSE_APP
  | .handshakeDone => HANDSHAKE_DONE

def putEcn (ecn : Option EcnCounts) : Option (List UInt8) :=
  match ecn with
  | none => some []
  | some e => do
    let ect0 ← putVarint e.ect0
    let ect1 ← putVarint e.ect1
    let ce ← putVarint e.ce
    some (ect0 ++ (ect1 ++ ce))

def putPrefixed (data : List UInt8) : Option (List UInt8) := do
  let len ← putVarint data.length
  some (len ++ data)

def putTwo (a b : ℕ) : Option (List UInt8) := do
  let first ← putVarint a
  let second ← putVarint b
  some (first ++ second)

def putOffset (offset : ℕ) : Option (List UInt8) :=
  if offset ≠ 0 then putVarint offset else some []

/-- What `Frame::write` appends after the type; none where it panics. -/
def Frame.writeBody : Frame → Option (List UInt8)
  | .padding n => some (List.replicate (n - 1) 0)
  | .ping | .handshakeDone => some []
  | .ack a => do
    let largest ← putVarint a.largest
    let delay ← putVarint a.delay
    let rangeCount ← putVarint a.rangeCount
    let firstRange ← putVarint a.firstRange
    let ecn ← putEcn a.ecn
    some (largest ++ (delay ++ (rangeCount ++ (firstRange ++ (a.rangeBytes ++ ecn)))))
  | .resetStream id error finalSize => do
    let id ← putVarint id
    let rest ← putTwo error finalSize
    some (id ++ rest)
  | .stopSending id error => putTwo id error
  | .crypto offset data => do
    let offset ← putVarint offset
    let data ← putPrefixed data
    some (offset ++ data)
  | .newToken token => putPrefixed token
  | .stream id offset data _ => do
    let id ← putVarint id
    let offset ← putOffset offset
    let data ← putPrefixed data
    some (id ++ (offset ++ data))
  | .maxData n | .dataBlocked n | .retireConnectionId n => putVarint n
  | .maxStreamData id n | .streamDataBlocked id n => putTwo id n
  | .maxStreams _ n | .streamsBlocked _ n => putVarint n
  | .newConnectionId sequence retirePriorTo cid resetToken =>
    if (1 ≤ cid.length ∧ cid.length ≤ MAX_CID_LEN) ∧ retirePriorTo ≤ sequence then do
      let sequence ← putVarint sequence
      let retirePriorTo ← putVarint retirePriorTo
      some (sequence ++ (retirePriorTo ++
        (UInt8.ofNat cid.length :: (cid ++ resetToken.toList))))
    else none
  | .pathChallenge d | .pathResponse d => some d.toList
  | .connectionClose code frameType reason => do
    let code ← putVarint code
    let frameType ← match frameType with
      | some t => putVarint t
      | none => some []
    let reason ← putPrefixed reason
    some (code ++ (frameType ++ reason))

/-- `Frame::write`: what it appends; none where it panics. -/
def Frame.write (f : Frame) : Option (List UInt8) :=
  match f with
  -- the type was pushed, and the run is resized to its length
  | .padding n => (f.writeBody).map fun rest => (UInt8.ofNat f.frameType :: rest).take n
  | _ => (f.writeBody).map fun rest => UInt8.ofNat f.frameType :: rest

def writeAll : List Frame → Option (List UInt8)
  | [] => some []
  | f :: rest => do
    let first ← f.write
    let others ← writeAll rest
    some (first ++ others)

def lens (vs : List ℕ) : Option ℕ := (vs.mapM varintLen).map List.sum

def ecnNumbers : Option EcnCounts → List ℕ
  | none => []
  | some e => [e.ect0, e.ect1, e.ce]

/-- `Frame::len`: how many bytes `write` appends; none where it panics. -/
def Frame.len : Frame → Option ℕ
  -- `1 + (n - 1)`: for a run of nothing the difference wraps, and so does the sum
  | .padding n => some n
  | .ping | .handshakeDone => some 1
  | .ack a =>
    (lens ([a.largest, a.delay, a.rangeCount, a.firstRange] ++ ecnNumbers a.ecn)).map
      (1 + · + a.rangeBytes.length)
  | .resetStream id error finalSize => (lens [id, error, finalSize]).map (1 + ·)
  | .stopSending id error => (lens [id, error]).map (1 + ·)
  | .crypto offset data => (lens [offset, data.length]).map (1 + · + data.length)
  | .newToken token => (lens [token.length]).map (1 + · + token.length)
  | .stream id offset data _ =>
    (lens (id :: (if offset ≠ 0 then [offset] else []) ++ [data.length])).map (1 + · + data.length)
  | .maxData n | .dataBlocked n | .retireConnectionId n => (lens [n]).map (1 + ·)
  | .maxStreamData id n | .streamDataBlocked id n => (lens [id, n]).map (1 + ·)
  | .maxStreams _ n | .streamsBlocked _ n => (lens [n]).map (1 + ·)
  | .newConnectionId sequence retirePriorTo cid _ =>
    (lens [sequence, retirePriorTo]).map (1 + · + 1 + cid.length + 16)
  | .pathChallenge _ | .pathResponse _ => some 9
  | .connectionClose code frameType reason =>
    (lens (code :: frameType.toList ++ [reason.length])).map (1 + · + reason.length)

/-- The ranges of an ACK frame after the first, as gaps and lengths. -/
def putRanges : ℕ → List (ℕ × ℕ) → Option (List UInt8)
  | _, [] => some []
  | smallest, r :: rest => do
    let v ← checkedSub smallest r.2
    let gap ← checkedSub v 2
    let len ← checkedSub r.2 r.1
    let first ← putTwo gap len
    let others ← putRanges r.1 rest
    some (first ++ others)

/-- `write_ack`: an ACK frame for ranges, from the highest down; none where it panics. -/
def writeAck (delay : ℕ) (ranges : List (ℕ × ℕ)) (ecn : Option EcnCounts) : Option (List UInt8) :=
  match ranges with
  | [] => none
  | first :: rest => do
    let largest ← putVarint first.2
    let delay ← putVarint delay
    let rangeCount ← putVarint rest.length
    let len ← checkedSub first.2 first.1
    let firstRange ← putVarint len
    let ranges ← putRanges first.1 rest
    let ecn' ← putEcn ecn
    some (UInt8.ofNat (if ecn.isSome then ACK_ECN else ACK) ::
      (largest ++ (delay ++ (rangeCount ++ (firstRange ++ (ranges ++ ecn'))))))

end Wire

end Lazaret.Quic
