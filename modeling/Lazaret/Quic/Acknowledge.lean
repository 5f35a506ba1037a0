import Lazaret.Quic.RangeSet
import Lazaret.Quic.Recovery
import Lazaret.Quic.TransportParams
import Lazaret.Lib.Run

/-!
# Acknowledgments

What a connection (`quic/connection.rs`) acknowledges: the numbers received in each packet number
space (`AckState`), the ACK frames it writes of them, and what it forgets once the peer has
acknowledged such a frame.  The same set tells a packet that was received before.

The packets of the server are genuine and opened with the right number.  Of a frame other than ACK
only what it does here is said.  A packet kept until its keys are there is one that comes later.
`log` is not in the source: it notes what happened, the newest first.
-/

namespace Lazaret.Quic.Ack

/-! ### The frame -/

/-- The ranges after the first: the gap to the one before, and the length.  It panics where a number
is past `MAX_VARINT`. -/
def putRanges : ℕ → List (ℕ × ℕ) → Option (List UInt8)
  | _, [] => some []
  | smallest, r :: ranges => do
    let gap ← Wire.putVarint (smallest - r.2 - 2)
    let len ← Wire.putVarint (r.2 - r.1)
    let rest ← putRanges r.1 ranges
    some (gap ++ len ++ rest)

/-- `write_ack`: an ACK frame for ranges from the highest down, each with its first and last
number. -/
def writeAck (delay : ℕ) : List (ℕ × ℕ) → Option (List UInt8)
  | [] => none
  | first :: ranges => do
    let largest ← Wire.putVarint first.2
    let delay ← Wire.putVarint delay
    let count ← Wire.putVarint ranges.length
    let len ← Wire.putVarint (first.2 - first.1)
    let rest ← putRanges first.1 ranges
    some ([0x02] ++ largest ++ delay ++ count ++ len ++ rest)

/-! ### What was received -/

def MAX_ACK_RANGES : ℕ := 32

/-- What is known of the packets received in one space. -/
structure AckState where
  received : RangeSet
  largest : Option ℕ
  largest_time : Option ℕ
  largest_eliciting : Option ℕ
  unacked : ℕ
  immediate : Bool
  deadline : Option ℕ
deriving DecidableEq

namespace AckState

def new : AckState := ⟨RangeSet.new, none, none, none, 0, false, none⟩

/-- Below an ack-eliciting packet, or above the highest one with a gap between. -/
def outOfOrder (a : AckState) (pn : ℕ) : Bool :=
  a.largest_eliciting.any fun le =>
    decide (pn < le) || (decide (pn > le + 1) && !a.received.covers ⟨le + 1, pn⟩)

def onReceived (a : AckState) (now pn : ℕ) (eliciting delay_allowed : Bool) (max_ack_delay : ℕ) :
    AckState :=
  let out_of_order := eliciting && a.outOfOrder pn
  let a := { a with received := (a.received.insert ⟨pn, pn + 1⟩).2 }
  let a := if a.largest.all fun l => pn > l then
    { a with largest := some pn, largest_time := some now } else a
  if ¬ eliciting then a
  else
    let a := if a.largest_eliciting.all fun l => pn > l then
      { a with largest_eliciting := some pn } else a
    let a := { a with unacked := a.unacked + 1 }
    if ¬ delay_allowed ∨ out_of_order ∨ a.unacked ≥ 2 then { a with immediate := true }
    else if a.deadline.isNone then { a with deadline := some (now + max_ack_delay) }
    else a

def pending (a : AckState) : Bool := a.unacked > 0

def ranges (a : AckState) : List (ℕ × ℕ) :=
  (a.received.ranges.entries.reverse.take MAX_ACK_RANGES).map fun e => (e.1, e.2 - 1)

/-- The first ranges, at most `n`, whose frame is no longer than `room`: the last are dropped one by
one, but not the first.  The outer `none` is a panic. -/
def fit (delay room : ℕ) (ranges : List (ℕ × ℕ)) : ℕ → Option (Option (List (ℕ × ℕ)))
  | 0 => some none
  | n + 1 => do
    let frame ← writeAck delay (ranges.take (n + 1))
    if frame.length ≤ room then some (some (ranges.take (n + 1))) else fit delay room ranges n

/-- The delay of the frame, in units of `2 ^ exponent` microseconds. -/
def delay (a : AckState) (now exponent : ℕ) : ℕ :=
  a.largest_time.elim 0 fun t => (now - t) / 1000 / 2 ^ exponent

/-- The ranges of the ACK frame that is written if there is something to acknowledge and it fits.
The outer `none` is a panic. -/
def write (a : AckState) (now exponent room : ℕ) : Option (Option (List (ℕ × ℕ) × AckState)) :=
  if ¬ a.pending then some none
  else do
    let ranges? ← fit (a.delay now exponent) room a.ranges a.ranges.length
    some (ranges?.map fun ranges =>
      (ranges, { a with unacked := 0, immediate := false, deadline := none }))

end AckState

/-! ### The connection -/

/-- What is kept of a frame that was sent: only acknowledgments matter here. -/
inductive SentFrame where
  | ack (largest : ℕ)
  | other
deriving DecidableEq

/-- What a frame other than ACK and HANDSHAKE_DONE does. -/
inductive Effect where
  | nothing
  | error
  | installs (space : Space) (tx rx : Bool)
  /-- The transport parameters of the server, the delay in milliseconds. -/
  | parameters (max_udp_payload_size max_ack_delay ack_delay_exponent : ℕ)
  | completes
  | closes
deriving DecidableEq

inductive Frame where
  | ack (largest delay : ℕ) (ranges : List (ℕ × ℕ))
  | handshakeDone
  | other (eliciting : Bool) (effect : Effect)
deriving DecidableEq

def Frame.ackEliciting : Frame → Bool
  | .ack .. => false
  | .handshakeDone => true
  | .other eliciting _ => eliciting

inductive Note where
  | ran (space : Space) (pn : ℕ)
  | received (space : Space) (pn : ℕ) (eliciting : Bool)
  /-- An ACK frame was written in our packet `pn`. -/
  | wrote (space : Space) (pn : ℕ) (ranges : List (ℕ × ℕ))
  /-- Our packet `pn` was acknowledged. -/
  | acked (space : Space) (pn : ℕ)
  /-- An ACK frame of ours with this largest number was acknowledged. -/
  | trimmed (space : Space) (largest : ℕ)
  | discarded (space : Space)
deriving DecidableEq

structure PacketSpace where
  /-- Whether there are keys to send and to receive. -/
  tx : Bool
  rx : Bool
  next_pn : ℕ
  ack : AckState

structure Config where
  max_datagram_size : ℕ
  ack_delay_exponent : ℕ
  max_ack_delay : ℕ
deriving DecidableEq

structure Conn where
  config : Config
  spaces : Space → PacketSpace
  recovery : Recovery (List SentFrame)
  closing : Bool
  handshake_complete : Bool
  handshake_confirmed : Bool
  peer_ack_delay_exponent : ℕ
  log : List Note

namespace Conn

/-- A new connection has the keys of the Initial space. -/
def new (config : Config) : Conn where
  config := config
  spaces := fun space => ⟨space = .initial, space = .initial, 0, AckState.new⟩
  recovery := Recovery.new config.max_datagram_size
  closing := false
  handshake_complete := false
  handshake_confirmed := false
  peer_ack_delay_exponent := 3
  log := []

def note (c : Conn) (n : Note) : Conn := { c with log := n :: c.log }

def setSpace (c : Conn) (space : Space) (s : PacketSpace) : Conn :=
  { c with spaces := Function.update c.spaces space s }

def discardSpace (c : Conn) (now : ℕ) (space : Space) : Conn :=
  let s := c.spaces space
  if ¬ s.tx ∧ ¬ s.rx then c
  else
    let c := c.setSpace space { s with tx := false, rx := false, ack := AckState.new }
    { c with recovery := (c.recovery.discardSpace now space).2 }.note (.discarded space)

/-- The peer has our acknowledgment up to `largest`: it need not be said again. -/
def trim (c : Conn) (space : Space) (largest : ℕ) : Conn :=
  let s := c.spaces space
  (c.setSpace space { s with
    ack := { s.ack with received := s.ack.received.removeBelow (largest + 1) } }).note
    (.trimmed space largest)

/-- What a frame of a packet that was acknowledged leads to. -/
def onAckedFrame (space : Space) (c : Conn) : SentFrame → Conn
  | .ack largest => c.trim space largest
  | .other => c

def onAcked (space : Space) (c : Conn) (p : Sent (List SentFrame)) : Conn :=
  p.payload.foldl (onAckedFrame space) (c.note (.acked space p.pn))

/-- Whether the frame is no error, and what it leads to; `none` is a panic. -/
def onAckFrame (c : Conn) (now : ℕ) (space : Space) (largest delay : ℕ) (ranges : List (ℕ × ℕ)) :
    Option (Bool × Conn) :=
  if largest ≥ (c.spaces space).next_pn then some (false, c)
  else
    let exponent := if space = .application ∨ c.handshake_complete then c.peer_ack_delay_exponent
      else 3
    let delay := min (delay * 2 ^ min exponent 20) (2 ^ 64 - 1) * 1000
    (c.recovery.onAckReceived now space largest delay ranges).map fun (out, r) =>
      (true, out.acked.foldl (onAcked space) { c with recovery := r })

def onEffect (c : Conn) : Effect → Bool × Conn
  | .nothing => (true, c)
  | .error => (false, c)
  | .installs space tx rx =>
    let s := c.spaces space
    let c := c.setSpace space { s with tx := s.tx || tx, rx := s.rx || rx }
    (true,
      if space = .handshake then { c with recovery := c.recovery.setHandshakeKeys true } else c)
  | .parameters max_udp_payload_size max_ack_delay ack_delay_exponent =>
    let size := max (min c.config.max_datagram_size max_udp_payload_size)
      TransportParams.MIN_UDP_PAYLOAD_SIZE
    (true, { c with
      recovery := (c.recovery.setMaxDatagramSize size).setMaxAckDelay (max_ack_delay * 1000000)
      peer_ack_delay_exponent := ack_delay_exponent })
  | .completes => (true, { c with handshake_complete := true })
  | .closes => (true, { c with closing := true })

/-- HANDSHAKE_DONE is allowed in the Application space only. -/
def onHandshakeDone (c : Conn) (now : ℕ) (space : Space) : Bool × Conn :=
  if space ≠ .application then (false, c)
  else if c.handshake_confirmed then (true, c)
  else
    let c := { c with handshake_confirmed := true }.discardSpace now .handshake
    (true, { c with recovery := c.recovery.onHandshakeConfirmed now })

def processFrame (c : Conn) (now : ℕ) (space : Space) : Frame → Option (Bool × Conn)
  | .ack largest delay ranges => c.onAckFrame now space largest delay ranges
  | .handshakeDone => some (c.onHandshakeDone now space)
  | .other _ effect => some (c.onEffect effect)

/-- Whether there is an ack-eliciting frame (`none` after an error), and what the frames lead to. -/
def processFrames (now : ℕ) (space : Space) : Conn → List Frame → Bool → Option (Option Bool × Conn)
  | c, [], eliciting => some (some eliciting, c)
  | c, f :: frames, eliciting =>
    let eliciting := eliciting || f.ackEliciting
    (c.processFrame now space f).bind fun (ok, c) =>
      if ¬ ok then some (none, c)
      else if c.closing then some (some eliciting, c)
      else processFrames now space c frames eliciting

def received (c : Conn) (now : ℕ) (space : Space) (pn : ℕ) (eliciting : Bool) : Conn :=
  let s := c.spaces space
  let delay_allowed := decide (space = .application) && c.handshake_complete
  (c.setSpace space { s with
    ack := s.ack.onReceived now pn eliciting delay_allowed c.config.max_ack_delay }).note
    (.received space pn eliciting)

/-- A packet is acted on if its keys are there and its number is not among those received. -/
def accepts (c : Conn) (space : Space) (pn : ℕ) : Bool :=
  !c.closing && (c.spaces space).rx && !(c.spaces space).ack.received.contains pn

def processPacket (c : Conn) (now : ℕ) (space : Space) (pn : ℕ) (frames : List Frame) :
    Option Conn :=
  if ¬ c.accepts space pn then some c
  else
    (processFrames now space (c.note (.ran space pn)) frames false).map fun (eliciting, c) =>
      match eliciting with
      | none => { c with closing := true }
      | some eliciting => if c.closing then c else c.received now space pn eliciting

def sendPacket (c : Conn) (now : ℕ) (space : Space) (size : ℕ) (eliciting in_flight : Bool)
    (payload : List SentFrame) : Conn :=
  let s := c.spaces space
  let sent := ⟨s.next_pn, now, size, eliciting, in_flight, payload⟩
  { c.setSpace space { s with next_pn := s.next_pn + 1 } with
    recovery := c.recovery.onPacketSent now space sent }

/-- A packet of one space is built and sent, with an acknowledgment if there is one to send and it
fits in `budget`.  `others` are its other frames.  It panics where the frame cannot be written. -/
def transmit (c : Conn) (now : ℕ) (space : Space) (budget size : ℕ) (others : List SentFrame)
    (eliciting in_flight : Bool) : Option Conn :=
  let s := c.spaces space
  if c.closing ∨ ¬ s.tx then some c
  else (s.ack.write now c.config.ack_delay_exponent budget).map fun
    | some (ranges, ack) =>
      let largest := (ranges.head?.map Prod.snd).getD 0
      let c := (c.setSpace space { s with ack := ack }).note (.wrote space s.next_pn ranges)
      c.sendPacket now space size eliciting in_flight (.ack largest :: others)
    | none => if others.isEmpty then c else c.sendPacket now space size eliciting in_flight others

/-- The timer of loss recovery, if it is due.  Acknowledgments are not sent again. -/
def onTimeout (c : Conn) (now : ℕ) : Option Conn :=
  if c.closing ∨ ¬ c.recovery.timer.any fun t => now ≥ t then some c
  else (c.recovery.onTimeout now).map fun (_, r) => { c with recovery := r }

/-- A Retry, which is taken before anything else came. -/
def onRetry (c : Conn) (rtt : Option ℕ) : Conn :=
  if c.closing ∨ c.log.any fun n => match n with | .ran .. => true | _ => false then c
  else { c with recovery := (c.recovery.reset rtt).2 }

inductive Event where
  | packet (now : ℕ) (space : Space) (pn : ℕ) (frames : List Frame)
  | transmit (now : ℕ) (space : Space) (budget size : ℕ) (others : ℕ) (eliciting in_flight : Bool)
  | timeout (now : ℕ)
  | retry (rtt : Option ℕ)
  | discard (now : ℕ) (space : Space)
  | close
deriving DecidableEq

def step (c : Conn) : Event → Option Conn
  | .packet now space pn frames => c.processPacket now space pn frames
  | .transmit now space budget size others eliciting in_flight =>
    c.transmit now space budget size (List.replicate others .other) eliciting in_flight
  | .timeout now => c.onTimeout now
  | .retry rtt => some (c.onRetry rtt)
  | .discard now space => some (c.discardSpace now space)
  | .close => some { c with closing := true }

end Conn

end Lazaret.Quic.Ack
