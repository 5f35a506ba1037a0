import Lazaret.Lib.BTreeMap

/-!
# Loss detection

The controller `NewReno` (`quic/congestion.rs`), described by what its operations do to the bytes in
flight; the pacer works with floating point and is left out.  `Recovery` (`quic/recovery.rs`): what
was sent in each packet number space until an acknowledgment or a loss settles it, the round-trip
time estimate, and the one timer.

Times and durations are nanoseconds from some start.  Sizes are natural numbers: a caller sends no
datagram of more than 65,535 bytes, so sums of them come near what a `usize` holds only with 2^48
packets outstanding or acknowledged.  A subtraction of the source that would go below zero, and an
`expect` that fails, are `none`: the call panics.
-/

namespace Lazaret.Quic

/-- Ten packets, but not more than 14720 bytes and not fewer than two packets. -/
def initialWindow (max_datagram_size : ℕ) : ℕ :=
  min (10 * max_datagram_size) (max (2 * max_datagram_size) 14720)

def minimumWindow (max_datagram_size : ℕ) : ℕ := 2 * max_datagram_size

def LIMITED_BY_PACKETS : ℕ := 3

def LOSS_REDUCTION_NUM : ℕ := 1

def LOSS_REDUCTION_DEN : ℕ := 2

def USIZE_MAX : ℕ := 2 ^ 64 - 1

structure NewReno where
  max_datagram_size : ℕ
  window : ℕ
  ssthresh : ℕ
  in_flight : ℕ
  recovery_start : Option ℕ
  /-- What was acknowledged in congestion avoidance and has not yet added up to a window. -/
  acked_in_avoidance : ℕ
deriving DecidableEq

namespace NewReno

def new (max_datagram_size : ℕ) : NewReno :=
  ⟨max_datagram_size, initialWindow max_datagram_size, USIZE_MAX, 0, none, 0⟩

def inSlowStart (c : NewReno) : Bool := c.window < c.ssthresh

def setMaxDatagramSize (c : NewReno) (size : ℕ) : NewReno :=
  { c with max_datagram_size := size, window := max c.window (minimumWindow size) }

def onSent (c : NewReno) (bytes : ℕ) : NewReno := { c with in_flight := c.in_flight + bytes }

/-- Whether the window was in use when `in_flight` bytes were in flight. -/
def isLimited (c : NewReno) (in_flight : ℕ) : Bool :=
  if in_flight ≥ c.window then true
  else (c.inSlowStart && decide (in_flight > c.window / 2)) ||
    decide (c.window - in_flight ≤ LIMITED_BY_PACKETS * c.max_datagram_size)

def inRecovery (c : NewReno) (sent : ℕ) : Bool := c.recovery_start.any fun start => sent ≤ start

/-- The window grows with `bytes` that were acknowledged: by all of them in slow start, and else by
a packet for each window of data. -/
def grow (c : NewReno) (bytes : ℕ) : NewReno :=
  if c.inSlowStart then { c with window := c.window + bytes }
  else if c.acked_in_avoidance + bytes ≥ c.window then
    { c with
      acked_in_avoidance := c.acked_in_avoidance + bytes - c.window
      window := c.window + c.max_datagram_size }
  else { c with acked_in_avoidance := c.acked_in_avoidance + bytes }

/-- `saturating_sub` is the subtraction of natural numbers. -/
def onAcked (c : NewReno) (bytes sent in_flight_before : ℕ) : NewReno :=
  let c := { c with in_flight := c.in_flight - bytes }
  if ¬ c.isLimited in_flight_before ∨ c.inRecovery sent then c else c.grow bytes

def onLost (c : NewReno) (bytes : ℕ) : NewReno := { c with in_flight := c.in_flight - bytes }

def onDiscarded (c : NewReno) (bytes : ℕ) : NewReno := { c with in_flight := c.in_flight - bytes }

/-- A congestion event, unless one began since `sent`. -/
def onCongestionEvent (c : NewReno) (now sent : ℕ) : NewReno :=
  if c.inRecovery sent then c
  else
    let ssthresh := max (c.window / LOSS_REDUCTION_DEN * LOSS_REDUCTION_NUM)
      (minimumWindow c.max_datagram_size)
    { c with
      recovery_start := some now
      ssthresh := ssthresh
      window := ssthresh
      acked_in_avoidance := 0 }

def onPersistentCongestion (c : NewReno) : NewReno :=
  { c with
    window := minimumWindow c.max_datagram_size
    recovery_start := none
    acked_in_avoidance := 0 }

/-! ### The bytes in flight -/

variable (c : NewReno) (bytes sent before now size : ℕ)

lemma grow_in_flight : (c.grow bytes).in_flight = c.in_flight := by
  rw [grow]
  split_ifs <;> rfl

@[simp] lemma onAcked_in_flight :
    (c.onAcked bytes sent before).in_flight = c.in_flight - bytes := by
  rw [onAcked]
  split_ifs
  · rfl
  · rw [grow_in_flight]

@[simp] lemma onLost_in_flight : (c.onLost bytes).in_flight = c.in_flight - bytes := rfl

@[simp] lemma onCongestionEvent_in_flight :
    (c.onCongestionEvent now sent).in_flight = c.in_flight := by
  rw [onCongestionEvent]
  split_ifs <;> rfl

/-! ### The window -/

def Wide : Prop := minimumWindow c.max_datagram_size ≤ c.window

variable {c}

lemma wide_new : (new size).Wide := by
  simp only [Wide, new, initialWindow, minimumWindow]
  omega

lemma wide_setMaxDatagramSize : (c.setMaxDatagramSize size).Wide := le_max_right _ _

lemma Wide.onLost (h : c.Wide) : (c.onLost bytes).Wide := h

lemma Wide.grow (h : c.Wide) : (c.grow bytes).Wide := by
  rw [NewReno.grow]
  simp only [Wide, minimumWindow] at *
  split_ifs
  · dsimp only
    omega
  · dsimp only
    omega
  · exact h

lemma Wide.onAcked (h : c.Wide) : (c.onAcked bytes sent before).Wide := by
  rw [NewReno.onAcked]
  split_ifs
  · exact h
  · exact Wide.grow bytes h

lemma Wide.onCongestionEvent (h : c.Wide) : (c.onCongestionEvent now sent).Wide := by
  rw [NewReno.onCongestionEvent]
  split_ifs
  · exact h
  · exact le_max_right _ _

lemma wide_onPersistentCongestion : c.onPersistentCongestion.Wide := le_refl _

end NewReno

/-! ### Durations and spaces -/

def PACKET_THRESHOLD : ℕ := 3

def GRANULARITY : ℕ := 1000000

def INITIAL_RTT : ℕ := 333000000

def PERSISTENT_CONGESTION_THRESHOLD : ℕ := 3

def MAX_RTT : ℕ := 60000000000

def DURATION_MAX : ℕ := 2 ^ 64 * 1000000000 - 1

def saturatingAdd (a b : ℕ) : ℕ := min (a + b) DURATION_MAX

def saturatingMul (a b : ℕ) : ℕ := min (a * b) DURATION_MAX

/-- `t + d`: an `Instant` that far away is never reached. -/
def later (t d : ℕ) : ℕ := t + d

/-- `a - b`, which panics below zero. -/
def checkedSub (a b : ℕ) : Option ℕ := if b ≤ a then some (a - b) else none

inductive Space where
  | initial
  | handshake
  | application
deriving DecidableEq

def Space.all : List Space := [.initial, .handshake, .application]

/-- A packet that was sent and is not yet acknowledged or lost. -/
structure Sent (T : Type*) where
  pn : ℕ
  time : ℕ
  size : ℕ
  ack_eliciting : Bool
  in_flight : Bool
  payload : T
deriving DecidableEq

structure AckOutcome (T : Type*) where
  acked : List (Sent T)
  lost : List (Sent T)

structure Probe where
  space : Space
  anti_deadlock : Bool
deriving DecidableEq

structure Timeout (T : Type*) where
  lost_space : Space
  lost : List (Sent T)
  probe : Option Probe

structure SpaceState (T : Type*) where
  sent : BTreeMap ℕ (Sent T)
  largest_acked : Option ℕ
  loss_time : Option ℕ
  last_ack_eliciting : Option ℕ
  ack_eliciting_in_flight : ℕ

def SpaceState.new {T : Type*} : SpaceState T := ⟨BTreeMap.empty, none, none, none, 0⟩

structure Recovery (T : Type*) where
  latest_rtt : ℕ
  smoothed_rtt : ℕ
  rttvar : ℕ
  min_rtt : ℕ
  first_rtt_sample : Option ℕ
  max_ack_delay : ℕ
  handshake_confirmed : Bool
  handshake_acked : Bool
  handshake_keys : Bool
  pto_count : ℕ
  timer : Option ℕ
  spaces : Space → SpaceState T
  cc : NewReno

/-- Takes the packets with the numbers `keys` out: those packets, and what is left. -/
def takeOut {T : Type*} (sent : BTreeMap ℕ (Sent T)) :
    List ℕ → Option (List (Sent T) × BTreeMap ℕ (Sent T))
  | [] => some ([], sent)
  | k :: keys =>
    match sent.get k with
    | none => none
    | some p => (takeOut (sent.remove k) keys).map fun out => (p :: out.1, out.2)

def takeRanges {T : Type*} (sent : BTreeMap ℕ (Sent T)) :
    List (ℕ × ℕ) → Option (List (Sent T) × BTreeMap ℕ (Sent T))
  | [] => some ([], sent)
  | r :: ranges =>
    let keys := (sent.range fun k => r.1 ≤ k ∧ k ≤ r.2).map Prod.fst
    (takeOut sent keys).bind fun here =>
      (takeRanges here.2 ranges).map fun rest => (here.1 ++ rest.1, rest.2)

namespace Recovery

variable {T : Type*}

def new (max_datagram_size : ℕ) : Recovery T where
  latest_rtt := 0
  smoothed_rtt := INITIAL_RTT
  rttvar := INITIAL_RTT / 2
  min_rtt := 0
  first_rtt_sample := none
  max_ack_delay := 25 * GRANULARITY
  handshake_confirmed := false
  handshake_acked := false
  handshake_keys := false
  pto_count := 0
  timer := none
  spaces := fun _ => SpaceState.new
  cc := NewReno.new max_datagram_size

def setSpace (r : Recovery T) (space : Space) (s : SpaceState T) : Recovery T :=
  { r with spaces := Function.update r.spaces space s }

/-! ### The timer -/

/-- Of a time and space and another one, the earlier, and the first if they are equal. -/
def earlier (best : Option (ℕ × Space)) (t : ℕ) (space : Space) : Option (ℕ × Space) :=
  match best with
  | none => some (t, space)
  | some b => if t < b.1 then some (t, space) else some b

def lossTimeAndSpace (r : Recovery T) : Option (ℕ × Space) :=
  Space.all.foldl (fun best space =>
    match (r.spaces space).loss_time with
    | none => best
    | some t => earlier best t space) none

def anyAckElicitingInFlight (r : Recovery T) : Bool :=
  Space.all.any fun space => 0 < (r.spaces space).ack_eliciting_in_flight

def peerCompletedAddressValidation (r : Recovery T) : Bool :=
  r.handshake_confirmed || r.handshake_acked

def deadlockSpace (r : Recovery T) : Space := if r.handshake_keys then .handshake else .initial

/-- The loop over the spaces: it ends at the Application space if the handshake is not confirmed. -/
def ptoLoop (r : Recovery T) (backoff base : ℕ) :
    List Space → Option (ℕ × Space) → Option (ℕ × Space)
  | [], best => best
  | space :: rest, best =>
    let s := r.spaces space
    if s.ack_eliciting_in_flight = 0 then r.ptoLoop backoff base rest best
    else if space = .application ∧ ¬ r.handshake_confirmed then best
    else
      let duration := saturatingMul base backoff
      let duration := if space = .application then
        saturatingAdd duration (saturatingMul r.max_ack_delay backoff) else duration
      match s.last_ack_eliciting with
      | none => r.ptoLoop backoff base rest best
      | some last => r.ptoLoop backoff base rest (earlier best (later last duration) space)

/-- When the probe timeout is, and for which space. -/
def ptoTimeAndSpace (r : Recovery T) (now : ℕ) : Option (ℕ × Space) :=
  let backoff := 2 ^ min r.pto_count 20
  let base := saturatingAdd r.smoothed_rtt (max (saturatingMul r.rttvar 4) GRANULARITY)
  if ¬ r.anyAckElicitingInFlight then
    some (later now (saturatingMul base backoff), r.deadlockSpace)
  else r.ptoLoop backoff base Space.all none

/-- For the earliest time threshold if there is one, else for the probe timeout, else off. -/
def timerAt (r : Recovery T) (now : ℕ) : Option ℕ :=
  match r.lossTimeAndSpace with
  | some (t, _) => some t
  | none =>
    if ¬ r.anyAckElicitingInFlight ∧ r.peerCompletedAddressValidation then none
    else (r.ptoTimeAndSpace now).map Prod.fst

def setTimer (r : Recovery T) (now : ℕ) : Recovery T := { r with timer := r.timerAt now }

/-! ### Sending -/

def onHandshakeConfirmed (r : Recovery T) (now : ℕ) : Recovery T :=
  { r with handshake_confirmed := true }.setTimer now

def setMaxDatagramSize (r : Recovery T) (size : ℕ) : Recovery T :=
  { r with cc := r.cc.setMaxDatagramSize size }

def setMaxAckDelay (r : Recovery T) (delay : ℕ) : Recovery T := { r with max_ack_delay := delay }

def setHandshakeKeys (r : Recovery T) (have_keys : Bool) : Recovery T :=
  { r with handshake_keys := have_keys }

/-- What is noted of a packet in flight that is to be acknowledged. -/
def noteEliciting (s : SpaceState T) (now : ℕ) (ack_eliciting : Bool) : SpaceState T :=
  if ack_eliciting then
    { s with
      last_ack_eliciting := some now
      ack_eliciting_in_flight := s.ack_eliciting_in_flight + 1 }
  else s

def onPacketSent (r : Recovery T) (now : ℕ) (space : Space) (sent : Sent T) : Recovery T :=
  let s := r.spaces space
  if sent.in_flight then
    let s := noteEliciting s now sent.ack_eliciting
    let r := r.setSpace space { s with sent := s.sent.insert sent.pn sent }
    { r with cc := r.cc.onSent sent.size }.setTimer now
  else r.setSpace space { s with sent := s.sent.insert sent.pn sent }

/-! ### Acknowledgments -/

def updateRtt (r : Recovery T) (now ack_delay : ℕ) : Recovery T :=
  if r.first_rtt_sample.isNone then
    { r with
      min_rtt := r.latest_rtt
      smoothed_rtt := r.latest_rtt
      rttvar := r.latest_rtt / 2
      first_rtt_sample := some now }
  else
    let min_rtt := min r.min_rtt r.latest_rtt
    let ack_delay := if r.handshake_confirmed then min ack_delay r.max_ack_delay else ack_delay
    -- the delay is taken off the sample if that leaves no less than the smallest round trip seen
    let adjusted := if r.latest_rtt ≥ min_rtt + ack_delay then r.latest_rtt - ack_delay
      else r.latest_rtt
    let deviation := if r.smoothed_rtt > adjusted then r.smoothed_rtt - adjusted
      else adjusted - r.smoothed_rtt
    { r with
      min_rtt := min_rtt
      rttvar := r.rttvar * 3 / 4 + deviation / 4
      smoothed_rtt := r.smoothed_rtt * 7 / 8 + adjusted / 8 }

/-- One packet of the loop of `detect_lost`: it is lost, or the time when it would be counts. -/
def lostOrClose (now loss_delay largest : ℕ) (found : List ℕ × Option ℕ) (e : ℕ × Sent T) :
    List ℕ × Option ℕ :=
  if now - e.2.time ≥ loss_delay ∨ largest ≥ e.1 + PACKET_THRESHOLD then (found.1 ++ [e.1], found.2)
  else
    let t := later e.2.time loss_delay
    (found.1, some (found.2.elim t fun l => min l t))

/-- Takes the packets of `space` that are lost out of the sent packets. -/
def detectLost (r : Recovery T) (now : ℕ) (space : Space) : Option (List (Sent T) × Recovery T) :=
  let s := r.spaces space
  match s.largest_acked with
  | none => some ([], r.setSpace space { s with loss_time := none })
  | some largest =>
    let loss_delay := max (max r.latest_rtt r.smoothed_rtt * 9 / 8) GRANULARITY
    let found := (s.sent.range fun k => k ≤ largest).foldl (lostOrClose now loss_delay largest)
      ([], none)
    (takeOut s.sent found.1).bind fun out =>
      (checkedSub s.ack_eliciting_in_flight
        (out.1.countP fun p => p.in_flight && p.ack_eliciting)).map fun count =>
          (out.1, r.setSpace space { s with
            sent := out.2
            loss_time := found.2
            ack_eliciting_in_flight := count })

/-- The loop of `in_persistent_congestion` over the lost packets. -/
def persistentLoop (first_sample duration : ℕ) : List (Sent T) → Option ℕ → Option ℕ → Bool
  | [], _, _ => false
  | p :: lost, run_start, last_pn =>
    let run_start := if last_pn.any fun l => p.pn ≠ l + 1 then none else run_start
    if p.ack_eliciting ∧ p.time > first_sample then
      match run_start with
      | none => persistentLoop first_sample duration lost (some p.time) (some p.pn)
      | some start =>
        if p.time - start > duration then true
        else persistentLoop first_sample duration lost run_start (some p.pn)
    else persistentLoop first_sample duration lost run_start (some p.pn)

def inPersistentCongestion (r : Recovery T) (lost : List (Sent T)) : Bool :=
  match r.first_rtt_sample with
  | none => false
  | some first_sample =>
    let duration := (r.smoothed_rtt + max (4 * r.rttvar) GRANULARITY + r.max_ack_delay) *
      PERSISTENT_CONGESTION_THRESHOLD
    persistentLoop first_sample duration lost none none

/-- The lost packets are taken off the bytes in flight; the time of the newest of them is noted. -/
def takeOffLost : List (Sent T) → NewReno → Option ℕ → NewReno × Option ℕ
  | [], cc, last_sent => (cc, last_sent)
  | p :: lost, cc, last_sent =>
    if p.in_flight then
      takeOffLost lost (cc.onLost p.size) (some (last_sent.elim p.time fun l => max l p.time))
    else takeOffLost lost cc last_sent

/-- What loss does to the bytes in flight and the congestion window. -/
def onPacketsLost (r : Recovery T) (now : ℕ) (lost : List (Sent T)) : Recovery T :=
  let (cc, last_sent) := takeOffLost lost r.cc none
  let cc := last_sent.elim cc fun sent => cc.onCongestionEvent now sent
  if r.inPersistentCongestion lost then { r with cc := cc.onPersistentCongestion }
  else { r with cc := cc }

/-- The acknowledged packets are taken off the bytes in flight and the count of their space. -/
def takeOffAcked (in_flight_before : ℕ) : List (Sent T) → NewReno → ℕ → Option (NewReno × ℕ)
  | [], cc, count => some (cc, count)
  | p :: acked, cc, count =>
    if p.in_flight then
      let cc := cc.onAcked p.size p.time in_flight_before
      if p.ack_eliciting then
        (checkedSub count 1).bind fun count => takeOffAcked in_flight_before acked cc count
      else takeOffAcked in_flight_before acked cc count
    else takeOffAcked in_flight_before acked cc count

/-- A sample from the largest packet, if this acknowledgment is the first to tell of it. -/
def sample (r : Recovery T) (now : ℕ) (space : Space) (largest ack_delay : ℕ)
    (acked : List (Sent T)) : Recovery T :=
  match acked.getLast? with
  | none => r
  | some newest =>
    if newest.pn = largest ∧ acked.any Sent.ack_eliciting then
      let r := { r with latest_rtt := min (now - newest.time) MAX_RTT }
      r.updateRtt now (if space = .initial then 0 else ack_delay)
    else r

/-- What comes after the acknowledged packets were taken out of the sent ones. -/
def afterAcked (r : Recovery T) (now : ℕ) (space : Space) (largest ack_delay : ℕ)
    (acked : List (Sent T)) : Option (AckOutcome T × Recovery T) :=
  let r := r.sample now space largest ack_delay acked
  let r := if space = .handshake then { r with handshake_acked := true } else r
  let in_flight_before := r.cc.in_flight
  (r.detectLost now space).bind fun (lost, r) =>
    let r := r.onPacketsLost now lost
    (takeOffAcked in_flight_before acked r.cc (r.spaces space).ack_eliciting_in_flight).map
      fun (cc, count) =>
        let r := { r with cc := cc }.setSpace space
          { r.spaces space with ack_eliciting_in_flight := count }
        let r := if r.peerCompletedAddressValidation then { r with pto_count := 0 } else r
        (⟨acked, lost⟩, r.setTimer now)

/-- An ACK frame arrived in `space`: `largest` is the largest packet number it acknowledges, and
`ranges` the packet numbers, from the highest range down, each with its first and last number. -/
def onAckReceived (r : Recovery T) (now : ℕ) (space : Space) (largest ack_delay : ℕ)
    (ranges : List (ℕ × ℕ)) : Option (AckOutcome T × Recovery T) :=
  let s := { r.spaces space with
    largest_acked := some ((r.spaces space).largest_acked.elim largest fun p => max p largest) }
  (takeRanges s.sent ranges).bind fun out =>
    let r := r.setSpace space { s with sent := out.2 }
    if out.1.isEmpty then some (⟨[], []⟩, r)
    else r.afterAcked now space largest ack_delay (out.1.insertionSort fun p q => p.pn ≤ q.pn)

/-! ### Timeouts and ends -/

def onTimeout (r : Recovery T) (now : ℕ) : Option (Timeout T × Recovery T) :=
  match r.lossTimeAndSpace with
  | some (_, space) =>
    (r.detectLost now space).map fun (lost, r) =>
      (⟨space, lost, none⟩, (r.onPacketsLost now lost).setTimer now)
  | none =>
    let probe : Probe :=
      if ¬ r.anyAckElicitingInFlight then ⟨r.deadlockSpace, true⟩
      else ⟨((r.ptoTimeAndSpace now).map Prod.snd).getD .application, false⟩
    some (⟨probe.space, [], some probe⟩,
      { r with pto_count := r.pto_count + 1 }.setTimer now)

def values (s : SpaceState T) : List (Sent T) := s.sent.entries.map Prod.snd

/-- The keys of `space` are discarded: its packets are given up. -/
def discardSpace (r : Recovery T) (now : ℕ) (space : Space) : List (Sent T) × Recovery T :=
  let s := r.spaces space
  let r := r.setSpace space SpaceState.new
  let bytes := (((values s).filter Sent.in_flight).map Sent.size).sum
  let r := { r with
    cc := r.cc.onDiscarded bytes
    handshake_keys := if space = Space.handshake then false else r.handshake_keys
    pto_count := 0 }
  (values s, r.setTimer now)

/-- The server sent a Retry: everything starts over. -/
def reset (r : Recovery T) (rtt : Option ℕ) : List (Sent T) × Recovery T :=
  let gone := Space.all.flatMap fun space => values (r.spaces space)
  let r := { r with
    spaces := fun _ => SpaceState.new
    cc := NewReno.new r.cc.max_datagram_size
    pto_count := 0
    timer := none }
  match rtt with
  | none => (gone, r)
  | some rtt =>
    let rtt := min rtt MAX_RTT
    (gone, { r with smoothed_rtt := rtt, rttvar := rtt / 2 })

end Recovery

end Lazaret.Quic
