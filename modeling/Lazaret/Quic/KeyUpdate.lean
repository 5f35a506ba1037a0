import Lazaret.Lib.Run
import Mathlib.Tactic.Ring
import Mathlib.Tactic.Cases

/-!
# Key updates

The 1-RTT key phases of a connection (`KeyPhases`, `update_keys` and `open_one_rtt` in
`quic/connection.rs`) at the two ends of a network that may delay, reorder, lose and duplicate
packets.  A key is its generation.  Packet numbers are sent truncated (`quic/wire.rs`), so that a
packet that comes very late is taken for another one.  The generations of the two ends hold each
other: an end updates its keys once the other end has opened a packet of the present generation.
-/

namespace Lazaret.Quic.Keys

open List Option

/-! ### Truncated packet numbers -/

/-- How many bytes the number takes; `none` if four are not enough. -/
def packetNumberLen (pn : ℕ) (largest_acked : Option ℕ) : Option ℕ :=
  let unacked := largest_acked.elim (pn + 1) fun acked => pn - acked
  let range := unacked * 2
  [1, 2, 3, 4].find? fun n => range < 2 ^ (8 * n)

/-- The number that is nearest to the next one expected. -/
def decodePacketNumber (largest : Option ℕ) (truncated nbytes : ℕ) : ℕ :=
  let expected := largest.elim 0 fun l => l + 1
  let win := 2 ^ (8 * nbytes)
  let half := win / 2
  let candidate := expected - expected % win + truncated % win
  if candidate + half ≤ expected ∧ candidate < 2 ^ 62 - win then candidate + win
  else if candidate > expected + half ∧ candidate ≥ win then candidate - win
  else candidate

/-! ### One end -/

/-- A 1-RTT packet: what it is sealed with, and the acknowledgment in it. -/
structure Packet where
  pn : ℕ
  pn_len : ℕ
  phase : Bool
  generation : ℕ
  /-- The largest number of the ACK frame, if there is one. -/
  ack : Option ℕ
deriving DecidableEq

/-- The phases of one end, and what they depend on. -/
structure End where
  handshake_confirmed : Bool
  closing : Bool
  next_pn : ℕ
  largest_acked : Option ℕ
  /-- The generations of the keys to seal and to open with. -/
  tx : ℕ
  rx : ℕ
  tx_phase : Bool
  rx_phase : Bool
  rx_prev : Option ℕ
  rx_first_pn : ℕ
  tx_first_pn : ℕ
  tx_acked : Bool
  /-- The numbers received, and the largest of all. -/
  received : List ℕ
  largest : Option ℕ
deriving DecidableEq

namespace End

def new : End := ⟨false, false, 0, none, 0, 0, false, false, none, 0, 0, false, [], none⟩

/-- The keys to seal with are those of the next generation. -/
def nextTx (e : End) (phase : Bool) : End :=
  { e with tx := e.tx + 1, tx_phase := phase, tx_first_pn := e.next_pn, tx_acked := false }

def updateKeys (e : End) : End :=
  if ¬ e.handshake_confirmed ∨ e.closing then e
  else if ¬ e.tx_acked ∨ e.rx_phase ≠ e.tx_phase then e
  else e.nextTx (!e.tx_phase)

/-- A packet opens with its own keys and its own number. -/
def opens (generation pn : ℕ) (p : Packet) : Bool := generation = p.generation && pn = p.pn

def numberOf (e : End) (p : Packet) : ℕ :=
  decodePacketNumber e.largest (p.pn % 2 ^ (8 * p.pn_len)) p.pn_len

/-- The number and what comes of it, if the packet opens. -/
def openOneRtt (e : End) (p : Packet) : Option (ℕ × End) :=
  let pn := e.numberOf p
  if p.phase = e.rx_phase then
    if opens e.rx pn p then some (pn, { e with rx_first_pn := min e.rx_first_pn pn }) else none
  else if pn < e.rx_first_pn then
    match e.rx_prev with
    | none => none
    | some prev => if opens prev pn p then some (pn, e) else none
  else if opens (e.rx + 1) pn p then
    let e := { e with
      rx := e.rx + 1
      rx_prev := some e.rx
      rx_phase := p.phase
      rx_first_pn := pn }
    some (pn, if e.tx_phase ≠ p.phase then e.nextTx p.phase else e)
  else none

/-- An acknowledgment of a number that was not sent closes the connection. -/
def onAckFrame (e : End) (largest : ℕ) : End :=
  if largest ≥ e.next_pn then { e with closing := true }
  else
    let e := { e with largest_acked := some (e.largest_acked.elim largest fun l => max l largest) }
    if largest ≥ e.tx_first_pn then { e with tx_acked := true } else e

/-- A packet arrives.  One whose number was received before is dropped after it was opened. -/
def receive (e : End) (p : Packet) : End :=
  if e.closing then e
  else
    match e.openOneRtt p with
    | none => e
    | some (pn, e) =>
      if pn ∈ e.received then e
      else
        let e := p.ack.elim e e.onAckFrame
        if e.closing then e
        else { e with
          received := pn :: e.received
          largest := some (e.largest.elim pn fun l => max l pn) }

def packet (e : End) (ack : Option ℕ) : Packet where
  pn := e.next_pn
  pn_len := (packetNumberLen e.next_pn e.largest_acked).getD 4
  phase := e.tx_phase
  generation := e.tx
  ack := ack

def sent (e : End) : End := { e with next_pn := e.next_pn + 1 }

end End

/-! ### Both ends -/

inductive Side where
  | client
  | server
deriving DecidableEq

def Side.other : Side → Side
  | .client => .server
  | .server => .client

inductive Event where
  | update (side : Side)
  /-- With an ACK frame whose largest number is this one. -/
  | send (side : Side) (ack : Option ℕ)
  | deliver (side : Side) (p : Packet)
  | drop (side : Side)
  /-- The numbers below `n` need not be acknowledged any more. -/
  | trim (side : Side) (n : ℕ)
  | confirm (side : Side)
  | close (side : Side)
deriving DecidableEq

/-- The two ends, all that each has sent, and the generations that each has moved its own keys to,
the newest first. -/
structure World where
  ends : Side → End
  sent : Side → List Packet
  updates : Side → List ℕ

namespace World

def new : World := ⟨fun _ => End.new, fun _ => [], fun _ => []⟩

def put (w : World) (side : Side) (e : End) : World :=
  { w with
    ends := Function.update w.ends side e
    updates := Function.update w.updates side
      (if e.tx = (w.ends side).tx then w.updates side else e.tx :: w.updates side) }

def step (w : World) : Event → Option World
  | .update side => some (w.put side (w.ends side).updateKeys)
  | .send side ack =>
    let p := (w.ends side).packet ack
    some { w.put side (w.ends side).sent with
      sent := Function.update w.sent side (p :: w.sent side) }
  | .deliver side p => some (w.put side ((w.ends side).receive p))
  | .drop side => some (w.put side { w.ends side with rx_prev := none })
  | .trim side n =>
    some (w.put side { w.ends side with
      received := (w.ends side).received.filter fun pn => n ≤ pn })
  | .confirm side => some (w.put side { w.ends side with handshake_confirmed := true })
  | .close side => some (w.put side { w.ends side with closing := true })

/-- An ACK frame tells of numbers that were received, and the network delivers what was sent. -/
def Allowed (w : World) : Event → Prop
  | .send side ack => ∀ largest ∈ ack, largest ∈ (w.ends side).received
  | .deliver side p => p ∈ w.sent side.other
  | _ => True

instance (w : World) : (e : Event) → Decidable (w.Allowed e)
  | .update _ => inferInstanceAs (Decidable True)
  | .send _ ack => inferInstanceAs (Decidable (∀ largest ∈ ack, _))
  | .deliver _ _ => inferInstanceAs (Decidable (_ ∈ _))
  | .drop _ => inferInstanceAs (Decidable True)
  | .trim _ _ => inferInstanceAs (Decidable True)
  | .confirm _ => inferInstanceAs (Decidable True)
  | .close _ => inferInstanceAs (Decidable True)

end World

def phaseOf (generation : ℕ) : Bool := generation % 2 = 1

/-- Keys for the generation `g` are there: it is the present one or the next, or the one before, and
its keys have not been dropped. -/
def HasKeys (e : End) (g : ℕ) : Prop := g = e.rx ∨ g = e.rx + 1 ∨ (g + 1 = e.rx ∧ e.rx_prev ≠ none)

structure InStep (w : World) : Prop where
  generations : ∀ side, (w.ends side.other).rx = (w.ends side).tx ∨
    (w.ends side.other).rx + 1 = (w.ends side).tx
  phases : ∀ side, (w.ends side).tx_phase = phaseOf (w.ends side).tx ∧
    (w.ends side).rx_phase = phaseOf (w.ends side).rx
  /-- A generation to open with is the first one, or the other end has sealed with it. -/
  used : ∀ side, (w.ends side.other).rx = 0 ∨
    ∃ p ∈ w.sent side, p.generation = (w.ends side.other).rx
  updates : ∀ side, (w.updates side).Nodup

/-- Every packet that was sent opens at the other end, if that has keys for its generation. -/
def AllOpen (w : World) : Prop :=
  ∀ side, ∀ p ∈ w.sent side, HasKeys (w.ends side.other) p.generation →
    ((w.ends side.other).openOneRtt p).isSome = true

/-- The same for the packets whose number is recovered from what was sent of it. -/
def RecoveredOpen (w : World) : Prop :=
  ∀ side, ∀ p ∈ w.sent side, (w.ends side.other).numberOf p = p.pn →
    HasKeys (w.ends side.other) p.generation → ((w.ends side.other).openOneRtt p).isSome = true

/-! ### What the two ends keep -/

@[simp] lemma phaseOf_succ (g : ℕ) : phaseOf (g + 1) = !phaseOf g := by
  rw [phaseOf, phaseOf]
  rcases Nat.mod_two_eq_zero_or_one g with h | h
  · simp [Nat.add_mod, h]
  · simp [Nat.add_mod, h]

/-- What an end keeps by itself: its own keys are those of the generation it opens with, or one
ahead. -/
structure Own (e : End) : Prop where
  tx_phase : e.tx_phase = phaseOf e.tx
  rx_phase : e.rx_phase = phaseOf e.rx
  tx_eq : e.tx = e.rx ∨ e.tx = e.rx + 1

/-- What holds between an end `a` that has sent the packets `out`, and the end `b` that they are
for, which has sent `back`. -/
structure Dir (a b : End) (out back : List Packet) : Prop where
  pn_lt : ∀ p ∈ out, p.pn < a.next_pn
  generation_le : ∀ p ∈ out, p.generation ≤ a.tx
  phase : ∀ p ∈ out, p.phase = phaseOf p.generation
  /-- The packets of the present generation are those from `tx_first_pn` on. -/
  first : ∀ p ∈ out, p.generation = a.tx ↔ a.tx_first_pn ≤ p.pn
  first_le : a.tx_first_pn ≤ a.next_pn
  ordered : ∀ p ∈ out, ∀ q ∈ out, p.generation < q.generation → p.pn < q.pn
  rx_le : b.rx ≤ a.tx
  tx_le : a.tx ≤ b.rx + 1
  prev : ∀ k, b.rx_prev = some k → k + 1 = b.rx
  /-- The lowest number of the present generation that was opened. -/
  rx_first : (b.rx = 0 ∧ b.rx_first_pn = 0) ∨
    ∃ p ∈ out, p.generation = b.rx ∧ p.pn = b.rx_first_pn
  received : ∀ n ∈ b.received, ∃ p ∈ out, p.pn = n ∧ p.generation ≤ b.rx
  acks : ∀ q ∈ back, ∀ n, q.ack = some n → ∃ p ∈ out, p.pn = n ∧ p.generation ≤ b.rx
  acked : a.tx_acked = true → b.rx = a.tx

namespace End

variable {a b e : End} {out back : List Packet} {p : Packet}

lemma openOneRtt_isSome (h : Dir a b out back) (hown : Own b) (hp : p ∈ out)
    (hnumber : b.numberOf p = p.pn) (hkeys : HasKeys b p.generation) :
    (b.openOneRtt p).isSome = true := by
  rw [openOneRtt]
  dsimp only
  have hphase := h.phase p hp
  rw [hnumber]
  rcases hkeys with hg | hg | ⟨hg, hprev⟩
  · rw [if_pos (by rw [hphase, hown.rx_phase, hg]), if_pos (by simp [opens, hg])]
    rfl
  · -- the next generation has higher numbers than those of the present one
    have hle : ¬ p.pn < b.rx_first_pn := by
      rcases h.rx_first with ⟨-, h0⟩ | ⟨q, hq, hqg, hqpn⟩
      · omega
      · have := h.ordered q hq p hp (by omega)
        omega
    rw [if_neg (by rw [hphase, hown.rx_phase, hg]; simp), if_neg hle, if_pos (by simp [opens, hg])]
    rfl
  · have hlt : p.pn < b.rx_first_pn := by
      rcases h.rx_first with ⟨h0, -⟩ | ⟨q, hq, hqg, hqpn⟩
      · omega
      · have := h.ordered p hp q hq (by omega)
        omega
    obtain ⟨k, hk⟩ := ne_none_iff_exists'.1 hprev
    have hkg := h.prev k hk
    rw [if_neg (by rw [hphase, hown.rx_phase, ← hg]; simp), if_pos hlt, hk]
    dsimp only
    rw [if_pos (by simp [opens]; omega)]
    rfl

/-- What opening a packet does: nothing to the keys, or the end moves on to the next generation and
its own keys follow. -/
inductive Opened (b : End) (p : Packet) : End → Prop
  | same (hg : p.generation = b.rx) (hphase : p.phase = b.rx_phase) :
      Opened b p { b with rx_first_pn := min b.rx_first_pn p.pn }
  | before (hg : b.rx_prev = some p.generation) : Opened b p b
  | ahead (hg : p.generation = b.rx + 1) (htx : b.tx_phase = p.phase) :
      Opened b p { b with
        rx := b.rx + 1, rx_prev := some b.rx, rx_phase := p.phase, rx_first_pn := p.pn }
  | follow (hg : p.generation = b.rx + 1) (htx : b.tx_phase ≠ p.phase) :
      Opened b p { b with
        rx := b.rx + 1, rx_prev := some b.rx, rx_phase := p.phase, rx_first_pn := p.pn
        tx := b.tx + 1, tx_phase := p.phase, tx_first_pn := b.next_pn, tx_acked := false }

lemma openOneRtt_eq_some {pn : ℕ} (h : b.openOneRtt p = some (pn, e)) :
    pn = p.pn ∧ Opened b p e := by
  rw [openOneRtt] at h
  dsimp only at h
  split at h
  · rename_i hphase
    split at h
    · rename_i ho
      rw [opens, Bool.and_eq_true, decide_eq_true_eq, decide_eq_true_eq] at ho
      cases h
      rw [ho.2]
      exact ⟨rfl, .same ho.1.symm hphase⟩
    · cases h
  · split at h
    · split at h
      · cases h
      · rename_i prev hprev
        split at h
        · rename_i ho
          rw [opens, Bool.and_eq_true, decide_eq_true_eq, decide_eq_true_eq] at ho
          cases h
          exact ⟨ho.2, .before (by rw [hprev, ho.1])⟩
        · cases h
    · split at h
      · rename_i ho
        rw [opens, Bool.and_eq_true, decide_eq_true_eq, decide_eq_true_eq] at ho
        cases h
        refine ⟨ho.2, ?_⟩
        rw [ho.2]
        split_ifs with htx
        · exact .follow ho.1.symm htx
        · exact .ahead ho.1.symm (not_not.1 htx)
      · cases h

end End

lemma exists_of_le {out : List Packet} {n g g' : ℕ} (hg : g ≤ g')
    (hn : ∃ p ∈ out, p.pn = n ∧ p.generation ≤ g) : ∃ p ∈ out, p.pn = n ∧ p.generation ≤ g' := by
  obtain ⟨p, hp, h1, h2⟩ := hn
  exact ⟨p, hp, h1, le_trans h2 hg⟩

lemma Dir.advance {a b e : End} {out back : List Packet} {p : Packet} (h : Dir a b out back)
    (hp : p ∈ out) (hg : p.generation = b.rx + 1) (hrx : e.rx = b.rx + 1)
    (hprev : e.rx_prev = some b.rx) (hfirst : e.rx_first_pn = p.pn)
    (hreceived : e.received = b.received) : Dir a e out back := by
  have hle := h.generation_le p hp
  have htx := h.tx_le
  refine { h with
    rx_le := by omega
    tx_le := by omega
    prev := fun k hk => ?_
    rx_first := .inr ⟨p, hp, by rw [hg, hrx], hfirst.symm⟩
    received := fun n hn => ?_
    acks := fun q hq n hn => exists_of_le (by omega) (h.acks q hq n hn)
    acked := fun _ => by omega }
  · rw [hprev, some.injEq] at hk
    omega
  · rw [hreceived] at hn
    exact exists_of_le (by omega) (h.received n hn)

lemma Dir.opened {a b e : End} {out back : List Packet} {p : Packet} (h : Dir a b out back)
    (hp : p ∈ out) (ho : End.Opened b p e) : Dir a e out back ∧ p.generation ≤ e.rx := by
  cases ho with
  | same hg hphase =>
    refine ⟨{ h with rx_first := ?_ }, le_of_eq hg⟩
    dsimp only
    rcases h.rx_first with ⟨h0, hf⟩ | ⟨q, hq, hqg, hqpn⟩
    · exact .inl ⟨h0, by rw [hf]; exact zero_min _⟩
    · refine .inr ?_
      rcases le_total b.rx_first_pn p.pn with hle | hle
      · exact ⟨q, hq, hqg, by rw [hqpn, min_eq_left hle]⟩
      · exact ⟨p, hp, hg, by rw [min_eq_right hle]⟩
  | before hg =>
    have := h.prev _ hg
    exact ⟨h, by omega⟩
  | ahead hg | follow hg => exact ⟨h.advance hp hg rfl rfl rfl rfl, le_of_eq hg⟩

lemma Dir.of_sender {a a' b : End} {out back : List Packet} (h : Dir a b out back)
    (hnext : a'.next_pn = a.next_pn) (htx : a'.tx = a.tx) (hfirst : a'.tx_first_pn = a.tx_first_pn)
    (hacked : a'.tx_acked = true → a.tx_acked = true ∨ b.rx = a.tx) : Dir a' b out back where
  pn_lt := hnext ▸ h.pn_lt
  generation_le := htx ▸ h.generation_le
  phase := h.phase
  first := htx ▸ hfirst ▸ h.first
  first_le := hnext ▸ hfirst ▸ h.first_le
  ordered := h.ordered
  rx_le := htx ▸ h.rx_le
  tx_le := htx ▸ h.tx_le
  prev := h.prev
  rx_first := h.rx_first
  received := h.received
  acks := h.acks
  acked := fun ha => by
    rw [htx]
    exact (hacked ha).elim h.acked id

lemma Dir.nextTx {a b : End} {out back : List Packet} (h : Dir a b out back) (hrx : b.rx = a.tx)
    (phase : Bool) : Dir (a.nextTx phase) b out back where
  pn_lt := h.pn_lt
  generation_le := fun p hp => le_trans (h.generation_le p hp) (Nat.le_succ _)
  phase := h.phase
  first := fun p hp => by
    have h1 := h.generation_le p hp
    have h2 := h.pn_lt p hp
    simp only [End.nextTx]
    omega
  first_le := le_refl _
  ordered := h.ordered
  rx_le := le_trans h.rx_le (Nat.le_succ _)
  tx_le := by simp only [End.nextTx]; omega
  prev := h.prev
  rx_first := h.rx_first
  received := h.received
  acks := h.acks
  acked := fun hacked => absurd hacked (by simp [End.nextTx])

lemma Dir.opened_sender {a b e : End} {out back : List Packet} {p : Packet} (h : Dir a b out back)
    (hback : Dir b a back out) (hp : p ∈ out) (ha : Own a) (hb : Own b) (ho : End.Opened b p e) :
    Dir e a back out ∧ Own e ∧ (e.tx = b.tx ∨ e.tx = b.tx + 1) := by
  cases ho with
  | same hg hphase =>
    exact ⟨hback.of_sender rfl rfl rfl .inl, ⟨hb.tx_phase, hb.rx_phase, hb.tx_eq⟩, .inl rfl⟩
  | before hg => exact ⟨hback, hb, .inl rfl⟩
  | ahead hg htx =>
    have hphase := h.phase p hp
    rw [hg] at hphase
    refine ⟨hback.of_sender rfl rfl rfl .inl, ⟨hb.tx_phase, hphase, ?_⟩, .inl rfl⟩
    rw [hphase, hb.tx_phase, phaseOf_succ] at htx
    rcases hb.tx_eq with heq | heq
    · rw [heq] at htx
      simp at htx
    · exact .inl heq
  | follow hg htx =>
    have hphase := h.phase p hp
    rw [hg] at hphase
    have heq : b.tx = b.rx := by
      refine hb.tx_eq.resolve_right fun heq => htx ?_
      rw [hphase, hb.tx_phase, heq]
    have hrx : a.rx = b.tx := by
      have h1 := h.generation_le p hp
      have h2 := hback.rx_le
      have h3 := ha.tx_eq
      omega
    refine ⟨(hback.nextTx hrx p.phase).of_sender rfl rfl rfl .inl, ⟨?_, hphase, ?_⟩, .inr rfl⟩
    · dsimp only
      rw [hphase, heq]
    · dsimp only
      omega

lemma Dir.onAckFrame {a b : End} {out back : List Packet} {q : Packet} {n : ℕ}
    (h : Dir a b out back)
    (hq : q ∈ back) (hn : q.ack = some n) : Dir (a.onAckFrame n) b out back := by
  obtain ⟨p, hp, hpn, hg⟩ := h.acks q hq n hn
  rw [End.onAckFrame]
  dsimp only
  split_ifs with hnext hfirst
  · exact h.of_sender rfl rfl rfl .inl
  · refine h.of_sender rfl rfl rfl fun _ => .inr ?_
    have h1 := (h.first p hp).2 (by omega)
    have h2 := h.rx_le
    omega
  · exact h.of_sender rfl rfl rfl .inl

lemma Dir.of_receiver {a b b' : End} {out back : List Packet} (h : Dir a b out back)
    (hrx : b'.rx = b.rx) (hprev : ∀ k, b'.rx_prev = some k → b.rx_prev = some k)
    (hfirst : b'.rx_first_pn = b.rx_first_pn)
    (hreceived : ∀ n ∈ b'.received, n ∈ b.received ∨ ∃ p ∈ out, p.pn = n ∧ p.generation ≤ b.rx) :
    Dir a b' out back where
  pn_lt := h.pn_lt
  generation_le := h.generation_le
  phase := h.phase
  first := h.first
  first_le := h.first_le
  ordered := h.ordered
  rx_le := hrx ▸ h.rx_le
  tx_le := hrx ▸ h.tx_le
  prev := fun k hk => hrx ▸ h.prev k (hprev k hk)
  rx_first := hrx ▸ hfirst ▸ h.rx_first
  received := fun n hn => by
    rw [hrx]
    exact (hreceived n hn).elim (h.received n) id
  acks := hrx ▸ h.acks
  acked := hrx ▸ h.acked

namespace End

lemma onAckFrame_rx (e : End) (n : ℕ) : (e.onAckFrame n).rx = e.rx ∧
    (e.onAckFrame n).rx_prev = e.rx_prev ∧ (e.onAckFrame n).rx_first_pn = e.rx_first_pn ∧
    (e.onAckFrame n).received = e.received ∧ (e.onAckFrame n).rx_phase = e.rx_phase ∧
    (e.onAckFrame n).tx = e.tx ∧ (e.onAckFrame n).tx_phase = e.tx_phase := by
  rw [onAckFrame]
  dsimp only
  split_ifs <;> exact ⟨rfl, rfl, rfl, rfl, rfl, rfl, rfl⟩

end End

/-- Both directions, for an end `b` and the other end `a`. -/
structure Both (a b : End) (out back : List Packet) : Prop where
  forth : Dir a b out back
  back : Dir b a back out
  own : Own b

lemma Both.receive {a b : End} {out back : List Packet} {p : Packet} (h : Both a b out back)
    (ha : Own a) (hp : p ∈ out) :
    Both a (b.receive p) out back ∧ ((b.receive p).tx = b.tx ∨ (b.receive p).tx = b.tx + 1) := by
  rw [End.receive]
  split_ifs with hclosing
  · exact ⟨h, .inl rfl⟩
  split
  · exact ⟨h, .inl rfl⟩
  · rename_i pn e heq
    obtain ⟨rfl, ho⟩ := End.openOneRtt_eq_some heq
    obtain ⟨hforth, hgen⟩ := h.forth.opened hp ho
    obtain ⟨hback, hown, htx⟩ := h.forth.opened_sender h.back hp ha h.own ho
    dsimp only
    split_ifs with hseen hclosed
    · exact ⟨⟨hforth, hback, hown⟩, htx⟩
    all_goals
      -- the acknowledgment in it, and then its number
      have hacked : Both a (p.ack.elim e e.onAckFrame) out back ∧
          (p.ack.elim e e.onAckFrame).tx = e.tx ∧ (p.ack.elim e e.onAckFrame).rx = e.rx := by
        cases hack : p.ack with
        | none => exact ⟨⟨hforth, hback, hown⟩, rfl, rfl⟩
        | some n =>
          obtain ⟨h1, h2, h3, h4, h5, h6, h7⟩ := e.onAckFrame_rx n
          refine ⟨⟨hforth.of_receiver h1 (fun k hk => h2 ▸ hk) h3 fun m hm => .inl (h4 ▸ hm),
            hback.onAckFrame hp hack, ?_, ?_, ?_⟩, h6, h1⟩
          · simp only [elim_some]
            rw [h6, h7]
            exact hown.tx_phase
          · simp only [elim_some]
            rw [h1, h5]
            exact hown.rx_phase
          · simp only [elim_some]
            rw [h1, h6]
            exact hown.tx_eq
      obtain ⟨hboth, htx', hrx'⟩ := hacked
      rw [← htx'] at htx
    · exact ⟨hboth, htx⟩
    · refine ⟨⟨hboth.forth.of_receiver rfl (fun k hk => hk) rfl fun n hn => ?_,
        hboth.back.of_sender rfl rfl rfl .inl, hboth.own.1, hboth.own.2, hboth.own.3⟩, htx⟩
      rcases mem_cons.1 hn with rfl | hn
      · exact .inr ⟨p, hp, rfl, by rw [hrx']; exact hgen⟩
      · exact .inl hn

lemma Both.send {a b : End} {out back : List Packet} {ack : Option ℕ} (h : Both a b out back)
    (hack : ∀ n ∈ ack, n ∈ b.received) : Both a b.sent out (b.packet ack :: back) := by
  refine ⟨{ h.forth with acks := fun q hq n hn => ?_ }, ?_, h.own.1, h.own.2, h.own.3⟩
  · rcases mem_cons.1 hq with rfl | hq
    · exact h.forth.received n (hack n hn)
    · exact h.forth.acks q hq n hn
  · have hd := h.back
    refine
      { pn_lt := ?_
        generation_le := ?_
        phase := ?_
        first := ?_
        first_le := le_trans hd.first_le (Nat.le_succ _)
        ordered := ?_
        rx_le := hd.rx_le
        tx_le := hd.tx_le
        prev := hd.prev
        rx_first := ?_
        received := fun n hn => ?_
        acks := fun q hq n hn => ?_
        acked := hd.acked }
    · rw [forall_mem_cons]
      exact ⟨Nat.lt_succ_self _, fun p hp => Nat.lt_succ_of_lt (hd.pn_lt p hp)⟩
    · rw [forall_mem_cons]
      exact ⟨le_refl _, hd.generation_le⟩
    · rw [forall_mem_cons]
      exact ⟨h.own.tx_phase, hd.phase⟩
    · rw [forall_mem_cons]
      exact ⟨⟨fun _ => hd.first_le, fun _ => rfl⟩, hd.first⟩
    · intro p hp q hq hlt
      rcases mem_cons.1 hp with rfl | hp <;> rcases mem_cons.1 hq with rfl | hq
      · exact absurd hlt (lt_irrefl _)
      · exact absurd (hd.generation_le q hq) (not_le.2 hlt)
      · exact hd.pn_lt p hp
      · exact hd.ordered p hp q hq hlt
    · rcases hd.rx_first with h0 | ⟨p, hp, h1⟩
      · exact .inl h0
      · exact .inr ⟨p, mem_cons_of_mem _ hp, h1⟩
    · obtain ⟨p, hp, h1⟩ := hd.received n hn
      exact ⟨p, mem_cons_of_mem _ hp, h1⟩
    · obtain ⟨p, hp, h1⟩ := hd.acks q hq n hn
      exact ⟨p, mem_cons_of_mem _ hp, h1⟩

lemma Both.updateKeys {a b : End} {out back : List Packet} (h : Both a b out back) :
    Both a b.updateKeys out back ∧ (b.updateKeys.tx = b.tx ∨ b.updateKeys.tx = b.tx + 1) := by
  rw [End.updateKeys]
  split_ifs with h1 h2
  · exact ⟨h, .inl rfl⟩
  · exact ⟨h, .inl rfl⟩
  · rw [not_or, not_not, not_not] at h2
    have heq : b.tx = b.rx := by
      refine h.own.tx_eq.resolve_right fun heq => ?_
      have hphase := h2.2
      rw [h.own.rx_phase, h.own.tx_phase, heq, phaseOf_succ] at hphase
      simp at hphase
    refine ⟨⟨h.forth.of_receiver rfl (fun k hk => hk) rfl fun n hn => .inl hn,
      h.back.nextTx (h.back.acked h2.1) _, ?_, h.own.rx_phase, ?_⟩, .inr rfl⟩
    · simp only [End.nextTx]
      rw [h.own.tx_phase, phaseOf_succ]
    · simp only [End.nextTx]
      omega

/-! ### Runs -/

namespace World

structure Sound (w : World) : Prop where
  both : ∀ side : Side, Both (w.ends side.other) (w.ends side) (w.sent side.other) (w.sent side)
  updates : ∀ side, (w.updates side).Nodup ∧ ∀ g ∈ w.updates side, g ≤ (w.ends side).tx

@[simp] lemma other_other (side : Side) : side.other.other = side := by
  cases side <;> rfl

lemma other_ne (side : Side) : side.other ≠ side := by
  cases side <;> decide

lemma eq_or_eq_other (side s : Side) : s = side ∨ s = side.other := by
  cases side <;> cases s <;> simp [Side.other]

lemma sound_new : Sound new := by
  refine ⟨fun side => ⟨?_, ?_, rfl, rfl, .inl rfl⟩, fun side => by simp [new]⟩
  all_goals
    exact
      { pn_lt := by simp [new]
        generation_le := by simp [new]
        phase := by simp [new]
        first := by simp [new]
        first_le := le_refl _
        ordered := by simp [new]
        rx_le := le_refl _
        tx_le := Nat.le_succ _
        prev := by simp [new, End.new]
        rx_first := .inl ⟨rfl, rfl⟩
        received := by simp [new, End.new]
        acks := by simp [new]
        acked := by simp [new, End.new] }

variable {w w' : World}

lemma Sound.of_side (h : Sound w) {side : Side} {e : End} {sent : List Packet}
    (hboth : Both (w.ends side.other) e (w.sent side.other) sent)
    (htx : e.tx = (w.ends side).tx ∨ e.tx = (w.ends side).tx + 1)
    (hends : w'.ends = Function.update w.ends side e)
    (hsent : w'.sent = Function.update w.sent side sent)
    (hupdates : w'.updates = (w.put side e).updates) : Sound w' := by
  have hself : w'.ends side = e ∧ w'.sent side = sent := by
    rw [hends, hsent]
    exact ⟨Function.update_self .., Function.update_self ..⟩
  have hother : w'.ends side.other = w.ends side.other ∧ w'.sent side.other =
    w.sent side.other := by
    rw [hends, hsent]
    exact ⟨Function.update_of_ne (other_ne side) _ _, Function.update_of_ne (other_ne side) _ _⟩
  refine ⟨fun s => ?_, fun s => ?_⟩
  · rcases eq_or_eq_other side s with rfl | rfl
    · rw [hself.1, hself.2, hother.1, hother.2]
      exact hboth
    · rw [other_other, hself.1, hself.2, hother.1, hother.2]
      exact ⟨hboth.back, hboth.forth, (h.both side.other).own⟩
  · obtain ⟨hnodup, hle⟩ := h.updates s
    rcases eq_or_eq_other side s with rfl | rfl
    · rw [hupdates, hself.1, put]
      dsimp only
      rw [Function.update_self]
      split_ifs with heq
      · exact ⟨hnodup, fun g hg => by rw [heq]; exact hle g hg⟩
      · have hnew := htx.resolve_left heq
        refine ⟨nodup_cons.2 ⟨fun hmem => ?_, hnodup⟩, fun g hg => ?_⟩
        · have := hle _ hmem
          omega
        · rcases mem_cons.1 hg with rfl | hg
          · exact le_refl _
          · have := hle g hg
            omega
    · rw [hupdates, hother.1, put]
      dsimp only
      rw [Function.update_of_ne (other_ne side)]
      exact ⟨hnodup, hle⟩

lemma Sound.put (h : Sound w) {side : Side} {e : End}
    (hboth : Both (w.ends side.other) e (w.sent side.other) (w.sent side))
    (htx : e.tx = (w.ends side).tx ∨ e.tx = (w.ends side).tx + 1) : Sound (w.put side e) :=
  h.of_side hboth htx rfl (Function.update_eq_self side w.sent).symm rfl

lemma Sound.step (h : Sound w) {ev : Event} (hev : w.Allowed ev) (hstep : w.step ev = some w') :
    Sound w' := by
  cases ev with
  | update side =>
    cases hstep
    obtain ⟨hboth, htx⟩ := (h.both side).updateKeys
    exact h.put hboth htx
  | send side ack =>
    cases hstep
    exact h.of_side ((h.both side).send hev) (.inl rfl) rfl rfl rfl
  | deliver side p =>
    cases hstep
    obtain ⟨hboth, htx⟩ := (h.both side).receive (h.both side.other).own hev
    exact h.put hboth htx
  | drop side =>
    cases hstep
    obtain ⟨hforth, hback, hown⟩ := h.both side
    exact h.put ⟨hforth.of_receiver rfl (by simp) rfl fun n hn => .inl hn,
      hback.of_sender rfl rfl rfl .inl, hown.1, hown.2, hown.3⟩ (.inl rfl)
  | trim side n =>
    cases hstep
    obtain ⟨hforth, hback, hown⟩ := h.both side
    exact h.put ⟨hforth.of_receiver rfl (fun k hk => hk) rfl fun n hn =>
      .inl (mem_filter.1 hn).1, hback.of_sender rfl rfl rfl .inl, hown.1, hown.2, hown.3⟩
      (.inl rfl)
  | confirm side | close side =>
    cases hstep
    obtain ⟨hforth, hback, hown⟩ := h.both side
    exact h.put ⟨hforth.of_receiver rfl (fun k hk => hk) rfl fun n hn => .inl hn,
      hback.of_sender rfl rfl rfl .inl, hown.1, hown.2, hown.3⟩ (.inl rfl)

/-- In every run the ends stay in step, and every packet whose number is recovered opens if there
are keys for its generation. -/
theorem key_updates_in_step {events : List Event} (h : Run step Allowed new events w) :
    InStep w ∧ RecoveredOpen w := by
  have hsound : Sound w :=
    h.invariant (fun _ _ _ hw hev hstep => hw.step hev hstep) sound_new
  refine ⟨⟨fun side => ?_, fun side => ?_, fun side => ?_, fun side => (hsound.updates side).1⟩, ?_⟩
  · have hdir := (hsound.both side).back
    have h1 := hdir.rx_le
    have h2 := hdir.tx_le
    omega
  · exact ⟨(hsound.both side).own.tx_phase, (hsound.both side).own.rx_phase⟩
  · rcases (hsound.both side).back.rx_first with h0 | ⟨p, hp, hg, -⟩
    · exact .inl h0.1
    · exact .inr ⟨p, hp, hg⟩
  · intro side p hp hnumber hkeys
    exact End.openOneRtt_isSome (hsound.both side).back
      (hsound.both side.other).own hp hnumber hkeys

/-- The client updates its keys after a packet of its own was acknowledged, and the server
follows. -/
def oneUpdate : List Event :=
  [.confirm .client, .send .client none, .deliver .server ⟨0, 1, false, 0, none⟩,
   .send .server (some 0), .deliver .client ⟨0, 1, false, 0, some 0⟩, .update .client,
   .send .client none, .deliver .server ⟨1, 1, true, 1, none⟩]

theorem key_updates_in_step_one : ∃ w, Run step Allowed new oneUpdate w ∧
    (w.ends .server).rx = 1 ∧ (w.ends .server).tx = 1 ∧ (w.ends .client).rx = 0 ∧ InStep w ∧
    RecoveredOpen w := by
  have hgen : (Run.exec step Allowed new oneUpdate).map (fun w =>
      ((w.ends .server).rx, (w.ends .server).tx, (w.ends .client).rx)) = some (1, 1, 0) := by
    decide
  obtain ⟨w, hexec, hw⟩ := map_eq_some_iff.1 hgen
  rw [Prod.mk.injEq, Prod.mk.injEq] at hw
  have hrun := Run.of_exec hexec
  exact ⟨w, hrun, hw.1, hw.2.1, hw.2.2, key_updates_in_step hrun⟩

/-- The client sends 128 packets, and the last one arrives. -/
def lastFirst : List Event :=
  List.replicate 128 (.send .client none) ++ [.deliver .server ⟨127, 2, false, 0, none⟩]

/-- The first packet, which comes after that, is taken for the packet 256 and does not open. -/
theorem very_late_packet_does_not_open : ∃ w, Run step Allowed new lastFirst w ∧ ¬ AllOpen w := by
  have hlate : (Run.exec step Allowed new lastFirst).map (fun w =>
      decide (⟨0, 1, false, 0, none⟩ ∈ w.sent .client ∧ (w.ends .server).rx = 0 ∧
        ((w.ends .server).openOneRtt ⟨0, 1, false, 0, none⟩).isSome = false)) = some true := by
    decide +kernel
  obtain ⟨w, hexec, hall⟩ := map_eq_some_iff.1 hlate
  obtain ⟨h1, h2, h3⟩ := of_decide_eq_true hall
  refine ⟨w, Run.of_exec hexec, fun hopen => ?_⟩
  have := hopen .client _ h1 (.inl h2.symm)
  exact Bool.false_ne_true (h3.symm.trans this)

end World

end Lazaret.Quic.Keys
