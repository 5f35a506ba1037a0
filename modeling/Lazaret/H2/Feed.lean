import Lazaret.H2.Connection
import Lazaret.H2.HpackTotal
import Lazaret.Lib.Loop

/-!
# Feeding the server's bytes

How the bytes the server sent are cut into frames and handled (`Connection::run` and
`Connection::feed_direct`): frames that are whole where they are, the payload of a DATA frame that
is cut off as it comes, and the start of any other frame kept for the next call.
-/

namespace Lazaret.H2

open List

namespace Connection

/-- Where the loops of `run` and `feed_direct` are: the bytes still to handle. -/
structure Running where
  f : Feeding
  rest : Bytes

abbrev Ran := Running × Outcome ConnectionError Unit

/-- The payload of this DATA frame can be passed on before it is all here. -/
def streamable (c : Connection) (h : Header) : Bool :=
  h.kind == kind.DATA && !h.has flag.PADDED && h.stream != 0 && c.got_peer_settings &&
    c.block.isNone

/-- The frame may be the first one: SETTINGS that is no acknowledgement. -/
def isPreface (h : Header) : Bool := h.kind == kind.SETTINGS && !h.has flag.ACK

/-- Checks a frame that is all here and handles it. -/
def handleFrame (f : Feeding) (h : Header) (payload : Bytes) :
    Feeding × Outcome ConnectionError Unit :=
  match Frame.parse h payload with
  | .ok frame => handle f frame
  | .error ⟨code, none, reason⟩ => (f, .err (connectionError code reason))
  | .error ⟨code, some id, reason⟩ => ({ f with c := f.c.streamError id code reason }, .ok ())

/-- A turn of the loop of `run` at the header of a frame. -/
def turnFrame (s : Running) (h : Header) : Running ⊕ Ran :=
  if h.length > DEFAULT_MAX_FRAME_SIZE then
    .inr (s, .err (connectionError .FRAME_SIZE_ERROR
      "a frame larger than the frame size this endpoint allows"))
  else if s.rest.length < HEADER_LEN + h.length then
    if s.f.c.streamable h then
      match s.f.c.beginData h with
      | (c, .ok ()) => .inl ⟨{ s.f with c := c }, s.rest.drop HEADER_LEN⟩
      | (c, r) => .inr (⟨{ s.f with c := c }, s.rest.drop HEADER_LEN⟩, r)
    else .inr (s, .ok ())
  else if !s.f.c.got_peer_settings && !isPreface h then
    .inr (s, .err (connectionError .PROTOCOL_ERROR "the server's first frame is not SETTINGS"))
  else
    match handleFrame s.f h ((s.rest.drop HEADER_LEN).take h.length) with
    | (f, .ok ()) => .inl ⟨f, s.rest.drop (HEADER_LEN + h.length)⟩
    | (f, r) => .inr (⟨f, s.rest.drop (HEADER_LEN + h.length)⟩, r)

/-- One turn of the loop of `run`. -/
def turn (s : Running) : Running ⊕ Ran :=
  match s.f.c.incoming with
  | some _ =>
    let (f, n) := passOn s.f s.rest
    -- all of the rest went to it
    if f.c.incoming.isSome then .inr (⟨f, s.rest.drop n⟩, .ok ())
    else .inl ⟨f, s.rest.drop n⟩
  | none =>
    if s.rest.length < HEADER_LEN then .inr (s, .ok ())
    else turnFrame s (Header.parse (s.rest.take HEADER_LEN))

/-- What is left to do: two for each byte, and one for a frame that is arriving. -/
def Running.left (s : Running) : ℕ := 2 * s.rest.length + if s.f.c.incoming.isSome then 1 else 0

lemma turnFrame_cases (s : Running) (h : Header) :
    (∃ r, turnFrame s h = .inr (s, r)) ∨
      (∃ f, turnFrame s h = .inl ⟨f, s.rest.drop HEADER_LEN⟩) ∨
      (∃ f r, turnFrame s h = .inr (⟨f, s.rest.drop HEADER_LEN⟩, r)) ∨
      (∃ f, turnFrame s h = .inl ⟨f, s.rest.drop (HEADER_LEN + h.length)⟩) ∨
      ∃ f r, turnFrame s h = .inr (⟨f, s.rest.drop (HEADER_LEN + h.length)⟩, r) := by
  rw [turnFrame]
  split_ifs
  · exact .inl ⟨_, rfl⟩
  · split
    · exact .inr (.inl ⟨_, rfl⟩)
    · exact .inr (.inr (.inl ⟨_, _, rfl⟩))
  · exact .inl ⟨_, rfl⟩
  · exact .inl ⟨_, rfl⟩
  · split
    · exact .inr (.inr (.inr (.inl ⟨_, rfl⟩)))
    · exact .inr (.inr (.inr (.inr ⟨_, _, rfl⟩)))

lemma left_lt_of_turn {s s' : Running} (h : turn s = .inl s') : s'.left < s.left := by
  rw [turn] at h
  split at h
  · rename_i i hi
    dsimp only at h
    split_ifs at h with hsome
    cases h
    simp only [Running.left, hsome, hi, Option.isSome_some, if_true, Bool.false_eq_true, if_false,
      length_drop]
    omega
  · split_ifs at h with hshort
    rw [HEADER_LEN] at hshort
    have hdrop : ∀ f n, HEADER_LEN ≤ n → (⟨f, s.rest.drop n⟩ : Running).left < s.left := by
      intro f n hn
      rw [HEADER_LEN] at hn
      simp only [Running.left, length_drop]
      split_ifs <;> omega
    rcases turnFrame_cases s (Header.parse (s.rest.take HEADER_LEN)) with
      ⟨r, he⟩ | ⟨f, he⟩ | ⟨f, r, he⟩ | ⟨f, he⟩ | ⟨f, r, he⟩
    all_goals
      rw [he] at h
      cases h
    · exact hdrop f _ le_rfl
    · exact hdrop f _ (Nat.le_add_right _ _)

def runLoop : Loop Running Ran where
  turn := turn
  measure := Running.left
  progress := fun _ _ => left_lt_of_turn

/-- Handles the complete frames at the start of `buf`, and passes on the payload of a DATA frame
that is cut off at its end.  What is not used is left. -/
def run (f : Feeding) (buf : Bytes) : Ran := runLoop.run ⟨f, buf⟩

lemma rest_le_of_turn {s : Running} :
    (∀ s', turn s = .inl s' → s'.rest.length ≤ s.rest.length) ∧
      ∀ r, turn s = .inr r → r.1.rest.length ≤ s.rest.length := by
  have hdrop : ∀ n, (s.rest.drop n).length ≤ s.rest.length := by
    intro n
    rw [length_drop]
    omega
  rw [turn]
  split
  · dsimp only
    split_ifs
    · exact ⟨by simp, fun r h => by cases h; exact hdrop _⟩
    · exact ⟨fun s' h => by cases h; exact hdrop _, by simp⟩
  · split_ifs
    · exact ⟨by simp, fun r h => by cases h; exact le_rfl⟩
    · rcases turnFrame_cases s (Header.parse (s.rest.take HEADER_LEN)) with
        ⟨r, he⟩ | ⟨f, he⟩ | ⟨f, r, he⟩ | ⟨f, he⟩ | ⟨f, r, he⟩
      all_goals
        rw [he]
        refine ⟨fun s' h => ?_, fun r h => ?_⟩ <;> cases h
      · exact le_rfl
      all_goals exact hdrop _

lemma rest_run_le (f : Feeding) (buf : Bytes) : (run f buf).1.rest.length ≤ buf.length :=
  Loop.rule (l := runLoop) (fun s => s.rest.length ≤ buf.length)
    (fun r => r.1.rest.length ≤ buf.length)
    (fun _ s' hs h => (rest_le_of_turn.1 s' h).trans hs)
    (fun _ r hs h => (rest_le_of_turn.2 r h).trans hs) le_rfl

/-- How many bytes the frame at the start of `inbound` still lacks: of its header, or of the frame
as a whole. -/
def inboundLacks (c : Connection) : ℕ :=
  if c.inbound.length < HEADER_LEN then HEADER_LEN - c.inbound.length
  else
    let h := Header.parse (c.inbound.take HEADER_LEN)
    HEADER_LEN + min h.length DEFAULT_MAX_FRAME_SIZE - c.inbound.length

def keepInbound (f : Feeding) (bytes : Bytes) : Feeding :=
  { f with c := { f.c with inbound := bytes } }

def finished (f : Feeding) (r : Outcome ConnectionError Unit) :
    Feeding × Outcome ConnectionError Unit :=
  ({ f with c := f.c.finish r }, r)

/-- One turn of the loop of `feed_direct`: what was kept is finished with the bytes it lacks; with
nothing kept the bytes are handled where they are. -/
def feedTurn (s : Running) : Running ⊕ (Feeding × Outcome ConnectionError Unit) :=
  if s.f.c.inbound = [] then
    match run s.f s.rest with
    | (⟨f, rest⟩, .ok ()) => .inr (keepInbound f rest, .ok ())
    | (⟨f, _⟩, r) => .inr (finished f r)
  else
    let need := s.f.c.inboundLacks
    let take := min need s.rest.length
    let buf := s.f.c.inbound ++ s.rest.take take
    match run (keepInbound s.f []) buf with
    | (⟨f, rest⟩, .ok ()) =>
      if take < need ∨ (take = 0 ∧ rest.length = buf.length) then .inr (keepInbound f rest, .ok ())
      else .inl ⟨keepInbound f rest, s.rest.drop take⟩
    | (⟨f, rest⟩, r) => .inr (finished (keepInbound f rest) r)

/-- What is left to do for `feed_direct`. -/
def Running.toFeed (s : Running) : ℕ := 2 * s.rest.length + s.f.c.inbound.length

lemma toFeed_lt_of_feedTurn {s s' : Running} (h : feedTurn s = .inl s') : s'.toFeed < s.toFeed := by
  rw [feedTurn] at h
  split_ifs at h with hin
  · split at h <;> cases h
  · dsimp only at h
    have hle := rest_run_le (keepInbound s.f [])
      (s.f.c.inbound ++ s.rest.take (min s.f.c.inboundLacks s.rest.length))
    split at h
    · rename_i f rest hrun
      rw [hrun] at hle
      dsimp only at hle
      split_ifs at h with hstop
      cases h
      rw [length_append, length_take] at hle hstop
      simp only [Running.toFeed, keepInbound, length_drop]
      omega
    · cases h

/-- The loop of `feed_direct`. -/
def feedLoop : Loop Running (Feeding × Outcome ConnectionError Unit) where
  turn := feedTurn
  measure := Running.toFeed
  progress := fun _ _ => toFeed_lt_of_feedTurn

def process (f : Feeding) : Feeding × Outcome ConnectionError Unit :=
  match f.c.error with
  | some e => (f, .err e)
  | none =>
    match run ⟨{ f.c with inbound := [] }, none⟩ f.c.inbound with
    | (⟨f', rest⟩, r) => finished ⟨{ f'.c with inbound := rest }, f.direct⟩ r

/-- Takes bytes the peer sent and handles every complete frame in them, and in what was left
before; the body of the stream of `direct` is written into its buffer. -/
def feedDirect (c : Connection) (data : Bytes) (direct : Option Direct) :
    Feeding × Outcome ConnectionError Unit :=
  match c.error with
  | some e => (⟨c, direct⟩, .err e)
  | none =>
    -- (only the tests of the source make this happen)
    if c.incoming.isSome ∧ c.inbound ≠ [] then
      process ⟨{ c with inbound := c.inbound ++ data }, direct⟩
    else feedLoop.run ⟨⟨c, direct⟩, data⟩

end Connection

end Lazaret.H2
