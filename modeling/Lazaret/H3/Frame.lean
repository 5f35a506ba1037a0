import Lazaret.Lib.Loop
import Mathlib.Data.Nat.Log

/-!
# HTTP/3 frames

The reader of HTTP/3 frames (`pratique/src/http/h3/frame.rs`): it takes the bytes of a stream in any
pieces and says which frames they hold.  The bytes of a DATA frame are not copied; they are said as
ranges of the piece they are in.
-/

namespace Lazaret.H3

/-! ### Variable-length integers (`quic/wire.rs`) -/

/-- How many bytes an integer has, by its first byte. -/
def varintLen (first : UInt8) : ℕ := 1 <<< (first.toNat >>> 6)

/-- An integer at the start of `buf`: its value and how many bytes it took. -/
def getVarint (buf : List UInt8) : Option (ℕ × ℕ) :=
  match buf with
  | [] => none
  | first :: rest =>
    if buf.length < varintLen first then none
    else
      let v := (rest.take (varintLen first - 1)).foldl (fun v b => v <<< 8 ||| b.toNat)
        (first.toNat &&& 0x3f)
      some (v, varintLen first)

lemma varintLen_pos (first : UInt8) : 0 < varintLen first := by
  rw [varintLen, Nat.one_shiftLeft]
  exact Nat.two_pow_pos _

lemma getVarint_pos {buf : List UInt8} {v n : ℕ} (h : getVarint buf = some (v, n)) :
    0 < n ∧ n ≤ buf.length := by
  cases buf with
  | nil => cases h
  | cons first rest =>
    rw [getVarint] at h
    split_ifs at h with hlen
    cases h
    exact ⟨varintLen_pos first, not_lt.1 hlen⟩

/-! ### What is said -/

namespace ty

def DATA : ℕ := 0x00
def HEADERS : ℕ := 0x01
def CANCEL_PUSH : ℕ := 0x03
def SETTINGS : ℕ := 0x04
def PUSH_PROMISE : ℕ := 0x05
def GOAWAY : ℕ := 0x07
def MAX_PUSH_ID : ℕ := 0x0d

def isHttp2Reserved (t : ℕ) : Bool := t = 0x02 ∨ t = 0x06 ∨ t = 0x08 ∨ t = 0x09

end ty

namespace code

def H3_INTERNAL_ERROR : ℕ := 0x102
def H3_FRAME_UNEXPECTED : ℕ := 0x105
def H3_FRAME_ERROR : ℕ := 0x106
def H3_EXCESSIVE_LOAD : ℕ := 0x107
def H3_ID_ERROR : ℕ := 0x108
def H3_MISSING_SETTINGS : ℕ := 0x10a

end code

inductive FrameError
  | connection (code : ℕ) (reason : String)
  | headersTooLarge
deriving DecidableEq

inductive Kind
  | request
  | control
deriving DecidableEq

inductive Event
  | data (start stop : ℕ)
  | headers (section_ : List UInt8)
  | settings (pairs : List (ℕ × ℕ))
  | goAway (id : ℕ)
  | cancelPush (id : ℕ)
deriving DecidableEq

inductive Kept
  | headers
  | settings
  | goAway
  | cancelPush
deriving DecidableEq

/-! ### The reader -/

/-- The bytes of an integer that is not all here yet. -/
abbrev Partial := List UInt8

inductive State
  | type (p : Partial)
  | length (t : ℕ) (p : Partial)
  | data (remaining : ℕ)
  | whole (t : Kept) (remaining : ℕ) (buf : List UInt8)
  | skip (remaining : ℕ)
  | failed
deriving DecidableEq

structure FrameReader where
  kind : Kind
  state : State
  max_headers : ℕ
  settings_seen : Bool
  started : Bool
deriving DecidableEq

/-- No frame that is kept whole besides HEADERS is longer than this. -/
def MAX_WHOLE : ℕ := 16 <<< 10

namespace FrameReader

def new (kind : Kind) (max_headers : ℕ) : FrameReader := ⟨kind, .type [], max_headers, false, false⟩

def atFrameBoundary (r : FrameReader) : Bool := r.state = .type []

end FrameReader

/-- What `take` leaves: the integer if it is whole, the bytes of it, and the position. -/
structure Taken where
  value : Option ℕ
  bytes : Partial
  pos : ℕ

/-- The loop of `take`: the bytes of an integer, as far as there are. -/
def fill (input : List UInt8) (need : ℕ) (p : Partial) (pos : ℕ) : Partial × ℕ :=
  if p.length < need then
    match input[pos]? with
    | some b => fill input need (p ++ [b]) (pos + 1)
    | none => (p, pos)
  else (p, pos)
termination_by need - p.length
decreasing_by
  rw [List.length_append]
  simp only [List.length_singleton]
  omega

def takeFrom (input : List UInt8) (first : UInt8) (p : Partial) (pos : ℕ) : Taken :=
  let (bytes, pos) := fill input (varintLen first) p pos
  if bytes.length < varintLen first then ⟨none, bytes, pos⟩
  -- the bytes are a whole integer, which is what the source expects of them here
  else ⟨(getVarint (bytes.take (varintLen first))).map Prod.fst, [], pos⟩

/-- Takes bytes of `input` from `pos` on until the integer is whole. -/
def Partial.take (p : Partial) (input : List UInt8) (pos : ℕ) : Taken :=
  match p with
  | first :: _ => takeFrom input first p pos
  | [] =>
    match input[pos]? with
    | none => ⟨none, p, pos⟩
    | some first => takeFrom input first [first] (pos + 1)

section Checks

variable (r : FrameReader)

def checkType (t : ℕ) : Except FrameError Unit :=
  if ty.isHttp2Reserved t then
    .error (.connection code.H3_FRAME_UNEXPECTED "a frame type of HTTP/2 that HTTP/3 does not have")
  else
    match r.kind with
    | .request =>
      if t = ty.DATA ∨ t = ty.HEADERS then .ok ()
      else if t = ty.PUSH_PROMISE then
        .error (.connection code.H3_ID_ERROR "a push promise, when no push was allowed")
      else if t = ty.SETTINGS ∨ t = ty.GOAWAY ∨ t = ty.CANCEL_PUSH ∨ t = ty.MAX_PUSH_ID then
        .error (.connection code.H3_FRAME_UNEXPECTED
          "a frame of the control stream on a request stream")
      else .ok ()
    | .control =>
      if r.started = false ∧ t ≠ ty.SETTINGS then
        .error (.connection code.H3_MISSING_SETTINGS
          "the control stream does not begin with SETTINGS")
      else if t = ty.SETTINGS ∧ r.settings_seen then
        .error (.connection code.H3_FRAME_UNEXPECTED "a second SETTINGS frame")
      else if t = ty.DATA ∨ t = ty.HEADERS ∨ t = ty.PUSH_PROMISE then
        .error (.connection code.H3_FRAME_UNEXPECTED
          "a frame of a request stream on the control stream")
      else if t = ty.MAX_PUSH_ID then
        .error (.connection code.H3_FRAME_UNEXPECTED "MAX_PUSH_ID sent to a client")
      else .ok ()

def beginFrame (t len : ℕ) : Except FrameError State :=
  let kept (k : Kept) : Except FrameError State :=
    if len > MAX_WHOLE then
      .error (.connection code.H3_EXCESSIVE_LOAD "a control frame that is too long")
    else .ok (.whole k len [])
  if t = ty.DATA then if len = 0 then .ok (.type []) else .ok (.data len)
  else if t = ty.HEADERS then
    if len > r.max_headers then .error .headersTooLarge else .ok (.whole .headers len [])
  else if t = ty.SETTINGS then kept .settings
  else if t = ty.GOAWAY then kept .goAway
  else if t = ty.CANCEL_PUSH then kept .cancelPush
  else .ok (.skip len)

end Checks

def readPairs (payload : List UInt8) : Except FrameError (List (ℕ × ℕ)) :=
  let cut : FrameError :=
    .connection code.H3_FRAME_ERROR "a SETTINGS frame that ends inside a setting"
  if payload = [] then .ok []
  else
    match _hid : getVarint payload with
    | none => .error cut
    | some (id, n) =>
      match getVarint (payload.drop n) with
      | none => .error cut
      | some (value, m) => do
        let pairs ← readPairs (payload.drop (n + m))
        .ok ((id, value) :: pairs)
termination_by payload.length
decreasing_by
  have := getVarint_pos _hid
  rw [List.length_drop]
  omega

def complete (t : Kept) (payload : List UInt8) : Except FrameError Event :=
  let one (event : ℕ → Event) : Except FrameError Event :=
    match getVarint payload with
    | none => .error (.connection code.H3_FRAME_ERROR
        "a frame that should hold one integer and does not")
    | some (v, n) =>
      if n ≠ payload.length then
        .error (.connection code.H3_FRAME_ERROR
          "a frame that should hold one integer and holds more")
      else .ok (event v)
  match t with
  | .headers => .ok (.headers payload)
  | .settings => do
    let pairs ← readPairs payload
    .ok (.settings pairs)
  | .goAway => one .goAway
  | .cancelPush => one .cancelPush

/-- What a call of `feed` leaves: the error if any, the reader, how far it read, and what it
said. -/
structure Fed where
  error : Option FrameError
  reader : FrameReader
  pos : ℕ
  out : List Event
deriving DecidableEq

/-- Inside `feed`: the reader, the position and what was said. -/
structure Feeding where
  reader : FrameReader
  pos : ℕ
  out : List Event

/-- One turn of the loop of `feed`. -/
def turn (input : List UInt8) (s : Feeding) : Feeding ⊕ Fed :=
  let r := s.reader
  let next (state : State) (pos : ℕ) (out : List Event) : Feeding ⊕ Fed :=
    .inl ⟨{ r with state }, pos, out⟩
  let stop (error : Option FrameError) (state : State) (pos : ℕ) : Feeding ⊕ Fed :=
    .inr ⟨error, { r with state }, pos, s.out⟩
  match r.state with
  | .failed =>
    stop (some (.connection code.H3_INTERNAL_ERROR "the stream is not read after an error")) .failed
      s.pos
  | .type p =>
    match p.take input s.pos with
    | ⟨none, bytes, pos⟩ => stop none (.type bytes) pos
    | ⟨some t, _, pos⟩ =>
      match checkType r t with
      | .error e => stop (some e) .failed pos
      | .ok () => .inl ⟨{ r with started := true, state := .length t [] }, pos, s.out⟩
  | .length t p =>
    match p.take input s.pos with
    | ⟨none, bytes, pos⟩ => stop none (.length t bytes) pos
    | ⟨some len, _, pos⟩ =>
      match beginFrame r t len with
      | .error e => stop (some e) .failed pos
      | .ok state => next state pos s.out
  | .data remaining =>
    if s.pos ≥ input.length then stop none (.data remaining) s.pos
    else
      let n := min remaining (input.length - s.pos)
      next (if remaining - n = 0 then .type [] else .data (remaining - n)) (s.pos + n)
        (s.out ++ [.data s.pos (s.pos + n)])
  | .skip remaining =>
    let n := min remaining (input.length - s.pos)
    if remaining - n = 0 then next (.type []) (s.pos + n) s.out
    else stop none (.skip (remaining - n)) (s.pos + n)
  | .whole t remaining buf =>
    let n := min remaining (input.length - s.pos)
    let buf := buf ++ (input.drop s.pos).take n
    if remaining - n > 0 then stop none (.whole t (remaining - n) buf) (s.pos + n)
    else
      -- `complete` notes the SETTINGS before it looks at them
      let r := { r with settings_seen := r.settings_seen ∨ t = Kept.settings }
      match complete t buf with
      | .error e => .inr ⟨some e, { r with state := .failed }, s.pos + n, s.out⟩
      | .ok event => .inl ⟨{ r with state := .type [] }, s.pos + n, s.out ++ [event]⟩

/-! ### Every turn makes progress -/

lemma fill_le (input : List UInt8) (need : ℕ) (p : Partial) (pos : ℕ) :
    pos ≤ (fill input need p pos).2 := by
  induction hm : need - p.length using Nat.strong_induction_on generalizing p pos with
  | _ m ih =>
    rw [fill]
    split_ifs with hlt
    · cases input[pos]? with
      | none => exact le_rfl
      | some b =>
        have hlen : need - (p ++ [b]).length < m := by
          rw [List.length_append, List.length_singleton]
          omega
        exact (Nat.le_succ pos).trans (ih _ hlen (p ++ [b]) (pos + 1) rfl)
    · exact le_rfl

lemma takeFrom_le (input : List UInt8) (first : UInt8) (p : Partial) (pos : ℕ) :
    pos ≤ (takeFrom input first p pos).pos := by
  have hle := fill_le input (varintLen first) p pos
  rw [takeFrom]
  dsimp only
  split_ifs
  · exact hle
  · exact hle

lemma take_le (p : Partial) (input : List UInt8) (pos : ℕ) : pos ≤ (p.take input pos).pos := by
  cases p with
  | cons first rest => exact takeFrom_le _ _ _ _
  | nil =>
    rw [Partial.take]
    cases input[pos]? with
    | none => exact le_rfl
    | some first => exact (Nat.le_succ pos).trans (takeFrom_le _ _ _ _)

lemma take_nil_lt {input : List UInt8} {pos v : ℕ}
    (h : (Partial.take [] input pos).value = some v) :
    pos < input.length ∧ pos < (Partial.take [] input pos).pos := by
  rw [Partial.take] at h ⊢
  cases hget : input[pos]? with
  | none =>
    rw [hget] at h
    cases h
  | some first =>
    exact ⟨(List.getElem?_eq_some_iff.1 hget).1, takeFrom_le input first [first] (pos + 1)⟩

/-- A state that may be left without a byte of the input. -/
def State.rank : State → ℕ
  | .type p => if p = [] then 0 else 1
  | .length _ p => if p = [] then 0 else 2
  | .data _ | .skip _ | .whole .. => 1
  | .failed => 0

/-- What is left to read, and the turns that read nothing. -/
def Feeding.measure (input : List UInt8) (s : Feeding) : ℕ :=
  3 * (input.length - s.pos) + s.reader.state.rank

lemma take_progress {input : List UInt8} {p : Partial} {pos v : ℕ} {bytes : Partial} {pos' : ℕ}
    (h : p.take input pos = ⟨some v, bytes, pos'⟩) :
    pos ≤ pos' ∧ (p = [] → pos < input.length ∧ pos < pos') := by
  have hle := take_le p input pos
  rw [h] at hle
  refine ⟨hle, ?_⟩
  rintro rfl
  have hvalue : (Partial.take [] input pos).value = some v := by rw [h]
  have hlt := take_nil_lt hvalue
  rw [h] at hlt
  exact hlt

lemma rank_beginFrame {r : FrameReader} {t len : ℕ} {state : State}
    (h : beginFrame r t len = .ok state) : state.rank ≤ 1 := by
  simp only [beginFrame] at h
  split_ifs at h <;> cases h <;> simp [State.rank]

lemma turn_progress (input : List UInt8) (s s' : Feeding) (h : turn input s = .inl s') :
    s'.measure input < s.measure input := by
  obtain ⟨⟨_, state, _, _, _⟩, pos, out⟩ := s
  rw [Feeding.measure, Feeding.measure]
  cases state <;> dsimp only [turn] at h ⊢
  case failed => cases h
  case type p =>
    split at h
    · cases h
    · rename_i t bytes pos' htake
      obtain ⟨hle, hnil⟩ := take_progress htake
      split at h
      · cases h
      · cases h
        by_cases hp : p = []
        · have := hnil hp
          simp only [State.rank, if_pos]
          omega
        · simp only [State.rank, if_pos, if_neg hp]
          omega
  case length t p =>
    split at h
    · cases h
    · rename_i len bytes pos' htake
      obtain ⟨hle, hnil⟩ := take_progress htake
      split at h
      · cases h
      · rename_i state hbegin
        have hrank := rank_beginFrame hbegin
        cases h
        dsimp only
        by_cases hp : p = []
        · have := hnil hp
          have hzero : (State.length t p).rank = 0 := by rw [State.rank, if_pos hp]
          omega
        · have hone : (State.length t p).rank = 2 := by rw [State.rank, if_neg hp]
          omega
  case data remaining =>
    split_ifs at h with hpos hzero
    · cases h
      simp only [State.rank, if_pos]
      omega
    · cases h
      simp only [State.rank]
      omega
  case skip remaining =>
    split_ifs at h with hzero
    · cases h
      simp only [State.rank, if_pos]
      omega
  case whole t remaining buf =>
    split_ifs at h with hzero
    split at h
    · cases h
    · cases h
      simp only [State.rank, if_pos]
      omega

def feedLoop (input : List UInt8) : Loop Feeding Fed where
  turn := turn input
  measure := Feeding.measure input
  progress := turn_progress input

/-- Takes in `input`. -/
def FrameReader.feed (r : FrameReader) (input : List UInt8) : Fed := (feedLoop input).run ⟨r, 0, []⟩

end Lazaret.H3
