import Lazaret.H3.Frame

/-!
# Frames in pieces

What the reader says does not depend on how the bytes are cut.  `read` is the reader over all the
bytes at once: it keeps no position, and the DATA of one frame after the other is said as one.  A
call of `feed` does what `read` does with the piece (`feed_eq_read`), and `read` of two pieces is
`read` of both.
-/

namespace Lazaret.H3

open List

/-! ### What is said, as bytes -/

inductive Said
  | data (bytes : List UInt8)
  | whole (event : Event)
deriving DecidableEq

def denote (input : List UInt8) : Event → Said
  | .data start stop => .data ((input.drop start).take (stop - start))
  | event => .whole event

/-- One more thing said: DATA goes on with the DATA before it. -/
def say (said : List Said) (e : Said) : List Said :=
  match said.getLast?, e with
  | some (.data a), .data b => said.dropLast ++ [.data (a ++ b)]
  | _, e => said ++ [e]

def joined (said : List Said) : List Said := said.foldl say []

lemma joined_concat (said : List Said) (e : Said) : joined (said ++ [e]) = say (joined said) e := by
  rw [joined, foldl_append]
  rfl

lemma say_data (said : List Said) (a b : List UInt8) :
    say (said ++ [.data a]) (.data b) = said ++ [.data (a ++ b)] := by
  simp [say]

lemma say_after_whole (said : List Said) (event : Event) (b : List UInt8) :
    say (said ++ [.whole event]) (.data b) = said ++ [.whole event] ++ [.data b] := by
  simp [say]

lemma say_say (said : List Said) (a b : List UInt8) :
    say (say said (.data a)) (.data b) = say said (.data (a ++ b)) := by
  rcases eq_nil_or_concat' said with rfl | ⟨said, last, rfl⟩
  · exact say_data [] a b
  · cases last with
    | data c => rw [say_data, say_data, say_data, append_assoc]
    | whole event => rw [say_after_whole, say_after_whole, say_data]

/-! ### All the bytes at once -/

/-- The reader, the bytes to come and what was said. -/
structure Reads where
  reader : FrameReader
  rest : List UInt8
  said : List Said

structure Heard where
  error : Option FrameError
  reader : FrameReader
  said : List Said

/-- One turn of `feed`, without positions. -/
def readTurn (s : Reads) : Reads ⊕ Heard :=
  let r := s.reader
  let stop (error : Option FrameError) (state : State) : Reads ⊕ Heard :=
    .inr ⟨error, { r with state }, s.said⟩
  match r.state with
  | .failed =>
    stop (some (.connection code.H3_INTERNAL_ERROR "the stream is not read after an error")) .failed
  | .type p =>
    match getVarint (p ++ s.rest) with
    | none => stop none (.type (p ++ s.rest))
    | some (t, n) =>
      match checkType r t with
      | .error e => stop (some e) .failed
      | .ok () =>
        .inl ⟨{ r with started := true, state := .length t [] }, (p ++ s.rest).drop n, s.said⟩
  | .length t p =>
    match getVarint (p ++ s.rest) with
    | none => stop none (.length t (p ++ s.rest))
    | some (len, n) =>
      match beginFrame r t len with
      | .error e => stop (some e) .failed
      | .ok state => .inl ⟨{ r with state }, (p ++ s.rest).drop n, s.said⟩
  | .data remaining =>
    if s.rest = [] then stop none (.data remaining)
    else
      let left := remaining - s.rest.length
      .inl ⟨{ r with state := if left = 0 then .type [] else .data left }, s.rest.drop remaining,
        say s.said (.data (s.rest.take remaining))⟩
  | .skip remaining =>
    let left := remaining - s.rest.length
    if left = 0 then .inl ⟨{ r with state := .type [] }, s.rest.drop remaining, s.said⟩
    else stop none (.skip left)
  | .whole t remaining buf =>
    let left := remaining - s.rest.length
    if left > 0 then stop none (.whole t left (buf ++ s.rest.take remaining))
    else
      let r := { r with settings_seen := r.settings_seen ∨ t = Kept.settings }
      match complete t (buf ++ s.rest.take remaining) with
      | .error e => .inr ⟨some e, { r with state := .failed }, s.said⟩
      | .ok event => .inl ⟨{ r with state := .type [] }, s.rest.drop remaining,
          say s.said (.whole event)⟩

def State.pending : State → Partial
  | .type p | .length _ p => p
  | _ => []

def State.payload : State → ℕ
  | .data _ | .skip _ | .whole .. => 1
  | _ => 0

def Reads.measure (s : Reads) : ℕ :=
  2 * (s.reader.state.pending.length + s.rest.length) + s.reader.state.payload

variable {r : FrameReader}

lemma pending_beginFrame {t len : ℕ} {state : State}
    (h : beginFrame r t len = .ok state) : state.pending = [] ∧ state.payload ≤ 1 := by
  simp only [beginFrame] at h
  split_ifs at h <;> cases h <;> simp [State.pending, State.payload]

lemma readTurn_progress (s s' : Reads) (h : readTurn s = .inl s') : s'.measure < s.measure := by
  obtain ⟨⟨_, state, _, _, _⟩, rest, said⟩ := s
  rw [Reads.measure, Reads.measure]
  cases state <;> dsimp only [readTurn] at h ⊢
  case failed => cases h
  case type p =>
    split at h
    · cases h
    · rename_i t n hget
      have hpos := getVarint_pos hget
      split at h
      · cases h
      · cases h
        rw [length_append] at hpos
        simp only [State.pending, State.payload, length_nil, length_drop, length_append]
        omega
  case length t p =>
    split at h
    · cases h
    · rename_i len n hget
      have hpos := getVarint_pos hget
      split at h
      · cases h
      · rename_i state hbegin
        obtain ⟨hpending, hpayload⟩ := pending_beginFrame hbegin
        cases h
        rw [length_append] at hpos
        dsimp only
        rw [hpending]
        have hone : (State.length t p).pending = p := rfl
        have hzero : (State.length t p).payload = 0 := rfl
        rw [hone, hzero, length_nil, length_drop, length_append]
        omega
  case data remaining =>
    split_ifs at h with hrest hzero
    · cases h
      simp only [State.pending, State.payload, length_nil, length_drop]
      omega
    · cases h
      have hpos := length_pos_of_ne_nil hrest
      simp only [State.pending, State.payload, length_nil, length_drop]
      omega
  case skip remaining =>
    split_ifs at h with hzero
    · cases h
      simp only [State.pending, State.payload, length_nil, length_drop]
      omega
  case whole t remaining buf =>
    split_ifs at h with hzero
    split at h
    · cases h
    · cases h
      simp only [State.pending, State.payload, length_nil, length_drop]
      omega

def readLoop : Loop Reads Heard := ⟨readTurn, Reads.measure, readTurn_progress⟩

def read (r : FrameReader) (bytes : List UInt8) (said : List Said) : Heard :=
  readLoop.run ⟨r, bytes, said⟩

/-! ### Two pieces -/

variable {n v : ℕ}

lemma getVarint_append {buf more : List UInt8} (h : getVarint buf = some (v, n)) :
    getVarint (buf ++ more) = some (v, n) := by
  cases buf with
  | nil => cases h
  | cons first rest =>
    rw [cons_append]
    rw [getVarint] at h ⊢
    split_ifs at h with hlen
    cases h
    rw [length_cons] at hlen
    rw [if_neg (by rw [length_cons, length_append]; omega), take_append_of_le_length (by omega)]

/-- More bytes after a turn: one that goes on goes on as before, but for DATA of which more is to
come; an error stays; and where the bytes ended the reader goes on from what it kept. -/
lemma readTurn_append (s : Reads) (more : List UInt8)
    (hdata : ∀ n, s.reader.state = .data n → n ≤ s.rest.length ∨ s.rest = []) :
    readTurn { s with rest := s.rest ++ more } =
      match readTurn s with
      | .inl s' => .inl { s' with rest := s'.rest ++ more }
      | .inr ⟨none, r, said⟩ => readTurn ⟨r, more, said⟩
      | .inr g => .inr g := by
  obtain ⟨r, rest, said⟩ := s
  simp only [readTurn]
  dsimp only at hdata ⊢
  cases hstate : r.state with
  | failed => rfl
  | type p =>
    dsimp only
    rw [← append_assoc]
    cases hget : getVarint (p ++ rest) with
    | none => rfl
    | some tn =>
      rw [getVarint_append hget]
      dsimp only
      cases checkType r tn.1 with
      | error e => rfl
      | ok u =>
        dsimp only
        rw [drop_append_of_le_length (getVarint_pos hget).2]
  | length t p =>
    dsimp only
    rw [← append_assoc]
    cases hget : getVarint (p ++ rest) with
    | none => rfl
    | some tn =>
      rw [getVarint_append hget]
      dsimp only
      cases beginFrame r t tn.1 with
      | error e => rfl
      | ok state =>
        dsimp only
        rw [drop_append_of_le_length (getVarint_pos hget).2]
  | data remaining =>
    dsimp only
    rcases eq_or_ne rest [] with rfl | hrest
    · rfl
    · have hle := (hdata remaining hstate).resolve_right hrest
      rw [if_neg hrest, if_neg (by simp [hrest]), length_append, drop_append_of_le_length hle,
        take_append_of_le_length hle, Nat.sub_eq_zero_of_le hle, Nat.sub_eq_zero_of_le (by omega)]
  | skip remaining =>
    dsimp only
    by_cases hle : remaining ≤ rest.length
    · rw [if_pos (by rw [length_append]; omega), if_pos (by omega), drop_append_of_le_length hle]
    · rw [if_neg (by omega : ¬ remaining - rest.length = 0)]
      dsimp only
      rw [length_append, Nat.sub_add_eq, drop_append, drop_of_length_le (by omega), nil_append]
  | whole t remaining buf =>
    dsimp only
    by_cases hle : remaining ≤ rest.length
    · rw [if_neg (by rw [length_append]; omega), if_neg (by omega), drop_append_of_le_length hle,
        take_append_of_le_length hle]
      cases complete t (buf ++ rest.take remaining) <;> rfl
    · rw [if_pos (by omega : remaining - rest.length > 0)]
      dsimp only
      rw [length_append, Nat.sub_add_eq, drop_append, take_append, drop_of_length_le (by omega),
        nil_append, append_assoc]

lemma read_append_data {bytes : List UInt8} {said : List Said}
    (hstate : r.state = .data n) (hlt : bytes.length < n) (hpos : bytes ≠ []) (more : List UInt8) :
    (∀ e, (read r bytes said).error = some e → read r (bytes ++ more) said = read r bytes said) ∧
    ((read r bytes said).error = none → read r (bytes ++ more) said =
      read (read r bytes said).reader more (read r bytes said).said) := by
  set r' : FrameReader := { r with state := .data (n - bytes.length) } with hr'
  have hturn' : readTurn ⟨r, bytes, said⟩ = .inl ⟨r', [], say said (.data bytes)⟩ := by
    rw [readTurn]
    dsimp only
    rw [hstate]
    dsimp only
    rw [if_neg hpos, if_neg (by omega), drop_of_length_le hlt.le, take_of_length_le hlt.le]
  have hstop : readTurn ⟨r', [], say said (.data bytes)⟩ =
    .inr ⟨none, r', say said (.data bytes)⟩ :=
    rfl
  have hread : read r bytes said = ⟨none, r', say said (.data bytes)⟩ := by
    rw [read, Loop.run_of_next hturn']
    exact Loop.run_of_done hstop
  rw [hread]
  refine ⟨fun e he => (by cases he), fun _ => ?_⟩
  dsimp only
  by_cases hmore : more = []
  · rw [hmore, append_nil, hread]
    exact (Loop.run_of_done hstop).symm
  · have hnext : readTurn ⟨r, bytes ++ more, said⟩ =
      readTurn ⟨r', more, say said (.data bytes)⟩ := by
      rw [readTurn, readTurn, hr']
      dsimp only
      rw [hstate]
      dsimp only
      rw [if_neg (by simp [hpos]), if_neg hmore, length_append, Nat.sub_add_eq, drop_append,
        take_append, drop_of_length_le hlt.le, take_of_length_le hlt.le, say_say]
      rfl
    exact Loop.run_congr hnext

theorem read_append (r : FrameReader) (bytes more : List UInt8) (said : List Said) :
    (∀ e, (read r bytes said).error = some e → read r (bytes ++ more) said = read r bytes said) ∧
    ((read r bytes said).error = none → read r (bytes ++ more) said =
      read (read r bytes said).reader more (read r bytes said).said) := by
  induction hm : (Reads.mk r bytes said).measure using Nat.strong_induction_on
    generalizing r bytes said with
  | _ m ih =>
    subst hm
    by_cases hdata : ∀ n, r.state = .data n → n ≤ bytes.length ∨ bytes = []
    · have hmore := readTurn_append ⟨r, bytes, said⟩ more hdata
      cases hturn : readTurn ⟨r, bytes, said⟩ with
      | inr g =>
        rw [hturn] at hmore
        have hread : read r bytes said = g := Loop.run_of_done hturn
        rw [hread]
        obtain ⟨error, r', said'⟩ := g
        cases error with
        | none => exact ⟨nofun, fun _ => Loop.run_congr hmore⟩
        | some e => exact ⟨fun _ _ => Loop.run_of_done hmore, nofun⟩
      | inl s' =>
        rw [hturn] at hmore
        have hread : read r bytes said = read s'.reader s'.rest s'.said := Loop.run_of_next hturn
        have hnext : read r (bytes ++ more) said = read s'.reader (s'.rest ++ more) s'.said :=
          Loop.run_of_next hmore
        rw [hread, hnext]
        exact ih _ (readTurn_progress _ _ hturn) s'.reader s'.rest s'.said rfl
    · -- DATA of which more is to come: cut in two, it is said in two
      simp only [not_forall, not_or, not_le] at hdata
      obtain ⟨n, hstate, hlt, hne⟩ := hdata
      exact read_append_data hstate hlt hne more

/-! ### A piece -/

/-- Between two turns, an integer that is not here whole is not whole. -/
def FrameReader.Fine (r : FrameReader) : Prop := getVarint r.state.pending = none

lemma fill_eq {input : List UInt8} {need : ℕ} (p : Partial) (pos : ℕ) (hp : p.length ≤ need) :
    fill input need p pos =
      (p ++ (input.drop pos).take (need - p.length),
        pos + min (need - p.length) (input.length - pos)) := by
  induction hm : need - p.length using Nat.strong_induction_on generalizing p pos with
  | _ m ih =>
    subst hm
    rw [fill]
    by_cases hlt : p.length < need
    · rw [if_pos hlt]
      by_cases hpos : pos < input.length
      · have hget : input[pos]? = some input[pos] := List.getElem?_eq_getElem hpos
        rw [hget]
        dsimp only
        have hlen : (p ++ [input[pos]]).length = p.length + 1 := by simp
        rw [ih (need - (p.length + 1)) (by omega) _ _ (by omega) (by rw [hlen])]
        have hdrop : input.drop pos = input[pos] :: input.drop (pos + 1) :=
          drop_eq_getElem_cons hpos
        have hneed : need - p.length = need - (p.length + 1) + 1 := by omega
        rw [hdrop, hneed, take_succ_cons, append_assoc]
        refine Prod.ext rfl ?_
        dsimp only
        omega
      · have hget : input[pos]? = none := List.getElem?_eq_none (not_lt.1 hpos)
        rw [hget]
        dsimp only
        rw [drop_of_length_le (not_lt.1 hpos), take_nil, append_nil]
        refine Prod.ext rfl ?_
        dsimp only
        omega
    · rw [if_neg hlt, (by omega : need - p.length = 0), take_zero, append_nil, Nat.zero_min]
      rfl

lemma getVarint_take {buf : List UInt8} (h : getVarint buf = some (v, n)) :
    getVarint (buf.take n) = some (v, n) := by
  cases buf with
  | nil => cases h
  | cons first rest =>
    have hpos := varintLen_pos first
    rw [getVarint] at h
    split_ifs at h with hlen
    cases h
    rw [length_cons] at hlen
    have hn : varintLen first = varintLen first - 1 + 1 := by omega
    rw [hn, take_succ_cons, getVarint, ← hn,
      if_neg (by rw [length_cons, length_take]; omega), take_take, min_self]

lemma getVarint_len {first : UInt8} {rest : List UInt8}
    (h : getVarint (first :: rest) = some (v, n)) : n = varintLen first := by
  rw [getVarint] at h
  split_ifs at h with hlen
  cases h
  rfl

lemma takeFrom_eq {input : List UInt8} {first : UInt8} {q : Partial} {pos : ℕ}
    (hq : (first :: q).length ≤ varintLen first) (hpos : pos ≤ input.length) :
    takeFrom input first (first :: q) pos =
      match getVarint (first :: q ++ input.drop pos) with
      | none => ⟨none, first :: q ++ input.drop pos, input.length⟩
      | some (v, n) => ⟨some v, [], pos + (n - (first :: q).length)⟩ := by
  rw [takeFrom, fill_eq _ _ hq]
  dsimp only
  rw [length_append, length_take, length_drop]
  cases hget : getVarint (first :: q ++ input.drop pos) with
  | none =>
    have hshort : (first :: q ++ input.drop pos).length < varintLen first := by
      rw [cons_append, getVarint] at hget
      split_ifs at hget with hlen
      exact hlen
    rw [length_append, length_drop] at hshort
    rw [if_pos (by omega), take_of_length_le (by rw [length_drop]; omega)]
    congr 1
    omega
  | some vn =>
    obtain ⟨v, n⟩ := vn
    obtain rfl := getVarint_len hget
    have hlong := (getVarint_pos hget).2
    have htake := getVarint_take hget
    rw [length_append, length_drop] at hlong
    have hsame : (first :: q ++ (input.drop pos).take (varintLen first - (first :: q).length)).take
        (varintLen first) = (first :: q ++ input.drop pos).take (varintLen first) := by
      rw [take_append, take_append, take_take, min_self]
    rw [if_neg (by omega), hsame, htake]
    dsimp only
    rw [Option.map_some]
    congr 1
    omega

lemma take_eq {input : List UInt8} {p : Partial} {pos : ℕ} (hp : getVarint p = none)
    (hpos : pos ≤ input.length) :
    p.take input pos =
      match getVarint (p ++ input.drop pos) with
      | none => ⟨none, p ++ input.drop pos, input.length⟩
      | some (v, n) => ⟨some v, [], pos + (n - p.length)⟩ := by
  cases p with
  | cons first q =>
    have hq : (first :: q).length < varintLen first := by
      rw [getVarint] at hp
      split_ifs at hp with hlen
      exact hlen
    exact takeFrom_eq hq.le hpos
  | nil =>
    rw [Partial.take, nil_append]
    by_cases hlt : pos < input.length
    · have hdrop : input.drop pos = input[pos] :: input.drop (pos + 1) :=
        drop_eq_getElem_cons hlt
      rw [List.getElem?_eq_getElem hlt, hdrop]
      dsimp only
      rw [takeFrom_eq (q := []) (varintLen_pos _) hlt]
      dsimp only [cons_append, nil_append]
      cases hget : getVarint (input[pos] :: input.drop (pos + 1)) with
      | none => rfl
      | some vn =>
        have := (getVarint_pos hget).1
        dsimp only [length_singleton, length_nil]
        congr 1
        omega
    · rw [List.getElem?_eq_none (by omega), drop_of_length_le (by omega)]
      show (⟨none, [], pos⟩ : Taken) = ⟨none, [], input.length⟩
      congr 1
      omega

lemma length_lt_of_whole {p more : Partial} (hp : getVarint p = none)
    (h : getVarint (p ++ more) = some (v, n)) : p.length < n := by
  cases p with
  | nil => exact (getVarint_pos h).1
  | cons first q =>
    rw [cons_append] at h
    obtain rfl := getVarint_len h
    rw [getVarint] at hp
    split_ifs at hp with hlen
    exact hlen

section Piece

variable (input : List UInt8) (before : List Said)

/-- Everything said, after what was said before the piece. -/
def saidAfter (out : List Event) : List Said := joined (before ++ out.map (denote input))

/-- Where `feed` is, without positions. -/
def Feeding.reads (s : Feeding) : Reads :=
  ⟨s.reader, input.drop s.pos, saidAfter input before s.out⟩

def Fed.heard (f : Fed) : Heard := ⟨f.error, f.reader, saidAfter input before f.out⟩

lemma saidAfter_concat (out : List Event) (e : Event) :
    saidAfter input before (out ++ [e]) = say (saidAfter input before out) (denote input e) := by
  rw [saidAfter, map_append, ← append_assoc]
  exact joined_concat _ _

structure Feeding.Fine (s : Feeding) : Prop where
  reader : s.reader.Fine
  pos_le : s.pos ≤ input.length

structure Fed.Fine (f : Fed) : Prop where
  reader : f.reader.Fine
  consumed : f.error = none → f.pos = input.length
  failed : f.error ≠ none → f.reader.state = .failed

lemma fine_beginFrame {r : FrameReader} {t len : ℕ} {state : State}
    (h : beginFrame r t len = .ok state) : getVarint state.pending = none := by
  rw [(pending_beginFrame h).1]
  rfl

variable {input}

lemma taken_min {pos : ℕ} (remaining : ℕ) (hpos : pos ≤ input.length) :
    remaining - min remaining (input.length - pos) = remaining - (input.drop pos).length ∧
    input.drop (pos + min remaining (input.length - pos)) = (input.drop pos).drop remaining ∧
    (input.drop pos).take (min remaining (input.length - pos)) =
      (input.drop pos).take remaining := by
  have hlen : (input.drop pos).length = input.length - pos := length_drop
  refine ⟨by omega, ?_, ?_⟩
  · rw [drop_drop]
    rcases le_total remaining (input.length - pos) with hle | hle
    · rw [min_eq_left hle]
    · rw [min_eq_right hle, drop_of_length_le (by omega), drop_of_length_le (by omega)]
  · rw [← hlen, ← take_take, take_length]

lemma denote_complete {t : Kept} {payload : List UInt8} {event : Event}
    (h : complete t payload = .ok event) : denote input event = .whole event := by
  cases event with
  | data start stop =>
    cases t with
    | headers => cases h
    | settings =>
      simp only [complete] at h
      cases hpairs : readPairs payload with
      | error | ok =>
        rw [hpairs] at h
        cases h
    | goAway | cancelPush =>
      simp only [complete] at h
      split at h
      · cases h
      · split_ifs at h
        cases h
  | headers _ => rfl
  | settings _ => rfl
  | goAway _ => rfl
  | cancelPush _ => rfl

variable (input) in
/-- What a turn of `feed` makes is what a turn without positions makes. -/
def Alike : Feeding ⊕ Fed → Reads ⊕ Heard → Prop
  | .inl s, t => t = .inl (s.reads input before) ∧ s.Fine input
  | .inr f, t => t = .inr (f.heard input before) ∧ f.Fine input

lemma turn_reads {s : Feeding} (hs : s.Fine input) :
    Alike input before (turn input s) (readTurn (s.reads input before)) := by
  obtain ⟨r, pos, out⟩ := s
  obtain ⟨hreader, hpos⟩ := hs
  rw [FrameReader.Fine] at hreader
  rw [readTurn, turn, Feeding.reads]
  dsimp only at hreader hpos ⊢
  cases hstate : r.state with
  | failed => exact ⟨rfl, rfl, nofun, fun _ => rfl⟩
  | type p =>
    have hp : getVarint p = none := by
      rw [hstate] at hreader
      exact hreader
    dsimp only
    rw [take_eq hp hpos]
    cases hget : getVarint (p ++ input.drop pos) with
    | none => exact ⟨rfl, hget, fun _ => rfl, fun he => absurd rfl he⟩
    | some tn =>
      obtain ⟨t, n⟩ := tn
      have hlong := (getVarint_pos hget).2
      have hmore := length_lt_of_whole hp hget
      rw [length_append, length_drop] at hlong
      dsimp only
      cases checkType r t with
      | error e => exact ⟨rfl, rfl, nofun, fun _ => rfl⟩
      | ok u =>
        refine ⟨?_, rfl, ?_⟩
        · rw [Feeding.reads, drop_append, drop_of_length_le hmore.le, nil_append, drop_drop]
        · show pos + (n - p.length) ≤ input.length
          omega
  | length t p =>
    have hp : getVarint p = none := by
      rw [hstate] at hreader
      exact hreader
    dsimp only
    rw [take_eq hp hpos]
    cases hget : getVarint (p ++ input.drop pos) with
    | none => exact ⟨rfl, hget, fun _ => rfl, fun he => absurd rfl he⟩
    | some tn =>
      obtain ⟨len, n⟩ := tn
      have hlong := (getVarint_pos hget).2
      have hmore := length_lt_of_whole hp hget
      rw [length_append, length_drop] at hlong
      dsimp only
      cases hbegin : beginFrame r t len with
      | error e => exact ⟨rfl, rfl, nofun, fun _ => rfl⟩
      | ok state =>
        refine ⟨?_, fine_beginFrame hbegin, ?_⟩
        · rw [Feeding.reads, drop_append, drop_of_length_le hmore.le, nil_append, drop_drop]
        · show pos + (n - p.length) ≤ input.length
          omega
  | data remaining =>
    obtain ⟨hleft, hdrop, htake⟩ := taken_min remaining hpos
    dsimp only
    rw [← hleft, ← hdrop, ← htake]
    by_cases hend : pos ≥ input.length
    · rw [if_pos hend, if_pos (drop_of_length_le hend)]
      exact ⟨rfl, rfl, fun _ => le_antisymm hpos hend, fun he => absurd rfl he⟩
    · rw [if_neg hend, if_neg (mt drop_eq_nil_iff.1 hend)]
      refine ⟨?_, ?_, ?_⟩
      · rw [Feeding.reads, saidAfter_concat, denote, Nat.add_sub_cancel_left]
      · rw [FrameReader.Fine]
        dsimp only
        split_ifs <;> rfl
      · show pos + min remaining (input.length - pos) ≤ input.length
        omega
  | skip remaining =>
    obtain ⟨hleft, hdrop, -⟩ := taken_min remaining hpos
    dsimp only
    rw [← hleft, ← hdrop]
    by_cases hzero : remaining - min remaining (input.length - pos) = 0
    · rw [if_pos hzero, if_pos hzero]
      refine ⟨rfl, rfl, ?_⟩
      show pos + min remaining (input.length - pos) ≤ input.length
      omega
    · rw [if_neg hzero, if_neg hzero]
      refine ⟨rfl, rfl, fun _ => ?_, fun he => absurd rfl he⟩
      show pos + min remaining (input.length - pos) = input.length
      omega
  | whole t remaining buf =>
    obtain ⟨hleft, hdrop, htake⟩ := taken_min remaining hpos
    dsimp only
    rw [← hleft, ← hdrop, ← htake]
    by_cases hzero : remaining - min remaining (input.length - pos) > 0
    · rw [if_pos hzero, if_pos hzero]
      refine ⟨rfl, rfl, fun _ => ?_, fun he => absurd rfl he⟩
      show pos + min remaining (input.length - pos) = input.length
      omega
    · rw [if_neg hzero, if_neg hzero]
      cases hcomplete : complete t
          (buf ++ (input.drop pos).take (min remaining (input.length - pos))) with
      | error e => exact ⟨rfl, rfl, nofun, fun _ => rfl⟩
      | ok event =>
        refine ⟨?_, rfl, ?_⟩
        · rw [Feeding.reads, saidAfter_concat, denote_complete hcomplete]
        · show pos + min remaining (input.length - pos) ≤ input.length
          omega

variable (input) in
lemma feed_eq_read {r : FrameReader} (hr : r.Fine) :
    read r input (joined before) = (r.feed input).heard input before ∧
    (r.feed input).Fine input := by
  have key : ∀ s : Feeding, s.Fine input →
      readLoop.run (s.reads input before) = ((feedLoop input).run s).heard input before ∧
        ((feedLoop input).run s).Fine input := by
    intro s
    induction hm : s.measure input using Nat.strong_induction_on generalizing s with
    | _ m ih =>
      subst hm
      intro hs
      have hreads := turn_reads before hs
      cases hturn : turn input s with
      | inl s' =>
        rw [hturn] at hreads
        obtain ⟨hreads, hfine⟩ := hreads
        rw [Loop.run_of_next hreads, Loop.run_of_next (l := feedLoop input) hturn]
        exact ih _ (turn_progress _ _ _ hturn) s' rfl hfine
      | inr f =>
        rw [hturn] at hreads
        obtain ⟨hreads, hfine⟩ := hreads
        rw [Loop.run_of_done hreads, Loop.run_of_done (l := feedLoop input) hturn]
        exact ⟨rfl, hfine⟩
  have hstart : (⟨r, 0, []⟩ : Feeding).reads input before = ⟨r, input, joined before⟩ := by
    rw [Feeding.reads, saidAfter, map_nil, append_nil, drop_zero]
  obtain ⟨hread, hfine⟩ := key ⟨r, 0, []⟩ ⟨hr, Nat.zero_le _⟩
  rw [hstart] at hread
  exact ⟨hread, hfine⟩

end Piece

/-! ### All the pieces -/

/-- The pieces one after the other: the first error if any, the reader and everything said. -/
def feedAll (r : FrameReader) (pieces : List (List UInt8)) : Heard :=
  pieces.foldl (fun h piece =>
    let f := h.reader.feed piece
    ⟨h.error <|> f.error, f.reader, h.said ++ f.out.map (denote piece)⟩) ⟨none, r, []⟩

lemma feed_failed (h : r.state = .failed) (input : List UInt8) :
    (r.feed input).reader = r ∧ (r.feed input).out = [] := by
  have hturn : turn input ⟨r, 0, []⟩ = .inr ⟨some (.connection code.H3_INTERNAL_ERROR
      "the stream is not read after an error"), r, 0, []⟩ := by
    rw [turn]
    dsimp only
    rw [h]
    dsimp only
    rw [← h]
  rw [FrameReader.feed, Loop.run_of_done hturn]
  exact ⟨rfl, rfl⟩

lemma feedAll_eq_read (hr : r.Fine) (hempty : read r [] [] = ⟨none, r, []⟩)
    (pieces : List (List UInt8)) :
    read r pieces.flatten [] =
        ⟨(feedAll r pieces).error, (feedAll r pieces).reader, joined (feedAll r pieces).said⟩ ∧
      (feedAll r pieces).reader.Fine ∧
      ((feedAll r pieces).error ≠ none → (feedAll r pieces).reader.state = .failed) := by
  induction pieces using List.reverseRecOn with
  | nil => exact ⟨hempty, hr, fun he => absurd rfl he⟩
  | append_singleton pieces piece ih =>
    obtain ⟨hread, hfine, hfailed⟩ := ih
    rw [feedAll, foldl_append]
    set h := feedAll r pieces with hh
    have hfold : pieces.foldl (fun h piece =>
        let f := h.reader.feed piece
        (⟨h.error <|> f.error, f.reader, h.said ++ f.out.map (denote piece)⟩ : Heard))
        ⟨none, r, []⟩ = h := rfl
    rw [hfold]
    dsimp only [foldl_cons, foldl_nil]
    rw [flatten_append, flatten_singleton]
    obtain ⟨hstop, hgo⟩ := read_append r pieces.flatten piece []
    rw [hread] at hstop hgo
    cases herror : h.error with
    | some e =>
      obtain ⟨hsame, hout⟩ := feed_failed (hfailed (by simp [herror])) piece
      rw [hstop e herror, herror, hsame, hout, map_nil, append_nil]
      exact ⟨rfl, hfine, fun _ => hfailed (by simp [herror])⟩
    | none =>
      obtain ⟨hpiece, hfed⟩ := feed_eq_read piece h.said hfine
      rw [hgo herror, hpiece]
      exact ⟨rfl, hfed.reader, hfed.failed⟩

/-- However the bytes of a stream are cut into pieces, the same is said, with DATA joined, the first
error is the same, and so is whether the stream is between frames. -/
theorem frames_do_not_depend_on_cuts (kind : Kind) (max_headers : ℕ) (pieces : List (List UInt8)) :
    let cut := feedAll (.new kind max_headers) pieces
    let whole := feedAll (.new kind max_headers) [pieces.flatten]
    joined cut.said = joined whole.said ∧ cut.error = whole.error ∧
      cut.reader.atFrameBoundary = whole.reader.atFrameBoundary ∧
      ∀ piece, (cut.reader.feed piece).error = none →
        (cut.reader.feed piece).pos = piece.length := by
  have hfine : (FrameReader.new kind max_headers).Fine := rfl
  have hempty : read (.new kind max_headers) [] [] = ⟨none, .new kind max_headers, []⟩ :=
    Loop.run_of_done rfl
  intro cut whole
  obtain ⟨hcut, hreader, -⟩ := feedAll_eq_read hfine hempty pieces
  obtain ⟨hwhole, -, -⟩ := feedAll_eq_read hfine hempty [pieces.flatten]
  rw [flatten_singleton, hcut, Heard.mk.injEq] at hwhole
  obtain ⟨herror, hreaders, hsaid⟩ := hwhole
  refine ⟨hsaid, herror, ?_, fun piece hnone => ?_⟩
  · exact congrArg FrameReader.atFrameBoundary hreaders
  · exact (feed_eq_read piece [] hreader).2.consumed hnone

end Lazaret.H3
