import Lazaret.Quic.Streams

/-!
# The sides of the streams

What the operations of `Streams` do to the sending and the receiving sides, one lemma each: the rest
of this development looks at a state through `sendOf` and `recvOf`.
-/

namespace Lazaret.Quic.Flow

open BTreeMap Option
open Wire (Frame MAX_VARINT MAX_STREAMS_LIMIT)

/-- What `f` says of the receiving side of a stream. -/
def Stream.part (f : Recv → ℕ) (st : Stream) : ℕ := (st.recv.map f).getD 0

namespace Streams

/-- The sum over the streams that were ever there of what `f` says of their receiving sides. -/
def total (s : Streams) (f : Recv → ℕ) : ℕ :=
  s.streams.sum (Stream.part f) + (s.forgotten.map fun e => e.2.part f).sum

variable {s : Streams} {id : ℕ} {x x' : Send} {r r' : Recv}

lemma get_of_sendOf (h : s.sendOf id = some x) :
    ∃ st, s.streams.get id = some st ∧ st.send = some x := by
  rw [sendOf] at h
  exact bind_eq_some_iff.1 h

lemma get_of_recvOf (h : s.recvOf id = some r) :
    ∃ st, s.streams.get id = some st ∧ st.recv = some r := by
  rw [recvOf] at h
  exact bind_eq_some_iff.1 h

/-! ### A side that changes -/

/-- The counts and limits of a connection, without its streams and what is due to be sent. -/
def accounts (s : Streams) : Streams :=
  { s with
    streams := .empty
    send_queue := []
    parked := .empty
    control := .empty
    max_data_pending := false
    max_streams_pending := ⟨false, false⟩
    data_blocked_sent := none
    data_blocked_pending := false
    streams_blocked_sent := ⟨none, none⟩
    streams_blocked_pending := ⟨false, false⟩
    open_blocked := ⟨false, false⟩
    events := [] }

lemma accounts_setSend (s : Streams) (id : ℕ) (x : Send) :
    (s.setSend id x).accounts = s.accounts := by
  rw [setSend]
  split <;> rfl

lemma accounts_setRecv (s : Streams) (id : ℕ) (r : Recv) :
    (s.setRecv id r).accounts = s.accounts := by
  rw [setRecv]
  split <;> rfl

lemma sendCounts_eq {t : Streams} (ha : t.accounts = s.accounts) :
    t.sent_total = s.sent_total ∧ t.send_max_data = s.send_max_data :=
  ⟨congrArg (·.sent_total) ha, congrArg (·.send_max_data) ha⟩

lemma recvCounts_eq {t : Streams} (ha : t.accounts = s.accounts) :
    t.recv_total = s.recv_total ∧ t.consumed = s.consumed ∧ t.recv_limit = s.recv_limit :=
  ⟨congrArg (·.recv_total) ha, congrArg (·.consumed) ha, congrArg (·.recv_limit) ha⟩

lemma waiting_setSend (s : Streams) (id : ℕ) (x : Send) :
    (s.setSend id x).send_queue = s.send_queue ∧ (s.setSend id x).parked = s.parked := by
  rw [setSend]
  split <;> exact ⟨rfl, rfl⟩

lemma waiting_setRecv (s : Streams) (id : ℕ) (r : Recv) :
    (s.setRecv id r).send_queue = s.send_queue ∧ (s.setRecv id r).parked = s.parked := by
  rw [setRecv]
  split <;> exact ⟨rfl, rfl⟩

lemma sendOf_setSend (h : s.sendOf id = some x) (x' : Send) (j : ℕ) :
    (s.setSend id x').sendOf j = if j = id then some x' else s.sendOf j := by
  obtain ⟨st, hst, hx⟩ := get_of_sendOf h
  rw [setSend, hst]
  simp only [sendOf, get_insert]
  split_ifs <;> rfl

lemma recvOf_setSend (s : Streams) (id : ℕ) (x : Send) (j : ℕ) :
    (s.setSend id x).recvOf j = s.recvOf j := by
  rw [setSend]
  split
  · rename_i st hst
    simp only [recvOf, get_insert]
    split_ifs with hj
    · rw [hj, hst]
      rfl
    · rfl
  · rfl

lemma recvOf_setRecv (h : s.recvOf id = some r) (j : ℕ) :
    (s.setRecv id r').recvOf j = if j = id then some r' else s.recvOf j := by
  obtain ⟨st, hst, hr⟩ := get_of_recvOf h
  rw [setRecv, hst]
  simp only [recvOf, get_insert]
  split_ifs <;> rfl

lemma sendOf_setRecv (s : Streams) (id : ℕ) (r : Recv) (j : ℕ) :
    (s.setRecv id r).sendOf j = s.sendOf j := by
  rw [setRecv]
  split
  · rename_i st hst
    simp only [sendOf, get_insert]
    split_ifs with hj
    · rw [hj, hst]
      rfl
    · rfl
  · rfl

lemma contains_setSend (s : Streams) (id : ℕ) (x : Send) (j : ℕ) :
    (s.setSend id x).contains j = s.contains j := by
  rw [setSend]
  split
  · rename_i st hst
    simp only [contains, get_insert]
    split_ifs with hj
    · rw [hj, hst]
      rfl
    · rfl
  · rfl

lemma contains_setRecv (s : Streams) (id : ℕ) (r : Recv) (j : ℕ) :
    (s.setRecv id r).contains j = s.contains j := by
  rw [setRecv]
  split
  · rename_i st hst
    simp only [contains, get_insert]
    split_ifs with hj
    · rw [hj, hst]
      rfl
    · rfl
  · rfl

/-! ### Sums over the receiving sides -/

lemma total_setSend (s : Streams) (id : ℕ) (x : Send) (f : Recv → ℕ) :
    (s.setSend id x).total f = s.total f := by
  rw [setSend]
  split
  · rename_i st hst
    simp only [total]
    rw [sum_insert, ← sum_remove (Stream.part f) hst]
    rfl
  · rfl

lemma total_setRecv (h : s.recvOf id = some r) (r' : Recv) (f : Recv → ℕ) :
    (s.setRecv id r').total f + f r = s.total f + f r' := by
  obtain ⟨st, hst, hr⟩ := get_of_recvOf h
  rw [setRecv, hst]
  simp only [total]
  rw [sum_insert, ← sum_remove (Stream.part f) hst]
  simp only [Stream.part, hr, map_some, getD_some]
  omega

/-! ### What changes one side only -/

/-- Only sending sides, and what is due to be sent, change. -/
structure SendOnly (s t : Streams) : Prop where
  accounts : t.accounts = s.accounts
  recvOf : ∀ j, t.recvOf j = s.recvOf j
  total : ∀ f, t.total f = s.total f
  contains : ∀ j, t.contains j = s.contains j

namespace SendOnly

variable {t u : Streams}

lemma refl (s : Streams) : SendOnly s s := ⟨rfl, fun _ => rfl, fun _ => rfl, fun _ => rfl⟩

lemma trans (h : SendOnly s t) (h' : SendOnly t u) : SendOnly s u :=
  ⟨h'.accounts.trans h.accounts, fun j => (h'.recvOf j).trans (h.recvOf j),
    fun f => (h'.total f).trans (h.total f), fun j => (h'.contains j).trans (h.contains j)⟩

lemma of_eq (ha : t.accounts = s.accounts) (hs : t.streams = s.streams) : SendOnly s t := by
  have hforgotten : t.forgotten = s.forgotten := congrArg (·.forgotten) ha
  exact ⟨ha, fun j => by rw [Streams.recvOf, hs]; rfl,
    fun f => by rw [Streams.total, hs, hforgotten]; rfl,
    fun j => by rw [Streams.contains, hs]; rfl⟩

lemma setSend (s : Streams) (id : ℕ) (x : Send) : SendOnly s (s.setSend id x) :=
  ⟨accounts_setSend s id x, recvOf_setSend s id x, total_setSend s id x, contains_setSend s id x⟩

end SendOnly

/-- Only receiving sides, the counts of what was received, and what is due to be sent, change. -/
structure RecvOnly (s t : Streams) : Prop where
  accounts : { t.accounts with recv_limit := 0, recv_total := 0, consumed := 0 } =
    { s.accounts with recv_limit := 0, recv_total := 0, consumed := 0 }
  sendOf : ∀ j, t.sendOf j = s.sendOf j
  contains : ∀ j, t.contains j = s.contains j
  send_queue : t.send_queue = s.send_queue
  parked : t.parked = s.parked

namespace RecvOnly

variable {t u : Streams}

lemma refl (s : Streams) : RecvOnly s s := ⟨rfl, fun _ => rfl, fun _ => rfl, rfl, rfl⟩

lemma trans (h : RecvOnly s t) (h' : RecvOnly t u) : RecvOnly s u :=
  ⟨h'.accounts.trans h.accounts, fun j => (h'.sendOf j).trans (h.sendOf j),
    fun j => (h'.contains j).trans (h.contains j), h'.send_queue.trans h.send_queue,
    h'.parked.trans h.parked⟩

lemma setRecv (s : Streams) (id : ℕ) (r : Recv) : RecvOnly s (s.setRecv id r) :=
  ⟨by rw [accounts_setRecv], sendOf_setRecv s id r, contains_setRecv s id r,
    (waiting_setRecv s id r).1, (waiting_setRecv s id r).2⟩

end RecvOnly

/-! ### Scheduling -/

lemma SendOnly.enqueue (s : Streams) (id : ℕ) (x : Send) : SendOnly s (s.enqueue id x) :=
  (SendOnly.setSend s id _).trans (SendOnly.of_eq rfl rfl)

lemma SendOnly.park (s : Streams) (id : ℕ) (x : Send) : SendOnly s (s.park id x) := by
  rw [Streams.park]
  split
  · exact SendOnly.refl s
  · exact (SendOnly.setSend s id _).trans (SendOnly.of_eq rfl rfl)

lemma SendOnly.leavePark (s : Streams) (id : ℕ) (x : Send) : SendOnly s (s.leavePark id x) := by
  rw [Streams.leavePark]
  split
  · exact (SendOnly.setSend s id _).trans (SendOnly.of_eq rfl rfl)
  · exact SendOnly.refl s

lemma SendOnly.noteDataBlocked (s : Streams) : SendOnly s s.noteDataBlocked := by
  rw [Streams.noteDataBlocked]
  split
  · exact SendOnly.of_eq rfl rfl
  · exact SendOnly.refl s

lemma SendOnly.noteStreamBlocked (s : Streams) (id : ℕ) (x : Send) :
    SendOnly s (s.noteStreamBlocked id x) := by
  rw [Streams.noteStreamBlocked]
  split
  · exact (SendOnly.setSend s id _).trans (SendOnly.of_eq rfl rfl)
  · exact SendOnly.refl s

lemma SendOnly.schedule (s : Streams) (id : ℕ) : SendOnly s (s.schedule id) := by
  rw [Streams.schedule]
  split
  · exact SendOnly.refl s
  split
  · exact SendOnly.refl s
  split
  · exact (SendOnly.park s id _).trans (SendOnly.noteDataBlocked _)
  · exact (SendOnly.leavePark s id _).trans (SendOnly.enqueue _ id _)
  · exact (SendOnly.leavePark s id _).trans (SendOnly.noteStreamBlocked _ id _)
  · exact SendOnly.leavePark s id _

lemma schedule_of_queued (h : s.sendOf id = some x) (hq : x.queued = true) : s.schedule id = s := by
  rw [schedule, h]
  simp only [hq, if_true]

lemma schedule_of_none (h : s.sendOf id = none) : s.schedule id = s := by
  rw [schedule, h]

lemma gate_sending {n : ℕ} (h : gate x n ≠ .nothing) : x.sending = true := by
  rw [gate] at h
  by_contra hx
  rw [if_pos (by simp [hx])] at h
  exact h rfl

/-- The sending side of stream `id`, which was not queued, is `x'` in place of `x`, and differs in
its marks only; the queue and the set of the streams that wait say what the marks say. -/
structure Marked (s t : Streams) (id : ℕ) (x x' : Send) : Prop where
  sendOf : ∀ j, t.sendOf j = if j = id then some x' else s.sendOf j
  buf : x'.buf = x.buf
  max_data : x'.max_data = x.max_data
  state : x'.state = x.state
  reset : x'.reset = x.reset
  blocked : x'.blocked_sent = x.blocked_sent ∨ x'.blocked_sent = some x.max_data
  queue : t.send_queue = if x'.queued then s.send_queue ++ [id] else s.send_queue
  parked : ∀ j, (t.parked.get j).isSome = if j = id then x'.parked else (s.parked.get j).isSome
  ready : x'.queued = true → x.sending = true ∧ x'.parked = false

namespace Marked

variable {t u : Streams} {y z : Send}

lemma trans (h : Marked s t id x y) (hy : y.queued = false) (h' : Marked t u id y z) :
    Marked s u id x z := by
  refine ⟨fun j => ?_, h'.buf.trans h.buf, h'.max_data.trans h.max_data, h'.state.trans h.state,
    h'.reset.trans h.reset, ?_, ?_, fun j => ?_, fun hz => ?_⟩
  · rw [h'.sendOf, h.sendOf]
    split_ifs <;> rfl
  · rcases h'.blocked with heq | heq
    · rw [heq]
      exact h.blocked
    · exact .inr (heq.trans (congrArg _ h.max_data))
  · rw [h'.queue, h.queue, hy]
    rfl
  · rw [h'.parked, h.parked]
    split_ifs <;> rfl
  · obtain ⟨h1, h2⟩ := h'.ready hz
    rw [Send.sending, h.state] at h1
    exact ⟨h1, h2⟩

lemma of_eq (h : Marked s t id x y) (hs : u.streams = t.streams) (hq : u.send_queue = t.send_queue)
    (hp : u.parked = t.parked) : Marked s u id x y := by
  refine ⟨fun j => ?_, h.buf, h.max_data, h.state, h.reset, h.blocked, by rw [hq, h.queue],
    fun j => by rw [hp, h.parked], h.ready⟩
  rw [Streams.sendOf, hs]
  exact h.sendOf j

variable (hx : s.sendOf id = some x)
include hx

lemma setSend (hp : (s.parked.get id).isSome = x.parked)
    (hbuf : x'.buf = x.buf) (hmax : x'.max_data = x.max_data) (hstate : x'.state = x.state)
    (hreset : x'.reset = x.reset)
    (hblocked : x'.blocked_sent = x.blocked_sent ∨ x'.blocked_sent = some x.max_data)
    (hq' : x'.queued = false) (hp' : x'.parked = x.parked) :
    Marked s (s.setSend id x') id x x' := by
  refine ⟨sendOf_setSend hx _, hbuf, hmax, hstate, hreset, hblocked, ?_, fun j => ?_, fun h => ?_⟩
  · rw [hq', (waiting_setSend s id x').1]
    rfl
  · rw [(waiting_setSend s id x').2, hp']
    split_ifs with hj
    · rw [hj, hp]
    · rfl
  · rw [hq'] at h
    cases h

lemma refl (hq : x.queued = false)
    (hp : (s.parked.get id).isSome = x.parked) : Marked s s id x x := by
  refine ⟨fun j => ?_, rfl, rfl, rfl, rfl, .inl rfl, ?_, fun j => ?_, fun h => ?_⟩
  · split_ifs with hj
    · rw [hj, hx]
    · rfl
  · rw [hq]
    rfl
  · split_ifs with hj
    · rw [hj, hp]
    · rfl
  · rw [hq] at h
    cases h

lemma leavePark (hq : x.queued = false)
    (hp : (s.parked.get id).isSome = x.parked) :
    Marked s (s.leavePark id x) id x { x with parked := false } := by
  rw [Streams.leavePark]
  split
  · refine ⟨fun j => sendOf_setSend hx _ j, rfl, rfl, rfl, rfl, .inl rfl, ?_, fun j => ?_,
      fun h => ?_⟩
    · simp only [hq, Bool.false_eq_true, if_false]
      exact (waiting_setSend s id _).1
    · simp only [get_remove]
      split_ifs <;> rfl
    · simp only [hq, Bool.false_eq_true] at h
  · rename_i hpark
    have hsame : { x with parked := false } = x := by
      rw [Bool.not_eq_true] at hpark
      rw [← hpark]
    rw [hsame]
    exact refl hx hq hp

lemma park (hq : x.queued = false)
    (hp : (s.parked.get id).isSome = x.parked) : ∃ y, Marked s (s.park id x) id x y := by
  rw [Streams.park]
  split
  · exact ⟨x, refl hx hq hp⟩
  · refine ⟨{ x with parked := true }, fun j => sendOf_setSend hx _ j, rfl, rfl, rfl, rfl, .inl rfl,
      ?_, fun j => ?_, fun h => ?_⟩
    · simp only [hq, Bool.false_eq_true, if_false]
      exact (waiting_setSend s id _).1
    · simp only [get_insert]
      split_ifs <;> rfl
    · simp only [hq, Bool.false_eq_true] at h

lemma enqueue (hp : (s.parked.get id).isSome = x.parked)
    (hready : x.sending = true) (hpark : x.parked = false) :
    Marked s (s.enqueue id x) id x { x with queued := true } := by
  refine ⟨fun j => sendOf_setSend hx _ j, rfl, rfl, rfl, rfl, .inl rfl, rfl, fun j => ?_,
    fun _ => ⟨hready, hpark⟩⟩
  have hset : (s.enqueue id x).parked = s.parked := (waiting_setSend s id _).2
  rw [hset]
  split_ifs with hj
  · rw [hj, hp]
  · rfl

lemma noteStreamBlocked (hq : x.queued = false)
    (hp : (s.parked.get id).isSome = x.parked) : ∃ y,
    Marked s (s.noteStreamBlocked id x) id x y := by
  rw [Streams.noteStreamBlocked]
  split
  · exact ⟨_, of_eq
      (t := s.setSend id { x with blocked_sent := some x.max_data, blocked_pending := true })
      (setSend hx hp rfl rfl rfl rfl (.inr rfl) hq rfl) rfl rfl rfl⟩
  · exact ⟨x, refl hx hq hp⟩

end Marked

theorem marked_schedule (hx : s.sendOf id = some x) (hq : x.queued = false)
    (hp : (s.parked.get id).isSome = x.parked) : ∃ x', Marked s (s.schedule id) id x x' := by
  have hleave := Marked.leavePark hx hq hp
  have hat := hleave.sendOf id
  rw [if_pos rfl] at hat
  have hpark := hleave.parked id
  rw [if_pos rfl] at hpark
  rw [schedule, hx]
  dsimp only
  rw [if_neg (by simp [hq])]
  split
  · obtain ⟨y, hy⟩ := Marked.park hx hq hp
    refine ⟨y, hy.of_eq ?_ ?_ ?_⟩ <;> rw [noteDataBlocked] <;> split <;> rfl
  · rename_i hready
    have hsending : x.sending = true := gate_sending (by rw [hready]; decide)
    exact ⟨_, hleave.trans hq (Marked.enqueue hat hpark hsending rfl)⟩
  · obtain ⟨y, hy⟩ := Marked.noteStreamBlocked hat hq hpark
    exact ⟨y, hleave.trans hq hy⟩
  · exact ⟨_, hleave⟩

/-! ### Giving up a side, and forgetting a stream -/

lemma SendOnly.doReset (s : Streams) (id error : ℕ) : SendOnly s (s.doReset id error) := by
  rw [Streams.doReset]
  split
  · exact SendOnly.refl s
  · dsimp only
    split
    · exact (SendOnly.setSend s id _).trans (SendOnly.of_eq rfl rfl)
    · exact (SendOnly.setSend s id _).trans (SendOnly.of_eq rfl rfl)

lemma doReset_spec (hx : s.sendOf id = some x) (error : ℕ) :
    ∃ x', (∀ j, (s.doReset id error).sendOf j = if j = id then some x' else s.sendOf j) ∧
      x'.buf = x.buf.clear ∧ x'.max_data = x.max_data ∧ x'.state = .reset ∧
      x'.reset = some ⟨error, x.buf.sent, true⟩ ∧ x'.blocked_sent = x.blocked_sent ∧
      x'.queued = false ∧ x'.parked = false ∧
      (s.doReset id error).send_queue =
        (if x.queued then s.send_queue.filter (· ≠ id) else s.send_queue) ∧
      (s.doReset id error).parked = s.parked.remove id := by
  rw [doReset, hx]
  dsimp only
  refine ⟨{ x with
    buf := x.buf.clear
    reset := some ⟨error, x.buf.sent, true⟩
    state := .reset
    blocked_pending := false
    write_blocked := false
    queued := false
    parked := false }, fun j => ?_, rfl, rfl, rfl, rfl, rfl, rfl, rfl, ?_, ?_⟩
  · refine Eq.trans ?_ (sendOf_setSend hx _ j)
    split <;> rfl
  · split
    · exact congrArg (List.filter _) (waiting_setSend s id _).1
    · exact (waiting_setSend s id _).1
  · split <;> exact congrArg (fun m => BTreeMap.remove m id) (waiting_setSend s id _).2

lemma growStreamLimit_spec (s : Streams) (k : Kind) :
    SendOnly { s with max_streams := (s.growStreamLimit k).max_streams } (s.growStreamLimit k) ∧
      ((∀ k', s.max_streams.get k' ≤ MAX_VARINT) → ∀ k',
        s.max_streams.get k' ≤ (s.growStreamLimit k).max_streams.get k' ∧
          (s.growStreamLimit k).max_streams.get k' ≤ MAX_VARINT) ∧
      (s.growStreamLimit k).streams = s.streams ∧ (s.growStreamLimit k).send_queue = s.send_queue ∧
      (s.growStreamLimit k).parked = s.parked := by
  rw [growStreamLimit]
  split
  · rename_i hnew
    refine ⟨SendOnly.of_eq rfl rfl, fun hmax k' => ?_, rfl, rfl, rfl⟩
    have hinitial := s.cfg.maxStreams_le k
    have hlimit : MAX_STREAMS_LIMIT ≤ MAX_VARINT := by decide
    have hone : 1 ≤ MAX_VARINT := by decide
    rw [addU64_eq (hmax k) (by omega)] at hnew
    simp only [PerKind.get_set]
    split_ifs with hk
    · rw [hk]
      omega
    · exact ⟨le_rfl, hmax k'⟩
  · exact ⟨SendOnly.of_eq rfl rfl, fun hmax k' => ⟨le_rfl, hmax k'⟩, rfl, rfl, rfl⟩

/-- What `cleanup` does to a stream to which nothing more can happen: it is gone, and noted. -/
structure Forgot (s t : Streams) (id : ℕ) (st : Stream) : Prop where
  streams : t.streams = s.streams.remove id
  parked : t.parked = s.parked.remove id
  send_queue : t.send_queue = s.send_queue
  forgotten : t.forgotten = s.forgotten ++ [(id, st)]
  accounts : { t.accounts with
      forgotten := [], max_streams := ⟨0, 0⟩, peer_closed := ⟨0, 0⟩ } =
    { s.accounts with forgotten := [], max_streams := ⟨0, 0⟩, peer_closed := ⟨0, 0⟩ }
  max_streams : (∀ k, s.max_streams.get k ≤ MAX_VARINT) →
    ∀ k, s.max_streams.get k ≤ t.max_streams.get k ∧ t.max_streams.get k ≤ MAX_VARINT

lemma cleanup_cases (s : Streams) (id : ℕ) :
    s.cleanup id = s ∨
      ∃ st, s.streams.get id = some st ∧ st.isOver = true ∧ Forgot s (s.cleanup id) id st := by
  rw [cleanup]
  split
  · exact .inl rfl
  rename_i st hst
  split
  · exact .inl rfl
  · rename_i hover
    refine .inr ⟨st, hst, by simpa using hover, ?_⟩
    dsimp only
    split
    · obtain ⟨h1, h2, h3, h4, h5⟩ := growStreamLimit_spec
        { s with
          streams := s.streams.remove id
          control := s.control.remove id
          parked := s.parked.remove id
          forgotten := s.forgotten ++ [(id, st)]
          peer_closed := s.peer_closed.set (kindOf id) (addU64 (s.peer_closed.get (kindOf id)) 1) }
        (kindOf id)
      have hforgotten := congrArg (·.forgotten) h1.accounts
      refine ⟨h3, h5, h4, hforgotten, ?_, h2⟩
      have hrest := congrArg (fun u : Streams =>
        { u with forgotten := [], max_streams := ⟨0, 0⟩, peer_closed := ⟨0, 0⟩ }) h1.accounts
      exact hrest
    · exact ⟨rfl, rfl, rfl, rfl, rfl, fun hmax k => ⟨le_rfl, hmax k⟩⟩

lemma Forgot.sendOf {t : Streams} {st : Stream} (h : Forgot s t id st) (j : ℕ) :
    t.sendOf j = if j = id then none else s.sendOf j := by
  rw [Streams.sendOf, h.streams, get_remove]
  split_ifs <;> rfl

lemma Forgot.recvOf {t : Streams} {st : Stream} (h : Forgot s t id st) (j : ℕ) :
    t.recvOf j = if j = id then none else s.recvOf j := by
  rw [Streams.recvOf, h.streams, get_remove]
  split_ifs <;> rfl

lemma Forgot.total {t : Streams} {st : Stream} (h : Forgot s t id st)
    (hst : s.streams.get id = some st) (f : Recv → ℕ) : t.total f = s.total f := by
  rw [Streams.total, Streams.total, h.streams, h.forgotten, ← sum_remove (Stream.part f) hst]
  simp only [List.map_append, List.map_cons, List.map_nil, List.sum_append, List.sum_cons,
    List.sum_nil]
  omega

end Streams

end Lazaret.Quic.Flow
