import Lazaret.H2.Talks

/-!
# A client within what the server allows

A session is a connection with all it has written (`sent`) and all it has taken in of the server's
bytes (`taken`).  The frames on the wire are tied to what the connection holds (`Tied`), and while
the connection is not lost every send window is what the server has granted less what was sent
(`Windows`).
-/

namespace Lazaret.H2

open Connection List BTreeMap

def endsStream (f : Bytes × Bytes) : Bool :=
  (kindOf f == kind.DATA || kindOf f == kind.HEADERS) && (headerOf f).has flag.END_STREAM

/-- `b` may come after `a`: no frame after a reset, no DATA or HEADERS after the end of a stream,
and streams are opened in the order of their ids. -/
structure Before (a b : Bytes × Bytes) : Prop where
  reset : kindOf a = kind.RST_STREAM → streamOf b ≠ streamOf a
  ended : endsStream a = true → streamOf b = streamOf a →
    kindOf b ≠ kind.DATA ∧ kindOf b ≠ kind.HEADERS
  opened : kindOf a = kind.HEADERS → kindOf b = kind.HEADERS → streamOf a < streamOf b

/-- The DATA payload of these frames on the stream `id`, or on all streams if that is 0. -/
def dataSent (id : ℕ) (sent : List (Bytes × Bytes)) : ℕ := (sent.map (flow id)).sum

/-- What a WINDOW_UPDATE of the server adds to the window of `id`, or of the connection if that is
0. -/
def increment (id : ℕ) (f : Bytes × Bytes) : ℕ :=
  if kindOf f = kind.WINDOW_UPDATE ∧ streamOf f = id then fromBe f.2 % 2 ^ 31 else 0

/-- All that the server has added to the window of `id`. -/
def increments (id : ℕ) (taken : Bytes) : ℕ := ((frames taken).map (increment id)).sum

/-! ### Sums -/

variable {c c' : Connection} {sent : List (Bytes × Bytes)} {t w : Bytes} {id : ℕ} {s : Stream}

lemma dataSent_append (id : ℕ) (sent sent' : List (Bytes × Bytes)) :
    dataSent id (sent ++ sent') = dataSent id sent + dataSent id sent' := by
  rw [dataSent, map_append, sum_append, dataSent, dataSent]

lemma flow_eq_zero {f : Bytes × Bytes} (h : kindOf f ≠ kind.DATA) : flow id f = 0 := by
  rw [flow, if_neg]
  exact fun hk => h hk.1

lemma dataSent_eq_zero (h : ∀ f ∈ sent, flow id f = 0) : dataSent id sent = 0 := by
  induction sent with
  | nil => rfl
  | cons f sent ih =>
    rw [dataSent, map_cons, sum_cons, h f (mem_cons_self ..), zero_add]
    exact ih fun g hg => h g (mem_cons_of_mem _ hg)

lemma dataSent_answers (h : ∀ f ∈ frames w, ¬ OfRequest f) :
    dataSent id (sent ++ frames w) = dataSent id sent := by
  have hzero : dataSent id (frames w) = 0 :=
    dataSent_eq_zero fun f hf => flow_eq_zero fun hk => h f hf (.inl hk)
  rw [dataSent_append, hzero, add_zero]

@[simp] lemma increments_nil (id : ℕ) : increments id [] = 0 := by
  rw [increments, frames, Framing.frames_nil, map_nil, sum_nil]

lemma increments_frame {whole header part : Bytes} (hwhole : Whole whole)
    (hheader : header.length = HEADER_LEN) (hpart : part.length ≤ (Header.parse header).length)
    (id : ℕ) : increments id (whole ++ (header ++ part)) =
      increments id whole + increment id (header, part) := by
  rw [increments, frames_frame hwhole hheader hpart, map_append, sum_append, increments,
    map_singleton, sum_singleton]

lemma increment_eq_zero {f : Bytes × Bytes} (h : kindOf f ≠ kind.WINDOW_UPDATE) (id : ℕ) :
    increment id f = 0 := by
  rw [increment, if_neg]
  exact fun hk => h hk.1

lemma At.increments_append {taken more : Bytes} {i : Incoming} (h : At taken (some i))
    (hmore : more.length ≤ i.remaining) (id : ℕ) :
    increments id (taken ++ more) = increments id taken := by
  obtain ⟨whole, header, part, rfl, hwhole, hheader, hkind, hpad, hstream, hlen, hpos⟩ := h
  have heq : whole ++ (header ++ part) ++ more = whole ++ (header ++ (part ++ more)) := by simp
  have hdata : ∀ part, increment id (header, part) = 0 := by
    intro part
    refine increment_eq_zero ?_ id
    rw [kindOf, headerOf, hkind]
    decide
  rw [heq, increments_frame hwhole hheader (by rw [length_append]; omega),
    increments_frame hwhole hheader (by omega), hdata, hdata]

/-! ### What was written and what is held -/

/-- What the frames that were written say about the streams that are held. -/
structure Tied (sent : List (Bytes × Bytes)) (c : Connection) : Prop where
  ids : ∀ id s, c.streams.get id = some s → id % 2 = 1 ∧ id < c.next_stream_id
  next : c.next_stream_id % 2 = 1 ∧ c.next_stream_id ≤ 2 ^ 31 + 1
  below : ∀ f ∈ sent, streamOf f < c.next_stream_id
  ordered : sent.Pairwise Before
  odd : ∀ f ∈ sent, kindOf f = kind.HEADERS → streamOf f % 2 = 1
  nonzero : ∀ f ∈ sent, kindOf f = kind.RST_STREAM → streamOf f ≠ 0
  reset : ∀ f ∈ sent, kindOf f = kind.RST_STREAM →
    ∀ s, c.streams.get (streamOf f) = some s → s.failure ≠ none
  ended : ∀ f ∈ sent, endsStream f = true →
    ∀ s, c.streams.get (streamOf f) = some s → s.local_ended = true

/-- Every send window is what the server has granted less what was sent. -/
structure Windows (sent : List (Bytes × Bytes)) (t : Bytes) (c : Connection) : Prop where
  connection : c.send_window = (DEFAULT_WINDOW : ℤ) + increments 0 t - dataSent 0 sent
  range : 0 ≤ c.send_window ∧ c.send_window ≤ (MAX_WINDOW : ℤ)
  unopened : ∀ id, c.next_stream_id ≤ id → increments id t = 0
  streams : ∀ id s, c.streams.get id = some s →
    s.send_window = c.peer_initial_window + increments id t - dataSent id sent
  initial : c.peer_initial_window ≤ (MAX_WINDOW : ℤ)

/-- No stream that has not failed has a send window that is too large. -/
def Bounded (c : Connection) : Prop :=
  ∀ id s, c.live id = some s → s.send_window ≤ (MAX_WINDOW : ℤ)

namespace Tied

lemma clientIds (h : Tied sent c) : ClientIds c := by
  intro id s hs
  obtain ⟨h1, h2⟩ := h.ids id s hs
  obtain ⟨h3, h4⟩ := h.next
  exact ⟨h1, by omega⟩

lemma endsStream_answer {f : Bytes × Bytes} (h : ¬ OfRequest f) : endsStream f = false := by
  rw [endsStream, Bool.and_eq_false_iff, Bool.or_eq_false_iff, beq_eq_false_iff_ne,
    beq_eq_false_iff_ne]
  exact .inl ⟨fun hk => h (.inl hk), fun hk => h (.inr (.inl hk))⟩

theorem talks (h : Tied sent c) (hw : Talks c c' w) : Tied (sent ++ frames w) c' where
  ids := by
    intro id s' hs'
    obtain ⟨s, hs, -⟩ := hw.streams id s' hs'
    rw [hw.next_stream_id]
    exact h.ids id s hs
  next := by
    rw [hw.next_stream_id]
    exact h.next
  below := by
    intro f hf
    rw [hw.next_stream_id]
    rcases mem_append.1 hf with hf | hf
    · exact h.below f hf
    · rcases eq_zero_or_pos (streamOf f) with h0 | hpos
      · have := h.next.1
        omega
      · obtain ⟨s, hs⟩ := hw.onLive f hf hpos.ne'
        exact (h.ids _ s (live_eq_some.1 hs).1).2
  ordered := by
    rw [pairwise_append]
    refine ⟨h.ordered, ?_, ?_⟩
    · refine hw.ordered.imp_of_mem fun {a b} ha hb hrst => ⟨hrst, fun hends => ?_, fun hk => ?_⟩
      · rw [endsStream_answer (hw.answers a ha)] at hends
        cases hends
      · exact absurd (.inr (.inl hk)) (hw.answers a ha)
    · intro a ha b hb
      refine ⟨fun hrst heq => ?_, fun _ _ => ?_, fun _ hk => ?_⟩
      · have hne := h.nonzero a ha hrst
        rw [← heq] at hne
        obtain ⟨s, hs⟩ := hw.onLive b hb hne
        rw [heq] at hs
        obtain ⟨hget, hfail⟩ := live_eq_some.1 hs
        exact h.reset a ha hrst s hget hfail
      · exact ⟨fun hk => hw.answers b hb (.inl hk), fun hk => hw.answers b hb (.inr (.inl hk))⟩
      · exact absurd (.inr (.inl hk)) (hw.answers b hb)
  odd := by
    intro f hf hk
    rcases mem_append.1 hf with hf | hf
    · exact h.odd f hf hk
    · exact absurd (.inr (.inl hk)) (hw.answers f hf)
  nonzero := by
    intro f hf hk
    rcases mem_append.1 hf with hf | hf
    · exact h.nonzero f hf hk
    · exact (hw.reset f hf hk).1
  reset := by
    intro f hf hk s' hs'
    rcases mem_append.1 hf with hf | hf
    · obtain ⟨s, hs, hl⟩ := hw.streams _ s' hs'
      exact hl.1 (h.reset f hf hk s hs)
    · exact (hw.reset f hf hk).2 s' hs'
  ended := by
    intro f hf hends s' hs'
    rcases mem_append.1 hf with hf | hf
    · obtain ⟨s, hs, hl⟩ := hw.streams _ s' hs'
      exact hl.2 (h.ended f hf hends s hs)
    · rw [endsStream_answer (hw.answers f hf)] at hends
      cases hends

lemma dataSent_unopened (h : Tied sent c) (hid : c.next_stream_id ≤ id) : dataSent id sent = 0 := by
  refine dataSent_eq_zero fun f hf => ?_
  have hlt := h.below f hf
  have hnext := h.next.1
  rw [streamOf] at hlt
  rw [flow, if_neg]
  rintro ⟨-, h0 | h0⟩ <;> omega

end Tied

namespace Windows

theorem answers {t' : Bytes} (h : Windows sent t c) (hw : Talks c c' w) (hs : Steady c c')
    (ht : ∀ id, increments id t' = increments id t) : Windows (sent ++ frames w) t' c' where
  connection := by
    rw [hs.send_window, ht, dataSent_answers hw.answers]
    exact h.connection
  range := by
    rw [hs.send_window]
    exact h.range
  unopened := by
    intro id hid
    rw [ht]
    exact h.unopened id (hw.next_stream_id ▸ hid)
  streams := by
    intro id s' hs'
    obtain ⟨s, hget, -⟩ := hw.streams id s' hs'
    rw [hs.streams id s s' hget hs', hs.initial, ht, dataSent_answers hw.answers]
    exact h.streams id s hget
  initial := by
    rw [hs.initial]
    exact h.initial

lemma dataSent_le (h : Windows sent t c) : dataSent 0 sent ≤ DEFAULT_WINDOW + increments 0 t := by
  have h1 := h.connection
  have h2 := h.range.1
  omega

end Windows

lemma Bounded.answers (h : Bounded c) (hw : Talks c c' w) (hs : Steady c c') : Bounded c' := by
  intro id s' hs'
  obtain ⟨s, hlive⟩ := hw.live hs'
  rw [hs.streams id s s' (live_eq_some.1 hlive).1 (live_eq_some.1 hs').1]
  exact h id s hlive

/-- A connection that is not lost, with what it has written and taken in. -/
structure Fair (sent : List (Bytes × Bytes)) (t : Bytes) (c : Connection) : Prop where
  tied : Tied sent c
  windows : Windows sent t c
  bounded : Bounded c

/-- What was written from `c` to `c'`: whole frames, all of them answers. -/
structure Wrote (c c' : Connection) (w : Bytes) : Prop where
  out : c'.out = c.out ++ w
  whole : Whole w
  answers : ∀ f ∈ frames w, ¬ OfRequest f

lemma Connection.Talks.wrote (h : Talks c c' w) : Wrote c c' w := ⟨h.out, h.whole, h.answers⟩

lemma Wrote.trans {c'' : Connection} {w' : Bytes} (h : Wrote c c' w) (h' : Wrote c' c'' w') :
    Wrote c c'' (w ++ w') := by
  refine ⟨by rw [h'.out, h.out, append_assoc], h.whole.append h'.whole, fun f hf => ?_⟩
  rw [frames_append h.whole, mem_append] at hf
  rcases hf with hf | hf
  · exact h.answers f hf
  · exact h'.answers f hf

theorem Fair.answering {t' : Bytes} (h : Fair sent t c) (ha : Answering c c')
    (ht : ∀ id, increments id t' = increments id t) :
    ∃ w, Wrote c c' w ∧ Fair (sent ++ frames w) t' c' := by
  obtain ⟨w, hw, hs⟩ := ha h.tied.clientIds
  exact ⟨w, hw.wrote, h.tied.talks hw, h.windows.answers hw hs ht, h.bounded.answers hw hs⟩

lemma Tied.talking (h : Tied sent c) (ha : Talking c c') :
    ∃ w, Wrote c c' w ∧ Tied (sent ++ frames w) c' := by
  obtain ⟨w, hw⟩ := ha h.clientIds
  exact ⟨w, hw.wrote, h.talks hw⟩

lemma Fair.taken {t' : Bytes} (h : Fair sent t c) (ht : ∀ id, increments id t' = increments id t) :
    Fair sent t' c := by
  refine ⟨h.tied, ⟨?_, h.windows.range, ?_, ?_, h.windows.initial⟩, h.bounded⟩
  · rw [ht]
    exact h.windows.connection
  · intro id hid
    rw [ht]
    exact h.windows.unopened id hid
  · intro id s hs
    rw [ht]
    exact h.windows.streams id s hs

lemma Fair.same (h : Fair sent t c) (hstreams : c'.streams = c.streams)
    (hnext : c'.next_stream_id = c.next_stream_id) (hsend : c'.send_window = c.send_window)
    (hinitial : c'.peer_initial_window = c.peer_initial_window) : Fair sent t c' := by
  refine ⟨⟨?_, ?_, ?_, h.tied.ordered, h.tied.odd, h.tied.nonzero, ?_, ?_⟩,
    ⟨?_, ?_, ?_, ?_, ?_⟩, ?_⟩
  · rw [hstreams, hnext]
    exact h.tied.ids
  · rw [hnext]
    exact h.tied.next
  · rw [hnext]
    exact h.tied.below
  · rw [hstreams]
    exact h.tied.reset
  · rw [hstreams]
    exact h.tied.ended
  · rw [hsend]
    exact h.windows.connection
  · rw [hsend]
    exact h.windows.range
  · rw [hnext]
    exact h.windows.unopened
  · rw [hstreams, hinitial]
    exact h.windows.streams
  · rw [hinitial]
    exact h.windows.initial
  · simp only [Bounded, live, hstreams]
    exact h.bounded

/-! ### Frames that move the windows -/

lemma Fair.moveWindows {value : ℕ} (h : Fair sent t c) (hvalue : value ≤ MAX_WINDOW)
    (hok : ({ c with peer_initial_window := value }.moveWindows
      (value - c.peer_initial_window)).2 = .ok ()) :
    Fair sent t ({ c with peer_initial_window := (value : ℤ) }.moveWindows
      (value - c.peer_initial_window)).1 := by
  rw [Connection.moveWindows] at hok ⊢
  dsimp only at hok ⊢
  split at hok
  · rename_i hnone
    have hget : ∀ id s', (c.streams.map fun _ s => { s with
        send_window := s.send_window + ((value : ℤ) - c.peer_initial_window) }).get id = some s' →
        ∃ s, c.streams.get id = some s ∧ { s with
          send_window := s.send_window + ((value : ℤ) - c.peer_initial_window) } = s' := by
      intro id s' hs'
      rwa [get_map, Option.map_eq_some_iff] at hs'
    have hmax : (value : ℤ) ≤ (MAX_WINDOW : ℤ) := by exact_mod_cast hvalue
    refine ⟨?_, ?_, ?_⟩
    · have hquiet : Talks c { c with
          peer_initial_window := (value : ℤ)
          streams := c.streams.map fun _ s => { s with
            send_window := s.send_window + ((value : ℤ) - c.peer_initial_window) } } [] := by
        refine Talks.quiet rfl rfl fun id s' hs' => ?_
        obtain ⟨s, hs, rfl⟩ := hget id s' hs'
        exact ⟨s, hs, fun h => h, fun h => h⟩
      have htied := h.tied.talks hquiet
      rwa [frames_nil_eq, append_nil] at htied
    · refine ⟨h.windows.connection, h.windows.range, h.windows.unopened, fun id s' hs' => ?_, hmax⟩
      obtain ⟨s, hs, rfl⟩ := hget id s' hs'
      have hw := h.windows.streams id s hs
      dsimp only
      omega
    · intro id s' hs'
      obtain ⟨s, hs, rfl⟩ := hget id s' (live_eq_some.1 hs').1
      have hall := List.find?_eq_none.1 hnone (id, s) (get_eq_some.1 hs)
      simpa using hall
  · cases hok

lemma Fair.onSetting {value : ℕ} (h : Fair sent t c) (hok : (c.onSetting id value).2 = .ok ()) :
    Fair sent t (c.onSetting id value).1 := by
  rw [Connection.onSetting] at hok ⊢
  split_ifs at hok ⊢ with h1 h2 h3 h4 h5 h6 h7 h8
  · split
    · exact h.same rfl rfl rfl rfl
    · exact h
  · exact h
  · exact h.same rfl rfl rfl rfl
  · exact h.moveWindows (by omega) hok
  · exact h.same rfl rfl rfl rfl
  · exact h.same rfl rfl rfl rfl
  · exact h

lemma Fair.onSettingsRest {values : List (ℕ × ℕ)} (h : Fair sent t c)
    (hok : (c.onSettingsRest values).2 = .ok ()) : Fair sent t (c.onSettingsRest values).1 := by
  induction values generalizing c with
  | nil => exact h
  | cons v values ih =>
    obtain ⟨id, value⟩ := v
    have hone : (c.onSetting id value).2 = .ok () → Fair sent t (c.onSetting id value).1 :=
      h.onSetting
    rw [Connection.onSettingsRest] at hok ⊢
    rcases hc : c.onSetting id value with ⟨c₁, r⟩
    rw [hc] at hok hone
    cases r with
    | ok u => exact ih (hone rfl) hok
    | err | fault => cases hok

lemma out_onSettingsRest (c : Connection) (values : List (ℕ × ℕ)) :
    (c.onSettingsRest values).1.out = c.out := by
  have hone : ∀ (c : Connection) (id value : ℕ), (c.onSetting id value).1.out = c.out := by
    intro c id value
    rw [Connection.onSetting]
    split_ifs
    · split <;> rfl
    all_goals first | rfl | skip
    rw [Connection.moveWindows]
    dsimp only
    split <;> rfl
  induction values generalizing c with
  | nil => rfl
  | cons v values ih =>
    have h1 := hone c v.1 v.2
    rw [Connection.onSettingsRest]
    split
    all_goals
      rename_i h
      rw [h] at h1
    · exact (ih _).trans h1
    · exact h1

lemma Fair.onSettings {ack : Bool} {values : List (ℕ × ℕ)} (h : Fair sent t c)
    (hok : (c.onSettings ack values).2 = .ok ()) :
    ∃ w, Wrote c (c.onSettings ack values).1 w ∧
      Fair (sent ++ frames w) t (c.onSettings ack values).1 := by
  have hgot : Fair sent t { c with got_peer_settings := true } := h.same rfl rfl rfl rfl
  have hout := out_onSettingsRest { c with got_peer_settings := true } values
  rw [Connection.onSettings] at hok ⊢
  split_ifs at hok ⊢ with hack
  · exact h.answering (Answering.refl c) fun _ => rfl
  · have hrest : ({ c with got_peer_settings := true }.onSettingsRest values).2 = .ok () →
        Fair sent t ({ c with got_peer_settings := true }.onSettingsRest values).1 :=
      hgot.onSettingsRest
    rcases hc : { c with got_peer_settings := true }.onSettingsRest values with ⟨c₁, r⟩
    rw [hc] at hok hrest hout ⊢
    cases r with
    | ok u =>
      obtain ⟨w, hw, hfair⟩ := (hrest rfl).answering
        (answering_answer (answering_settingsAck c₁)) fun _ => rfl
      exact ⟨w, ⟨hw.out.trans (congrArg (· ++ w) hout), hw.whole, hw.answers⟩, hfair⟩
    | err | fault => cases hok

lemma Fair.onWindowUpdate {t' : Bytes} {n : ℕ} (h : Fair sent t c)
    (ht : ∀ i, increments i t' = increments i t + if id = i then n else 0)
    (hok : (c.onWindowUpdate id n).2 = .ok ()) :
    ∃ w, Wrote c (c.onWindowUpdate id n).1 w ∧
      Fair (sent ++ frames w) t' (c.onWindowUpdate id n).1 := by
  have hnil : sent ++ frames [] = sent := by rw [frames_nil_eq, append_nil]
  have hquiet : ∀ c' : Connection, c'.out = c.out → Wrote c c' [] := fun c' hout =>
    ⟨by rw [hout, append_nil], Whole.nil, by simp [frames_nil_eq]⟩
  rw [Connection.onWindowUpdate] at hok ⊢
  by_cases h0 : id = 0
  · rw [if_pos h0] at hok ⊢
    dsimp only at hok ⊢
    split_ifs at hok ⊢ with hmax
    have hnext := h.tied.next.1
    refine ⟨[], hquiet _ rfl, ?_⟩
    rw [hnil]
    refine ⟨⟨h.tied.ids, h.tied.next, h.tied.below, h.tied.ordered, h.tied.odd, h.tied.nonzero,
      h.tied.reset, h.tied.ended⟩, ⟨?_, ?_, ?_, ?_, h.windows.initial⟩, h.bounded⟩
    · have hw := h.windows.connection
      rw [ht, if_pos h0]
      dsimp only
      push_cast
      omega
    · have hw := h.windows.range.1
      exact ⟨by dsimp only; omega, not_lt.1 hmax⟩
    · intro i hi
      have hi' : c.next_stream_id ≤ i := hi
      rw [ht, if_neg (by omega), add_zero]
      exact h.windows.unopened i hi
    · intro i s hs
      have hi := (h.tied.ids i s hs).1
      rw [ht, if_neg (by omega), add_zero]
      exact h.windows.streams i s hs
  · rw [if_neg h0] at hok ⊢
    by_cases hknown : id % 2 = 0 ∨ id ≥ c.next_stream_id
    · rw [if_pos hknown] at hok
      cases hok
    · rw [if_neg hknown] at hok ⊢
      rw [not_or, not_le] at hknown
      have hother : ∀ i, i ≠ id → increments i t' = increments i t := by
        intro i hi
        rw [ht, if_neg (Ne.symm hi), add_zero]
      have hconn : increments 0 t' = increments 0 t := hother 0 (Ne.symm h0)
      have hnew : ∀ i, c.next_stream_id ≤ i → increments i t' = 0 := by
        intro i hi
        rw [hother i (by omega)]
        exact h.windows.unopened i hi
      cases hget : c.streams.get id with
      | none =>
        dsimp only
        refine ⟨[], hquiet _ rfl, ?_⟩
        rw [hnil]
        refine ⟨h.tied, ⟨?_, h.windows.range, hnew, fun i s hs => ?_, h.windows.initial⟩,
          h.bounded⟩
        · rw [hconn]
          exact h.windows.connection
        · rw [hother i (by rintro rfl; rw [hget] at hs; cases hs)]
          exact h.windows.streams i s hs
      | some s =>
        dsimp only
        have hset : Talks c (c.setStream id
            { s with send_window := s.send_window + n }) [] :=
          talks_setStream hget ⟨fun h => h, fun h => h⟩
        have htied : Tied sent (c.setStream id { s with send_window := s.send_window + n }) := by
          have := h.tied.talks hset
          rwa [hnil] at this
        have hwin : Windows sent t' (c.setStream id
            { s with send_window := s.send_window + n }) := by
          refine ⟨?_, h.windows.range, hnew, fun i s' hs' => ?_, h.windows.initial⟩
          · rw [hconn]
            exact h.windows.connection
          · rcases get_insert_eq_some.1 hs' with ⟨rfl, rfl⟩ | ⟨hi, hs'⟩
            · have hw := h.windows.streams i s hget
              rw [ht, if_pos rfl]
              dsimp only
              push_cast
              have hinit : (c.setStream i { s with
                  send_window := s.send_window + n }).peer_initial_window =
                  c.peer_initial_window := rfl
              omega
            · rw [hother i hi]
              exact h.windows.streams i s' hs'
        split_ifs with hmax
        · -- the stream that went over its limit has failed
          obtain ⟨w, hw, hs⟩ := answering_streamError (c.setStream id
            { s with send_window := s.send_window + n }) id .FLOW_CONTROL_ERROR
            "the stream window went over 2^31 - 1" htied.clientIds
          refine ⟨w, ⟨hw.out, hw.whole, hw.answers⟩, htied.talks hw,
            hwin.answers hw hs fun _ => rfl, fun i s' hs' => ?_⟩
          obtain ⟨s₁, hlive⟩ := hw.live hs'
          obtain ⟨hget₁, hfail₁⟩ := live_eq_some.1 hlive
          obtain ⟨hget', hfail'⟩ := live_eq_some.1 hs'
          rw [hs.streams i s₁ s' hget₁ hget']
          rcases get_insert_eq_some.1 hget₁ with ⟨rfl, -⟩ | ⟨hi, hold⟩
          · exact absurd hfail' (failed_streamError hlive _ _ hget')
          · exact h.bounded i s₁ (live_eq_some.2 ⟨hold, hfail₁⟩)
        · refine ⟨[], hquiet _ rfl, ?_⟩
          rw [hnil]
          refine ⟨htied, hwin, fun i s' hs' => ?_⟩
          obtain ⟨hget', hfail'⟩ := live_eq_some.1 hs'
          rcases get_insert_eq_some.1 hget' with ⟨rfl, rfl⟩ | ⟨hi, hold⟩
          · exact not_lt.1 hmax
          · exact h.bounded i s' (live_eq_some.2 ⟨hold, hfail'⟩)

/-! ### Feeding -/

/-- The tables of the header compression are well-formed. -/
def Tables (c : Connection) : Prop := c.decoder.table.Wf ∧ c.encoder.table.Wf

/-- The connection is no more lost than it was, and its tables are well-formed if they were. -/
structure Passes (c c' : Connection) : Prop where
  error : c'.error = c.error
  tables : Tables c → Tables c'

lemma Connection.Handled.passes (h : Handled c c') : Passes c c' :=
  ⟨h.error, fun ht => ⟨h.decoder ht.1, h.encoder ht.2⟩⟩

/-- A feed that began at `c₀`, with `sent` written before, and is going on. -/
def During (c₀ : Connection) (sent : List (Bytes × Bytes)) (t : Bytes) (f : Feeding) : Prop :=
  (f.c.error = none ∧ Tables f.c) ∧ At t f.c.incoming ∧
    ∃ w, Wrote c₀ f.c w ∧ Fair (sent ++ frames w) t f.c

/-- A feed that began at `c₀` and has come to an end; with an error the windows are not what they
were. -/
def Through (c₀ : Connection) (sent : List (Bytes × Bytes)) (t : Bytes) (f : Feeding)
    (r : Outcome ConnectionError Unit) : Prop :=
  r ≠ .fault ∧ (∃ w, Wrote c₀ f.c w ∧ Tied (sent ++ frames w) f.c) ∧
    (r = .ok () → During c₀ sent t f)

variable {c₀ : Connection} {f f' : Feeding} {t' : Bytes}

lemma During.at {i : Option Incoming} (h : During c₀ sent t f) (hi : f.c.incoming = i) : At t i :=
  hi ▸ h.2.1

lemma During.answering (h : During c₀ sent t f) (ha : Answering f.c f'.c)
    (hp : Passes f.c f'.c) (hat : At t' f'.c.incoming)
    (ht : ∀ id, increments id t' = increments id t) : During c₀ sent t' f' := by
  obtain ⟨h1, -, w, hw, hfair⟩ := h
  obtain ⟨w', hw', hfair'⟩ := hfair.answering ha ht
  refine ⟨⟨hp.error.trans h1.1, hp.tables h1.2⟩, hat, w ++ w', hw.trans hw', ?_⟩
  rwa [frames_append hw.whole, ← append_assoc]

lemma During.through {r : Outcome ConnectionError Unit} (h : During c₀ sent t f)
    (hr : r ≠ .fault) : Through c₀ sent t f r := by
  obtain ⟨h1, hat, w, hw, hfair⟩ := h
  exact ⟨hr, ⟨w, hw, hfair.tied⟩, fun _ => ⟨h1, hat, w, hw, hfair⟩⟩

lemma During.talking {r : Outcome ConnectionError Unit} (h : During c₀ sent t f)
    (ha : Talking f.c f'.c) (hfault : r ≠ .fault) (hr : r ≠ .ok ()) : Through c₀ sent t' f' r := by
  obtain ⟨-, -, w, hw, hfair⟩ := h
  obtain ⟨w', hw', htied⟩ := hfair.tied.talking ha
  refine ⟨hfault, ⟨w ++ w', hw.trans hw', ?_⟩, fun hok => absurd hok hr⟩
  rwa [frames_append hw.whole, ← append_assoc]

lemma talking_handleFrame (f : Feeding) {header payload : Bytes}
    (hpayload : payload.length = (Header.parse header).length) :
    Talking f.c (handleFrame f (Header.parse header) payload).1.c := by
  rw [handleFrame]
  split
  · rename_i frame hparse
    exact talking_handle f (Frame.parse_wf hpayload hparse)
  · exact (Answering.refl _).talking
  · exact (answering_streamError _ _ _ _).talking

lemma During.handleFrame {header payload : Bytes} (h : During c₀ sent t f)
    (hi : f.c.incoming = none) (hheader : header.length = HEADER_LEN)
    (hpayload : payload.length = (Header.parse header).length)
    (hok : (Connection.handleFrame f (Header.parse header) payload).2 = .ok ()) :
    During c₀ sent (t ++ (header ++ payload))
      (Connection.handleFrame f (Header.parse header) payload).1 := by
  have htakes := (takes_handleFrame f hpayload).1
  have hwhole : Whole t := h.at hi
  have hat : At (t ++ (header ++ payload))
      (Connection.handleFrame f (Header.parse header) payload).1.c.incoming := by
    rw [htakes.incoming, hi]
    exact whole_frame hwhole hheader hpayload
  have hinc : ∀ id, increments id (t ++ (header ++ payload)) =
      increments id t + increment id (header, payload) :=
    increments_frame hwhole hheader hpayload.le
  have hzero : (Header.parse header).kind ≠ kind.WINDOW_UPDATE →
      ∀ id, increments id (t ++ (header ++ payload)) = increments id t := by
    intro hk id
    have hkind : kindOf (header, payload) ≠ kind.WINDOW_UPDATE := by
      rw [kindOf, headerOf]
      exact hk
    rw [hinc, increment_eq_zero hkind id, add_zero]
  rw [Connection.handleFrame] at hok hat htakes ⊢
  cases hparse : Frame.parse (Header.parse header) payload with
  | error e =>
    obtain ⟨code, stream, reason⟩ := e
    rw [hparse] at hok hat htakes
    cases stream with
    | none => cases hok
    | some id =>
      refine h.answering (answering_streamError _ _ _ _) htakes.passes hat fun i => ?_
      by_cases hk : (Header.parse header).kind = kind.WINDOW_UPDATE
      · rw [hinc, increment, Frame.parse_windowUpdate_error hk hparse, ite_self, add_zero]
      · exact hzero hk i
  | ok frame =>
    rw [hparse] at hok hat htakes
    dsimp only at hok hat htakes ⊢
    have hwf := Frame.parse_wf hpayload hparse
    cases hm : movesWindows frame with
    | false =>
      refine h.answering (answering_handle f hwf hm) htakes.passes hat (hzero fun hk => ?_)
      rw [Frame.parse_windowUpdate hk hparse] at hm
      cases hm
    | true =>
      obtain ⟨h1, -, w, hw, hfair⟩ := h
      rw [Connection.handle] at hok hat htakes ⊢
      split at hok
      · cases hok
      rename_i horder
      rw [if_neg horder] at hat htakes ⊢
      have hreset : Fair (sent ++ frames w) t (f.c.resetEmpty frame) := by
        rw [resetEmpty]
        split_ifs
        · exact hfair
        · exact hfair.same rfl rfl rfl rfl
      have hout : (f.c.resetEmpty frame).out = f.c.out := by
        rw [resetEmpty]
        split_ifs <;> rfl
      have hgo : ∀ c' : Connection, Passes f.c c' → At (t ++ (header ++ payload)) c'.incoming →
          (∃ w', Wrote (f.c.resetEmpty frame) c' w' ∧
            Fair (sent ++ frames w ++ frames w') (t ++ (header ++ payload)) c') →
          During c₀ sent (t ++ (header ++ payload)) ⟨c', f.direct⟩ := by
        rintro c' hp hat ⟨w', hw', hfair'⟩
        have hw'' : Wrote f.c c' w' := ⟨by rw [hw'.out, hout], hw'.whole, hw'.answers⟩
        refine ⟨⟨hp.error.trans h1.1, hp.tables h1.2⟩, hat, w ++ w', hw.trans hw'', ?_⟩
        rwa [frames_append hw.whole, ← append_assoc]
      cases frame with
      | Settings ack values =>
        refine hgo _ htakes.passes hat ?_
        have hk : (Header.parse header).kind ≠ kind.WINDOW_UPDATE := by
          intro hk
          have hf := Frame.parse_windowUpdate hk hparse
          cases hf
        exact (hreset.taken (hzero hk)).onSettings hok
      | WindowUpdate stream n =>
        have hk : (Header.parse header).kind = kind.WINDOW_UPDATE :=
          by_contra fun hk => Frame.parse_ne_windowUpdate hk hparse stream n rfl
        have hf := Frame.parse_windowUpdate hk hparse
        cases hf
        refine hgo _ htakes.passes hat (hreset.onWindowUpdate (fun i => ?_) hok)
        rw [hinc, increment, kindOf, streamOf, headerOf, hk]
        simp only [true_and]
      | _ => cases hm

lemma beginData_spec (c : Connection) (h : Header) :
    Passes c (c.beginData h).1 ∧ (Tables c → (c.beginData h).2 ≠ .fault) ∧
      ((c.beginData h).2 = .ok () → ∃ keep, (c.beginData h).1.incoming =
        some ⟨h.stream, h.length, h.has flag.END_STREAM, keep⟩) := by
  obtain ⟨hcheck, hfault⟩ := takes_checkData { c with empty_frames := 0 } h.stream
    (h.has flag.END_STREAM) h.length h.length
  have hp : Passes c ({ c with empty_frames := 0 }.checkData h.stream (h.has flag.END_STREAM)
      h.length h.length).1 := ⟨hcheck.error, hcheck.passes.tables⟩
  rw [beginData]
  split
  all_goals
    rename_i hc
    rw [hc] at hp hfault
  · exact ⟨⟨hp.error, hp.tables⟩, by simp, fun _ => ⟨_, rfl⟩⟩
  · exact ⟨hp, by simp, fun hok => by cases hok⟩
  · exact ⟨hp, fun ht => absurd rfl (hfault ht.1 ht.2), fun hok => by cases hok⟩

lemma answering_arrive (f : Feeding) (i : Incoming) (bytes : Bytes) :
    Answering f.c (arrive f i bytes).c := by
  have hset : Answering f.c { f.c with
      incoming := some { i with remaining := i.remaining - bytes.length } } :=
    answering_of_eq rfl rfl rfl rfl rfl
  exact hset.trans (answering_dataBytes ⟨_, f.direct⟩ i.stream i.keep bytes)

lemma answering_arriveLast (f : Feeding) (i : Incoming) (bytes : Bytes) :
    Answering f.c (arriveLast f i bytes).c := by
  have hset : Answering f.c { f.c with incoming := none } := answering_of_eq rfl rfl rfl rfl rfl
  exact (hset.trans (answering_dataBytes ⟨_, f.direct⟩ i.stream i.keep bytes)).trans
    (answering_dataEnd _ _ _ _ _)

lemma passes_arrive (f : Feeding) (i : Incoming) (bytes : Bytes) :
    Passes f.c (arrive f i bytes).c := by
  have h := kept_dataBytes { f with c := { f.c with
    incoming := some { i with remaining := i.remaining - bytes.length } } } i.stream i.keep bytes
  exact ⟨h.error, h.handled.passes.tables⟩

lemma passes_arriveLast (f : Feeding) (i : Incoming) (bytes : Bytes) :
    Passes f.c (arriveLast f i bytes).c := by
  have h := (kept_dataBytes { f with c := { f.c with incoming := none } } i.stream i.keep
    bytes).trans (kept_dataEnd _ i.stream i.keep i.end_stream 0)
  exact ⟨h.error, h.handled.passes.tables⟩

theorem during_turn (t : Bytes) (s : Running) (x : Running ⊕ Ran) (h : During c₀ sent t s.f)
    (hx : Turns s x) : Steps (During c₀ sent) (Through c₀ sent) t s x := by
  have hstay : ∀ r, r ≠ .fault →
      ∃ used, s.rest = used ++ s.rest ∧ Through c₀ sent (t ++ used) s.f r := fun r hr =>
    ⟨[], rfl, by rw [append_nil]; exact h.through hr⟩
  cases hx with
  | @arriving i hi hlt =>
    have hat := h.at hi
    refine ⟨s.rest, (append_nil _).symm, During.through ?_ (by simp)⟩
    refine h.answering (answering_arrive s.f i s.rest) (passes_arrive s.f i s.rest) ?_
      fun id => hat.increments_append hlt.le id
    rw [incoming_arrive]
    exact hat.arrive hlt
  | @arrived i hi hle =>
    have hat := h.at hi
    have hlen : (s.rest.take i.remaining).length = i.remaining := length_take_of_le (by omega)
    refine ⟨s.rest.take i.remaining, (take_append_drop _ _).symm, ?_⟩
    refine h.answering (answering_arriveLast s.f i _) (passes_arriveLast s.f i _) ?_
      fun id => hat.increments_append hlen.le id
    rw [incoming_arriveLast]
    exact hat.arriveLast hlen
  | short | large | cut | unsettled => exact hstay _ (by simp)
  | @begun header rest c hi hrest hheader hlen hcut hstream hbegin =>
    have hwhole : Whole t := h.at hi
    obtain ⟨hp, -, hinc⟩ := beginData_spec s.f.c (Header.parse header)
    have ha := answering_beginData s.f.c (Header.parse header)
    rw [hbegin] at hp hinc ha
    obtain ⟨keep, hinc⟩ := hinc rfl
    simp only [streamable, Bool.and_eq_true, beq_iff_eq, Bool.not_eq_true'] at hstream
    have hkind : kindOf (header, []) ≠ kind.WINDOW_UPDATE := by
      rw [kindOf, headerOf, hstream.1.1.1.1]
      decide
    refine ⟨header, hrest, h.answering ha hp ?_ fun id => ?_⟩
    · rw [hinc]
      refine ⟨t, header, [], by simp, hwhole, hheader, hstream.1.1.1.1, hstream.1.1.1.2,
        rfl, ?_, ?_⟩
      · simp
      · dsimp only
        omega
    · have hadd := @increments_frame t header [] hwhole hheader (Nat.zero_le _) id
      rwa [increment_eq_zero hkind, append_nil, add_zero] at hadd
  | @notBegun header rest c r hi hrest hheader hlen hcut hstream hbegin hr =>
    obtain ⟨-, hfault, -⟩ := beginData_spec s.f.c (Header.parse header)
    have ha := answering_beginData s.f.c (Header.parse header)
    rw [hbegin] at hfault ha
    exact ⟨header, hrest, h.talking ha.talking (hfault h.1.2) hr⟩
  | @handled header payload rest f hi hrest hheader hlen hpayload hset hhandle =>
    have hgo := h.handleFrame hi hheader hpayload (by rw [hhandle])
    rw [hhandle] at hgo
    exact ⟨header ++ payload, hrest, hgo⟩
  | @notHandled header payload rest f r hi hrest hheader hlen hpayload hset hhandle hr =>
    have hfault := (takes_handleFrame s.f hpayload).2 h.1.2.1 h.1.2.2
    have ha := talking_handleFrame s.f hpayload
    rw [hhandle] at hfault ha
    exact ⟨header ++ payload, hrest, h.talking ha hfault hr⟩

lemma During.keepInbound (h : During c₀ sent t f) (b : Bytes) :
    During c₀ sent t (Connection.keepInbound f b) := by
  obtain ⟨h1, h2, w, hw, hfair⟩ := h
  exact ⟨h1, h2, w, ⟨hw.out, hw.whole, hw.answers⟩, hfair.same rfl rfl rfl rfl⟩

lemma Through.keepInbound {r : Outcome ConnectionError Unit} (h : Through c₀ sent t f r)
    (b : Bytes) : Through c₀ sent t (Connection.keepInbound f b) r := by
  obtain ⟨h1, ⟨w, hw, htied⟩, hok⟩ := h
  refine ⟨h1, ⟨w, ⟨hw.out, hw.whole, hw.answers⟩, ?_⟩, fun hr => (hok hr).keepInbound b⟩
  exact ⟨htied.ids, htied.next, htied.below, htied.ordered, htied.odd, htied.nonzero, htied.reset,
    htied.ended⟩

theorem feed_fair {direct : Option Direct} (h : During c sent t ⟨c, direct⟩) (hidle : Idle c)
    (data : Bytes) :
    ∃ f used rest r, c.feedDirect data direct = finished f r ∧ c.inbound ++ data = used ++ rest ∧
      Through c sent (t ++ used) f r ∧ (r = .ok () → f.c.inbound = rest ∧ Idle f.c) :=
  feedDirect_rule during_turn (fun _ _ hE => hE.2.2 rfl) (fun _ _ _ b hE => hE.keepInbound b)
    (fun _ _ b hI => hI.keepInbound b) h hidle h.1.1 data

end Lazaret.H2
