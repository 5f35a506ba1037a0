import Lazaret.H2.Wire

/-!
# What a connection writes on its own

Apart from requests, a connection writes only answers: credit, resets, and acknowledgements.  An
operation `Talks` if that is all it writes, on streams that are held and have not failed, and what
it does to a stream it cannot take back.  It is `Steady` if it leaves the send windows alone.
-/

namespace Lazaret.H2

open Connection List BTreeMap

def kindOf (f : Bytes × Bytes) : UInt8 := (headerOf f).kind

def streamOf (f : Bytes × Bytes) : ℕ := (headerOf f).stream

/-- A frame of a request: DATA, HEADERS or CONTINUATION. -/
def OfRequest (f : Bytes × Bytes) : Prop :=
  kindOf f = kind.DATA ∨ kindOf f = kind.HEADERS ∨ kindOf f = kind.CONTINUATION

lemma kindOf_start {length stream : ℕ} {k flags : UInt8} {payload : Bytes}
    (hlength : length < 2 ^ 24)
    (hstream : stream < 2 ^ 31) : kindOf (start length k flags stream, payload) = k := by
  rw [kindOf, headerOf, start, Header.parse_write hlength hstream]

lemma streamOf_start {length stream : ℕ} {k flags : UInt8} {payload : Bytes}
    (hlength : length < 2 ^ 24) (hstream : stream < 2 ^ 31) :
    streamOf (start length k flags stream, payload) = stream := by
  rw [streamOf, headerOf, start, Header.parse_write hlength hstream]

namespace Connection

/-- What is held has the id of a stream that a client opens. -/
def ClientIds (c : Connection) : Prop :=
  ∀ id s, c.streams.get id = some s → id % 2 = 1 ∧ id < 2 ^ 31

lemma Lasts.trans {s s' s'' : Stream} (h : Lasts s s') (h' : Lasts s' s'') : Lasts s s'' :=
  ⟨fun hf => h'.1 (h.1 hf), fun hl => h'.2 (h.2 hl)⟩

/-- From `c` to `c'` the bytes `w` are written: whole frames that answer, on streams that are live
in `c`, none after a reset; and no stream is new or comes back. -/
structure Talks (c c' : Connection) (w : Bytes) : Prop where
  out : c'.out = c.out ++ w
  whole : Whole w
  answers : ∀ f ∈ frames w, ¬ OfRequest f
  onLive : ∀ f ∈ frames w, streamOf f ≠ 0 → ∃ s, c.live (streamOf f) = some s
  ordered : (frames w).Pairwise fun a b => kindOf a = kind.RST_STREAM → streamOf b ≠ streamOf a
  reset : ∀ f ∈ frames w, kindOf f = kind.RST_STREAM → streamOf f ≠ 0 ∧
    ∀ s, c'.streams.get (streamOf f) = some s → s.failure ≠ none
  streams : ∀ id s', c'.streams.get id = some s' → ∃ s, c.streams.get id = some s ∧ Lasts s s'
  next_stream_id : c'.next_stream_id = c.next_stream_id

/-- The send windows, and what they start from, are as they were. -/
structure Steady (c c' : Connection) : Prop where
  send_window : c'.send_window = c.send_window
  initial : c'.peer_initial_window = c.peer_initial_window
  streams : ∀ id s s', c.streams.get id = some s → c'.streams.get id = some s' →
    s'.send_window = s.send_window

variable {c c' c'' : Connection} {w w' : Bytes} {id : ℕ} {s s' : Stream}

lemma frames_nil_eq : frames [] = [] := Framing.frames_nil

lemma Talks.quiet (hout : c'.out = c.out) (hnext : c'.next_stream_id = c.next_stream_id)
    (hstreams : ∀ id s', c'.streams.get id = some s' → ∃ s,
      c.streams.get id = some s ∧ Lasts s s') :
    Talks c c' [] where
  out := by rw [hout, append_nil]
  whole := Whole.nil
  answers := by simp [frames_nil_eq]
  onLive := by simp [frames_nil_eq]
  ordered := by simp [frames_nil_eq]
  reset := by simp [frames_nil_eq]
  streams := hstreams
  next_stream_id := hnext

lemma Talks.refl (c : Connection) : Talks c c [] :=
  Talks.quiet rfl rfl fun _ s' h => ⟨s', h, Lasts.refl s'⟩

lemma Talks.live (h : Talks c c' w) (hs : c'.live id = some s') : ∃ s, c.live id = some s := by
  obtain ⟨hget, hfail⟩ := live_eq_some.1 hs
  obtain ⟨s, hs, hl⟩ := h.streams id s' hget
  exact ⟨s, live_eq_some.2 ⟨hs, by_contra fun hne => hl.1 hne hfail⟩⟩

theorem Talks.trans (h : Talks c c' w) (h' : Talks c' c'' w') : Talks c c'' (w ++ w') where
  out := by rw [h'.out, h.out, append_assoc]
  whole := h.whole.append h'.whole
  answers := by
    intro f hf
    rw [frames_append h.whole, mem_append] at hf
    rcases hf with hf | hf
    · exact h.answers f hf
    · exact h'.answers f hf
  onLive := by
    intro f hf hne
    rw [frames_append h.whole, mem_append] at hf
    rcases hf with hf | hf
    · exact h.onLive f hf hne
    · obtain ⟨s, hs⟩ := h'.onLive f hf hne
      exact h.live hs
  ordered := by
    rw [frames_append h.whole, pairwise_append]
    refine ⟨h.ordered, h'.ordered, ?_⟩
    -- a stream that was reset is not live any more
    intro a ha b hb hrst heq
    obtain ⟨hne, hfail⟩ := h.reset a ha hrst
    rw [← heq] at hne
    obtain ⟨s, hs⟩ := h'.onLive b hb hne
    rw [heq] at hs
    obtain ⟨hget, hnone⟩ := live_eq_some.1 hs
    exact hfail s hget hnone
  reset := by
    intro f hf hrst
    rw [frames_append h.whole, mem_append] at hf
    rcases hf with hf | hf
    · obtain ⟨hne, hfail⟩ := h.reset f hf hrst
      refine ⟨hne, fun s'' hs'' => ?_⟩
      obtain ⟨s', hs', hl⟩ := h'.streams _ _ hs''
      exact hl.1 (hfail s' hs')
    · exact h'.reset f hf hrst
  streams := by
    intro id s'' hs''
    obtain ⟨s', hs', hl'⟩ := h'.streams id s'' hs''
    obtain ⟨s, hs, hl⟩ := h.streams id s' hs'
    exact ⟨s, hs, hl.trans hl'⟩
  next_stream_id := h'.next_stream_id.trans h.next_stream_id

lemma Steady.refl (c : Connection) : Steady c c :=
  ⟨rfl, rfl, fun _ s s' h h' => by rw [h] at h'; cases h'; rfl⟩

lemma Steady.trans (h : Steady c c') (h' : Steady c' c'') (hw : Talks c' c'' w) : Steady c c'' where
  send_window := h'.send_window.trans h.send_window
  initial := h'.initial.trans h.initial
  streams := by
    intro id s s'' hs hs''
    obtain ⟨s', hs', -⟩ := hw.streams id s'' hs''
    exact (h'.streams id s' s'' hs' hs'').trans (h.streams id s s' hs hs')

lemma Talks.clientIds (h : Talks c c' w) (hids : ClientIds c) : ClientIds c' := by
  intro id s' hs'
  obtain ⟨s, hs, -⟩ := h.streams id s' hs'
  exact hids id s hs

def Talking (c c' : Connection) : Prop := ClientIds c → ∃ w, Talks c c' w

/-- An operation that talks and moves no send window. -/
def Answering (c c' : Connection) : Prop := ClientIds c → ∃ w, Talks c c' w ∧ Steady c c'

lemma Answering.talking (h : Answering c c') : Talking c c' := fun hids =>
  (h hids).imp fun _ hw => hw.1

lemma Answering.refl (c : Connection) : Answering c c := fun _ => ⟨[], Talks.refl c, Steady.refl c⟩

lemma Answering.trans (h : Answering c c') (h' : Answering c' c'') : Answering c c'' := by
  intro hids
  obtain ⟨w, hw, hs⟩ := h hids
  obtain ⟨w', hw', hs'⟩ := h' (hw.clientIds hids)
  exact ⟨w ++ w', hw.trans hw', hs.trans hs' hw'⟩

lemma Talking.trans (h : Talking c c') (h' : Talking c' c'') : Talking c c'' := by
  intro hids
  obtain ⟨w, hw⟩ := h hids
  obtain ⟨w', hw'⟩ := h' (hw.clientIds hids)
  exact ⟨w ++ w', hw.trans hw'⟩

/-! ### One frame -/

lemma talks_write {length stream : ℕ} {payload : Bytes} {k : UInt8} (flags : UInt8)
    (hlength : length < 2 ^ 24) (hstream : stream < 2 ^ 31) (hpayload : payload.length = length)
    (hk : k ≠ kind.DATA ∧ k ≠ kind.HEADERS ∧ k ≠ kind.CONTINUATION ∧ k ≠ kind.RST_STREAM)
    (hlive : stream ≠ 0 → ∃ s, c.live stream = some s) :
    Talks c (c.write (start length k flags stream ++ payload))
      (start length k flags stream ++ payload) := by
  have hframes := frames_start k flags hlength hstream hpayload
  have hkind : kindOf (start length k flags stream, payload) = k := kindOf_start hlength hstream
  have hon : streamOf (start length k flags stream, payload) = stream :=
    streamOf_start hlength hstream
  refine ⟨rfl, whole_start k flags hlength hstream hpayload, ?_, ?_, ?_, ?_, ?_, rfl⟩
  · rw [hframes]
    intro f hf
    rw [mem_singleton] at hf
    subst hf
    simp only [OfRequest, hkind]
    tauto
  · rw [hframes]
    intro f hf hne
    rw [mem_singleton] at hf
    subst hf
    rw [hon] at hne ⊢
    exact hlive hne
  · rw [hframes]
    exact pairwise_singleton ..
  · rw [hframes]
    intro f hf hrst
    rw [mem_singleton] at hf
    subst hf
    rw [hkind] at hrst
    exact absurd hrst hk.2.2.2
  · exact fun id s' h => ⟨s', h, Lasts.refl s'⟩

lemma steady_write (c : Connection) (bytes : Bytes) : Steady c (c.write bytes) := by
  refine ⟨rfl, rfl, fun _ s s' h h' => ?_⟩
  have h'' := h.symm.trans h'
  cases h''
  rfl

lemma talks_setStream (hget : c.streams.get id = some s) (hl : Lasts s s') :
    Talks c (c.setStream id s') [] := by
  refine Talks.quiet rfl rfl fun i t ht => ?_
  rcases get_insert_eq_some.1 ht with ⟨rfl, rfl⟩ | ⟨-, ht⟩
  · exact ⟨s, hget, hl⟩
  · exact ⟨t, ht, Lasts.refl t⟩

lemma steady_setStream (hget : c.streams.get id = some s) (hw : s'.send_window = s.send_window) :
    Steady c (c.setStream id s') := by
  refine ⟨rfl, rfl, fun i t t' ht ht' => ?_⟩
  rcases get_insert_eq_some.1 ht' with ⟨rfl, rfl⟩ | ⟨-, ht'⟩
  · cases hget.symm.trans ht
    exact hw
  · cases ht.symm.trans ht'
    rfl

lemma answering_setStream (hget : c.streams.get id = some s) (hl : Lasts s s')
    (hw : s'.send_window = s.send_window) : Answering c (c.setStream id s') :=
  fun _ => ⟨[], talks_setStream hget hl, steady_setStream hget hw⟩

lemma answering_of_eq (hout : c'.out = c.out) (hstreams : c'.streams = c.streams)
    (hnext : c'.next_stream_id = c.next_stream_id) (hsend : c'.send_window = c.send_window)
    (hinitial : c'.peer_initial_window = c.peer_initial_window) : Answering c c' := by
  intro _
  refine ⟨[], Talks.quiet hout hnext fun id s' h => ⟨s', hstreams ▸ h, Lasts.refl s'⟩, hsend,
    hinitial, fun id s s' h h' => ?_⟩
  rw [hstreams, h] at h'
  cases h'
  rfl

/-! ### Credit and failures -/

lemma answering_windowUpdate (n : ℕ) (hlive : id ≠ 0 → ∃ s, c.live id = some s) :
    Answering c (c.write (writeWindowUpdate id n)) := by
  intro hids
  have hstream : id < 2 ^ 31 := by
    rcases eq_zero_or_pos id with h0 | hpos
    · omega
    · obtain ⟨s, hs⟩ := hlive hpos.ne'
      exact (hids id s (live_eq_some.1 hs).1).2
  have hk : kind.WINDOW_UPDATE ≠ kind.DATA ∧ kind.WINDOW_UPDATE ≠ kind.HEADERS ∧
      kind.WINDOW_UPDATE ≠ kind.CONTINUATION ∧ kind.WINDOW_UPDATE ≠ kind.RST_STREAM := by decide
  have hlen : (toBe n).length = 4 := rfl
  exact ⟨_, talks_write 0 (by omega) hstream hlen hk hlive, steady_write _ _⟩

lemma answering_creditConnection (c : Connection) (n : ℕ) : Answering c (c.creditConnection n) := by
  rw [creditConnection]
  split_ifs
  · exact Answering.refl c
  · dsimp only
    split_ifs
    · have h1 : Answering c { c with
          unannounced := 0, recv_window := c.recv_window + addU32 c.unannounced n } :=
        answering_of_eq rfl rfl rfl rfl rfl
      exact h1.trans (answering_windowUpdate (addU32 c.unannounced n) fun h => absurd rfl h)
    · exact answering_of_eq rfl rfl rfl rfl rfl

lemma answering_announceStream (c : Connection) (id : ℕ) : Answering c (c.announceStream id) := by
  rw [announceStream]
  split
  · exact Answering.refl c
  · rename_i s hget
    split_ifs with hno
    · exact Answering.refl c
    · have hfail : s.failure = none := by
        cases hf : s.failure with
        | none => rfl
        | some f => simp [hf] at hno
      have hset : Answering c (c.setStream id
          { s with unannounced := 0, recv_window := s.recv_window + s.unannounced }) :=
        answering_setStream hget ⟨fun h => h, fun h => h⟩ rfl
      refine hset.trans (answering_windowUpdate _ fun _ => ?_)
      refine ⟨{ s with unannounced := 0, recv_window := s.recv_window + s.unannounced },
        live_eq_some.2 ⟨?_, hfail⟩⟩
      rw [setStream, get_insert, if_pos rfl]

lemma talks_creditConnection (c : Connection) (n : ℕ) :
    ∃ w, Talks c (c.creditConnection n) w ∧ ∀ f ∈ frames w, kindOf f ≠ kind.RST_STREAM := by
  rw [creditConnection]
  split_ifs
  · exact ⟨[], Talks.refl c, by simp [frames_nil_eq]⟩
  · dsimp only
    split_ifs
    · have h1 : Talks c { c with
          unannounced := 0, recv_window := c.recv_window + addU32 c.unannounced n } [] :=
        Talks.quiet rfl rfl fun _ s' h => ⟨s', h, Lasts.refl s'⟩
      have hk : kind.WINDOW_UPDATE ≠ kind.DATA ∧ kind.WINDOW_UPDATE ≠ kind.HEADERS ∧
          kind.WINDOW_UPDATE ≠ kind.CONTINUATION ∧ kind.WINDOW_UPDATE ≠ kind.RST_STREAM := by decide
      have hlen : (toBe (addU32 c.unannounced n)).length = 4 := rfl
      refine ⟨_, h1.trans (talks_write 0 (by omega) (by omega) hlen hk fun h => absurd rfl h), ?_⟩
      intro f hf
      rw [nil_append, frames_start _ _ (by omega) (by omega) hlen, mem_singleton] at hf
      subst hf
      rw [kindOf_start (by omega) (by omega)]
      exact hk.2.2.2
    · exact ⟨[], Talks.quiet rfl rfl fun _ s' h => ⟨s', h, Lasts.refl s'⟩,
        by simp [frames_nil_eq]⟩

lemma get_creditConnection (c : Connection) (n id : ℕ) :
    (c.creditConnection n).streams.get id = c.streams.get id := by
  rw [creditConnection]
  split_ifs
  · rfl
  · dsimp only
    split_ifs <;> rfl

lemma talks_failStream (hlive : c.live id = some s) (failure : StreamError) :
    (∃ w, Talks c (c.failStream id failure) w ∧ ∀ f ∈ frames w, kindOf f ≠ kind.RST_STREAM) ∧
      ∀ t, (c.failStream id failure).streams.get id = some t → t.failure ≠ none := by
  have hget := (live_eq_some.1 hlive).1
  rw [failStream, hlive]
  dsimp only
  constructor
  · have hset : Talks c (c.setStream id { s with
        body := [], body_pos := 0, failure := some failure }) [] :=
      talks_setStream hget ⟨fun _ => by simp, fun h => h⟩
    obtain ⟨w, hw, hrst⟩ := talks_creditConnection (c.setStream id { s with
        body := [], body_pos := 0, failure := some failure }) (asU32 s.unread)
    exact ⟨_, hset.trans hw, by simpa using hrst⟩
  · intro t ht
    rw [get_creditConnection, setStream, get_insert, if_pos rfl] at ht
    cases ht
    simp

lemma answering_failStream (c : Connection) (id : ℕ) (failure : StreamError) :
    Answering c (c.failStream id failure) := by
  rw [failStream]
  split
  · exact Answering.refl c
  · rename_i s hlive
    have hset : Answering c (c.setStream id
        { s with body := [], body_pos := 0, failure := some failure }) :=
      answering_setStream (live_eq_some.1 hlive).1 ⟨fun _ => by simp, fun h => h⟩ rfl
    exact hset.trans (answering_creditConnection _ _)

lemma answering_streamError (c : Connection) (id : ℕ) (code : ErrorCode) (reason : String) :
    Answering c (c.streamError id code reason) := by
  intro hids
  rw [streamError]
  split
  · exact ⟨[], Talks.refl c, Steady.refl c⟩
  · rename_i s hlive
    obtain ⟨hodd, hid⟩ := hids id s (live_eq_some.1 hlive).1
    obtain ⟨⟨w, hw, hno⟩, hfailed⟩ := talks_failStream hlive ⟨code, asBytes reason, false⟩
    obtain ⟨w₁, hw₁, hsteady⟩ := answering_failStream c id ⟨code, asBytes reason, false⟩ hids
    have hlen : (toBe code.code).length = 4 := rfl
    have hwhole := whole_start kind.RST_STREAM 0 (by omega) hid hlen
    have hframes := frames_start kind.RST_STREAM 0 (by omega) hid hlen
    have hkind : kindOf (start 4 kind.RST_STREAM 0 id, toBe code.code) = kind.RST_STREAM :=
      kindOf_start (by omega) hid
    have hon : streamOf (start 4 kind.RST_STREAM 0 id, toBe code.code) = id :=
      streamOf_start (by omega) hid
    have hall : frames (w ++ writeRstStream id code) =
        frames w ++ [(start 4 kind.RST_STREAM 0 id, toBe code.code)] := by
      rw [frames_append hw.whole, writeRstStream, hframes]
    refine ⟨w ++ writeRstStream id code, ⟨?_, hw.whole.append hwhole, ?_, ?_, ?_, ?_, ?_, ?_⟩,
      hsteady.send_window, hsteady.initial, hsteady.streams⟩
    · rw [write, hw.out, append_assoc]
    · rw [hall]
      intro f hf
      rcases mem_append.1 hf with hf | hf
      · exact hw.answers f hf
      · rw [mem_singleton.1 hf, OfRequest, hkind]
        decide
    · rw [hall]
      intro f hf hne
      rcases mem_append.1 hf with hf | hf
      · exact hw.onLive f hf hne
      · rw [mem_singleton.1 hf, hon]
        exact ⟨s, hlive⟩
    · rw [hall, pairwise_append]
      exact ⟨hw.ordered, pairwise_singleton .., fun a ha _ _ hrst => absurd hrst (hno a ha)⟩
    · rw [hall]
      intro f hf hrst
      rcases mem_append.1 hf with hf | hf
      · exact absurd hrst (hno f hf)
      · rw [mem_singleton.1 hf, hon]
        exact ⟨by omega, hfailed⟩
    · exact hw.streams
    · exact hw.next_stream_id

lemma failed_streamError (hlive : c.live id = some s) (code : ErrorCode) (reason : String)
    {t : Stream} (ht : (c.streamError id code reason).streams.get id = some t) :
    t.failure ≠ none := by
  rw [streamError, hlive] at ht
  exact (talks_failStream hlive ⟨code, asBytes reason, false⟩).2 t ht

/-! ### Reading and the server's frames -/

lemma answering_keepData (c : Connection) (id : ℕ) (end_stream : Bool) (len flow_len : ℕ) :
    Answering c (c.keepData id end_stream len flow_len).1 := by
  rw [keepData]
  split
  · exact Answering.refl c
  · split
    · exact Answering.refl c
    · exact answering_streamError c _ _ _

lemma answering_checkData (c : Connection) (id : ℕ) (end_stream : Bool) (len flow_len : ℕ) :
    Answering c (c.checkData id end_stream len flow_len).1 := by
  have hcount : Answering c (c.countEmpty end_stream len).1 := by
    rw [countEmpty]
    split_ifs
    · dsimp only
      split_ifs <;> exact answering_of_eq rfl rfl rfl rfl rfl
    · exact Answering.refl c
  rw [checkData]
  split
  · exact Answering.refl c
  · exact Answering.refl c
  · split_ifs
    · exact Answering.refl c
    · split
      all_goals
        rename_i h
        rw [h] at hcount
      · exact hcount
      · exact hcount
      · exact hcount.trans (answering_keepData _ _ _ _ _)

lemma lasts_takeIn (s : Stream) (bytes : Bytes) (read : ℕ) :
    Lasts s (s.takeIn bytes read) ∧ (s.takeIn bytes read).send_window = s.send_window := by
  have hcompact : ∀ s : Stream, Lasts s s.compact ∧ s.compact.send_window = s.send_window := by
    intro s
    rw [Stream.compact]
    split_ifs <;> exact ⟨⟨fun h => h, fun h => h⟩, rfl⟩
  rw [Stream.takeIn]
  dsimp only
  by_cases hread : read < bytes.length
  · rw [if_pos hread]
    exact hcompact { s with
      recv_window := s.recv_window - bytes.length, received := s.received + bytes.length }
  · rw [if_neg hread]
    exact ⟨⟨fun h => h, fun h => h⟩, rfl⟩

lemma answering_dataBytes (f : Feeding) (id : ℕ) (keep : Bool) (bytes : Bytes) :
    Answering f.c (dataBytes f id keep bytes).c := by
  have hrecv : Answering f.c { f.c with recv_window := f.c.recv_window - bytes.length } :=
    answering_of_eq rfl rfl rfl rfl rfl
  rw [dataBytes]
  split
  · exact hrecv.trans (answering_creditConnection _ _)
  · rename_i s hs
    have hlive : { f.c with recv_window := f.c.recv_window - bytes.length }.live id = some s := by
      split_ifs at hs
      exact hs
    have hget := (live_eq_some.1 hlive).1
    obtain ⟨hl, hw⟩ := lasts_takeIn s bytes (directRoom f.direct id s bytes.length)
    have hset := hrecv.trans (answering_setStream hget hl hw)
    dsimp only
    split_ifs
    · exact hset.trans (answering_creditConnection _ _)
    · exact (hset.trans (answering_announceStream _ _)).trans (answering_creditConnection _ _)
    · exact hset

lemma answering_dataEnd (c : Connection) (id : ℕ) (keep end_stream : Bool) (padding : ℕ) :
    Answering c (c.dataEnd id keep end_stream padding) := by
  have hrecv : Answering c { c with recv_window := c.recv_window - padding } :=
    answering_of_eq rfl rfl rfl rfl rfl
  rw [dataEnd]
  split
  · exact hrecv.trans (answering_creditConnection _ _)
  · rename_i s hs
    have hlive : { c with recv_window := c.recv_window - padding }.live id = some s := by
      split_ifs at hs
      exact hs
    have hset : Answering { c with recv_window := c.recv_window - padding }
        ({ c with recv_window := c.recv_window - padding }.setStream id { s with
          recv_window := s.recv_window - padding
          unannounced := addU32 s.unannounced padding
          remote_ended := s.remote_ended || end_stream }) :=
      answering_setStream (live_eq_some.1 hlive).1 ⟨fun h => h, fun h => h⟩ rfl
    exact ((hrecv.trans hset).trans (answering_creditConnection _ _)).trans
      (answering_announceStream _ _)

lemma answering_onData (f : Feeding) (id : ℕ) (end_stream : Bool) (data : Bytes) (flow_len : ℕ) :
    Answering f.c (onData f id end_stream data flow_len).1.c := by
  have hcheck := answering_checkData f.c id end_stream data.length flow_len
  rw [onData]
  split
  all_goals
    rename_i c keep h
    rw [h] at hcheck
  · exact (hcheck.trans (answering_dataBytes ⟨c, f.direct⟩ id keep data)).trans
      (answering_dataEnd _ _ _ _ _)
  · exact hcheck
  · exact hcheck

lemma answering_beginData (c : Connection) (h : Header) : Answering c (c.beginData h).1 := by
  have hempty : Answering c { c with empty_frames := 0 } := answering_of_eq rfl rfl rfl rfl rfl
  have hcheck := hempty.trans (answering_checkData { c with empty_frames := 0 } h.stream
    (h.has flag.END_STREAM) h.length h.length)
  rw [beginData]
  split
  all_goals
    rename_i h
    rw [h] at hcheck
  · exact hcheck.trans (answering_of_eq rfl rfl rfl rfl rfl)
  · exact hcheck
  · exact hcheck

lemma answering_answer {bytes : Bytes} (h : Answering c' (c'.write bytes)) :
    Answering c' (match c'.controlBacklog with
      | .ok () => (c'.write bytes, Outcome.ok ())
      | r => (c', r)).1 := by
  split
  · exact h
  · exact Answering.refl c'

lemma answering_settingsAck (c : Connection) : Answering c (c.write writeSettingsAck) := by
  have hk : kind.SETTINGS ≠ kind.DATA ∧ kind.SETTINGS ≠ kind.HEADERS ∧
      kind.SETTINGS ≠ kind.CONTINUATION ∧ kind.SETTINGS ≠ kind.RST_STREAM := by decide
  have heq : writeSettingsAck = start 0 kind.SETTINGS flag.ACK 0 ++ [] := (append_nil _).symm
  intro _
  rw [heq]
  exact ⟨_, talks_write flag.ACK (by omega) (by omega) rfl hk fun h => absurd rfl h,
    steady_write _ _⟩

lemma talking_map (f : ℕ → Stream → Stream) (hf : ∀ id s, Lasts s (f id s)) :
    Talking c { c with streams := c.streams.map f } := by
  intro _
  refine ⟨[], Talks.quiet rfl rfl fun id s' h => ?_⟩
  rw [get_map, Option.map_eq_some_iff] at h
  obtain ⟨s, hs, rfl⟩ := h
  exact ⟨s, hs, hf id s⟩

lemma Acts.talks {moves : Bool} (h : Acts moves c c') :
    Talking c c' ∧ (moves = false → Answering c c') := by
  have hboth : ∀ {c c'}, Answering c c' → Talking c c' ∧ (moves = false → Answering c c') :=
    fun h => ⟨h.talking, fun _ => h⟩
  induction h with
  | refl c => exact hboth (Answering.refl c)
  | trans _ _ ih ih' => exact ⟨ih.1.trans ih'.1, fun hm => (ih.2 hm).trans (ih'.2 hm)⟩
  | other h hout hstreams _ _ hsend =>
    refine ⟨fun _ => ⟨[], Talks.quiet hout h.next_stream_id fun i s hs =>
      ⟨s, hstreams ▸ hs, Lasts.refl s⟩⟩, fun hm => ?_⟩
    exact answering_of_eq hout hstreams h.next_stream_id (hsend hm).1 (hsend hm).2
  | stream hget _ hl hsend =>
    exact ⟨fun _ => ⟨[], talks_setStream hget hl⟩, fun hm => answering_setStream hget hl (hsend hm)⟩
  | streams hmoves h =>
    exact ⟨talking_map _ fun id s => (h id s).2, fun hm => by rw [hm] at hmoves; cases hmoves⟩
  | failStream c id failure => exact hboth (answering_failStream c id failure)
  | streamError c id code reason => exact hboth (answering_streamError c id code reason)
  | settingsAck c => exact hboth (answering_settingsAck c)
  | pong c hdata =>
    have hk : kind.PING ≠ kind.DATA ∧ kind.PING ≠ kind.HEADERS ∧ kind.PING ≠ kind.CONTINUATION ∧
        kind.PING ≠ kind.RST_STREAM := by decide
    exact hboth fun _ => ⟨_, talks_write _ (by omega) (by omega) hdata hk fun h => absurd rfl h,
      steady_write _ _⟩

lemma answering_resetEmpty (c : Connection) (frame : Frame) : Answering c (c.resetEmpty frame) := by
  rw [resetEmpty]
  split_ifs
  · exact Answering.refl c
  · exact answering_of_eq rfl rfl rfl rfl rfl

theorem answering_handle (f : Feeding) {frame : Frame} (hwf : frame.Wf)
    (hm : movesWindows frame = false) : Answering f.c (handle f frame).1.c := by
  rw [handle]
  split
  · exact Answering.refl _
  · refine (answering_resetEmpty f.c frame).trans ?_
    rcases dispatch_cases { f with c := f.c.resetEmpty frame } frame with
      ⟨stream, end_stream, data, flow_len, -, h⟩ | h
    · rw [h]
      exact answering_onData ⟨f.c.resetEmpty frame, f.direct⟩ _ _ _ _
    · rw [h]
      exact (does_handleControl _ hwf).1.talks.2 hm

theorem talking_handle (f : Feeding) {frame : Frame} (hwf : frame.Wf) :
    Talking f.c (handle f frame).1.c := by
  rw [handle]
  split
  · exact (Answering.refl _).talking
  · refine (answering_resetEmpty f.c frame).talking.trans ?_
    rcases dispatch_cases { f with c := f.c.resetEmpty frame } frame with
      ⟨stream, end_stream, data, flow_len, -, h⟩ | h
    · rw [h]
      exact (answering_onData ⟨f.c.resetEmpty frame, f.direct⟩ _ _ _ _).talking
    · rw [h]
      exact (does_handleControl _ hwf).1.talks.1

/-! ### What the application calls -/

lemma lasts_advance (s : Stream) (n : ℕ) :
    Lasts s (s.advance n) ∧ (s.advance n).send_window = s.send_window := by
  rw [Stream.advance]
  dsimp only
  split_ifs <;> exact ⟨⟨fun h => h, fun h => h⟩, rfl⟩

lemma answering_poll (c : Connection) (id : ℕ) (sink : Sink) : Answering c (c.poll id sink).1 := by
  rw [poll]
  split
  · exact Answering.refl c
  · rename_i s hget
    split
    · exact answering_setStream hget ⟨fun h => h, fun h => h⟩ rfl
    · split
      · obtain ⟨hl, hw⟩ := lasts_advance s (min s.unread sink.most)
        exact ((answering_setStream hget hl hw).trans (answering_announceStream _ _)).trans
          (answering_creditConnection _ _)
      · split
        · exact Answering.refl c
        · split
          · split
            · exact answering_setStream hget ⟨fun h => h, fun h => h⟩ rfl
            · split_ifs <;> exact Answering.refl c
          · exact Answering.refl c

lemma answering_collectStream (c : Connection) (id limit : ℕ) :
    Answering c (c.collectStream id limit) := by
  refine collectStream_rule (Answering.refl c) fun s s' hlive _ hs' => ?_
  have hset : Answering c (c.setStream id s') :=
    answering_setStream (live_eq_some.1 hlive).1 (hs' ▸ ⟨fun h => h, fun h => h⟩) (hs' ▸ rfl)
  have hcredit := (hset.trans (answering_announceStream _ id)).trans
    (answering_creditConnection _ (asU32 (s.body.drop s.body_pos).length))
  exact ⟨hcredit, hcredit.trans (answering_streamError _ _ _ _)⟩

lemma answering_collected (c : Connection) (id : ℕ) : Answering c (c.collected id).1 := by
  rw [collected]
  split
  · exact Answering.refl c
  · rename_i s hget
    split
    · exact Answering.refl c
    · split
      · exact Answering.refl c
      · split
        · exact answering_setStream hget ⟨fun h => h, fun h => h⟩ rfl
        · exact Answering.refl c

lemma answering_removeReset (hlive : c.live id = some s) :
    Answering c ({ c with streams := c.streams.remove id }.write (writeRstStream id .CANCEL)) := by
  intro hids
  obtain ⟨hodd, hid⟩ := hids id s (live_eq_some.1 hlive).1
  have hlen : (toBe ErrorCode.CANCEL.code).length = 4 := rfl
  have hframes := frames_start kind.RST_STREAM 0 (by omega) hid hlen
  have hkind : kindOf (start 4 kind.RST_STREAM 0 id, toBe ErrorCode.CANCEL.code) =
      kind.RST_STREAM := kindOf_start (by omega) hid
  have hon : streamOf (start 4 kind.RST_STREAM 0 id, toBe ErrorCode.CANCEL.code) = id :=
    streamOf_start (by omega) hid
  refine ⟨writeRstStream id .CANCEL, ⟨rfl, whole_start _ _ (by omega) hid hlen, ?_, ?_, ?_, ?_, ?_,
    rfl⟩, rfl, rfl, ?_⟩
  · rw [writeRstStream, hframes]
    intro f hf
    rw [mem_singleton.1 hf, OfRequest, hkind]
    decide
  · rw [writeRstStream, hframes]
    intro f hf _
    rw [mem_singleton.1 hf, hon]
    exact ⟨s, hlive⟩
  · rw [writeRstStream, hframes]
    exact pairwise_singleton ..
  · rw [writeRstStream, hframes]
    intro f hf _
    rw [mem_singleton.1 hf, hon]
    exact ⟨by omega, fun t ht => absurd rfl (get_remove_eq_some.1 ht).1⟩
  · exact fun i t ht => ⟨t, (get_remove_eq_some.1 ht).2, Lasts.refl t⟩
  · intro i t t' ht ht'
    cases ht.symm.trans (get_remove_eq_some.1 ht').2
    rfl

lemma answering_releaseStream (c : Connection) (id : ℕ) : Answering c (c.releaseStream id) := by
  rw [releaseStream]
  split
  · exact Answering.refl c
  · rename_i s hget
    dsimp only
    refine Answering.trans ?_ (answering_creditConnection _ _)
    split
    · rename_i hactive
      refine answering_removeReset (live_eq_some.2 ⟨hget, ?_⟩)
      rw [Bool.and_eq_true, Stream.active, Bool.and_eq_true] at hactive
      exact Option.isNone_iff_eq_none.1 hactive.1.1
    · refine fun _ => ⟨[], Talks.quiet rfl rfl fun i t ht =>
        ⟨t, (get_remove_eq_some.1 ht).2, Lasts.refl t⟩, rfl, rfl, fun i t t' ht ht' => ?_⟩
      cases ht.symm.trans (get_remove_eq_some.1 ht').2
      rfl

end Connection

end Lazaret.H2
