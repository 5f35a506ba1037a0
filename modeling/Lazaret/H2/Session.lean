import Lazaret.H2.Client

/-!
# Sessions of a client

A session is a run of what the application calls, in any order and with any bytes of the server.
`Session.sent` is all that was written, frame by frame, and `Session.taken` all that was taken in of
the server's bytes.
-/

namespace Lazaret.H2

open Connection List Option

inductive Op where
  | feedDirect (data : Bytes) (direct : Option Direct)
  | openStream (request : Request) (end_stream : Bool)
  | sendData (id : ℕ) (data : Bytes) (end_stream : Bool)
  | releaseStream (id : ℕ)
  | poll (id : ℕ) (sink : Sink)
  | collectStream (id limit : ℕ)
  | collected (id : ℕ)
  | consumeOutput (n : ℕ)

def Op.apply (c : Connection) : Op → Connection
  | .feedDirect data direct => (c.feedDirect data direct).1.c
  | .openStream request end_stream => (c.openStream request end_stream).1
  | .sendData id data end_stream => (c.sendData id data end_stream).1
  | .releaseStream id => c.releaseStream id
  | .poll id sink => (c.poll id sink).1
  | .collectStream id limit => c.collectStream id limit
  | .collected id => (c.collected id).1
  | .consumeOutput n => c.consumeOutput n

def goawayOf (e : ConnectionError) : Bytes × Bytes :=
  (start (8 + e.reason.length) kind.GOAWAY 0 0, toBe 0 ++ toBe e.code.code ++ e.reason)

/-- The frames that were written from `c` to `c'`; if the connection was lost by an error found
here, the last of them is the GOAWAY. -/
def written (c c' : Connection) : List (Bytes × Bytes) :=
  let bytes := c'.out.drop c.out.length
  match c.error, c'.error with
  | none, some e =>
    if e.local_ then
      frames (bytes.take (bytes.length - (writeGoaway 0 e.code e.reason).length)) ++ [goawayOf e]
    else frames bytes
  | _, _ => frames bytes

/-- What a call took in of the server's bytes; the bytes of a call that ended the connection are not
counted. -/
def takenIn (c c' : Connection) : Op → Bytes
  | .feedDirect data _ =>
    if c'.error.isNone then (c.inbound ++ data).take
      ((c.inbound ++ data).length - c'.inbound.length)
    else []
  | _ => []

/-- A connection with all that was written and taken in. -/
structure Session where
  c : Connection
  sent : List (Bytes × Bytes)
  taken : Bytes

namespace Session

/-- A new connection has its preface and its first frames to send. -/
def new (config : Config) : Session :=
  ⟨Connection.new config, frames ((Connection.new config).out.drop PREFACE.length), []⟩

def step (s : Session) (op : Op) : Session :=
  let c := op.apply s.c
  ⟨c, s.sent ++ written s.c c, s.taken ++ takenIn s.c c op⟩

def run (config : Config) (ops : List Op) : Session := ops.foldl step (new config)

end Session

variable {c c' : Connection} {sent : List (Bytes × Bytes)} {t w : Bytes} {id : ℕ} {s : Session}

/-! ### What was written -/

lemma written_eq (hout : c'.out = c.out ++ w) (herr : c'.error = c.error) :
    written c c' = frames w := by
  rw [written, herr, hout, drop_left]
  cases c.error <;> rfl

lemma written_finish {e : ConnectionError} (hnone : c.error = none) (hout : c'.out = c.out ++ w) :
    written c (c'.finish (.err e)) = frames w ++ if e.local_ then [goawayOf e] else [] := by
  have hafter : (c'.finish (.err e)).error = some e := rfl
  rw [written, hnone, hafter]
  dsimp only
  cases hl : e.local_ with
  | true =>
    have hbytes : (c'.finish (.err e)).out = c.out ++ (w ++ writeGoaway 0 e.code e.reason) := by
      rw [← append_assoc, ← hout, finish, hl]
      rfl
    rw [hbytes, drop_left, length_append, Nat.add_sub_cancel, take_left, if_pos rfl, if_pos rfl]
  | false =>
    have hbytes : (c'.finish (.err e)).out = c.out ++ w := by
      rw [← hout, finish, hl]
      rfl
    rw [hbytes, drop_left, if_neg (by simp), if_neg (by simp), append_nil]

lemma takenIn_feed {data used rest : Bytes} {direct : Option Direct} (herr : c'.error = none)
    (hrest : c'.inbound = rest) (hsplit : c.inbound ++ data = used ++ rest) :
    takenIn c c' (.feedDirect data direct) = used := by
  rw [takenIn, herr, isNone_none, if_pos rfl, hrest, hsplit, length_append,
    Nat.add_sub_cancel, take_left]

lemma kindOf_goawayOf (e : ConnectionError) : kindOf (goawayOf e) = kind.GOAWAY := rfl

lemma streamOf_goawayOf (e : ConnectionError) : streamOf (goawayOf e) = 0 := by
  change fromBe (toBe 0) % 2 ^ 31 = 0
  rw [fromBe_toBe, Nat.zero_mod, Nat.zero_mod]

namespace Tied

lemma lasts (h : Tied sent c) (hnext : c'.next_stream_id = c.next_stream_id)
    (hstreams : ∀ id s', c'.streams.get id = some s' →
      ∃ s, c.streams.get id = some s ∧ Lasts s s') : Tied sent c' := by
  have hquiet : Talks c { c' with out := c.out } [] := Talks.quiet rfl hnext hstreams
  have htied := h.talks hquiet
  rw [frames_nil_eq, append_nil] at htied
  exact ⟨htied.ids, htied.next, htied.below, htied.ordered, htied.odd, htied.nonzero, htied.reset,
    htied.ended⟩

lemma onConnection (h : Tied sent c) {f : Bytes × Bytes} (hf : ¬ OfRequest f)
    (hk : kindOf f ≠ kind.RST_STREAM) (h0 : streamOf f = 0) : Tied (sent ++ [f]) c where
  ids := h.ids
  next := h.next
  below := by
    intro g hg
    rcases mem_append.1 hg with hg | hg
    · exact h.below g hg
    · have := h.next.1
      rw [mem_singleton.1 hg, h0]
      omega
  ordered := by
    refine pairwise_append.2 ⟨h.ordered, pairwise_singleton .., fun a ha b hb => ?_⟩
    rw [mem_singleton.1 hb]
    refine ⟨fun hrst heq => ?_, fun _ _ => ?_, fun _ hhead => ?_⟩
    · exact h.nonzero a ha hrst (heq.symm.trans h0)
    · exact ⟨fun hd => hf (.inl hd), fun hd => hf (.inr (.inl hd))⟩
    · exact absurd (.inr (.inl hhead)) hf
  odd := by
    intro g hg hhead
    rcases mem_append.1 hg with hg | hg
    · exact h.odd g hg hhead
    · rw [mem_singleton.1 hg] at hhead
      exact absurd (.inr (.inl hhead)) hf
  nonzero := by
    intro g hg hrst
    rcases mem_append.1 hg with hg | hg
    · exact h.nonzero g hg hrst
    · rw [mem_singleton.1 hg] at hrst
      exact absurd hrst hk
  reset := by
    intro g hg hrst
    rcases mem_append.1 hg with hg | hg
    · exact h.reset g hg hrst
    · rw [mem_singleton.1 hg] at hrst
      exact absurd hrst hk
  ended := by
    intro g hg hends
    rcases mem_append.1 hg with hg | hg
    · exact h.ended g hg hends
    · rw [mem_singleton.1 hg, endsStream_answer hf] at hends
      cases hends

lemma finish (h : Tied sent c) (e : ConnectionError) :
    Tied (sent ++ if e.local_ then [goawayOf e] else []) (c.finish (.err e)) := by
  have hdied : Tied sent (c.finish (.err e)) := by
    refine h.lasts ?_ fun i s' hs' => ?_
    · rw [Connection.finish]
      split <;> rfl
    · have hstreams : (c.finish (.err e)).streams = c.streams.map fun _ => dieStream e := by
        rw [Connection.finish]
        split <;> rfl
      rw [hstreams, BTreeMap.get_map, map_eq_some_iff] at hs'
      obtain ⟨s, hs, rfl⟩ := hs'
      refine ⟨s, hs, ?_⟩
      rw [dieStream]
      split
      · exact ⟨fun _ => by simp, fun hl => hl⟩
      · exact Lasts.refl s
  split
  · refine hdied.onConnection ?_ ?_ (streamOf_goawayOf e)
    · rw [OfRequest, kindOf_goawayOf]
      decide
    · rw [kindOf_goawayOf]
      decide
  · rwa [append_nil]

end Tied

/-! ### Tables -/

lemma Hpack.Encoder.encode_wf {e e' : Hpack.Encoder} {fields : List Hpack.FieldRef} {block : Bytes}
    (h : e.table.Wf) (hok : e.encode fields = .ok (block, e')) : e'.table.Wf := by
  rw [encode] at hok
  split at hok
  · rw [h.setMax_eq, Outcome.ok_bind] at hok
    cases hok
    exact (encodeFields_table (DynamicTable.wf_keep _ _) fields).1
  · cases hok
    exact (encodeFields_table h fields).1

lemma tables_openStream (h : Tables c) (request : Request) (end_stream : Bool) :
    Tables (c.openStream request end_stream).1 := by
  rw [openStream]
  split
  · exact h
  · split
    · exact h
    · split
      · exact h
      · dsimp only
        split
        · exact h
        · split
          · rename_i hencode
            exact ⟨h.1, Hpack.Encoder.encode_wf h.2 hencode⟩
          · exact h

/-! ### What the application calls -/

/-- The calls that read and let go only answer, and do not touch the feeding. -/
structure Reads (c c' : Connection) : Prop where
  answering : Answering c c'
  kept : Kept c c'

lemma reads_releaseStream (c : Connection) (id : ℕ) : Reads c (c.releaseStream id) := by
  refine ⟨answering_releaseStream c id, ?_⟩
  have hremove : Kept c { c with streams := c.streams.remove id } := rfl
  rw [releaseStream]
  split
  · exact Kept.refl c
  · dsimp only
    split
    · exact (hremove.trans (kept_write _ _)).trans (kept_creditConnection _ _)
    · exact hremove.trans (kept_creditConnection _ _)

lemma reads_poll (c : Connection) (id : ℕ) (sink : Sink) : Reads c (c.poll id sink).1 := by
  refine ⟨answering_poll c id sink, ?_⟩
  rw [poll]
  split
  · exact Kept.refl c
  · split
    · exact kept_setStream c _ _
    · split
      · exact ((kept_setStream c _ _).trans (kept_announceStream _ _)).trans
          (kept_creditConnection _ _)
      · split
        · exact Kept.refl c
        · split
          · split
            · exact kept_setStream c _ _
            · split_ifs <;> exact Kept.refl c
          · exact Kept.refl c

lemma reads_collectStream (c : Connection) (id limit : ℕ) : Reads c (c.collectStream id limit) := by
  refine ⟨answering_collectStream c id limit, collectStream_rule (Kept.refl c) ?_⟩
  rintro s s' hlive - -
  have hcredit := ((kept_setStream c id s').trans (kept_announceStream _ id)).trans
    (kept_creditConnection _ (asU32 (s.body.drop s.body_pos).length))
  exact ⟨hcredit, hcredit.trans (kept_streamError _ _ _ _)⟩

lemma reads_collected (c : Connection) (id : ℕ) : Reads c (c.collected id).1 := by
  refine ⟨answering_collected c id, ?_⟩
  rw [collected]
  split
  · exact Kept.refl c
  · split
    · exact Kept.refl c
    · split
      · exact Kept.refl c
      · split
        · exact kept_setStream c _ _
        · exact Kept.refl c

lemma consumeOutput_spec (c : Connection) (n : ℕ) :
    ∃ out out_pos, c.consumeOutput n = { c with out := out, out_pos := out_pos } ∧
      written c (c.consumeOutput n) = [] := by
  have hout : (c.consumeOutput n).out.drop c.out.length = [] := by
    rw [Connection.consumeOutput]
    split
    · rw [drop_nil]
    · rw [drop_length]
  have hsame : ∃ out out_pos, c.consumeOutput n = { c with out := out, out_pos := out_pos } := by
    rw [Connection.consumeOutput]
    split
    · exact ⟨_, _, rfl⟩
    · exact ⟨_, _, rfl⟩
  obtain ⟨out, out_pos, hc⟩ := hsame
  refine ⟨out, out_pos, hc, ?_⟩
  rw [written, hout, hc]
  cases c.error <;> exact frames_nil_eq

structure Sound (s : Session) : Prop where
  tied : Tied s.sent s.c
  data : dataSent 0 s.sent ≤ DEFAULT_WINDOW + increments 0 s.taken
  fair : s.c.error = none → Fair s.sent s.taken s.c
  feeding : s.c.error = none → At s.taken s.c.incoming ∧ Idle s.c ∧ Tables s.c

/-- What a call writes is within what the server allows. -/
structure Allowed (s : Session) (new : List (Bytes × Bytes)) : Prop where
  size : ∀ f ∈ new, OfRequest f → f.2.length ≤ s.c.peer_max_frame.size
  data : ∀ f ∈ new, kindOf f = kind.DATA → f.2 ≠ [] →
    (dataSent (streamOf f) (s.sent ++ new) : ℤ) ≤
      s.c.peer_initial_window + increments (streamOf f) s.taken

lemma allowed_answers {new : List (Bytes × Bytes)} (h : ∀ f ∈ new, ¬ OfRequest f) :
    Allowed s new :=
  ⟨fun f hf hof => absurd hof (h f hf), fun f hf hk => absurd (.inl hk) (h f hf)⟩

/-- A call that keeps the session sound and writes only what the server allows. -/
def Keeps (s : Session) (op : Op) : Prop :=
  Sound (s.step op) ∧ Allowed s (written s.c (op.apply s.c))

lemma keeps_of {op : Op} {new : List (Bytes × Bytes)} (hwritten : written s.c (op.apply s.c) = new)
    (htaken : takenIn s.c (op.apply s.c) op = t)
    (hsound : Sound ⟨op.apply s.c, s.sent ++ new, s.taken ++ t⟩) (hallowed : Allowed s new) :
    Keeps s op := by
  subst hwritten htaken
  exact ⟨hsound, hallowed⟩

structure Aside (c c' : Connection) : Prop where
  error : c'.error = c.error
  incoming : c'.incoming = c.incoming
  inbound : c'.inbound = c.inbound
  tables : Tables c → Tables c'

lemma Connection.Kept.aside (h : Kept c c') : Aside c c' :=
  ⟨h.error, h.incoming, h.inbound, h.handled.passes.tables⟩

namespace Sound

variable (h : Sound s)
include h

lemma aside (ha : Aside s.c c') :
    c'.error = none → At (s.taken ++ []) c'.incoming ∧ Idle c' ∧ Tables c' := by
  intro herr
  obtain ⟨hat, hidle, htables⟩ := h.feeding (ha.error.symm.trans herr)
  refine ⟨?_, ?_, ha.tables htables⟩
  · rwa [append_nil, ha.incoming]
  · rwa [Idle, ha.incoming, ha.inbound]

lemma reads {op : Op} (hr : Reads s.c (op.apply s.c))
    (htaken : takenIn s.c (op.apply s.c) op = []) : Keeps s op := by
  have hfeeding := h.aside hr.kept.aside
  cases herr : s.c.error with
  | none =>
    obtain ⟨w, hw, hfair⟩ := (h.fair herr).answering hr.answering fun _ => rfl
    refine keeps_of (written_eq hw.out hr.kept.error) htaken ⟨hfair.tied, ?_, ?_, hfeeding⟩
      (allowed_answers hw.answers)
    · rw [append_nil, dataSent_answers hw.answers]
      exact h.data
    · intro _
      rwa [append_nil]
  | some e =>
    obtain ⟨w, hw, htied⟩ := h.tied.talking fun hids => (hr.answering hids).imp fun _ hw => hw.1
    refine keeps_of (written_eq hw.out hr.kept.error) htaken ⟨htied, ?_, ?_, hfeeding⟩
      (allowed_answers hw.answers)
    · rw [append_nil, dataSent_answers hw.answers]
      exact h.data
    · intro hnone
      exact absurd (hr.kept.error.symm.trans hnone) (by rw [herr]; simp)

lemma idle {op : Op} (hc : op.apply s.c = s.c)
    (htaken : takenIn s.c (op.apply s.c) op = []) : Keeps s op := by
  refine h.reads ?_ htaken
  rw [hc]
  exact ⟨Answering.refl s.c, Kept.refl s.c⟩

lemma requests {op : Op} (ha : Aside s.c (op.apply s.c))
    (hout : (op.apply s.c).out = s.c.out ++ w)
    (hfair : Fair (s.sent ++ frames w) s.taken (op.apply s.c))
    (hallowed : Allowed s (frames w)) (htaken : takenIn s.c (op.apply s.c) op = []) :
    Keeps s op := by
  refine keeps_of (written_eq hout ha.error) htaken ⟨hfair.tied, ?_, ?_, h.aside ha⟩ hallowed
  · rw [append_nil]
    exact hfair.windows.dataSent_le
  · intro _
    rwa [append_nil]

lemma sendData (id : ℕ) (data : Bytes) (end_stream : Bool) :
    Keeps s (.sendData id data end_stream) := by
  rcases sendData_cases s.c id data end_stream with heq | ⟨_, _, _, -, -, herr, -, -, -, heq⟩
  · exact h.idle heq rfl
  · obtain ⟨w, hout, -, hfair, hsize, hdata⟩ := (h.fair herr).sendData data end_stream
    have ha : Aside s.c (s.c.sendData id data end_stream).1 := by
      rw [heq]
      exact ⟨rfl, rfl, rfl, fun ht => ht⟩
    exact h.requests ha hout hfair
      ⟨fun f hf _ => hsize f hf, hdata⟩ rfl

lemma openStream (request : Request) (end_stream : Bool) :
    Keeps s (.openStream request end_stream) := by
  rcases openStream_cases s.c request end_stream with ⟨heq, -⟩ | ⟨encoder, block, herr, -, -, heq⟩
  · exact h.idle heq rfl
  · obtain ⟨w, hout, -, hfair, hsize, hdata⟩ := (h.fair herr).openStream request end_stream
    have ha : Aside s.c (s.c.openStream request end_stream).1 := by
      have htables := fun ht => @tables_openStream s.c ht request end_stream
      rw [heq] at htables ⊢
      exact ⟨rfl, rfl, rfl, htables⟩
    exact h.requests ha hout hfair
      ⟨fun f hf _ => hsize f hf, fun f hf hk => absurd hk (hdata f hf)⟩ rfl

lemma consumeOutput (n : ℕ) : Keeps s (.consumeOutput n) := by
  obtain ⟨out, out_pos, hc, hwritten⟩ := consumeOutput_spec s.c n
  refine keeps_of (t := []) hwritten rfl ?_ (allowed_answers (by simp))
  rw [append_nil, append_nil, Op.apply, hc]
  obtain ⟨h1, h2, h3, h4⟩ := h
  exact ⟨h1.lasts rfl fun _ s' hs' => ⟨s', hs', Lasts.refl s'⟩, h2,
    fun herr => (h3 herr).same rfl rfl rfl rfl, h4⟩

lemma during (herr : s.c.error = none) (direct : Option Direct) :
    During s.c s.sent s.taken ⟨s.c, direct⟩ := by
  obtain ⟨hat, -, htables⟩ := h.feeding herr
  refine ⟨⟨herr, htables⟩, hat, [], ⟨(append_nil _).symm, Whole.nil, ?_⟩, ?_⟩
  · simp [frames_nil_eq]
  · rw [frames_nil_eq, append_nil]
    exact h.fair herr

lemma feedDirect (data : Bytes) (direct : Option Direct) :
    Keeps s (.feedDirect data direct) := by
  cases herr : s.c.error with
  | some e =>
    have hc : Op.apply s.c (.feedDirect data direct) = s.c := by
      rw [Op.apply, Connection.feedDirect, herr]
    refine h.idle hc ?_
    rw [hc, takenIn, herr]
    rfl
  | none =>
    obtain ⟨-, hidle, -⟩ := h.feeding herr
    obtain ⟨f, used, rest, r, hfeed, hsplit, hend, hlast⟩ :=
      feed_fair (h.during herr direct) hidle data
    obtain ⟨hfault, ⟨w, hw, htied⟩, hgoes⟩ := hend
    have hc : Op.apply s.c (.feedDirect data direct) = f.c.finish r := by
      rw [Op.apply, hfeed, finished]
    cases r with
    | ok u =>
      obtain ⟨hrest, hidle'⟩ := hlast rfl
      obtain ⟨⟨herr', htables'⟩, hat', w, hw, hfair⟩ := hgoes rfl
      have hc' : Op.apply s.c (.feedDirect data direct) = f.c := hc
      have htaken : takenIn s.c f.c (.feedDirect data direct) = used :=
        takenIn_feed herr' hrest hsplit
      rw [← hc'] at hw hfair htaken hat' hidle' htables' herr'
      refine keeps_of (written_eq hw.out (herr'.trans herr.symm)) htaken
        ⟨hfair.tied, hfair.windows.dataSent_le, fun _ => hfair, fun _ => ⟨hat', hidle', htables'⟩⟩
        (allowed_answers hw.answers)
    | err e =>
      have hlost : (f.c.finish (.err e)).error ≠ none := by
        rw [Connection.finish]
        simp [die]
      have hwritten := written_finish (e := e) herr hw.out
      have htaken : takenIn s.c (f.c.finish (.err e)) (.feedDirect data direct) = [] := by
        rw [takenIn, if_neg]
        rw [isNone_iff_eq_none]
        exact hlost
      have hanswers : ∀ g ∈ frames w ++ if e.local_ then [goawayOf e] else [], ¬ OfRequest g := by
        intro g hg
        rcases mem_append.1 hg with hg | hg
        · exact hw.answers g hg
        · split at hg
          · rw [mem_singleton.1 hg, OfRequest, kindOf_goawayOf]
            decide
          · cases hg
      have hzero : dataSent 0 (frames w ++ if e.local_ then [goawayOf e] else []) = 0 :=
        dataSent_eq_zero fun g hg => flow_eq_zero fun hk => hanswers g hg (.inl hk)
      have hfinish := htied.finish e
      rw [← hc] at hwritten htaken hlost hfinish
      rw [append_assoc] at hfinish
      refine keeps_of hwritten htaken ⟨hfinish, ?_, fun hnone => absurd hnone hlost,
        fun hnone => absurd hnone hlost⟩ (allowed_answers hanswers)
      rw [append_nil, dataSent_append, hzero, add_zero]
      exact h.data
    | fault => exact absurd rfl hfault

theorem keeps (op : Op) : Keeps s op := by
  cases op with
  | feedDirect data direct => exact h.feedDirect data direct
  | openStream request end_stream => exact h.openStream request end_stream
  | sendData id data end_stream => exact h.sendData id data end_stream
  | releaseStream id => exact h.reads (reads_releaseStream s.c id) rfl
  | poll id sink => exact h.reads (reads_poll s.c id sink) rfl
  | collectStream id limit => exact h.reads (reads_collectStream s.c id limit) rfl
  | collected id => exact h.reads (reads_collected s.c id) rfl
  | consumeOutput n => exact h.consumeOutput n

end Sound

/-! ### Sessions -/

lemma sent_new_eq (config : Config) :
    (Session.new config).sent = frames (writeSettings [(setting.HEADER_TABLE_SIZE,
      HEADER_TABLE_SIZE), (setting.ENABLE_PUSH, 0),
      (setting.INITIAL_WINDOW_SIZE, config.stream_window),
      (setting.MAX_HEADER_LIST_SIZE, config.max_header_list)] ++
      if config.connection_window > DEFAULT_WINDOW then
        writeWindowUpdate 0 (config.connection_window - DEFAULT_WINDOW) else []) := by
  rw [Session.new, Connection.new]
  dsimp only
  rw [append_assoc, drop_left]

lemma sent_new (config : Config) : ∀ f ∈ (Session.new config).sent,
    ¬ OfRequest f ∧ kindOf f ≠ kind.RST_STREAM ∧ streamOf f = 0 := by
  have hone : ∀ (k : UInt8) (n : ℕ) (payload : Bytes), n < 2 ^ 24 →
      (k = kind.SETTINGS ∨ k = kind.WINDOW_UPDATE) →
      ¬ OfRequest (start n k 0 0, payload) ∧ kindOf (start n k 0 0, payload) ≠ kind.RST_STREAM ∧
        streamOf (start n k 0 0, payload) = 0 := by
    intro k n payload hn hk
    rw [OfRequest, kindOf_start hn (by omega), streamOf_start hn (by omega)]
    rcases hk with rfl | rfl <;> decide
  intro f hf
  rw [sent_new_eq, frames_append (silent_writeSettings (by simp)).1, mem_append, writeSettings,
    frames_start _ _ (by simp) (by omega) (by rfl), mem_singleton] at hf
  rcases hf with rfl | hf
  · exact hone _ _ _ (by simp) (.inl rfl)
  · split at hf
    · have hlen : (toBe (config.connection_window - DEFAULT_WINDOW)).length = 4 := rfl
      rw [writeWindowUpdate, frames_start _ _ (by omega) (by omega) hlen, mem_singleton] at hf
      rw [hf]
      exact hone _ _ _ (by omega) (.inr rfl)
    · rw [frames_nil_eq] at hf
      cases hf

lemma sound_new (config : Config) : Sound (Session.new config) := by
  have htied : Tied [] (Connection.new config) := by
    refine ⟨?_, ⟨rfl, Nat.le_add_left 1 _⟩, ?_, Pairwise.nil, ?_, ?_, ?_, ?_⟩
    · intro id s hs
      cases hs
    all_goals
      intro f hf
      cases hf
  have hsent := sent_new config
  have hall : ∀ sent : List (Bytes × Bytes), (∀ f ∈ sent, ¬ OfRequest f ∧
      kindOf f ≠ kind.RST_STREAM ∧ streamOf f = 0) → Tied sent (Connection.new config) := by
    intro sent
    induction sent using reverseRecOn with
    | nil => exact fun _ => htied
    | append_singleton sent f ih =>
      intro hf
      obtain ⟨h1, h2, h3⟩ := hf f (by simp)
      exact (ih fun g hg => hf g (mem_append_left _ hg)).onConnection h1 h2 h3
  have hzero : ∀ i, dataSent i (Session.new config).sent = 0 := fun i =>
    dataSent_eq_zero fun f hf => flow_eq_zero fun hk => (hsent f hf).1 (.inl hk)
  refine ⟨hall _ hsent, ?_, fun _ => ⟨hall _ hsent, ⟨?_, ?_, ?_, ?_, ?_⟩, ?_⟩,
    fun _ => ⟨Whole.nil, fun _ => rfl, Hpack.DynamicTable.wf_new _, Hpack.DynamicTable.wf_new _⟩⟩
  · rw [hzero]
    exact Nat.zero_le _
  · rw [hzero, Session.new, increments_nil]
    rfl
  · exact ⟨Int.natCast_nonneg _, Int.ofNat_le.2 (by decide)⟩
  · intro id _
    exact increments_nil id
  · intro id s hs
    cases hs
  · exact Int.ofNat_le.2 (by decide)
  · intro id s hs
    cases hs

theorem sound_run (config : Config) (ops : List Op) : Sound (Session.run config ops) := by
  rw [Session.run]
  induction ops using reverseRecOn with
  | nil => exact sound_new config
  | append_singleton ops op ih =>
    rw [foldl_append]
    exact (ih.keeps op).1

/-- A client never exceeds what the server allows, whatever the application calls and whatever the
server sends: the windows, the frame size, the number of streams, and the order of frames
(`Before`). -/
theorem within_what_the_server_allows (config : Config) (ops : List Op) :
    let s := Session.run config ops
    dataSent 0 s.sent ≤ DEFAULT_WINDOW + increments 0 s.taken ∧
    s.sent.Pairwise Before ∧
    (∀ f ∈ s.sent, kindOf f = kind.HEADERS → streamOf f % 2 = 1) ∧
    (s.c.error = none → ∀ id stream, s.c.live id = some stream →
      stream.send_window ≤ (MAX_WINDOW : ℤ)) ∧
    ∀ op : Op, let new := written s.c (op.apply s.c)
      (∀ f ∈ new, OfRequest f → f.2.length ≤ s.c.peer_max_frame.size) ∧
      (∀ f ∈ new, kindOf f = kind.DATA → f.2 ≠ [] →
        (dataSent (streamOf f) (s.sent ++ new) : ℤ) ≤
          s.c.peer_initial_window + increments (streamOf f) s.taken) ∧
      ∀ request end_stream id, op = .openStream request end_stream →
        (s.c.openStream request end_stream).2 = .ok id →
        s.c.activeStreams < s.c.peer_max_concurrent := by
  intro s
  have h := sound_run config ops
  refine ⟨h.data, h.tied.ordered, h.tied.odd, fun herr => (h.fair herr).bounded, fun op => ?_⟩
  obtain ⟨-, hsize, hdata⟩ := h.keeps op
  refine ⟨hsize, hdata, fun request end_stream id _ hok => ?_⟩
  rcases openStream_cases s.c request end_stream with ⟨-, hne⟩ | ⟨_, _, -, -, hroom, -⟩
  · exact absurd hok (hne id)
  · exact hroom

/-- The server answers stream 1 in full, adds all it can to its window, and then makes the windows
of all streams larger by one. -/
def oneTooMany : Bytes :=
  writeSettings [] ++ (start 1 kind.HEADERS (flag.END_STREAM ||| flag.END_HEADERS) 1 ++ [0x88]) ++
    writeWindowUpdate 1 (MAX_WINDOW - DEFAULT_WINDOW) ++
    writeSettings [(setting.INITIAL_WINDOW_SIZE, DEFAULT_WINDOW + 1)]

/-- The settings that end the connection have moved the window of a stream that has its response,
and so does not fail. -/
theorem a_lost_connection_has_a_window_too_large : ¬ ∀ (config : Config) (ops : List Op) (id : ℕ)
    (stream : Stream), (Session.run config ops).c.live id = some stream →
      stream.send_window ≤ (MAX_WINDOW : ℤ) := by
  intro h
  have hwindow : ((Session.run Config.default [.openStream ⟨asBytes "POST", asBytes "https",
      asBytes "a", asBytes "/", [], []⟩ false, .feedDirect oneTooMany none]).c.live 1).map
      (fun s => s.send_window) = some (MAX_WINDOW + 1 : ℤ) := by decide +kernel
  obtain ⟨stream, hlive, heq⟩ := map_eq_some_iff.1 hwindow
  have hle := h _ _ 1 stream hlive
  omega

end Lazaret.H2
