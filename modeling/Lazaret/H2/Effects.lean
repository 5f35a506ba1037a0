import Lazaret.H2.Feed
import Lazaret.H2.HpackSync

/-!
# What an operation leaves alone

Most operations of a connection change its streams, its windows and its output and nothing else
(`Kept`), and no frame changes what belongs to the feeding itself (`Handled`).  With that, what a
turn of the loop of `run` can do is said once (`turn_spec`), and no frame faults.
-/

namespace Lazaret.H2

open List Option

namespace Connection

open Hpack (Field)

variable {c c' c'' : Connection} {id : ℕ} {s : Stream}

lemma live_eq_some : c.live id = some s ↔ c.streams.get id = some s ∧ s.failure = none := by
  rw [live, filter_eq_some_iff, isNone_iff_eq_none]

/-- Only the streams, the receive windows and the output change. -/
def Kept (c c' : Connection) : Prop :=
  c' = { c with
    streams := c'.streams
    recv_window := c'.recv_window
    unannounced := c'.unannounced
    out := c'.out }

namespace Kept

lemma refl (c : Connection) : Kept c c := rfl

lemma trans (h : Kept c c') (h' : Kept c' c'') : Kept c c'' := by
  rw [Kept] at h h' ⊢
  rw [h', h]

lemma proj {β : Type} (h : Kept c c') (p : Connection → β)
    (hp : ∀ c streams recv_window unannounced out, p { c with
      streams := streams, recv_window := recv_window, unannounced := unannounced,
      out := out } = p c) : p c' = p c := by
  rw [Kept] at h
  rw [h]
  exact hp _ _ _ _ _

variable (h : Kept c c')
include h

lemma config : c'.config = c.config := h.proj _ fun _ _ _ _ _ => rfl
lemma decoder : c'.decoder = c.decoder := h.proj _ fun _ _ _ _ _ => rfl
lemma encoder : c'.encoder = c.encoder := h.proj _ fun _ _ _ _ _ => rfl
lemma inbound : c'.inbound = c.inbound := h.proj _ fun _ _ _ _ _ => rfl
lemma out_pos : c'.out_pos = c.out_pos := h.proj _ fun _ _ _ _ _ => rfl
lemma next_stream_id : c'.next_stream_id = c.next_stream_id :=
  h.proj _ fun _ _ _ _ _ => rfl
lemma incoming : c'.incoming = c.incoming := h.proj _ fun _ _ _ _ _ => rfl
lemma error : c'.error = c.error := h.proj _ fun _ _ _ _ _ => rfl

end Kept

lemma kept_write (c : Connection) (bytes : Bytes) : Kept c (c.write bytes) := rfl

lemma kept_setStream (c : Connection) (id : ℕ) (s : Stream) : Kept c (c.setStream id s) := rfl

lemma kept_creditConnection (c : Connection) (n : ℕ) : Kept c (c.creditConnection n) := by
  rw [creditConnection]
  split_ifs
  · exact Kept.refl c
  · dsimp only
    split_ifs <;> rfl

lemma kept_announceStream (c : Connection) (id : ℕ) : Kept c (c.announceStream id) := by
  rw [announceStream]
  split
  · exact Kept.refl c
  · split_ifs
    · exact Kept.refl c
    · exact (kept_setStream c _ _).trans (kept_write _ _)

lemma kept_failStream (c : Connection) (id : ℕ) (failure : StreamError) :
    Kept c (c.failStream id failure) := by
  rw [failStream]
  split
  · exact Kept.refl c
  · exact (kept_setStream c _ _).trans (kept_creditConnection _ _)

lemma kept_streamError (c : Connection) (id : ℕ) (code : ErrorCode) (reason : String) :
    Kept c (c.streamError id code reason) := by
  rw [streamError]
  split
  · exact Kept.refl c
  · exact (kept_failStream c _ _).trans (kept_write _ _)

lemma kept_keepData (c : Connection) (id : ℕ) (end_stream : Bool) (len flow_len : ℕ) :
    Kept c (c.keepData id end_stream len flow_len).1 := by
  rw [keepData]
  split
  · exact Kept.refl c
  · split
    · exact Kept.refl c
    · exact kept_streamError c _ _ _

lemma kept_dataBytes (f : Feeding) (id : ℕ) (keep : Bool) (bytes : Bytes) :
    Kept f.c (dataBytes f id keep bytes).c := by
  have hrecv : Kept f.c { f.c with recv_window := f.c.recv_window - bytes.length } := rfl
  rw [dataBytes]
  split
  · exact hrecv.trans (kept_creditConnection _ _)
  · dsimp only
    split_ifs
    · exact (hrecv.trans (kept_setStream _ _ _)).trans (kept_creditConnection _ _)
    · exact ((hrecv.trans (kept_setStream _ _ _)).trans (kept_announceStream _ _)).trans
        (kept_creditConnection _ _)
    · exact hrecv.trans (kept_setStream _ _ _)

lemma kept_dataEnd (c : Connection) (id : ℕ) (keep end_stream : Bool) (padding : ℕ) :
    Kept c (c.dataEnd id keep end_stream padding) := by
  have hrecv : Kept c { c with recv_window := c.recv_window - padding } := rfl
  rw [dataEnd]
  split
  · exact hrecv.trans (kept_creditConnection _ _)
  · exact ((hrecv.trans (kept_setStream _ _ _)).trans (kept_creditConnection _ _)).trans
      (kept_announceStream _ _)

/-! ### Frames -/

/-- What belongs to the feeding itself is as it was, and the tables of the header compression are
well-formed if they were. -/
structure Handled (c c' : Connection) : Prop where
  config : c'.config = c.config
  inbound : c'.inbound = c.inbound
  out_pos : c'.out_pos = c.out_pos
  next_stream_id : c'.next_stream_id = c.next_stream_id
  incoming : c'.incoming = c.incoming
  error : c'.error = c.error
  decoder : c.decoder.table.Wf → c'.decoder.table.Wf
  encoder : c.encoder.table.Wf → c'.encoder.table.Wf

namespace Handled

lemma refl (c : Connection) : Handled c c := ⟨rfl, rfl, rfl, rfl, rfl, rfl, id, id⟩

lemma trans (h : Handled c c') (h' : Handled c' c'') : Handled c c'' :=
  ⟨h'.config.trans h.config, h'.inbound.trans h.inbound, h'.out_pos.trans h.out_pos,
    h'.next_stream_id.trans h.next_stream_id, h'.incoming.trans h.incoming,
    h'.error.trans h.error, fun hw => h'.decoder (h.decoder hw),
    fun hw => h'.encoder (h.encoder hw)⟩

end Handled

lemma Kept.handled (h : Kept c c') : Handled c c' :=
  ⟨h.config, h.inbound, h.out_pos, h.next_stream_id, h.incoming, h.error,
    fun hw => h.decoder ▸ hw, fun hw => h.encoder ▸ hw⟩

/-- A frame is handled: what belongs to the feeding is as it was, and there is no fault. -/
def Takes (c : Connection) {α : Type} (r : Connection × Outcome ConnectionError α) : Prop :=
  Handled c r.1 ∧ (c.decoder.table.Wf → c.encoder.table.Wf → r.2 ≠ .fault)

lemma takes_ok {α : Type} (h : Handled c c') (a : α) : Takes c (c', .ok a) := ⟨h, by simp⟩

lemma takes_err {α : Type} (h : Handled c c') (e : ConnectionError) :
    Takes c (c', (.err e : Outcome ConnectionError α)) := ⟨h, by simp⟩

lemma takes_countEmpty (c : Connection) (end_stream : Bool) (len : ℕ) :
    Takes c (c.countEmpty end_stream len) := by
  have hcount : Handled c { c with empty_frames := c.empty_frames + 1 } :=
    ⟨rfl, rfl, rfl, rfl, rfl, rfl, fun h => h, fun h => h⟩
  rw [countEmpty]
  split_ifs
  · dsimp only
    split_ifs
    · exact takes_err hcount _
    · exact takes_ok hcount _
  · exact takes_ok (Handled.refl c) _

lemma requireServerStreamKnown_ne_fault (c : Connection) (id : ℕ) :
    c.requireServerStreamKnown id ≠ .fault := by
  rw [requireServerStreamKnown]
  split_ifs <;> simp

lemma takes_checkData (c : Connection) (id : ℕ) (end_stream : Bool) (len flow_len : ℕ) :
    Takes c (c.checkData id end_stream len flow_len) := by
  rw [checkData]
  split
  · exact takes_err (Handled.refl c) _
  · rename_i h
    exact absurd h (requireServerStreamKnown_ne_fault c id)
  · split_ifs
    · exact takes_err (Handled.refl c) _
    · have hcount := takes_countEmpty c end_stream len
      split
      all_goals
        rename_i h
        rw [h] at hcount
      · exact takes_err hcount.1 _
      · exact ⟨hcount.1, fun h1 h2 => absurd rfl (hcount.2 h1 h2)⟩
      · exact takes_ok (hcount.1.trans (kept_keepData _ _ _ _ _).handled) _

/-! ### Frames that carry no DATA -/

def Lasts (s s' : Stream) : Prop :=
  (s.failure ≠ none → s'.failure ≠ none) ∧ (s.local_ended = true → s'.local_ended = true)

lemma Lasts.refl (s : Stream) : Lasts s s := ⟨id, id⟩

/-- To collect a stream sets it, announces its window and gives the connection credit; a body that
is too big is given up. -/
lemma collectStream_rule {P : Connection → Prop} {c : Connection} {id limit : ℕ} (hself : P c)
    (h : ∀ s s' : Stream, c.live id = some s → ¬s.collecting = true → s' = { s with
        body := s.body.drop s.body_pos
        body_pos := 0
        collecting := true
        collect_limit := limit
        unannounced := addU32 s.unannounced (asU32 (s.body.drop s.body_pos).length) } →
      let c' := ((c.setStream id s').announceStream id).creditConnection
        (asU32 (s.body.drop s.body_pos).length)
      P c' ∧ P (c'.streamError id .CANCEL BODY_TOO_BIG)) : P (c.collectStream id limit) := by
  rw [collectStream]
  split
  · exact hself
  · rename_i s hlive
    split
    · exact hself
    · rename_i hcoll
      obtain ⟨hkept, hbig⟩ := h s _ hlive hcoll rfl
      dsimp only
      split
      · exact hbig
      · exact hkept

structure Alike (s s' : Stream) : Prop where
  recv_window : s'.recv_window = s.recv_window
  unannounced : s'.unannounced = s.unannounced
  body : s'.body = s.body
  body_pos : s'.body_pos = s.body_pos
  collecting : s'.collecting = s.collecting
  failure : s'.failure = none → s.failure = none

lemma Alike.refl (s : Stream) : Alike s s := ⟨rfl, rfl, rfl, rfl, rfl, fun h => h⟩

/-- A frame that moves send windows: SETTINGS or WINDOW_UPDATE. -/
def movesWindows : Frame → Bool
  | .Settings _ _ => true
  | .WindowUpdate _ _ => true
  | _ => false

/-- What the frames that carry no DATA do, step by step; send windows move only if `moves`. -/
inductive Acts (moves : Bool) : Connection → Connection → Prop
  | refl (c : Connection) : Acts moves c c
  | trans {c c' c'' : Connection} (h : Acts moves c c') (h' : Acts moves c' c'') : Acts moves c c''
  | other {c c' : Connection} (h : Handled c c') (hout : c'.out = c.out)
      (hstreams : c'.streams = c.streams) (hrecv : c'.recv_window = c.recv_window)
      (hun : c'.unannounced = c.unannounced) (hsend : moves = false →
        c'.send_window = c.send_window ∧ c'.peer_initial_window = c.peer_initial_window) :
      Acts moves c c'
  | stream {c : Connection} {id : ℕ} {s s' : Stream} (hget : c.streams.get id = some s)
      (ha : Alike s s') (hl : Lasts s s') (hsend : moves = false → s'.send_window = s.send_window) :
      Acts moves c (c.setStream id s')
  | streams {c : Connection} {g : ℕ → Stream → Stream} (hmoves : moves = true)
      (h : ∀ id s, Alike s (g id s) ∧ Lasts s (g id s)) :
      Acts moves c { c with streams := c.streams.map g }
  | failStream (c : Connection) (id : ℕ) (failure : StreamError) :
      Acts moves c (c.failStream id failure)
  | streamError (c : Connection) (id : ℕ) (code : ErrorCode) (reason : String) :
      Acts moves c (c.streamError id code reason)
  | settingsAck (c : Connection) : Acts moves c (c.write writeSettingsAck)
  | pong (c : Connection) {data : Bytes} (hdata : data.length = 8) :
      Acts moves c (c.write (writePing true data))

variable {moves : Bool}

lemma Acts.handled (h : Acts moves c c') : Handled c c' := by
  induction h with
  | refl c => exact Handled.refl c
  | trans _ _ ih ih' => exact ih.trans ih'
  | other h => exact h
  | stream => exact (kept_setStream _ _ _).handled
  | streams => exact ⟨rfl, rfl, rfl, rfl, rfl, rfl, id, id⟩
  | failStream c id failure => exact (kept_failStream c id failure).handled
  | streamError c id code reason => exact (kept_streamError c id code reason).handled
  | settingsAck c | pong c => exact (kept_write c _).handled

/-- A frame that carries no DATA is handled, and there is no fault. -/
def Does (moves : Bool) (c : Connection) (r : Connection × Outcome ConnectionError Unit) : Prop :=
  Acts moves c r.1 ∧ (c.decoder.table.Wf → c.encoder.table.Wf → r.2 ≠ .fault)

lemma Does.takes {r : Connection × Outcome ConnectionError Unit} (h : Does moves c r) : Takes c r :=
  ⟨h.1.handled, h.2⟩

lemma does_ok (h : Acts moves c c') : Does moves c (c', .ok ()) := ⟨h, by simp⟩

lemma does_err (h : Acts moves c c') (e : ConnectionError) : Does moves c (c', .err e) :=
  ⟨h, by simp⟩

lemma Does.after {r : Connection × Outcome ConnectionError Unit} (h : Acts moves c c')
    (h' : Does moves c' r) : Does moves c r :=
  ⟨h.trans h'.1, fun hd he => h'.2 (h.handled.decoder hd) (h.handled.encoder he)⟩

lemma kept_headersFor (s : Stream) (end_stream : Bool) (fields : List Field) :
    Alike s (headersFor s end_stream fields).1 ∧ Lasts s (headersFor s end_stream fields).1 ∧
      (headersFor s end_stream fields).1.send_window = s.send_window := by
  have hrefl : Alike s s ∧ Lasts s s ∧ s.send_window = s.send_window :=
    ⟨Alike.refl s, Lasts.refl s, rfl⟩
  rw [headersFor]
  by_cases hrem : s.remote_ended = true
  · rw [if_pos hrem]
    exact hrefl
  rw [if_neg hrem]
  by_cases hgot : s.got_head = true
  · rw [if_pos hgot]
    split
    · exact hrefl
    · split
      · exact hrefl
      · dsimp only
        split_ifs <;>
          exact ⟨⟨rfl, rfl, rfl, rfl, rfl, fun h => h⟩, ⟨fun h => h, fun h => h⟩, rfl⟩
  · rw [if_neg hgot]
    split
    · exact hrefl
    · dsimp only
      split_ifs <;> exact ⟨⟨rfl, rfl, rfl, rfl, rfl, fun h => h⟩, ⟨fun h => h, fun h => h⟩, rfl⟩

lemma acts_onHeaders (c : Connection) (id : ℕ) (end_stream : Bool) (fields : List Field) :
    Acts moves c (c.onHeaders id end_stream fields) := by
  rw [onHeaders]
  split
  · exact Acts.refl c
  · rename_i s hlive
    obtain ⟨ha, hl, hw⟩ := kept_headersFor s end_stream fields
    have hset := @Acts.stream moves _ _ _ _ (live_eq_some.1 hlive).1 ha hl fun _ => hw
    split
    all_goals
      rename_i h
      rw [h] at hset
    · exact hset.trans (Acts.streamError _ _ _ _)
    · exact hset

lemma does_onBlock (c : Connection) (b : Block) : Does moves c (c.onBlock b) := by
  rw [onBlock]
  split
  · exact does_err (Acts.refl c) _
  · rename_i h
    exact ⟨Acts.refl c, fun hw _ => absurd h (Hpack.Decoder.decode_wf hw _ _).1⟩
  · rename_i within fields decoder h
    have hdec : Acts moves c { c with decoder := decoder } :=
      Acts.other ⟨rfl, rfl, rfl, rfl, rfl, rfl, fun hw =>
        (Hpack.Decoder.decode_wf hw _ _).2 _ _ _ h, id⟩ rfl rfl rfl rfl fun _ => ⟨rfl, rfl⟩
    dsimp only
    split_ifs
    · exact does_ok (hdec.trans (Acts.streamError _ _ _ _))
    · exact does_ok (hdec.trans (acts_onHeaders _ _ _ _))

lemma does_onFragment (c : Connection) (b : Block) (end_headers : Bool) (fragment : Bytes) :
    Does moves c (c.onFragment b end_headers fragment) := by
  have hblock : ∀ b, Acts moves c { c with block := b } := fun b =>
    Acts.other ⟨rfl, rfl, rfl, rfl, rfl, rfl, id, id⟩ rfl rfl rfl rfl fun _ => ⟨rfl, rfl⟩
  rw [onFragment]
  dsimp only
  split_ifs
  · exact does_err (hblock _) _
  · exact does_ok (hblock _)
  · exact (does_onBlock _ _).after (hblock none)

lemma does_onReset (c : Connection) (id : ℕ) (code : ErrorCode) :
    Does moves c (c.onReset id code) := by
  rw [onReset]
  split_ifs
  · exact does_err (Acts.refl c) _
  · split
    · exact does_ok (Acts.refl c)
    · rename_i s hlive
      have hget := (live_eq_some.1 hlive).1
      split_ifs
      · exact does_ok (Acts.stream hget ⟨rfl, rfl, rfl, rfl, rfl, fun h => h⟩
          ⟨fun h => h, fun _ => rfl⟩ fun _ => rfl)
      · exact does_ok (Acts.stream hget ⟨rfl, rfl, rfl, rfl, rfl, by simp⟩
          ⟨fun _ => some_ne_none _, fun h => h⟩ fun _ => rfl)

lemma does_moveWindows (c : Connection) (delta : ℤ) : Does true c (c.moveWindows delta) := by
  have hmove : ∀ s : Stream, Alike s { s with send_window := s.send_window + delta } ∧
      Lasts s { s with send_window := s.send_window + delta } := fun s =>
    ⟨⟨rfl, rfl, rfl, rfl, rfl, fun h => h⟩, fun h => h, fun h => h⟩
  rw [moveWindows]
  dsimp only
  split
  · exact does_ok (Acts.streams rfl fun _ s => hmove s)
  · refine does_err (Acts.streams rfl fun _ s => ?_) _
    split_ifs
    · exact hmove s
    · exact ⟨Alike.refl s, Lasts.refl s⟩

lemma does_onSetting (c : Connection) (id value : ℕ) : Does true c (c.onSetting id value) := by
  have hsame : ∀ c' : Connection, Handled c c' → c'.out = c.out → c'.streams = c.streams →
      c'.recv_window = c.recv_window → c'.unannounced = c.unannounced → Acts true c c' :=
    fun c' h h1 h2 h3 h4 => Acts.other h h1 h2 h3 h4 nofun
  rw [onSetting]
  split_ifs
  · split
    · rename_i encoder h
      refine does_ok (hsame _ ⟨rfl, rfl, rfl, rfl, rfl, rfl, fun hw => hw, fun hw => ?_⟩
        rfl rfl rfl rfl)
      rw [Hpack.Encoder.setPeerTableSize, hw.setMax_eq, Outcome.ok_bind, Outcome.ok.injEq] at h
      rw [← h]
      exact Hpack.DynamicTable.wf_keep _ _
    · rename_i hne
      refine ⟨Acts.refl c, fun _ hw => ?_⟩
      rw [Hpack.Encoder.setPeerTableSize, hw.setMax_eq, Outcome.ok_bind] at hne
      exact absurd rfl (hne _)
  · exact does_err (Acts.refl c) _
  · exact does_ok (Acts.refl c)
  · exact does_ok (hsame _ ⟨rfl, rfl, rfl, rfl, rfl, rfl, fun h => h, fun h => h⟩ rfl rfl rfl rfl)
  · exact does_err (Acts.refl c) _
  · exact (does_moveWindows _ _).after (hsame { c with peer_initial_window := value }
      ⟨rfl, rfl, rfl, rfl, rfl, rfl, fun h => h, fun h => h⟩ rfl rfl rfl rfl)
  · exact does_ok (hsame _ ⟨rfl, rfl, rfl, rfl, rfl, rfl, fun h => h, fun h => h⟩ rfl rfl rfl rfl)
  · exact does_err (Acts.refl c) _
  · exact does_ok (hsame _ ⟨rfl, rfl, rfl, rfl, rfl, rfl, fun h => h, fun h => h⟩ rfl rfl rfl rfl)
  · exact does_ok (Acts.refl c)

lemma does_onSettingsRest (c : Connection) (values : List (ℕ × ℕ)) :
    Does true c (c.onSettingsRest values) := by
  induction values generalizing c with
  | nil => exact does_ok (Acts.refl c)
  | cons v values ih =>
    have hone := does_onSetting c v.1 v.2
    rw [onSettingsRest]
    split
    all_goals
      rename_i h
      rw [h] at hone
    · exact (ih _).after hone.1
    · exact hone

lemma does_answer (h : Acts moves c c') {bytes : Bytes} (hw : Acts moves c' (c'.write bytes)) :
    Does moves c (match c'.controlBacklog with
      | .ok () => (c'.write bytes, .ok ())
      | r => (c', r)) := by
  split
  · exact does_ok (h.trans hw)
  · refine ⟨h, fun _ _ => ?_⟩
    rw [controlBacklog]
    split_ifs <;> simp

lemma does_onSettings (c : Connection) (ack : Bool) (values : List (ℕ × ℕ)) :
    Does true c (c.onSettings ack values) := by
  have hgot : Acts true c { c with got_peer_settings := true } :=
    Acts.other ⟨rfl, rfl, rfl, rfl, rfl, rfl, id, id⟩ rfl rfl rfl rfl nofun
  have hrest := (does_onSettingsRest { c with got_peer_settings := true } values).after hgot
  rw [onSettings]
  split_ifs
  · exact does_ok (Acts.refl c)
  · split
    all_goals
      rename_i h
      rw [h] at hrest
    · exact does_answer hrest.1 (Acts.settingsAck _)
    · exact hrest

lemma does_onGoaway (c : Connection) (last_stream : ℕ) (code : ErrorCode) (debug : Bytes) :
    Does moves c (c.onGoaway last_stream code debug) := by
  have hgo : ∀ g, Acts moves c { c with goaway := g } := fun g =>
    Acts.other ⟨rfl, rfl, rfl, rfl, rfl, rfl, id, id⟩ rfl rfl rfl rfl fun _ => ⟨rfl, rfl⟩
  have hfold : ∀ (failure : StreamError) (ids : List ℕ) (c : Connection),
      Acts moves c (ids.foldl (fun c id => c.failStream id failure) c) := by
    intro failure ids
    induction ids with
    | nil => exact Acts.refl
    | cons id ids ih => exact fun c => (Acts.failStream c id failure).trans (ih _)
  rw [onGoaway]
  split_ifs
  · exact does_ok ((hgo _).trans (hfold _ _ _))
  · exact does_err ((hgo _).trans (hfold _ _ _)) _

lemma does_onWindowUpdate (c : Connection) (id increment : ℕ) :
    Does true c (c.onWindowUpdate id increment) := by
  have hsend : Acts true c { c with send_window := c.send_window + increment } :=
    Acts.other ⟨rfl, rfl, rfl, rfl, rfl, rfl, fun h => h, fun h => h⟩ rfl rfl rfl rfl nofun
  rw [onWindowUpdate]
  split_ifs
  · dsimp only
    split_ifs
    · exact does_err hsend _
    · exact does_ok hsend
  · exact does_err (Acts.refl c) _
  · split
    · exact does_ok (Acts.refl c)
    · rename_i s hget
      have hset :
        Acts true c (c.setStream id { s with send_window := s.send_window + increment }) :=
        Acts.stream hget ⟨rfl, rfl, rfl, rfl, rfl, fun h => h⟩ ⟨fun h => h, fun h => h⟩ nofun
      dsimp only
      split_ifs
      · exact does_ok (hset.trans (Acts.streamError _ _ _ _))
      · exact does_ok hset

lemma does_handleControl (c : Connection) {frame : Frame} (hwf : frame.Wf) :
    Does (movesWindows frame) c (c.handleControl frame) := by
  cases frame with
  | Headers stream end_stream end_headers fragment =>
    rw [handleControl, onHeadersFrame]
    split
    · exact does_onFragment c _ _ _
    · exact ⟨Acts.refl c, fun _ _ => requireServerStreamKnown_ne_fault c stream⟩
  | Continuation stream end_headers fragment =>
    rw [handleControl]
    split
    · exact does_onFragment c _ _ _
    · exact does_err (Acts.refl c) _
  | RstStream stream code => exact does_onReset c _ _
  | Settings ack values => exact does_onSettings c _ _
  | PushPromise stream => exact does_err (Acts.refl c) _
  | Ping ack data =>
    rw [handleControl, onPing]
    split_ifs
    · exact does_ok (Acts.refl c)
    · exact does_answer (Acts.refl c) (Acts.pong c hwf)
  | GoAway last_stream code debug => exact does_onGoaway c _ _ _
  | WindowUpdate stream increment => exact does_onWindowUpdate c _ _
  | Priority | Unknown | Data => exact does_ok (Acts.refl c)

lemma takes_onData (f : Feeding) (id : ℕ) (end_stream : Bool) (data : Bytes) (flow_len : ℕ) :
    Takes f.c ((onData f id end_stream data flow_len).1.c,
      (onData f id end_stream data flow_len).2) := by
  have hcheck := takes_checkData f.c id end_stream data.length flow_len
  rw [onData]
  split
  all_goals
    rename_i c keep h
    rw [h] at hcheck
  · exact takes_ok ((hcheck.1.trans (kept_dataBytes ⟨c, f.direct⟩ id keep data).handled).trans
      (kept_dataEnd _ _ _ _ _).handled) _
  · exact takes_err hcheck.1 _
  · exact ⟨hcheck.1, fun h1 h2 => absurd rfl (hcheck.2 h1 h2)⟩

lemma handled_resetEmpty (c : Connection) (frame : Frame) : Handled c (c.resetEmpty frame) := by
  rw [resetEmpty]
  split_ifs
  · exact Handled.refl c
  · exact ⟨rfl, rfl, rfl, rfl, rfl, rfl, fun h => h, fun h => h⟩

lemma dispatch_cases (f : Feeding) (frame : Frame) :
    (∃ stream end_stream data flow_len, frame = .Data stream end_stream data flow_len ∧
      dispatch f frame = onData f stream end_stream data flow_len) ∨
    dispatch f frame =
      ({ f with c := (f.c.handleControl frame).1 }, (f.c.handleControl frame).2) := by
  cases frame with
  | Data stream end_stream data flow_len => exact Or.inl ⟨_, _, _, _, rfl, rfl⟩
  | _ => exact Or.inr rfl

lemma takes_handle (f : Feeding) {frame : Frame} (hwf : frame.Wf) :
    Takes f.c ((handle f frame).1.c, (handle f frame).2) := by
  have h0 := handled_resetEmpty f.c frame
  rw [handle]
  split_ifs
  · exact takes_err (Handled.refl _) _
  · have hdispatch : Takes (f.c.resetEmpty frame)
        ((dispatch { f with c := f.c.resetEmpty frame } frame).1.c,
          (dispatch { f with c := f.c.resetEmpty frame } frame).2) := by
      rcases dispatch_cases { f with c := f.c.resetEmpty frame } frame with
        ⟨stream, end_stream, data, flow_len, -, h⟩ | h
      · rw [h]
        exact takes_onData ⟨f.c.resetEmpty frame, f.direct⟩ _ _ _ _
      · rw [h]
        exact (does_handleControl _ hwf).takes
    exact ⟨h0.trans hdispatch.1, fun h1 h2 => hdispatch.2 (h0.decoder h1) (h0.encoder h2)⟩

lemma takes_handleFrame (f : Feeding) {h : Header} {payload : Bytes}
    (hpayload : payload.length = h.length) :
    Takes f.c ((handleFrame f h payload).1.c, (handleFrame f h payload).2) := by
  rw [handleFrame]
  split
  · exact takes_handle f (Frame.parse_wf hpayload ‹_›)
  · exact takes_err (Handled.refl _) _
  · exact takes_ok (kept_streamError _ _ _ _).handled _

/-! ### Turns -/

/-- Bytes of the DATA frame `i` that is arriving, and more are to come. -/
def arrive (f : Feeding) (i : Incoming) (bytes : Bytes) : Feeding :=
  dataBytes { f with c := { f.c with
    incoming := some { i with remaining := i.remaining - bytes.length } } } i.stream i.keep bytes

/-- The last bytes of the DATA frame `i` that is arriving. -/
def arriveLast (f : Feeding) (i : Incoming) (bytes : Bytes) : Feeding :=
  let f := dataBytes { f with c := { f.c with incoming := none } } i.stream i.keep bytes
  { f with c := f.c.dataEnd i.stream i.keep i.end_stream 0 }

lemma passOn_of_lt {f : Feeding} {i : Incoming} (hi : f.c.incoming = some i) {bytes : Bytes}
    (h : bytes.length < i.remaining) : passOn f bytes = (arrive f i bytes, bytes.length) := by
  have hmin : min bytes.length i.remaining = bytes.length := by omega
  rw [passOn, hi]
  dsimp only
  rw [hmin, if_neg (by omega), if_neg (by omega), take_length, arrive]

lemma passOn_of_le {f : Feeding} {i : Incoming} (hi : f.c.incoming = some i) {bytes : Bytes}
    (h : i.remaining ≤ bytes.length) :
    passOn f bytes = (arriveLast f i (bytes.take i.remaining), i.remaining) := by
  have hmin : min bytes.length i.remaining = i.remaining := by omega
  rw [passOn, hi]
  dsimp only
  rw [hmin, Nat.sub_self, if_pos rfl, if_pos rfl, arriveLast]

lemma incoming_arrive (f : Feeding) (i : Incoming) (bytes : Bytes) :
    (arrive f i bytes).c.incoming = some { i with remaining := i.remaining - bytes.length } :=
  (kept_dataBytes _ _ _ _).incoming

lemma incoming_arriveLast (f : Feeding) (i : Incoming) (bytes : Bytes) :
    (arriveLast f i bytes).c.incoming = none :=
  (kept_dataEnd _ _ _ _ _).incoming.trans (kept_dataBytes _ _ _ _).incoming

/-- What a turn of the loop of `run` can do. -/
inductive Turns (s : Running) : Running ⊕ Ran → Prop
  | arriving {i : Incoming} (hi : s.f.c.incoming = some i) (hlt : s.rest.length < i.remaining) :
      Turns s (.inr (⟨arrive s.f i s.rest, []⟩, .ok ()))
  | arrived {i : Incoming} (hi : s.f.c.incoming = some i) (hle : i.remaining ≤ s.rest.length) :
      Turns s (.inl ⟨arriveLast s.f i (s.rest.take i.remaining), s.rest.drop i.remaining⟩)
  | short (hi : s.f.c.incoming = none) (hlt : s.rest.length < HEADER_LEN) :
      Turns s (.inr (s, .ok ()))
  | large {header rest : Bytes} (hi : s.f.c.incoming = none) (hrest : s.rest = header ++ rest)
      (hheader : header.length = HEADER_LEN)
      (hlarge : DEFAULT_MAX_FRAME_SIZE < (Header.parse header).length) :
      Turns s (.inr (s, .err (connectionError .FRAME_SIZE_ERROR
        "a frame larger than the frame size this endpoint allows")))
  | cut {header rest : Bytes} (hi : s.f.c.incoming = none) (hrest : s.rest = header ++ rest)
      (hheader : header.length = HEADER_LEN)
      (hlen : (Header.parse header).length ≤ DEFAULT_MAX_FRAME_SIZE)
      (hcut : rest.length < (Header.parse header).length)
      (hstream : s.f.c.streamable (Header.parse header) = false) :
      Turns s (.inr (s, .ok ()))
  | begun {header rest : Bytes} {c : Connection} (hi : s.f.c.incoming = none)
      (hrest : s.rest = header ++ rest) (hheader : header.length = HEADER_LEN)
      (hlen : (Header.parse header).length ≤ DEFAULT_MAX_FRAME_SIZE)
      (hcut : rest.length < (Header.parse header).length)
      (hstream : s.f.c.streamable (Header.parse header) = true)
      (hbegin : s.f.c.beginData (Header.parse header) = (c, .ok ())) :
      Turns s (.inl ⟨⟨c, s.f.direct⟩, rest⟩)
  | notBegun {header rest : Bytes} {c : Connection} {r : Outcome ConnectionError Unit}
      (hi : s.f.c.incoming = none) (hrest : s.rest = header ++ rest)
      (hheader : header.length = HEADER_LEN)
      (hlen : (Header.parse header).length ≤ DEFAULT_MAX_FRAME_SIZE)
      (hcut : rest.length < (Header.parse header).length)
      (hstream : s.f.c.streamable (Header.parse header) = true)
      (hbegin : s.f.c.beginData (Header.parse header) = (c, r)) (hr : r ≠ .ok ()) :
      Turns s (.inr (⟨⟨c, s.f.direct⟩, rest⟩, r))
  | unsettled {header payload rest : Bytes} (hi : s.f.c.incoming = none)
      (hrest : s.rest = header ++ payload ++ rest) (hheader : header.length = HEADER_LEN)
      (hlen : (Header.parse header).length ≤ DEFAULT_MAX_FRAME_SIZE)
      (hpayload : payload.length = (Header.parse header).length)
      (hset : (!s.f.c.got_peer_settings && !isPreface (Header.parse header)) = true) :
      Turns s (.inr (s, .err (connectionError .PROTOCOL_ERROR
        "the server's first frame is not SETTINGS")))
  | handled {header payload rest : Bytes} {f : Feeding} (hi : s.f.c.incoming = none)
      (hrest : s.rest = header ++ payload ++ rest) (hheader : header.length = HEADER_LEN)
      (hlen : (Header.parse header).length ≤ DEFAULT_MAX_FRAME_SIZE)
      (hpayload : payload.length = (Header.parse header).length)
      (hset : (!s.f.c.got_peer_settings && !isPreface (Header.parse header)) = false)
      (hhandle : handleFrame s.f (Header.parse header) payload = (f, .ok ())) :
      Turns s (.inl ⟨f, rest⟩)
  | notHandled {header payload rest : Bytes} {f : Feeding} {r : Outcome ConnectionError Unit}
      (hi : s.f.c.incoming = none)
      (hrest : s.rest = header ++ payload ++ rest) (hheader : header.length = HEADER_LEN)
      (hlen : (Header.parse header).length ≤ DEFAULT_MAX_FRAME_SIZE)
      (hpayload : payload.length = (Header.parse header).length)
      (hset : (!s.f.c.got_peer_settings && !isPreface (Header.parse header)) = false)
      (hhandle : handleFrame s.f (Header.parse header) payload = (f, r)) (hr : r ≠ .ok ()) :
      Turns s (.inr (⟨f, rest⟩, r))

lemma turn_spec (s : Running) : Turns s (turn s) := by
  rw [turn]
  split
  · rename_i i hi
    rcases lt_or_ge s.rest.length i.remaining with h | h
    · rw [passOn_of_lt hi h]
      dsimp only
      rw [incoming_arrive, isSome_some, if_pos rfl, drop_length]
      exact Turns.arriving hi h
    · rw [passOn_of_le hi h]
      dsimp only
      rw [incoming_arriveLast, isSome_none, if_neg (by simp)]
      exact Turns.arrived hi h
  · rename_i hi
    split_ifs with hshort
    · exact Turns.short hi hshort
    · have hheader : (s.rest.take HEADER_LEN).length = HEADER_LEN := by
        rw [length_take]
        omega
      have hsplit : s.rest = s.rest.take HEADER_LEN ++ s.rest.drop HEADER_LEN :=
        (take_append_drop _ _).symm
      generalize s.rest.take HEADER_LEN = header at hheader hsplit
      have hdrop := congrArg List.length hsplit
      rw [length_append, hheader] at hdrop
      rw [turnFrame]
      split_ifs with hlarge hcut hstream hset
      · exact Turns.large hi hsplit hheader hlarge
      · split
        · exact Turns.begun hi hsplit hheader (by omega) (by omega) hstream ‹_›
        · rename_i hne hbegin
          exact Turns.notBegun hi hsplit hheader (by omega) (by omega) hstream hbegin hne
      · exact Turns.cut hi hsplit hheader (by omega) (by omega) (by simpa using hstream)
      all_goals
        have hpayload : ((s.rest.drop HEADER_LEN).take (Header.parse header).length).length =
            (Header.parse header).length := by
          rw [length_take]
          omega
        have hwhole : s.rest = header ++
            (s.rest.drop HEADER_LEN).take (Header.parse header).length ++
            s.rest.drop (HEADER_LEN + (Header.parse header).length) := by
          rw [← drop_drop, append_assoc, take_append_drop]
          exact hsplit
      · exact Turns.unsettled hi hwhole hheader (by omega) hpayload hset
      · split
        · exact Turns.handled hi hwhole hheader (by omega) hpayload (by simpa using hset) ‹_›
        · rename_i hne hhandle
          exact Turns.notHandled hi hwhole hheader (by omega) hpayload (by simpa using hset)
            hhandle hne

/-! ### Whole feeds -/

def Idle (c : Connection) : Prop := c.incoming.isSome → c.inbound = []

lemma rest_run_lt {f : Feeding} (hidle : Idle f.c) (hin : f.c.inbound ≠ [])
    (hzero : f.c.inboundLacks = 0) (hok : (run (keepInbound f []) f.c.inbound).2 = .ok ()) :
    (run (keepInbound f []) f.c.inbound).1.rest.length < f.c.inbound.length := by
  have hi : f.c.incoming = none := by
    rw [← not_isSome_iff_eq_none]
    exact fun h => hin (hidle h)
  have h9 : HEADER_LEN ≤ f.c.inbound.length := by
    by_contra h
    rw [inboundLacks, if_pos (by omega)] at hzero
    omega
  rw [inboundLacks, if_neg (by omega)] at hzero
  have hspec := turn_spec ⟨keepInbound f [], f.c.inbound⟩
  have hwhole : ∀ header rest, f.c.inbound = header ++ rest → header.length = HEADER_LEN →
      (Header.parse header).length ≤ DEFAULT_MAX_FRAME_SIZE →
      ¬ rest.length < (Header.parse header).length := by
    intro header rest hrest hheader hlen hcut
    have htake : (header ++ rest).take HEADER_LEN = header := by rw [← hheader, take_left]
    rw [hrest, htake, length_append] at hzero
    dsimp only at hzero
    omega
  rw [run] at hok ⊢
  generalize hx : turn ⟨keepInbound f [], f.c.inbound⟩ = x at hspec
  cases hspec with
  | arriving h | arrived h => exact absurd (hi.symm.trans h) (by simp)
  | short _ h => exact absurd h (by dsimp only; omega)
  | large =>
    rw [Loop.run_of_done (l := runLoop) hx] at hok
    cases hok
  | cut _ hrest hheader hlen hcut | begun _ hrest hheader hlen hcut
  | notBegun _ hrest hheader hlen hcut => exact absurd hcut (hwhole _ _ hrest hheader hlen)
  | unsettled =>
    rw [Loop.run_of_done (l := runLoop) hx] at hok
    cases hok
  | @handled header payload rest f' _ hrest hheader =>
    have hle := rest_run_le f' rest
    rw [Loop.run_of_next (l := runLoop) hx]
    refine hle.trans_lt ?_
    dsimp only at hrest
    rw [hrest, length_append, length_append, hheader, HEADER_LEN]
    omega
  | notHandled _ _ _ _ _ _ _ hne =>
    rw [Loop.run_of_done (l := runLoop) hx] at hok
    exact absurd hok hne

section Rule

variable {I : Bytes → Feeding → Prop} {E : Bytes → Feeding → Outcome ConnectionError Unit → Prop}

/-- What a turn makes of `I`, where `t` is what was taken in before it: `I` again with what it took
in, or `E` at the end. -/
def Steps (I : Bytes → Feeding → Prop)
    (E : Bytes → Feeding → Outcome ConnectionError Unit → Prop) (t : Bytes) (s : Running) :
    Running ⊕ Ran → Prop
  | .inl s' => ∃ used, s.rest = used ++ s'.rest ∧ I (t ++ used) s'.f
  | .inr (s', r) => ∃ used, s.rest = used ++ s'.rest ∧ E (t ++ used) s'.f r

lemma run_rule (hturn : ∀ t s x, I t s.f → Turns s x → Steps I E t s x) {t : Bytes} {f : Feeding}
    (hI : I t f) (buf : Bytes) :
    ∃ used, buf = used ++ (run f buf).1.rest ∧ E (t ++ used) (run f buf).1.f (run f buf).2 ∧
      ((run f buf).2 = .ok () → (run f buf).1.f.c.incoming.isSome → (run f buf).1.rest = []) := by
  have hstart : ∃ used, buf = used ++ buf ∧ I (t ++ used) f :=
    ⟨[], rfl, by rwa [append_nil]⟩
  refine Loop.rule (l := runLoop) (s := ⟨f, buf⟩)
    (fun s => ∃ used, buf = used ++ s.rest ∧ I (t ++ used) s.f)
    (fun x => ∃ used, buf = used ++ x.1.rest ∧ E (t ++ used) x.1.f x.2 ∧
      (x.2 = .ok () → x.1.f.c.incoming.isSome → x.1.rest = [])) ?_ ?_ hstart
  · rintro s s' ⟨used, hbuf, hs⟩ h
    have hspec : Turns s (turn s) := turn_spec s
    change turn s = .inl s' at h
    rw [h] at hspec
    obtain ⟨used', hrest, hs'⟩ := hturn _ _ _ hs hspec
    exact ⟨used ++ used', by rw [hbuf, hrest, append_assoc], by rwa [← append_assoc]⟩
  · rintro s ⟨s', r⟩ ⟨used, hbuf, hs⟩ h
    have hspec : Turns s (turn s) := turn_spec s
    change turn s = .inr (s', r) at h
    rw [h] at hspec
    obtain ⟨used', hrest, hs'⟩ := hturn _ _ _ hs hspec
    refine ⟨used ++ used', by rw [hbuf, hrest, append_assoc], by rwa [← append_assoc],
      fun hr hsome => ?_⟩
    dsimp only at hr hsome ⊢
    cases hspec with
    | arriving => rfl
    | short hi | cut hi => simp [hi] at hsome
    | large | unsettled => cases hr
    | notBegun _ _ _ _ _ _ _ hne | notHandled _ _ _ _ _ _ _ hne => exact absurd hr hne

theorem feedDirect_rule (hturn : ∀ t s x, I t s.f → Turns s x → Steps I E t s x)
    (hok : ∀ t f, E t f (.ok ()) → I t f)
    (hkeep : ∀ t f r b, E t f r → E t (keepInbound f b) r)
    (hkeep' : ∀ t f b, I t f → I t (keepInbound f b))
    {t : Bytes} {c : Connection} {direct : Option Direct} (hI : I t ⟨c, direct⟩) (hidle : Idle c)
    (herr : c.error = none) (data : Bytes) :
    ∃ f used rest r, c.feedDirect data direct = finished f r ∧
      c.inbound ++ data = used ++ rest ∧ E (t ++ used) f r ∧
      (r = .ok () → f.c.inbound = rest ∧ Idle f.c) := by
  have hloop : c.feedDirect data direct = feedLoop.run ⟨⟨c, direct⟩, data⟩ := by
    rw [feedDirect, herr]
    dsimp only
    rw [if_neg]
    rintro ⟨h1, h2⟩
    exact h2 (hidle h1)
  rw [hloop]
  refine Loop.rule (l := feedLoop)
    (fun s => ∃ used, c.inbound ++ data = used ++ (s.f.c.inbound ++ s.rest) ∧
      I (t ++ used) s.f ∧ Idle s.f.c)
    (fun x => ∃ f used rest r, x = finished f r ∧ c.inbound ++ data = used ++ rest ∧
      E (t ++ used) f r ∧ (r = .ok () → f.c.inbound = rest ∧ Idle f.c)) ?_ ?_
    ⟨[], rfl, by rwa [append_nil], hidle⟩
  · rintro s s' ⟨used, hbuf, hs, hidle⟩ h
    change feedTurn s = .inl s' at h
    rw [feedTurn] at h
    split_ifs at h with hin
    · split at h <;> cases h
    · dsimp only at h
      obtain ⟨used', hrest, hE, hlast⟩ := run_rule hturn (hkeep' _ _ [] hs)
        (s.f.c.inbound ++ s.rest.take (min s.f.c.inboundLacks s.rest.length))
      split at h
      · rename_i f rest hrun
        rw [hrun] at hrest hE hlast
        split_ifs at h with hstop
        cases h
        refine ⟨used ++ used', ?_, ?_, hlast rfl⟩
        · rw [hbuf]
          conv_lhs => rw [← take_append_drop (min s.f.c.inboundLacks s.rest.length) s.rest]
          rw [← append_assoc s.f.c.inbound, hrest, append_assoc, append_assoc]
          rfl
        · rw [← append_assoc]
          exact hkeep' _ _ _ (hok _ _ hE)
      · cases h
  · rintro s x ⟨used, hbuf, hs, hidle⟩ h
    change feedTurn s = .inr x at h
    rw [feedTurn] at h
    split_ifs at h with hin
    · obtain ⟨used', hrest, hE, hlast⟩ := run_rule hturn hs s.rest
      rw [hin, nil_append] at hbuf
      split at h
      · rename_i f rest hrun
        rw [hrun] at hrest hE hlast
        cases h
        refine ⟨keepInbound f rest, used ++ used', rest, .ok (), rfl, ?_, ?_,
          fun _ => ⟨rfl, hlast rfl⟩⟩
        · rw [hbuf, hrest, append_assoc]
        · rw [← append_assoc]
          exact hkeep _ _ _ _ hE
      · rename_i f rest r hne hrun
        rw [hrun] at hrest hE
        cases h
        refine ⟨_, used ++ used', rest, _, rfl, ?_, ?_, fun hr => absurd hr hne⟩
        · rw [hbuf, hrest, append_assoc]
        · rw [← append_assoc]
          exact hE
    · dsimp only at h
      obtain ⟨used', hrest, hE, hlast⟩ := run_rule hturn (hkeep' _ _ [] hs)
        (s.f.c.inbound ++ s.rest.take (min s.f.c.inboundLacks s.rest.length))
      have hall : c.inbound ++ data = used ++ used' ++ ((run (keepInbound s.f [])
          (s.f.c.inbound ++ s.rest.take (min s.f.c.inboundLacks s.rest.length))).1.rest ++
          s.rest.drop (min s.f.c.inboundLacks s.rest.length)) := by
        have hsplit : s.f.c.inbound ++ s.rest =
            (s.f.c.inbound ++ s.rest.take (min s.f.c.inboundLacks s.rest.length)) ++
              s.rest.drop (min s.f.c.inboundLacks s.rest.length) := by
          rw [append_assoc, take_append_drop]
        rw [hbuf, hsplit]
        conv_lhs => rw [hrest]
        simp only [append_assoc]
      split at h
      · rename_i f rest hrun
        rw [hrun] at hrest hE hlast hall
        split_ifs at h with hstop
        cases h
        -- the data are used up: a frame that lacks nothing would have been handled
        have hall' : s.rest.length ≤ min s.f.c.inboundLacks s.rest.length := by
          by_contra hmore
          have hzero : s.f.c.inboundLacks = 0 := by omega
          rw [hzero, zero_min, take_zero, append_nil] at hrun hstop
          have hlt := rest_run_lt hidle hin hzero (congrArg Prod.snd hrun)
          rw [hrun] at hlt
          dsimp only at hlt
          omega
        rw [drop_of_length_le hall', append_nil] at hall
        refine ⟨keepInbound f rest, used ++ used', rest, .ok (), rfl, hall, ?_,
          fun _ => ⟨rfl, hlast rfl⟩⟩
        rw [← append_assoc]
        exact hkeep _ _ _ _ hE
      · rename_i f rest r hne hrun
        rw [hrun] at hE hall
        cases h
        refine ⟨_, used ++ used', _, _, rfl, hall, ?_, fun hr => absurd hr hne⟩
        rw [← append_assoc]
        exact hkeep _ _ _ _ hE

end Rule

end Connection

end Lazaret.H2
