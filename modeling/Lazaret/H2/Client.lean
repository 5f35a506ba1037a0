import Lazaret.H2.Limits

/-!
# Requests of a client

The requests of a client (`open_stream`, `send_data`) stay within what the server allows.
-/

namespace Lazaret.H2

open Connection List BTreeMap

variable {c : Connection} {sent : List (Bytes × Bytes)} {t : Bytes} {id : ℕ} {s : Stream}

/-! ### Frames of a request -/

lemma has_end_stream : ∀ first last e : Bool,
    (blockFlags e first last &&& flag.END_STREAM ≠ 0) ↔ (first && e) = true := by decide

lemma endsStream_start {length stream : ℕ} {k flags : UInt8} {payload : Bytes}
    (hlength : length < 2 ^ 24) (hstream : stream < 2 ^ 31) :
    endsStream (start length k flags stream, payload) =
      ((k == kind.DATA || k == kind.HEADERS) && decide (flags &&& flag.END_STREAM ≠ 0)) := by
  rw [endsStream, kindOf_start hlength hstream, headerOf, start,
    Header.parse_write hlength hstream, Header.has]

/-- What `send_data` writes: DATA frames of the stream within the frame size, of which only the last
may end it. -/
structure DataFrames (id : ℕ) (finish : Bool) (m : FrameSize) (n : ℕ) (w : Bytes) : Prop where
  whole : Whole w
  kind : ∀ f ∈ frames w, kindOf f = kind.DATA ∧ streamOf f = id ∧ f.2.length ≤ m.size
  size : ((frames w).map fun f => f.2.length).sum = n
  last : (frames w).Pairwise fun a _ => endsStream a = false
  ends : ∀ f ∈ frames w, endsStream f = true → finish = true

lemma dataFrames_writeDataRest (hid : id < 2 ^ 31) (finish : Bool) (m : FrameSize) (rest : Bytes) :
    DataFrames id finish m rest.length (writeDataRest id finish m rest) := by
  have hm := m.lt
  have hend : ∀ e : Bool, ((if e then flag.END_STREAM else 0) &&& flag.END_STREAM ≠ 0) ↔
      e = true := by decide
  fun_induction writeDataRest id finish m rest with
  | case1 rest h =>
    have hlen : rest.length < 2 ^ 24 := by omega
    have hframes := frames_start kind.DATA (if finish then flag.END_STREAM else 0) hlen hid
      (rfl : rest.length = rest.length)
    refine ⟨whole_start _ _ hlen hid rfl, ?_, ?_, ?_, ?_⟩
    all_goals rw [writeData, hframes]
    · intro f hf
      rw [mem_singleton.1 hf, kindOf_start hlen hid, streamOf_start hlen hid]
      exact ⟨rfl, rfl, h⟩
    · simp
    · exact pairwise_singleton ..
    · intro f hf hends
      rw [mem_singleton.1 hf, endsStream_start hlen hid] at hends
      simpa [hend] using hends
  | case2 rest h ih =>
    have htake : (rest.take m.size).length = m.size := length_take_of_le (by omega)
    have hlen : (rest.take m.size).length < 2 ^ 24 := by omega
    have hframes := frames_start kind.DATA (if false then flag.END_STREAM else 0) hlen hid
      (rfl : (rest.take m.size).length = (rest.take m.size).length)
    have hwhole := whole_start kind.DATA (if false then flag.END_STREAM else 0) hlen hid
      (rfl : (rest.take m.size).length = (rest.take m.size).length)
    have hno : endsStream (start (rest.take m.size).length kind.DATA
        (if false then flag.END_STREAM else 0) id, rest.take m.size) = false := by
      rw [endsStream_start hlen hid]
      simp
    refine ⟨hwhole.append ih.whole, ?_, ?_, ?_, ?_⟩
    all_goals rw [writeData, frames_append hwhole, hframes, singleton_append]
    · intro f hf
      rcases mem_cons.1 hf with rfl | hf
      · rw [kindOf_start hlen hid, streamOf_start hlen hid]
        exact ⟨rfl, rfl, htake.le⟩
      · exact ih.kind f hf
    · rw [map_cons, sum_cons, ih.size, length_drop, htake]
      omega
    · exact pairwise_cons.2 ⟨fun _ _ => hno, ih.last⟩
    · intro f hf hends
      rcases mem_cons.1 hf with rfl | hf
      · rw [hno] at hends
        cases hends
      · exact ih.ends f hf hends

/-- What `write_header_block` writes: one HEADERS frame of the stream and CONTINUATION frames,
within the frame size. -/
structure BlockFrames (id : ℕ) (end_stream first : Bool) (m : FrameSize) (w : Bytes) : Prop where
  whole : Whole w
  all : ∀ f ∈ frames w, streamOf f = id ∧ f.2.length ≤ m.size ∧ kindOf f ≠ kind.DATA ∧
    kindOf f ≠ kind.RST_STREAM
  kind : ∃ f fs, frames w = f :: fs ∧
    kindOf f = (if first then kind.HEADERS else kind.CONTINUATION) ∧
    ∀ g ∈ fs, kindOf g = kind.CONTINUATION
  ends : ∀ f ∈ frames w, endsStream f = true → end_stream = true

lemma blockFrames_rest (hid : id < 2 ^ 31) (end_stream : Bool) (m : FrameSize) (first : Bool)
    (rest : Bytes) :
    BlockFrames id end_stream first m (writeHeaderBlockRest id end_stream m first rest) := by
  have hm := m.lt
  have hkinds : ∀ first : Bool,
      (if first then kind.HEADERS else kind.CONTINUATION) ≠ kind.DATA ∧
      (if first then kind.HEADERS else kind.CONTINUATION) ≠ kind.RST_STREAM := by decide
  have hone : ∀ (first last : Bool) (payload : Bytes), payload.length ≤ m.size →
      let f := (start payload.length (if first then kind.HEADERS else kind.CONTINUATION)
        (blockFlags end_stream first last) id, payload)
      Whole (f.1 ++ f.2) ∧ frames (f.1 ++ f.2) = [f] ∧
        (streamOf f = id ∧ f.2.length ≤ m.size ∧ kindOf f ≠ kind.DATA ∧
          kindOf f ≠ kind.RST_STREAM) ∧
        kindOf f = (if first then kind.HEADERS else kind.CONTINUATION) ∧
        (endsStream f = true → end_stream = true) := by
    intro first last payload hpay
    have hlen : payload.length < 2 ^ 24 := by omega
    dsimp only
    refine ⟨whole_start _ _ hlen hid rfl, frames_start _ _ hlen hid rfl, ⟨?_, hpay, ?_⟩, ?_, ?_⟩
    · exact streamOf_start hlen hid
    · rw [kindOf_start hlen hid]
      exact hkinds first
    · exact kindOf_start hlen hid
    · intro hends
      rw [endsStream_start hlen hid, Bool.and_eq_true, decide_eq_true_eq, has_end_stream,
        Bool.and_eq_true] at hends
      exact hends.2.2
  fun_induction writeHeaderBlockRest id end_stream m first rest with
  | case1 first rest k h =>
    obtain ⟨h1, h2, h3, h4, h5⟩ := hone first true rest h
    dsimp only at h1 h2 h3 h4 h5
    show BlockFrames id end_stream first m (start rest.length
      (if first then kind.HEADERS else kind.CONTINUATION) (blockFlags end_stream first true) id ++
      rest)
    refine ⟨h1, ?_, ?_, ?_⟩
    all_goals rw [h2]
    · intro f hf
      rw [mem_singleton.1 hf]
      exact h3
    · exact ⟨_, [], rfl, h4, by simp⟩
    · intro f hf
      rw [mem_singleton.1 hf]
      exact h5
  | case2 first rest k h ih =>
    have htake : (rest.take m.size).length = m.size := length_take_of_le (by omega)
    obtain ⟨h1, h2, h3, h4, h5⟩ := hone first false (rest.take m.size) htake.le
    dsimp only at h1 h2 h3 h4 h5
    rw [htake] at h1 h2 h3 h4 h5
    show BlockFrames id end_stream first m (start m.size
      (if first then kind.HEADERS else kind.CONTINUATION) (blockFlags end_stream first false) id ++
      rest.take m.size ++ writeHeaderBlockRest id end_stream m false (rest.drop m.size))
    obtain ⟨f, fs, hfs, hf, hcont⟩ := ih.kind
    refine ⟨h1.append ih.whole, ?_, ?_, ?_⟩
    all_goals rw [frames_append h1, h2, singleton_append]
    · intro g hg
      rcases mem_cons.1 hg with rfl | hg
      · exact ⟨h3.1, htake.le, h3.2.2⟩
      · exact ih.all g hg
    · refine ⟨_, _, rfl, h4, ?_⟩
      intro g hg
      rw [hfs] at hg
      rcases mem_cons.1 hg with rfl | hg
      · simpa using hf
      · exact hcont g hg
    · intro g hg
      rcases mem_cons.1 hg with rfl | hg
      · exact h5
      · exact ih.ends g hg

/-! ### Requests -/

lemma sendData_cases (c : Connection) (id : ℕ) (data : Bytes) (end_stream : Bool) :
    (c.sendData id data end_stream).1 = c ∨
    ∃ (s : Stream) (n : ℕ) (finish : Bool), c.live id = some s ∧ s.local_ended = false ∧ c.error =
      none ∧ (n : ℤ) ≤ max s.send_window 0 ∧ (n : ℤ) ≤ max c.send_window 0 ∧ n ≤ data.length ∧
      (c.sendData id data end_stream).1 = { c with
        out := c.out ++ writeDataRest id finish c.peer_max_frame (data.take n)
        send_window := c.send_window - n
        streams := c.streams.insert id { s with
          send_window := s.send_window - n
          local_ended := s.local_ended || finish } } := by
  rw [sendData]
  dsimp only
  cases hget : c.streams.get id with
  | none => exact .inl rfl
  | some s =>
    dsimp only
    cases hfail : s.failure with
    | some f => exact .inl rfl
    | none =>
      dsimp only
      split_ifs with hended herr hnone
      · exact .inl rfl
      · exact .inl rfl
      · exact .inl rfl
      · right
        rw [Bool.not_eq_true] at hended
        rw [Option.not_isSome_iff_eq_none] at herr
        have hcap : c.sendCapacity id = (min (max (min s.send_window c.send_window) 0)
            ((OUTPUT_HIGH_WATER - (c.out.length - c.out_pos) : ℕ) : ℤ)).toNat := by
          rw [sendCapacity, hget]
          dsimp only
          rw [hfail, hended, herr]
          rfl
        refine ⟨s, min (c.sendCapacity id) data.length,
          end_stream && decide (min (c.sendCapacity id) data.length = data.length),
          live_eq_some.2 ⟨hget, hfail⟩, hended, herr, ?_, ?_, min_le_right _ _, by rw [hfail]⟩
        all_goals
          rw [hcap]
          omega

theorem Fair.sendData (h : Fair sent t c) (data : Bytes) (end_stream : Bool) :
    ∃ w, (c.sendData id data end_stream).1.out = c.out ++ w ∧ Whole w ∧
      Fair (sent ++ frames w) t (c.sendData id data end_stream).1 ∧
      (∀ f ∈ frames w, f.2.length ≤ c.peer_max_frame.size) ∧
      ∀ f ∈ frames w, kindOf f = kind.DATA → f.2 ≠ [] →
        (dataSent (streamOf f) (sent ++ frames w) : ℤ) ≤
          c.peer_initial_window + increments (streamOf f) t := by
  rcases sendData_cases c id data end_stream with heq | ⟨s, n, finish, hlive, hended, -, hns, hnc,
    hnd, heq⟩
  · refine ⟨[], by rw [heq, append_nil], Whole.nil, ?_, ?_, ?_⟩
    · rw [heq, frames_nil_eq, append_nil]
      exact h
    · simp [frames_nil_eq]
    · simp [frames_nil_eq]
  · obtain ⟨hget, hfail⟩ := live_eq_some.1 hlive
    obtain ⟨hodd, hlt⟩ := h.tied.ids id s hget
    obtain ⟨-, hid⟩ := h.tied.clientIds id s hget
    have hlen : (data.take n).length = n := length_take_of_le (by omega)
    have hd := dataFrames_writeDataRest hid finish c.peer_max_frame (data.take n)
    rw [hlen] at hd
    generalize writeDataRest id finish c.peer_max_frame (data.take n) = w at hd heq
    -- the DATA of these frames
    have hflow : ∀ i, dataSent i (frames w) = if i = 0 ∨ i = id then n else 0 := by
      intro i
      rw [← hd.size, dataSent]
      split_ifs with hi
      · congr 1
        refine map_congr_left fun f hf => ?_
        obtain ⟨hk, hs, -⟩ := hd.kind f hf
        rw [kindOf] at hk
        rw [streamOf] at hs
        rw [flow, if_pos ⟨hk, hi.imp_right fun hi => hs.trans hi.symm⟩]
      · refine @dataSent_eq_zero (frames w) i fun f hf => ?_
        obtain ⟨hk, hs, -⟩ := hd.kind f hf
        rw [streamOf] at hs
        rw [flow, if_neg]
        rintro ⟨-, h0 | h0⟩
        · exact hi (.inl h0)
        · exact hi (.inr (h0.symm.trans hs))
    have hw := h.windows.streams id s hget
    refine ⟨w, by rw [heq], hd.whole, ?_, fun f hf => (hd.kind f hf).2.2, ?_⟩
    · rw [heq]
      refine ⟨⟨?_, h.tied.next, ?_, ?_, ?_, ?_, ?_, ?_⟩, ⟨?_, ?_, h.windows.unopened, ?_,
        h.windows.initial⟩, ?_⟩
      · intro i s' hs'
        rcases get_insert_eq_some.1 hs' with ⟨rfl, -⟩ | ⟨-, hs'⟩
        · exact ⟨hodd, hlt⟩
        · exact h.tied.ids i s' hs'
      · intro f hf
        rcases mem_append.1 hf with hf | hf
        · exact h.tied.below f hf
        · rw [(hd.kind f hf).2.1]
          exact hlt
      · rw [pairwise_append]
        refine ⟨h.tied.ordered, ?_, fun a ha b hb => ?_⟩
        · refine hd.last.imp_of_mem fun {a b} ha hb hno =>
            ⟨fun hk => ?_, fun hends => ?_, fun hk => ?_⟩
          · rw [(hd.kind a ha).1] at hk
            exact absurd hk (by decide)
          · rw [hno] at hends
            cases hends
          · rw [(hd.kind a ha).1] at hk
            exact absurd hk (by decide)
        · obtain ⟨hk, hs, -⟩ := hd.kind b hb
          refine ⟨fun hrst heq => ?_, fun hends heq => ?_, fun _ hk' => ?_⟩
          · rw [hs] at heq
            exact h.tied.reset a ha hrst s (heq ▸ hget) hfail
          · rw [hs] at heq
            have hl := h.tied.ended a ha hends s (heq ▸ hget)
            rw [hended] at hl
            cases hl
          · rw [hk] at hk'
            exact absurd hk' (by decide)
      · intro f hf hk
        rcases mem_append.1 hf with hf | hf
        · exact h.tied.odd f hf hk
        · rw [(hd.kind f hf).2.1]
          exact hodd
      · intro f hf hk
        rcases mem_append.1 hf with hf | hf
        · exact h.tied.nonzero f hf hk
        · rw [(hd.kind f hf).1] at hk
          exact absurd hk (by decide)
      · intro f hf hk s' hs'
        rcases mem_append.1 hf with hf | hf
        · rcases get_insert_eq_some.1 hs' with ⟨hi, rfl⟩ | ⟨-, hs'⟩
          · exact h.tied.reset f hf hk s (hi ▸ hget)
          · exact h.tied.reset f hf hk s' hs'
        · rw [(hd.kind f hf).1] at hk
          exact absurd hk (by decide)
      · intro f hf hends s' hs'
        rcases mem_append.1 hf with hf | hf
        · rcases get_insert_eq_some.1 hs' with ⟨hi, rfl⟩ | ⟨-, hs'⟩
          · have hl := h.tied.ended f hf hends s (hi ▸ hget)
            rw [hended] at hl
            cases hl
          · exact h.tied.ended f hf hends s' hs'
        · rcases get_insert_eq_some.1 hs' with ⟨-, rfl⟩ | ⟨hi, -⟩
          · dsimp only
            rw [hd.ends f hf hends, Bool.or_true]
          · exact absurd (hd.kind f hf).2.1 hi
      · have hc := h.windows.connection
        rw [dataSent_append, hflow, if_pos (.inl rfl)]
        dsimp only
        push_cast
        omega
      · obtain ⟨h0, hmax⟩ := h.windows.range
        exact ⟨by dsimp only; omega, by dsimp only; omega⟩
      · intro i s' hs'
        have hi0 : i ≠ 0 := by
          rcases get_insert_eq_some.1 hs' with ⟨rfl, -⟩ | ⟨-, hs'⟩
          · omega
          · have := (h.tied.ids i s' hs').1
            omega
        rw [dataSent_append, hflow]
        rcases get_insert_eq_some.1 hs' with ⟨rfl, rfl⟩ | ⟨hi, hs'⟩
        · rw [if_pos (.inr rfl)]
          dsimp only
          push_cast
          omega
        · have hws := h.windows.streams i s' hs'
          rw [if_neg (not_or.2 ⟨hi0, hi⟩), add_zero]
          exact hws
      · intro i s' hs'
        obtain ⟨hs', hf'⟩ := live_eq_some.1 hs'
        rcases get_insert_eq_some.1 hs' with ⟨rfl, rfl⟩ | ⟨-, hs'⟩
        · have hb := h.bounded i s hlive
          dsimp only
          omega
        · exact h.bounded i s' (live_eq_some.2 ⟨hs', hf'⟩)
    · intro f hf _ hne
      obtain ⟨-, hs, -⟩ := hd.kind f hf
      have hpos : 0 < n := by
        rw [← hd.size, List.sum_pos_iff_exists_pos_nat]
        exact ⟨_, mem_map_of_mem hf, length_pos_of_ne_nil hne⟩
      rw [hs, dataSent_append, hflow, if_pos (.inr rfl)]
      push_cast
      omega

lemma openStream_cases (c : Connection) (request : Request) (end_stream : Bool) :
    ((c.openStream request end_stream).1 = c ∧ ∀ id, (c.openStream request end_stream).2 ≠ .ok id) ∨
    ∃ encoder block, c.error = none ∧ c.next_stream_id ≤ MAX_STREAM_ID ∧
      c.activeStreams < c.peer_max_concurrent ∧ (c.openStream request end_stream).1 = { c with
        encoder := encoder
        next_stream_id := c.next_stream_id + 2
        out := c.out ++ writeHeaderBlock c.next_stream_id end_stream block c.peer_max_frame
        streams := c.streams.insert c.next_stream_id (c.opened request end_stream) } := by
  rw [openStream]
  split
  · exact .inl ⟨rfl, by simp⟩
  · split
    · exact .inl ⟨rfl, by simp⟩
    · rename_i hcan
      rw [Bool.not_eq_true', Bool.not_eq_false, canOpenStream, Bool.and_eq_true, usable,
        Bool.and_eq_true, Bool.and_eq_true, decide_eq_true_eq, decide_eq_true_eq,
        Option.isNone_iff_eq_none] at hcan
      split
      · exact .inl ⟨rfl, by simp⟩
      · dsimp only
        split
        · exact .inl ⟨rfl, by simp⟩
        · split
          · exact .inr ⟨_, _, hcan.1.1.1, hcan.1.2, hcan.2, rfl⟩
          · exact .inl ⟨rfl, by simp⟩

theorem Fair.openStream (h : Fair sent t c) (request : Request) (end_stream : Bool) :
    ∃ w, (c.openStream request end_stream).1.out = c.out ++ w ∧ Whole w ∧
      Fair (sent ++ frames w) t (c.openStream request end_stream).1 ∧
      (∀ f ∈ frames w, f.2.length ≤ c.peer_max_frame.size) ∧
      ∀ f ∈ frames w, kindOf f ≠ kind.DATA := by
  rcases openStream_cases c request end_stream with ⟨heq, -⟩ | ⟨encoder, block, -, hmax, -, heq⟩
  · refine ⟨[], by rw [heq, append_nil], Whole.nil, ?_, ?_, ?_⟩
    · rw [heq, frames_nil_eq, append_nil]
      exact h
    · simp [frames_nil_eq]
    · simp [frames_nil_eq]
  · obtain ⟨hodd, hle⟩ := h.tied.next
    rw [MAX_STREAM_ID] at hmax
    have hid : c.next_stream_id < 2 ^ 31 := by omega
    have hb := blockFrames_rest hid end_stream c.peer_max_frame true block
    rw [writeHeaderBlock] at heq
    generalize writeHeaderBlockRest c.next_stream_id end_stream c.peer_max_frame true block = w
      at hb heq
    obtain ⟨f₀, fs, hfs, hf₀, hcont⟩ := hb.kind
    have hnodata : ∀ i, dataSent i (frames w) = 0 := fun i =>
      dataSent_eq_zero fun f hf => flow_eq_zero (hb.all f hf).2.2.1
    refine ⟨w, by rw [heq], hb.whole, ?_, fun f hf => (hb.all f hf).2.1,
      fun f hf => (hb.all f hf).2.2.1⟩
    rw [heq]
    refine ⟨⟨?_, ⟨?_, ?_⟩, ?_, ?_, ?_, ?_, ?_, ?_⟩, ⟨?_, h.windows.range, ?_, ?_,
      h.windows.initial⟩, ?_⟩
    · intro i s' hs'
      rcases get_insert_eq_some.1 hs' with ⟨rfl, -⟩ | ⟨-, hs'⟩
      · exact ⟨hodd, by dsimp only; omega⟩
      · obtain ⟨h1, h2⟩ := h.tied.ids i s' hs'
        exact ⟨h1, by dsimp only; omega⟩
    · dsimp only
      omega
    · dsimp only
      omega
    · intro f hf
      dsimp only
      rcases mem_append.1 hf with hf | hf
      · have := h.tied.below f hf
        omega
      · rw [(hb.all f hf).1]
        omega
    · rw [pairwise_append]
      refine ⟨h.tied.ordered, ?_, fun a ha b hb' => ?_⟩
      · -- the HEADERS frame comes first
        have hrst : ∀ a ∈ frames w, ∀ b : Bytes × Bytes,
            kindOf a = kind.RST_STREAM → streamOf b ≠ streamOf a :=
          fun a ha b hk => absurd hk (hb.all a ha).2.2.2
        rw [hfs] at hrst ⊢
        have hlater : ∀ b ∈ fs, kindOf b ≠ kind.DATA ∧ kindOf b ≠ kind.HEADERS := by
          intro b hb'
          rw [hcont b hb']
          decide
        refine pairwise_cons.2 ⟨fun b hb' => ?_, ?_⟩
        · exact ⟨hrst _ (mem_cons_self ..) b, fun _ _ => hlater b hb',
            fun _ hk => absurd hk (hlater b hb').2⟩
        · refine pairwise_of_forall_mem_list fun a ha b hb' => ?_
          exact ⟨hrst a (mem_cons_of_mem _ ha) b, fun _ _ => hlater b hb',
            fun _ hk => absurd hk (hlater b hb').2⟩
      · have hlt := h.tied.below a ha
        obtain ⟨hs, -⟩ := hb.all b hb'
        refine ⟨fun _ => ?_, fun _ heq => ?_, fun _ _ => ?_⟩
        · omega
        · omega
        · omega
    · intro f hf hk
      rcases mem_append.1 hf with hf | hf
      · exact h.tied.odd f hf hk
      · rw [(hb.all f hf).1]
        exact hodd
    · intro f hf hk
      rcases mem_append.1 hf with hf | hf
      · exact h.tied.nonzero f hf hk
      · exact absurd hk (hb.all f hf).2.2.2
    · intro f hf hk s' hs'
      rcases mem_append.1 hf with hf | hf
      · have hlt := h.tied.below f hf
        rcases get_insert_eq_some.1 hs' with ⟨hi, -⟩ | ⟨-, hs'⟩
        · omega
        · exact h.tied.reset f hf hk s' hs'
      · exact absurd hk (hb.all f hf).2.2.2
    · intro f hf hends s' hs'
      rcases mem_append.1 hf with hf | hf
      · have hlt := h.tied.below f hf
        rcases get_insert_eq_some.1 hs' with ⟨hi, -⟩ | ⟨-, hs'⟩
        · omega
        · exact h.tied.ended f hf hends s' hs'
      · rcases get_insert_eq_some.1 hs' with ⟨-, rfl⟩ | ⟨hi, -⟩
        · exact hb.ends f hf hends
        · exact absurd (hb.all f hf).1 hi
    · rw [dataSent_append, hnodata, add_zero]
      exact h.windows.connection
    · intro i hi
      dsimp only at hi
      exact h.windows.unopened i (by omega)
    · intro i s' hs'
      rw [dataSent_append, hnodata, add_zero]
      rcases get_insert_eq_some.1 hs' with ⟨rfl, rfl⟩ | ⟨-, hs'⟩
      · rw [h.windows.unopened _ le_rfl, h.tied.dataSent_unopened le_rfl]
        simp [opened]
      · exact h.windows.streams i s' hs'
    · intro i s' hs'
      obtain ⟨hs', hf'⟩ := live_eq_some.1 hs'
      rcases get_insert_eq_some.1 hs' with ⟨-, rfl⟩ | ⟨-, hs'⟩
      · exact h.windows.initial
      · exact h.bounded i s' (live_eq_some.2 ⟨hs', hf'⟩)

end Lazaret.H2
