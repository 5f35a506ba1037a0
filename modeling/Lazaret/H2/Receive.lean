import Lazaret.H2.Credit

/-!
# What frames do to the receive windows

Every frame of the server, and every call of the application, keeps the books (`Lazaret.H2.Credit`);
DATA moves them by just what it carries.
-/

namespace Lazaret.H2

open BTreeMap

namespace Connection

variable {c c' c'' : Connection} {d d' : ℕ → ℕ} {id k k' k'' n : ℕ} {s s' : Stream}

/-! ### DATA -/

lemma Accounts.bind (h : Accounts k k' d c c')
    (h' : (∀ w, Moves c c' w d → Accounts k' k'' d' c' c'')) :
    Accounts k k'' (fun i => d i + d' i) c c'' := by
  intro hbooks
  obtain ⟨w, hmoves, hbooks', hconfig⟩ := h hbooks
  obtain ⟨w', hmoves', hbooks'', hconfig'⟩ := h' w hmoves hbooks'
  exact ⟨w ++ w', hmoves.trans hconfig hmoves', hbooks'', hconfig'.trans hconfig⟩

lemma share_add (id a b : ℕ) : (fun i => share id a i + share id b i) = share id (a + b) := by
  funext i
  simp only [share]
  split <;> rfl

lemma accounts_dataEnd {keep : Bool} (end_stream : Bool) {padding : ℕ}
    (hn : (padding : ℤ) ≤ c.recv_window)
    (hkeep : ∀ s, c.live id = some s → keep = true ∧ (padding : ℤ) ≤ s.recv_window) :
    Accounts 0 0 (share id padding) c (c.dataEnd id keep end_stream padding) := by
  rw [dataEnd]
  split
  · rename_i hnone
    refine accounts_thrown hn ?_
    cases hl : c.live id with
    | none => rfl
    | some s =>
      rw [(hkeep s hl).1, if_pos rfl] at hnone
      exact absurd (hl.symm.trans hnone) (by simp)
  · rename_i s hs
    have hlive : c.live id = some s := by
      split at hs
      · exact hs
      · cases hs
    have hroom := (hkeep s hlive).2
    have hset : Accounts 0 (0 + padding) (share id padding) c
        ({ c with recv_window := c.recv_window - padding }.setStream id { s with
          recv_window := s.recv_window - padding
          unannounced := addU32 s.unannounced padding
          remote_ended := s.remote_ended || end_stream }) := by
      refine accounts_kept hn hlive (fun hp => hp) ?_ rfl ?_
      · show s.unread + (0 + padding) = s.unread + padding
        omega
      · rintro ⟨hbal, h0⟩
        have hwin := c.config.stream_window_lt
        have hadd : addU32 s.unannounced padding = s.unannounced + padding := by
          rw [addU32, Nat.mod_eq_of_lt (by omega)]
        refine ⟨?_, by dsimp only; omega⟩
        show s.recv_window - padding + (addU32 s.unannounced padding : ℕ) + s.unread =
          (c.config.stream_window : ℤ)
        rw [hadd]
        push_cast
        omega
    exact (hset.credit (credits_creditConnection _ 0 padding)).credit
      (credits_announceStream _ _ id)

lemma keepData_spec (c : Connection) (id : ℕ) (end_stream : Bool) (len flow_len : ℕ) :
    Credits 0 0 c (c.keepData id end_stream len flow_len).1 ∧
      ∀ s, (c.keepData id end_stream len flow_len).1.live id = some s →
        (c.keepData id end_stream len flow_len).2 = true ∧ (flow_len : ℤ) ≤ s.recv_window := by
  rw [keepData]
  split
  · rename_i hnone
    refine ⟨Credits.refl 0 c, fun s hs => ?_⟩
    rw [hnone] at hs
    cases hs
  · rename_i s hlive
    split
    · rename_i hbad
      refine ⟨Credits.refl 0 c, fun t ht => ⟨rfl, ?_⟩⟩
      rw [hlive] at ht
      cases ht
      by_contra hmore
      rw [not_le] at hmore
      rw [badData] at hbad
      split at hbad
      · cases hbad
      · split at hbad
        · cases hbad
        · cases hbad
    · refine ⟨credits_streamError _ _ _ _ _, fun t ht => ?_⟩
      obtain ⟨hget, hfail⟩ := live_eq_some.1 ht
      exact absurd hfail (failed_streamError hlive _ _ hget)

lemma checkData_spec (c : Connection) (id : ℕ) (end_stream : Bool) (len flow_len : ℕ) :
    ∀ keep, (c.checkData id end_stream len flow_len).2 = .ok keep →
      Credits 0 0 c (c.checkData id end_stream len flow_len).1 ∧
      (flow_len : ℤ) ≤ c.recv_window ∧ id % 2 = 1 ∧ id < c.next_stream_id ∧
      ∀ s, (c.checkData id end_stream len flow_len).1.live id = some s →
        keep = true ∧ (flow_len : ℤ) ≤ s.recv_window := by
  intro keep hok
  rw [checkData] at hok ⊢
  split at hok
  · cases hok
  · cases hok
  · rename_i hknown
    have hid : id % 2 = 1 ∧ id < c.next_stream_id := by
      rw [requireServerStreamKnown] at hknown
      split at hknown
      · cases hknown
      · split at hknown
        · cases hknown
        · omega
    split at hok
    · cases hok
    · rename_i hroom
      have hempty : (c.countEmpty end_stream len).2 = .ok () →
          Credits 0 0 c (c.countEmpty end_stream len).1 := by
        intro _
        rw [countEmpty]
        split
        · dsimp only
          split <;> exact credits_of_eq rfl rfl rfl rfl rfl
        · exact Credits.refl 0 c
      split at hok
      · cases hok
      · cases hok
      · rename_i c₁ hcount
        rw [hcount] at hempty
        obtain ⟨hcredits, hkept⟩ := keepData_spec c₁ id end_stream len flow_len
        rw [if_neg hroom]
        rw [← Outcome.ok.inj hok]
        exact ⟨(hempty rfl).trans hcredits, not_lt.1 hroom, hid.1, hid.2, hkept⟩

lemma accounts_onData (f : Feeding) {end_stream : Bool} {data : Bytes} {flow_len : ℕ}
    (hlen : data.length ≤ flow_len) (hok : (onData f id end_stream data flow_len).2 = .ok ()) :
    id % 2 = 1 ∧ id < f.c.next_stream_id ∧
      Accounts 0 0 (share id flow_len) f.c (onData f id end_stream data flow_len).1.c := by
  have hcheck := checkData_spec f.c id end_stream data.length flow_len
  rw [onData] at hok ⊢
  split at hok
  · rename_i c keep hc
    rw [hc] at hcheck
    obtain ⟨hcredits, hroom, hodd, hnext, hlive⟩ := hcheck keep rfl
    refine ⟨hodd, hnext, ?_⟩
    have hsplit : flow_len = data.length + (flow_len - data.length) := by omega
    have hrest : ∀ w, Moves f.c c w (fun _ => 0) → Accounts 0 0 (share id flow_len) c
        ((dataBytes ⟨c, f.direct⟩ id keep data).c.dataEnd id keep end_stream
          (flow_len - data.length)) := by
      intro w hw
      have hroom' : (flow_len : ℤ) ≤ c.recv_window := by
        have hconn := hw.connection
        omega
      have hbytes : Accounts 0 0 (share id data.length) c
          (dataBytes ⟨c, f.direct⟩ id keep data).c := by
        refine accounts_dataBytes ⟨c, f.direct⟩ (by dsimp only; omega) fun s hs => ?_
        obtain ⟨h1, h2⟩ := hlive s hs
        exact ⟨h1, by omega⟩
      have hend : ∀ w', Moves c (dataBytes ⟨c, f.direct⟩ id keep data).c w' (share id data.length) →
          Accounts 0 0 (share id (flow_len - data.length)) (dataBytes ⟨c, f.direct⟩ id keep data).c
            ((dataBytes ⟨c, f.direct⟩ id keep data).c.dataEnd id keep end_stream
              (flow_len - data.length)) := by
        intro w' hw'
        refine accounts_dataEnd end_stream ?_ fun s hs => ?_
        · have hconn := hw'.connection
          simp only [share, true_or, if_true] at hconn
          omega
        · obtain ⟨t, ht, hrecv⟩ := hw'.streams id s hs
          obtain ⟨h1, h2⟩ := hlive t ht
          simp only [share, or_true, if_true] at hrecv
          exact ⟨h1, by omega⟩
      have hall := hbytes.bind hend
      rwa [share_add, ← hsplit] at hall
    exact (Accounts.bind hcredits hrest).congr (by simp) fun _ i s _ => by simp
  · cases hok
  · cases hok

/-! ### Other frames -/

lemma credits_map {g : ℕ → Stream → Stream} (h : ∀ id s, Alike s (g id s)) :
    Credits k k c { c with streams := c.streams.map g } := by
  intro hb
  have hget : ∀ id t, (c.streams.map g).get id = some t →
      ∃ s, c.streams.get id = some s ∧ Alike s t := by
    intro id t ht
    rw [get_map, Option.map_eq_some_iff] at ht
    obtain ⟨s, hs, rfl⟩ := ht
    exact ⟨s, hs, h id s⟩
  have hlive : ∀ id t, { c with streams := c.streams.map g }.live id = some t →
      ∃ s, c.live id = some s ∧ Alike s t := by
    intro id t ht
    obtain ⟨hgett, hfail⟩ := live_eq_some.1 ht
    obtain ⟨s, hs, ha⟩ := hget id t hgett
    exact ⟨s, live_eq_some.2 ⟨hs, ha.failure hfail⟩, ha⟩
  refine ⟨[], ⟨(List.append_nil _).symm, Whole.nil, ?_, fun id t ht => ?_, small_nil _⟩,
    ⟨?_, ?_, hb.nonneg, ?_, ?_⟩, rfl⟩
  · rw [granted_nil]
    show c.recv_window = _
    omega
  · obtain ⟨s, hs, ha⟩ := hlive id t ht
    refine ⟨s, hs, ?_⟩
    rw [granted_nil, ha.recv_window]
    omega
  · intro id t ht
    obtain ⟨s, hs, -⟩ := hget id t ht
    exact hb.ids id s hs
  · have hsum := c.streams.sum_map Stream.unread g fun id s => (h id s).unread
    dsimp only
    rw [hsum]
    exact hb.balance
  · intro id t ht
    obtain ⟨s, hs, ha⟩ := hget id t ht
    rw [Placed, ha.collecting, ha.body, ha.body_pos]
    exact hb.placed id s hs
  · intro id t ht
    obtain ⟨s, hs, ha⟩ := hlive id t ht
    exact ha.books (hb.streams id s hs)

lemma Acts.credits {moves : Bool} (h : Acts moves c c') : Credits k k c c' := by
  induction h with
  | refl c => exact Credits.refl k c
  | trans _ _ ih ih' => exact ih.trans ih'
  | other h hout hstreams hrecv hun => exact credits_of_eq hout hstreams hrecv hun h.config
  | stream hget ha => exact credits_alike hget ha
  | streams _ h => exact credits_map fun id s => (h id s).1
  | failStream c id failure => exact credits_failStream c k id failure
  | streamError c id code reason => exact credits_streamError c k id code reason
  | settingsAck c => exact credits_write fun _ => silent_writeSettingsAck
  | pong c hdata => exact credits_write fun _ => silent_writePing true hdata

/-! ### What the application calls -/

lemma advance_spec (hn : n ≤ s.unread) :
    (s.advance n).unread + n = s.unread ∧ Placed (s.advance n) ∧
      (s.advance n).recv_window = s.recv_window ∧ (s.advance n).failure = s.failure ∧
      (s.advance n).unannounced = addU32 s.unannounced (asU32 n) := by
  rw [Stream.unread] at hn
  rw [Stream.advance]
  dsimp only
  by_cases hall : s.body_pos + n ≥ s.body.length
  · rw [if_pos hall]
    refine ⟨?_, fun _ => le_rfl, rfl, rfl, rfl⟩
    simp only [Stream.unread, List.length_nil]
    split at hn
    · rename_i hcoll
      rw [if_pos hcoll, if_pos hcoll]
      omega
    · rename_i hcoll
      rw [if_neg hcoll, if_neg hcoll]
      omega
  · rw [if_neg hall]
    refine ⟨?_, fun _ => ?_, rfl, rfl, rfl⟩
    · simp only [Stream.unread]
      split at hn
      · rename_i hcoll
        rw [if_pos hcoll, if_pos hcoll]
        omega
      · rename_i hcoll
        rw [if_neg hcoll, if_neg hcoll]
        omega
    · dsimp only
      omega

lemma credits_poll (c : Connection) (id : ℕ) (sink : Sink) : Credits 0 0 c (c.poll id sink).1 := by
  rw [poll]
  split
  · exact Credits.refl 0 c
  · rename_i s hget
    split
    · exact credits_alike hget ⟨rfl, rfl, rfl, rfl, rfl, fun h => h⟩
    · split
      · intro hb
        have hn : min s.unread sink.most ≤ s.unread := min_le_left _ _
        generalize min s.unread sink.most = n at hn
        obtain ⟨hunread, hplaced', hrecv, hfail, hun⟩ := advance_spec hn
        have hset : Credits 0 (0 + n) c (c.setStream id (s.advance n)) := by
          refine credits_setStream hget (fun _ => hplaced') (by omega) fun hf => ?_
          rw [hfail] at hf
          refine ⟨hf, hrecv, fun hbooks => ⟨?_, by rw [hrecv]; exact hbooks.nonneg⟩⟩
          have hbal := hbooks.balance
          have h0 := hbooks.nonneg
          have hwin := c.config.stream_window_lt
          have hadd : addU32 s.unannounced (asU32 n) = s.unannounced + n := by
            rw [addU32, asU32, Nat.mod_eq_of_lt (by omega), Nat.mod_eq_of_lt (by omega)]
          rw [hrecv, hun, hadd]
          push_cast
          omega
        exact ((hset.trans (credits_announceStream _ _ id)).trans (credits_creditOwed _ 0 n)) hb
      · split
        · exact Credits.refl 0 c
        · split
          · split
            · exact credits_alike hget ⟨rfl, rfl, rfl, rfl, rfl, fun h => h⟩
            · split <;> exact Credits.refl 0 c
          · exact Credits.refl 0 c

lemma credits_collectStream (c : Connection) (id limit : ℕ) :
    Credits 0 0 c (c.collectStream id limit) := by
  refine collectStream_rule (Credits.refl 0 c) fun s s' hlive hcoll hs' => ?_
  obtain ⟨hget, hfail⟩ := live_eq_some.1 hlive
  have hunread : s.unread = (s.body.drop s.body_pos).length := by
    rw [Stream.unread, if_neg hcoll, List.length_drop]
  have hzero : s'.unread = 0 := by
    rw [hs']
    rfl
  have hset : Credits 0 (0 + (s.body.drop s.body_pos).length) c (c.setStream id s') := by
    refine credits_setStream hget (fun _ => by simp [hs', Placed]) (by omega) fun _ =>
      ⟨hfail, by rw [hs'], fun hbooks => ⟨?_, by rw [hs']; exact hbooks.nonneg⟩⟩
    have hbal := hbooks.balance
    have h0 := hbooks.nonneg
    have hwin := c.config.stream_window_lt
    rw [hunread] at hbal
    have hadd : s'.unannounced = s.unannounced + (s.body.drop s.body_pos).length := by
      rw [hs']
      dsimp only
      rw [addU32, asU32, Nat.mod_eq_of_lt (by omega), Nat.mod_eq_of_lt (by omega)]
    rw [hzero, hadd, hs']
    push_cast
    omega
  have hcredit := (hset.trans (credits_announceStream _ _ id)).trans (credits_creditOwed _ 0 _)
  exact ⟨hcredit, hcredit.trans (credits_streamError _ _ _ _ _)⟩

lemma credits_collected (c : Connection) (id : ℕ) : Credits k k c (c.collected id).1 := by
  rw [collected]
  split
  · exact Credits.refl k c
  · rename_i s hget
    split
    · exact Credits.refl k c
    · rename_i hfail
      split
      · exact Credits.refl k c
      · rename_i hcoll
        rw [Bool.not_eq_true, Bool.not_eq_false'] at hcoll
        split
        · have hzero : s.unread = 0 := by rw [Stream.unread, if_pos hcoll]
          have hzero' : Stream.unread { s with body := [], head := none } = 0 := by
            rw [Stream.unread, if_pos hcoll]
          refine credits_setStream hget (fun _ hno => ?_) (by omega) fun _ =>
            ⟨hfail, rfl, fun hbooks => ⟨?_, hbooks.nonneg⟩⟩
          · rw [hcoll] at hno
            cases hno
          · have hbal := hbooks.balance
            rw [hzero] at hbal
            rw [hzero']
            exact hbal
        · exact Credits.refl k c

lemma credits_remove (hget : c.streams.get id = some s) :
    Credits k (k + s.unread) c { c with streams := c.streams.remove id } := by
  intro hb
  have hremoved : ∀ i t, (c.streams.remove id).get i = some t → c.streams.get i = some t :=
    fun i t ht => (get_remove_eq_some.1 ht).2
  have hlive : ∀ i t, { c with streams := c.streams.remove id }.live i = some t →
      c.live i = some t := fun i t ht =>
    live_eq_some.2 ⟨hremoved i t (live_eq_some.1 ht).1, (live_eq_some.1 ht).2⟩
  refine ⟨[], ⟨(List.append_nil _).symm, Whole.nil, ?_, fun i t ht => ⟨t, hlive i t ht, ?_⟩,
      small_nil _⟩,
    ⟨fun i t ht => hb.ids i t (hremoved i t ht), ?_, hb.nonneg,
      fun i t ht => hb.placed i t (hremoved i t ht), fun i t ht => hb.streams i t (hlive i t ht)⟩,
        rfl⟩
  · rw [granted_nil]
    show c.recv_window = _
    omega
  · rw [granted_nil]
    omega
  · have hsum := sum_remove Stream.unread hget
    have hbal := hb.balance
    dsimp only
    push_cast
    omega

lemma credits_releaseStream (c : Connection) (id : ℕ) : Credits 0 0 c (c.releaseStream id) := by
  rw [releaseStream]
  split
  · exact Credits.refl 0 c
  · rename_i s hget
    intro hb
    have hid := (hb.ids id s hget).2
    have hremove := credits_remove (k := 0) hget
    dsimp only
    split
    · exact ((hremove.trans (credits_write fun _ => silent_writeRstStream hid .CANCEL)).trans
        (credits_creditOwed _ 0 s.unread)) hb
    · exact (hremove.trans (credits_creditOwed _ 0 s.unread)) hb

end Connection

end Lazaret.H2
