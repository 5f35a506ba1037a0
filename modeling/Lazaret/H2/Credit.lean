import Lazaret.H2.Talks

/-!
# Receive windows

For the connection, and for every stream that has not failed, what the peer may still send, what it
has not been told it may send again and what is held unread add up to the window (`Books`).
`Accounts` says what a part of a call does to the books, and what the peer sees of it.
-/

namespace Lazaret.H2

open List BTreeMap

lemma Config.window_lt (config : Config) : config.window < 2 ^ 32 := by
  have h1 := config.connection_window_lt
  have h2 : DEFAULT_WINDOW = 65535 := rfl
  rw [Config.window]
  omega

def Config.most (config : Config) : ℕ := max config.window config.stream_window

namespace Connection

variable {c c' c'' : Connection} {w w' : Bytes} {d d' : ℕ → ℕ} {id k k' k'' n : ℕ} {s s' : Stream}

structure StreamBooks (window : ℕ) (s : Stream) : Prop where
  balance : s.recv_window + s.unannounced + s.unread = window
  nonneg : 0 ≤ s.recv_window

def Placed (s : Stream) : Prop := s.collecting = false → s.body_pos ≤ s.body.length

/-- The books of a connection that owes credit for `k` bytes. -/
structure Books (k : ℕ) (c : Connection) : Prop where
  ids : ClientIds c
  balance : c.recv_window + c.unannounced + c.streams.sum Stream.unread + k = c.config.window
  nonneg : 0 ≤ c.recv_window
  placed : ∀ id s, c.streams.get id = some s → Placed s
  streams : ∀ id s, c.live id = some s → StreamBooks c.config.stream_window s

/-- What the peer sees of the way from `c` to `c'`: the credit in `w`, and `d i` bytes taken in on
the stream `i`, or on the connection if that is 0. -/
structure Moves (c c' : Connection) (w : Bytes) (d : ℕ → ℕ) : Prop where
  out : c'.out = c.out ++ w
  whole : Whole w
  connection : c'.recv_window = c.recv_window + granted 0 w - d 0
  streams : ∀ id s', c'.live id = some s' →
    ∃ s, c.live id = some s ∧ s'.recv_window = s.recv_window + granted id w - d id
  small : ∀ f ∈ frames w, ∀ id, grant id f ≤ c.config.most

/-- From books with a debt of `k` to books with a debt of `k'`. -/
def Accounts (k k' : ℕ) (d : ℕ → ℕ) (c c' : Connection) : Prop :=
  Books k c → ∃ w, Moves c c' w d ∧ Books k' c' ∧ c'.config = c.config

def Credits (k k' : ℕ) (c c' : Connection) : Prop := Accounts k k' (fun _ => 0) c c'

lemma Moves.trans (h : Moves c c' w d) (hconfig : c'.config = c.config) (h' : Moves c' c'' w' d') :
    Moves c c'' (w ++ w') fun i => d i + d' i where
  out := by rw [h'.out, h.out, append_assoc]
  whole := h.whole.append h'.whole
  connection := by
    rw [h'.connection, h.connection, granted_append h.whole]
    push_cast
    omega
  streams := by
    intro id s'' hs''
    obtain ⟨s', hs', hrecv'⟩ := h'.streams id s'' hs''
    obtain ⟨s, hs, hrecv⟩ := h.streams id s' hs'
    refine ⟨s, hs, ?_⟩
    rw [hrecv', hrecv, granted_append h.whole]
    push_cast
    omega
  small := by
    intro f hf id
    rw [frames_append h.whole, mem_append] at hf
    exact hf.elim (fun hf => h.small f hf id) fun hf => hconfig ▸ h'.small f hf id

lemma small_nil (n : ℕ) : ∀ f ∈ frames [], ∀ id, grant id f ≤ n := by
  intro f hf id
  have := grant_le_granted hf id
  rw [granted_nil] at this
  omega

lemma Accounts.trans (h : Accounts k k' d c c') (h' : Accounts k' k'' d' c' c'') :
    Accounts k k'' (fun i => d i + d' i) c c'' := by
  intro hbooks
  obtain ⟨w, hmoves, hbooks', hconfig⟩ := h hbooks
  obtain ⟨w', hmoves', hbooks'', hconfig'⟩ := h' hbooks'
  exact ⟨w ++ w', hmoves.trans hconfig hmoves', hbooks'', hconfig'.trans hconfig⟩

lemma Accounts.credit (h : Accounts k k' d c c') (h' : Credits k' k'' c' c'') :
    Accounts k k'' d c c'' := h.trans h'

lemma Credits.account (h : Credits k k' c c') (h' : Accounts k' k'' d c' c'') :
    Accounts k k'' d c c'' := by
  have heq : (fun i => 0 + d i) = d := by
    funext i
    exact zero_add _
  have := h.trans h'
  rwa [heq] at this

lemma Credits.trans (h : Credits k k' c c') (h' : Credits k' k'' c' c'') : Credits k k'' c c'' :=
  Accounts.credit h h'

lemma credits_of_eq (hout : c'.out = c.out) (hstreams : c'.streams = c.streams)
    (hrecv : c'.recv_window = c.recv_window) (hun : c'.unannounced = c.unannounced)
    (hconfig : c'.config = c.config) : Credits k k c c' := by
  intro h
  have hlive : ∀ id, c'.live id = c.live id := fun id => by rw [live, live, hstreams]
  refine ⟨[], ⟨by rw [hout, append_nil], Whole.nil, ?_, fun id s' hs' => ?_, small_nil _⟩,
    ⟨?_, ?_, ?_, ?_, ?_⟩, hconfig⟩
  · rw [hrecv, granted_nil]
    omega
  · refine ⟨s', hlive id ▸ hs', ?_⟩
    rw [granted_nil]
    omega
  · rw [ClientIds, hstreams]
    exact h.ids
  · rw [hrecv, hun, hstreams, hconfig]
    exact h.balance
  · rw [hrecv]
    exact h.nonneg
  · rw [hstreams]
    exact h.placed
  · intro id s hs
    rw [hconfig]
    exact h.streams id s (hlive id ▸ hs)

lemma Credits.refl (k : ℕ) (c : Connection) : Credits k k c c := credits_of_eq rfl rfl rfl rfl rfl

lemma credits_write (hw : ClientIds c → Silent w) : Credits k k c (c.write w) := by
  intro h
  obtain ⟨hwhole, hgrant⟩ := hw h.ids
  refine ⟨w, ⟨rfl, hwhole, ?_, fun id s' hs' => ⟨s', hs', ?_⟩, fun f hf id => ?_⟩,
    ⟨h.ids, h.balance, h.nonneg, h.placed, h.streams⟩, rfl⟩
  · rw [hgrant]
    show c.recv_window = _
    omega
  · rw [hgrant]
    omega
  · exact (grant_le_granted hf id).trans ((hgrant id).trans_le (Nat.zero_le _))

/-! ### The connection -/

lemma Books.asU32 (h : Books (k + n) c) : asU32 n = n := by
  have h1 := h.balance
  have h2 := h.nonneg
  have h3 := c.config.window_lt
  rw [H2.asU32, Nat.mod_eq_of_lt (by omega)]

lemma accounts_recv (hn : (n : ℤ) ≤ c.recv_window) :
    Accounts k (k + n) (fun i => if i = 0 then n else 0) c
      { c with recv_window := c.recv_window - n } := by
  intro h
  refine ⟨[], ⟨(append_nil _).symm, Whole.nil, ?_, fun id s' hs' => ⟨s', hs', ?_⟩, small_nil _⟩,
    ⟨h.ids, ?_, ?_, h.placed, h.streams⟩, rfl⟩
  · rw [granted_nil, if_pos rfl]
    dsimp only
    omega
  · have hid := (h.ids id s' (live_eq_some.1 hs').1).1
    rw [granted_nil, if_neg (by omega)]
    omega
  · have hb := h.balance
    dsimp only
    push_cast
    omega
  · dsimp only
    omega

lemma credits_creditConnection (c : Connection) (k n : ℕ) :
    Credits (k + n) k c (c.creditConnection n) := by
  intro h
  have hb := h.balance
  have h0 := h.nonneg
  have hlt := c.config.window_lt
  have hadd : addU32 c.unannounced n = c.unannounced + n := by
    rw [addU32, Nat.mod_eq_of_lt (by omega)]
  rw [creditConnection]
  split
  · rename_i hn
    rw [hn, add_zero] at h
    exact Credits.refl k c h
  · dsimp only
    rw [hadd]
    split
    · have hgrant := @granted_writeWindowUpdate 0 (c.unannounced + n) (by omega) (by omega)
      refine ⟨_, ⟨rfl, whole_writeWindowUpdate (by omega) _, ?_, fun id s' hs' => ⟨s', hs', ?_⟩,
        fun f hf id => (grant_le_granted hf id).trans ?_⟩,
        ⟨h.ids, ?_, ?_, h.placed, h.streams⟩, rfl⟩
      · rw [hgrant, if_pos rfl]
        dsimp only
        omega
      · have hid := (h.ids id s' (live_eq_some.1 hs').1).1
        rw [hgrant, if_neg (by omega)]
        omega
      · rw [hgrant, Config.most]
        split_ifs
        · omega
        · exact Nat.zero_le _
      · dsimp only
        push_cast at hb ⊢
        omega
      · dsimp only
        omega
    · refine ⟨[], ⟨(append_nil _).symm, Whole.nil, ?_, fun id s' hs' => ⟨s', hs', ?_⟩, small_nil _⟩,
        ⟨h.ids, ?_, h.nonneg, h.placed, h.streams⟩, rfl⟩
      · rw [granted_nil]
        dsimp only
        omega
      · rw [granted_nil]
        omega
      · dsimp only
        push_cast at hb ⊢
        omega

lemma credits_creditOwed (c : Connection) (k n : ℕ) :
    Credits (k + n) k c (c.creditConnection (asU32 n)) := by
  intro h
  rw [h.asU32]
  exact credits_creditConnection c k n h

/-! ### Streams -/

lemma accounts_write {g : ℕ} (hget : c.streams.get id = some s) (hw : Whole w)
    (hgrant : ∀ i, granted i w = if id = i then g else 0) (hsmall : g ≤ c.config.most)
    (hplaced : Placed s → Placed s')
    (hunread : s'.unread + k' = s.unread + k)
    (hlive : s'.failure = none → s.failure = none ∧ s'.recv_window = s.recv_window + g - n ∧
      (StreamBooks c.config.stream_window s → StreamBooks c.config.stream_window s')) :
    Accounts k k' (fun i => if i = id then n else 0) c ((c.setStream id s').write w) := by
  intro h
  have hid := (h.ids id s hget).1
  refine ⟨w, ⟨rfl, hw, ?_, fun i t ht => ?_, fun f hf i => (grant_le_granted hf i).trans ?_⟩,
    ⟨?_, ?_, h.nonneg, ?_, ?_⟩, rfl⟩
  · rw [hgrant, if_neg (by omega), if_neg (by omega)]
    show c.recv_window = _
    omega
  · obtain ⟨hgett, hfail⟩ := live_eq_some.1 ht
    rcases get_insert_eq_some.1 hgett with ⟨rfl, rfl⟩ | ⟨hi, hold⟩
    · obtain ⟨hf, hrecv, -⟩ := hlive hfail
      refine ⟨s, live_eq_some.2 ⟨hget, hf⟩, ?_⟩
      rw [hgrant, if_pos rfl, if_pos rfl, hrecv]
    · refine ⟨t, live_eq_some.2 ⟨hold, hfail⟩, ?_⟩
      rw [hgrant, if_neg (Ne.symm hi), if_neg hi]
      omega
  · rw [hgrant]
    split_ifs
    · exact hsmall
    · exact Nat.zero_le _
  · intro i t ht
    rcases get_insert_eq_some.1 ht with ⟨rfl, -⟩ | ⟨-, hold⟩
    · exact h.ids i s hget
    · exact h.ids i t hold
  · have hb := h.balance
    have h1 := sum_remove Stream.unread hget
    have h2 := sum_insert c.streams Stream.unread id s'
    show c.recv_window + c.unannounced + (c.streams.insert id s').sum Stream.unread + k' =
      c.config.window
    omega
  · intro i t ht
    rcases get_insert_eq_some.1 ht with ⟨-, rfl⟩ | ⟨-, hold⟩
    · exact hplaced (h.placed id s hget)
    · exact h.placed i t hold
  · intro i t ht
    obtain ⟨hgett, hfail⟩ := live_eq_some.1 ht
    rcases get_insert_eq_some.1 hgett with ⟨rfl, rfl⟩ | ⟨-, hold⟩
    · obtain ⟨hf, -, hbooks⟩ := hlive hfail
      exact hbooks (h.streams i s (live_eq_some.2 ⟨hget, hf⟩))
    · exact h.streams i t (live_eq_some.2 ⟨hold, hfail⟩)

lemma accounts_setStream (hget : c.streams.get id = some s)
    (hplaced : Placed s → Placed s')
    (hunread : s'.unread + k' = s.unread + k)
    (hlive : s'.failure = none → s.failure = none ∧ s'.recv_window = s.recv_window - n ∧
      (StreamBooks c.config.stream_window s → StreamBooks c.config.stream_window s')) :
    Accounts k k' (fun i => if i = id then n else 0) c (c.setStream id s') := by
  have h := @accounts_write c [] id k k' n s s' 0 hget Whole.nil (by simp) (Nat.zero_le _)
    hplaced hunread (by simpa)
  rwa [write, append_nil] at h

lemma credits_setStream (hget : c.streams.get id = some s)
    (hplaced : Placed s → Placed s')
    (hunread : s'.unread + k' = s.unread + k)
    (hlive : s'.failure = none → s.failure = none ∧ s'.recv_window = s.recv_window ∧
      (StreamBooks c.config.stream_window s → StreamBooks c.config.stream_window s')) :
    Credits k k' c (c.setStream id s') := by
  have h := accounts_setStream (n := 0) hget hplaced hunread fun hf => by
    obtain ⟨h1, h2, h3⟩ := hlive hf
    exact ⟨h1, by omega, h3⟩
  have heq : (fun i => if i = id then 0 else 0) = fun _ => 0 := by
    funext i
    exact ite_self _
  rwa [heq] at h

lemma Alike.unread (h : Alike s s') : s'.unread = s.unread := by
  rw [Stream.unread, Stream.unread, h.collecting, h.body, h.body_pos]

lemma Alike.books (h : Alike s s') (hs : StreamBooks n s) : StreamBooks n s' := by
  refine ⟨?_, ?_⟩
  · rw [h.recv_window, h.unannounced, h.unread]
    exact hs.balance
  · rw [h.recv_window]
    exact hs.nonneg

lemma credits_alike (hget : c.streams.get id = some s) (h : Alike s s') :
    Credits k k c (c.setStream id s') := by
  refine credits_setStream hget ?_ (by rw [h.unread]) fun hf =>
    ⟨h.failure hf, h.recv_window, h.books⟩
  rw [Placed, Placed, h.collecting, h.body, h.body_pos]
  exact fun hp => hp

lemma credits_announceStream (c : Connection) (k id : ℕ) : Credits k k c (c.announceStream id) := by
  intro h
  rw [announceStream]
  split
  · exact Credits.refl k c h
  · rename_i s hget
    split
    · exact Credits.refl k c h
    · rename_i hno
      have hfail : s.failure = none := by
        cases hf : s.failure with
        | none => rfl
        | some f => simp [hf] at hno
      have hid := (h.ids id s hget).2
      have hwindow := c.config.stream_window_lt
      have hbooks := h.streams id s (live_eq_some.2 ⟨hget, hfail⟩)
      have hb := hbooks.balance
      have h0 := hbooks.nonneg
      have hset := @accounts_write c (writeWindowUpdate id s.unannounced) id k k 0 s { s with
        unannounced := 0, recv_window := s.recv_window + s.unannounced } s.unannounced hget
        (whole_writeWindowUpdate hid _) (granted_writeWindowUpdate hid (by omega))
        (le_max_of_le_right (by omega)) (fun h => h) rfl
        fun _ => ⟨hfail, by dsimp only; omega, fun _ => ⟨?_, by dsimp only; omega⟩⟩
      · simpa only [ite_self] using hset h
      · show s.recv_window + s.unannounced + (0 : ℕ) + s.unread = (c.config.stream_window : ℤ)
        omega

/-! ### Failures -/

lemma credits_failStream (c : Connection) (k id : ℕ) (failure : StreamError) :
    Credits k k c (c.failStream id failure) := by
  rw [failStream]
  split
  · exact Credits.refl k c
  · rename_i s hlive
    have hzero : Stream.unread { s with body := [], body_pos := 0, failure := some failure } =
      0 := by
      simp [Stream.unread]
    have hset : Credits k (k + s.unread) c (c.setStream id
        { s with body := [], body_pos := 0, failure := some failure }) := by
      refine credits_setStream (live_eq_some.1 hlive).1 (fun _ _ => le_rfl) ?_ (by simp)
      rw [hzero]
      omega
    exact hset.trans (credits_creditOwed _ _ _)

lemma credits_streamError (c : Connection) (k id : ℕ) (code : ErrorCode) (reason : String) :
    Credits k k c (c.streamError id code reason) := by
  rw [streamError]
  split
  · exact Credits.refl k c
  · rename_i s hlive
    intro h
    have hid := (h.ids id s (live_eq_some.1 hlive).1).2
    exact ((credits_failStream c k id _).trans
      (credits_write fun _ => silent_writeRstStream hid code)) h

/-! ### DATA -/

/-- What a DATA frame of the stream `id` takes from the windows. -/
def share (id n : ℕ) : ℕ → ℕ := fun i => if i = 0 ∨ id = i then n else 0

lemma Accounts.congr (h : Accounts k k' d c c') (h0 : d' 0 = d 0)
    (hlive : ClientIds c → ∀ i s, c.live i = some s → d' i = d i) : Accounts k k' d' c c' := by
  intro hbooks
  obtain ⟨w, hmoves, hbooks', hconfig⟩ := h hbooks
  refine ⟨w, ⟨hmoves.out, hmoves.whole, ?_, fun i s' hs' => ?_, hmoves.small⟩, hbooks', hconfig⟩
  · rw [h0]
    exact hmoves.connection
  · obtain ⟨s, hs, hrecv⟩ := hmoves.streams i s' hs'
    exact ⟨s, hs, by rw [hlive hbooks.ids i s hs, hrecv]⟩

lemma accounts_thrown (hn : (n : ℤ) ≤ c.recv_window) (hgone : c.live id = none) :
    Accounts 0 0 (share id n) c
      ({ c with recv_window := c.recv_window - n }.creditConnection n) := by
  have h := (accounts_recv (k := 0) hn).credit (credits_creditConnection _ 0 n)
  refine h.congr (by simp [share]) fun hids i s hs => ?_
  have hodd := (hids i s (live_eq_some.1 hs).1).1
  have hne : id ≠ i := by
    rintro rfl
    rw [hgone] at hs
    cases hs
  simp only [share]
  rw [if_neg (by omega), if_neg (by omega)]

lemma accounts_kept (hn : (n : ℤ) ≤ c.recv_window) (hlive : c.live id = some s)
    (hplaced : Placed s → Placed s')
    (hunread : s'.unread + k = s.unread + n) (hrecv : s'.recv_window = s.recv_window - n)
    (hbooks : StreamBooks c.config.stream_window s → StreamBooks c.config.stream_window s') :
    Accounts 0 k (share id n) c
      ({ c with recv_window := c.recv_window - n }.setStream id s') := by
  obtain ⟨hget, hfail⟩ := live_eq_some.1 hlive
  have hset : Accounts (0 + n) k (fun i => if i = id then n else 0)
      { c with recv_window := c.recv_window - n }
      ({ c with recv_window := c.recv_window - n }.setStream id s') := by
    refine accounts_setStream hget hplaced (by omega) fun _ => ⟨hfail, hrecv, hbooks⟩
  have h := (accounts_recv (k := 0) hn).trans hset
  intro hb
  have hid := (hb.ids id s hget).1
  refine h.congr ?_ (fun hids i t ht => ?_) hb
  · simp only [share, true_or, if_true]
    rw [if_neg (by omega), add_zero]
  · have hodd := (hids i t (live_eq_some.1 ht).1).1
    simp only [share]
    by_cases hi : id = i
    · rw [if_pos (.inr hi), if_neg (by omega), if_pos hi.symm, zero_add]
    · rw [if_neg (by omega), if_neg (by omega), if_neg (Ne.symm hi)]

lemma compact_spec (s : Stream) :
    (∃ body body_pos, s.compact = { s with body := body, body_pos := body_pos }) ∧
      s.compact.body.length - s.compact.body_pos = s.body.length - s.body_pos ∧
      (s.body_pos ≤ s.body.length → s.compact.body_pos ≤ s.compact.body.length) := by
  rw [Stream.compact]
  split
  · exact ⟨⟨_, _, rfl⟩, by simp, fun _ => Nat.zero_le _⟩
  · exact ⟨⟨_, _, rfl⟩, rfl, fun h => h⟩

lemma takeIn_spec {bytes : Bytes} {read : ℕ} (hread : read ≤ bytes.length)
    (hplaced : Placed s) :
    (s.takeIn bytes read).unread = s.unread +
        (if s.collecting then 0 else bytes.length - read) ∧
      Placed (s.takeIn bytes read) ∧
      (s.takeIn bytes read).recv_window = s.recv_window - bytes.length ∧
      (s.takeIn bytes read).failure = s.failure ∧
      (s.takeIn bytes read).unannounced =
        addU32 s.unannounced (asU32 (if s.collecting then bytes.length else read)) := by
  obtain ⟨⟨body, body_pos, heq⟩, hlen, hpos⟩ := compact_spec { s with
    recv_window := s.recv_window - bytes.length, received := s.received + bytes.length }
  rw [Stream.takeIn]
  dsimp only
  by_cases hlt : read < bytes.length
  · rw [if_pos hlt, heq]
    rw [heq] at hlen hpos
    dsimp only at hlen hpos ⊢
    refine ⟨?_, ?_, rfl, rfl, rfl⟩
    · rw [Stream.unread, Stream.unread, length_append, length_drop]
      dsimp only
      split
      · omega
      · rename_i hcoll
        have hpos := hpos (hplaced (by simpa using hcoll))
        omega
    · intro hcoll
      have hpos := hpos (hplaced hcoll)
      rw [length_append]
      dsimp only
      omega
  · rw [if_neg hlt]
    refine ⟨?_, hplaced, rfl, rfl, rfl⟩
    have hzero : bytes.length - read = 0 := by omega
    rw [hzero, ite_self, add_zero]
    rfl

lemma accounts_dataBytes (f : Feeding) {keep : Bool} {bytes : Bytes}
    (hn : (bytes.length : ℤ) ≤ f.c.recv_window)
    (hkeep : ∀ s, f.c.live id = some s → keep = true ∧ (bytes.length : ℤ) ≤ s.recv_window) :
    Accounts 0 0 (share id bytes.length) f.c (dataBytes f id keep bytes).c := by
  intro hb
  have hrecv := hb.balance
  have hlt := f.c.config.window_lt
  have has : asU32 bytes.length = bytes.length := by
    rw [asU32, Nat.mod_eq_of_lt (by omega)]
  rw [dataBytes]
  split
  · rename_i hnone
    have hgone : f.c.live id = none := by
      cases hl : f.c.live id with
      | none => rfl
      | some s =>
        rw [(hkeep s hl).1, if_pos rfl] at hnone
        exact absurd (hl.symm.trans hnone) (by simp)
    dsimp only
    rw [has]
    exact accounts_thrown hn hgone hb
  · rename_i s hs
    have hlive : f.c.live id = some s := by
      split at hs
      · exact hs
      · cases hs
    obtain ⟨hget, hfail⟩ := live_eq_some.1 hlive
    have hplaced := hb.placed id s hget
    have hroom := (hkeep s hlive).2
    have hread : directRoom f.direct id s bytes.length ≤ bytes.length := by
      rw [directRoom.eq_def]
      split
      · exact Nat.zero_le _
      · split
        · exact min_le_left _ _
        · exact Nat.zero_le _
    obtain ⟨hunread, hplaced', hrecv', hfail', hun⟩ := takeIn_spec hread hplaced
    generalize directRoom f.direct id s bytes.length = read at *
    -- the books of the stream
    have hbooks : StreamBooks f.c.config.stream_window s →
        StreamBooks f.c.config.stream_window (s.takeIn bytes read) := by
      rintro ⟨hbal, h0⟩
      have hwin := f.c.config.stream_window_lt
      have hadd : addU32 s.unannounced (asU32 (if s.collecting then bytes.length else read)) =
          s.unannounced + if s.collecting then bytes.length else read := by
        rw [addU32, asU32]
        split
        · rw [Nat.mod_eq_of_lt (by omega), Nat.mod_eq_of_lt (by omega)]
        · rw [Nat.mod_eq_of_lt (by omega), Nat.mod_eq_of_lt (by omega)]
      refine ⟨?_, by rw [hrecv']; omega⟩
      rw [hrecv', hun, hunread, hadd]
      split <;> push_cast <;> omega
    have hkept : ∀ k, (s.takeIn bytes read).unread + k = s.unread + bytes.length →
        Accounts 0 k (share id bytes.length) f.c
          ({ f.c with recv_window := f.c.recv_window - bytes.length }.setStream id
            (s.takeIn bytes read)) := fun k hk =>
      accounts_kept hn hlive (fun _ => hplaced') hk hrecv' hbooks
    dsimp only
    split
    · rename_i hcoll
      rw [if_pos hcoll, add_zero] at hunread
      have h := (hkept (0 + bytes.length) (by omega)).credit (credits_creditOwed _ 0 bytes.length)
      exact h hb
    · rename_i hcoll
      rw [if_neg hcoll] at hunread
      split
      · have h := ((hkept (0 + read) (by omega)).credit (credits_announceStream _ _ id)).credit
          (credits_creditOwed _ 0 read)
        exact h hb
      · exact hkept 0 (by omega) hb

end Connection

end Lazaret.H2
