import Lazaret.H2.Receive
import Lazaret.H2.Session

/-!
# The receive windows of a session balance

What was granted on the wire and what was taken in of the server's DATA give the receive windows
(`Viewed`), so that the peer and the connection agree about them, and the books hold at all times.
-/

namespace Lazaret.H2

open Connection List BTreeMap

variable {c c' : Connection} {sent : List (Bytes × Bytes)} {t t' w : Bytes} {d : ℕ → ℕ} {id : ℕ}

/-- The credit in these frames for the stream `id`, or for the connection if that is 0. -/
def credit (id : ℕ) (sent : List (Bytes × Bytes)) : ℕ := (sent.map (grant id)).sum

lemma credit_append (id : ℕ) (sent : List (Bytes × Bytes)) (w : Bytes) :
    credit id (sent ++ frames w) = credit id sent + granted id w := by
  rw [credit, map_append, sum_append, credit, granted]

lemma credit_unopened (h : Tied sent c) (hid : c.next_stream_id ≤ id) : credit id sent = 0 := by
  rw [credit, List.sum_eq_zero_iff_forall_eq_nat]
  intro n hn
  obtain ⟨f, hf, rfl⟩ := mem_map.1 hn
  have hlt := h.below f hf
  rw [streamOf] at hlt
  rw [grant, if_neg]
  rintro ⟨-, h0⟩
  omega

/-- The receive windows are what the peer takes them to be: what it was granted less what it
sent. -/
structure Viewed (sent : List (Bytes × Bytes)) (t : Bytes) (c : Connection) : Prop where
  connection : c.recv_window = (DEFAULT_WINDOW : ℤ) + credit 0 sent - flowed 0 t
  streams : ∀ id s, c.live id = some s →
    s.recv_window = (c.config.stream_window : ℤ) + credit id sent - flowed id t
  unopened : ∀ id, c.next_stream_id ≤ id → flowed id t = 0
  small : ∀ f ∈ sent, ∀ id, grant id f ≤ c.config.most

/-- There is room for the rest of the DATA frame that is arriving. -/
def Room (c : Connection) : Prop :=
  ∀ i, c.incoming = some i → (i.remaining : ℤ) ≤ c.recv_window ∧ i.stream % 2 = 1 ∧
    i.stream < c.next_stream_id ∧
    ∀ s, c.live i.stream = some s → i.keep = true ∧ (i.remaining : ℤ) ≤ s.recv_window

/-- The books of a connection that is not lost, and what the peer sees of them. -/
structure Balanced (sent : List (Bytes × Bytes)) (t : Bytes) (c : Connection) : Prop where
  books : Books 0 c
  viewed : Viewed sent t c
  room : Room c

lemma Viewed.moves (h : Viewed sent t c) (hm : Moves c c' w d) (hconfig : c'.config = c.config)
    (hnext : c'.next_stream_id = c.next_stream_id)
    (hflow : ∀ i, flowed i t' = flowed i t + d i) (hd : ∀ i, c.next_stream_id ≤ i → d i = 0) :
    Viewed (sent ++ frames w) t' c' where
  connection := by
    have hc := h.connection
    rw [hm.connection, credit_append, hflow]
    push_cast
    omega
  streams := by
    intro id s' hs'
    obtain ⟨s, hs, hrecv⟩ := hm.streams id s' hs'
    have hv := h.streams id s hs
    rw [hrecv, hconfig, credit_append, hflow]
    push_cast
    omega
  unopened := by
    intro id hid
    rw [hnext] at hid
    rw [hflow, h.unopened id hid, hd id hid]
  small := by
    intro f hf id
    rw [hconfig]
    exact (mem_append.1 hf).elim (fun hf => h.small f hf id) fun hf => hm.small f hf id

theorem Balanced.credits (h : Balanced sent t c) (ha : Credits 0 0 c c')
    (hnext : c'.next_stream_id = c.next_stream_id) (hincoming : c'.incoming = c.incoming) :
    ∃ w, c'.out = c.out ++ w ∧ Whole w ∧ Balanced (sent ++ frames w) t c' ∧
      c'.config = c.config := by
  obtain ⟨w, hm, hbooks, hconfig⟩ := ha h.books
  refine ⟨w, hm.out, hm.whole, ⟨hbooks, ?_, ?_⟩, hconfig⟩
  · exact h.viewed.moves hm hconfig hnext (fun _ => rfl) fun _ _ => rfl
  · intro i hi
    rw [hincoming] at hi
    obtain ⟨h1, h2, h3, h4⟩ := h.room i hi
    have hconn := hm.connection
    refine ⟨by omega, h2, by rw [hnext]; exact h3, fun s' hs' => ?_⟩
    obtain ⟨s, hs, hrecv⟩ := hm.streams _ s' hs'
    obtain ⟨h5, h6⟩ := h4 s hs
    exact ⟨h5, by omega⟩

theorem Balanced.accounts (h : Balanced sent t c) (ha : Accounts 0 0 d c c')
    (hnext : c'.next_stream_id = c.next_stream_id) (hincoming : c'.incoming = none)
    (hflow : ∀ i, flowed i t' = flowed i t + d i) (hd : ∀ i, c.next_stream_id ≤ i → d i = 0) :
    ∃ w, c'.out = c.out ++ w ∧ Whole w ∧ Balanced (sent ++ frames w) t' c' ∧
      c'.config = c.config := by
  obtain ⟨w, hm, hbooks, hconfig⟩ := ha h.books
  refine ⟨w, hm.out, hm.whole,
    ⟨hbooks, h.viewed.moves hm hconfig hnext hflow hd, fun i hi => ?_⟩, hconfig⟩
  rw [hincoming] at hi
  cases hi

/-! ### Feeding -/

/-- A feed that began at `c₀`, with `sent` written before: the books balance. -/
def Holds (c₀ : Connection) (sent : List (Bytes × Bytes)) (t : Bytes) (f : Feeding) : Prop :=
  ∃ w, f.c.out = c₀.out ++ w ∧ Whole w ∧ Balanced (sent ++ frames w) t f.c ∧ f.c.config = c₀.config

variable {c₀ : Connection} {f f' : Feeding}

lemma Holds.next (h : Holds c₀ sent t f)
    (hstep : ∀ sent, Balanced sent t f.c → ∃ w, f'.c.out = f.c.out ++ w ∧ Whole w ∧
      Balanced (sent ++ frames w) t' f'.c ∧ f'.c.config = f.c.config) : Holds c₀ sent t' f' := by
  obtain ⟨w, hout, hwhole, hbal, hconfig⟩ := h
  obtain ⟨w', hout', hwhole', hbal', hconfig'⟩ := hstep _ hbal
  refine ⟨w ++ w', by rw [hout', hout, append_assoc], hwhole.append hwhole', ?_,
    hconfig'.trans hconfig⟩
  rwa [frames_append hwhole, ← append_assoc]

section Arriving

variable {i : Incoming} {bytes : Bytes}

lemma accounts_arrive (hroom : Room f.c) (hi : f.c.incoming = some i)
    (hle : bytes.length ≤ i.remaining) :
    Accounts 0 0 (share i.stream bytes.length) f.c (arrive f i bytes).c := by
  obtain ⟨h1, -, -, h4⟩ := hroom i hi
  have hset : Credits 0 0 f.c { f.c with
      incoming := some { i with remaining := i.remaining - bytes.length } } :=
    credits_of_eq rfl rfl rfl rfl rfl
  refine hset.account (accounts_dataBytes ⟨_, f.direct⟩ (by dsimp only; omega) fun s hs => ?_)
  obtain ⟨h5, h6⟩ := h4 s hs
  exact ⟨h5, by omega⟩

lemma accounts_arriveLast (hroom : Room f.c) (hi : f.c.incoming = some i)
    (hle : bytes.length ≤ i.remaining) :
    Accounts 0 0 (share i.stream bytes.length) f.c (arriveLast f i bytes).c := by
  obtain ⟨h1, -, -, h4⟩ := hroom i hi
  have hset : Credits 0 0 f.c { f.c with incoming := none } := credits_of_eq rfl rfl rfl rfl rfl
  have hbytes : Accounts 0 0 (share i.stream bytes.length) { f.c with incoming := none }
      (dataBytes { f with c := { f.c with incoming := none } } i.stream i.keep bytes).c := by
    refine accounts_dataBytes { f with c := { f.c with incoming := none } } (by dsimp only; omega)
      fun s hs => ?_
    obtain ⟨h5, h6⟩ := h4 s hs
    exact ⟨h5, by omega⟩
  have hend : ∀ w, Moves { f.c with incoming := none }
      (dataBytes { f with c := { f.c with incoming := none } } i.stream i.keep bytes).c w
      (share i.stream bytes.length) →
      Accounts 0 0 (share i.stream 0)
        (dataBytes { f with c := { f.c with incoming := none } } i.stream i.keep bytes).c
        (arriveLast f i bytes).c := by
    intro w hm
    refine accounts_dataEnd _ ?_ fun s' hs' => ?_
    · have hconn := hm.connection
      simp only [share, true_or, if_true] at hconn
      push_cast
      omega
    · obtain ⟨s, hs, hrecv⟩ := hm.streams _ s' hs'
      obtain ⟨h5, h6⟩ := h4 s hs
      simp only [share, or_true, if_true] at hrecv
      exact ⟨h5, by push_cast; omega⟩
  have hall := hbytes.bind hend
  rw [share_add, add_zero] at hall
  exact hset.account hall

lemma share_unopened {next n : ℕ} (hid : id < next) (hodd : id % 2 = 1) :
    ∀ j, next ≤ j → share id n j = 0 := by
  intro j hj
  simp only [share]
  rw [if_neg (by omega)]

lemma Balanced.arrive (h : Balanced sent t f.c) (hi : f.c.incoming = some i) (hat : At t (some i))
    (hlt : bytes.length < i.remaining) :
    ∃ w, (arrive f i bytes).c.out = f.c.out ++ w ∧ Whole w ∧
      Balanced (sent ++ frames w) (t ++ bytes) (arrive f i bytes).c ∧
      (arrive f i bytes).c.config = f.c.config := by
  obtain ⟨w, hm, hbooks, hconfig⟩ := accounts_arrive h.room hi hlt.le h.books
  obtain ⟨h1, h2, h3, h4⟩ := h.room i hi
  have hnext : (Connection.arrive f i bytes).c.next_stream_id = f.c.next_stream_id :=
    (kept_dataBytes _ _ _ _).next_stream_id
  refine ⟨w, hm.out, hm.whole, ⟨hbooks, ?_, ?_⟩, hconfig⟩
  · exact h.viewed.moves hm hconfig hnext (fun j => hat.flowed_append hlt.le j)
      (share_unopened h3 h2)
  · intro i' hi'
    rw [incoming_arrive] at hi'
    cases hi'
    have hconn := hm.connection
    simp only [share, true_or, if_true] at hconn
    dsimp only
    refine ⟨by omega, h2, by rw [hnext]; exact h3, fun s' hs' => ?_⟩
    obtain ⟨s, hs, hrecv⟩ := hm.streams _ s' hs'
    obtain ⟨h5, h6⟩ := h4 s hs
    simp only [share, or_true, if_true] at hrecv
    exact ⟨h5, by omega⟩

lemma Balanced.arriveLast (h : Balanced sent t f.c) (hi : f.c.incoming = some i)
    (hat : At t (some i)) (hlen : bytes.length = i.remaining) :
    ∃ w, (arriveLast f i bytes).c.out = f.c.out ++ w ∧ Whole w ∧
      Balanced (sent ++ frames w) (t ++ bytes) (arriveLast f i bytes).c ∧
      (arriveLast f i bytes).c.config = f.c.config := by
  obtain ⟨-, h2, h3, -⟩ := h.room i hi
  have hnext : (Connection.arriveLast f i bytes).c.next_stream_id = f.c.next_stream_id :=
    ((kept_dataBytes _ _ _ _).trans (kept_dataEnd _ _ _ _ _)).next_stream_id
  exact h.accounts (accounts_arriveLast h.room hi hlen.le) hnext (incoming_arriveLast f i bytes)
    (fun j => hat.flowed_append hlen.le j) (share_unopened h3 h2)

end Arriving

lemma Balanced.beginData {header : Bytes} (h : Balanced sent t c) (hwhole : Whole t)
    (hheader : header.length = HEADER_LEN)
    (hok : (c.beginData (Header.parse header)).2 = .ok ()) :
    ∃ w, (c.beginData (Header.parse header)).1.out = c.out ++ w ∧ Whole w ∧
      Balanced (sent ++ frames w) (t ++ header) (c.beginData (Header.parse header)).1 ∧
      (c.beginData (Header.parse header)).1.config = c.config := by
  have hflow : ∀ j, flowed j (t ++ header) = flowed j t + 0 := by
    intro j
    have hadd := @flowed_frame t header [] hwhole hheader (Nat.zero_le _) j
    rw [append_nil, flow] at hadd
    rw [hadd, length_nil, ite_self]
  have hcheck := checkData_spec { c with empty_frames := 0 } (Header.parse header).stream
    ((Header.parse header).has flag.END_STREAM) (Header.parse header).length
    (Header.parse header).length
  have htakes := (takes_checkData { c with empty_frames := 0 } (Header.parse header).stream
    ((Header.parse header).has flag.END_STREAM) (Header.parse header).length
    (Header.parse header).length).1
  rw [Connection.beginData] at hok ⊢
  split at hok
  · rename_i c₁ keep hc
    rw [hc] at hcheck htakes
    obtain ⟨hcredits, hroom, hodd, hlt, hlive⟩ := hcheck keep rfl
    have hempty : Credits 0 0 c { c with empty_frames := 0 } := credits_of_eq rfl rfl rfl rfl rfl
    have hincoming : Credits 0 0 c₁ { c₁ with incoming := some ⟨(Header.parse header).stream,
        (Header.parse header).length, (Header.parse header).has flag.END_STREAM, keep⟩ } :=
      credits_of_eq rfl rfl rfl rfl rfl
    obtain ⟨w, hm, hbooks, hconfig⟩ := ((hempty.trans hcredits).trans hincoming) h.books
    have hnext : c₁.next_stream_id = c.next_stream_id := htakes.next_stream_id
    refine ⟨w, hm.out, hm.whole, ⟨hbooks, ?_, ?_⟩, hconfig⟩
    · exact h.viewed.moves hm hconfig hnext hflow fun _ _ => rfl
    · intro i hi
      cases hi
      have hconn := hm.connection
      dsimp only at hconn hroom hlt ⊢
      exact ⟨by omega, hodd, by rw [hnext]; exact hlt, hlive⟩
  · cases hok
  · cases hok

lemma Balanced.handleFrame {header payload : Bytes} (h : Balanced sent t f.c)
    (hi : f.c.incoming = none) (hwhole : Whole t) (hheader : header.length = HEADER_LEN)
    (hpayload : payload.length = (Header.parse header).length)
    (hok : (Connection.handleFrame f (Header.parse header) payload).2 = .ok ()) :
    ∃ w, (Connection.handleFrame f (Header.parse header) payload).1.c.out = f.c.out ++ w ∧ Whole w ∧
      Balanced (sent ++ frames w) (t ++ (header ++ payload))
        (Connection.handleFrame f (Header.parse header) payload).1.c ∧
      (Connection.handleFrame f (Header.parse header) payload).1.c.config = f.c.config := by
  have htakes := (takes_handleFrame f hpayload).1
  have hflow : ∀ j, flowed j (t ++ (header ++ payload)) =
      flowed j t + flow j (header, payload) := flowed_frame hwhole hheader hpayload.le
  have hnone := htakes.incoming.trans hi
  have hgo : ∀ d : ℕ → ℕ, Accounts 0 0 d f.c
      (Connection.handleFrame f (Header.parse header) payload).1.c →
      (∀ j, flow j (header, payload) = d j) → (∀ j, f.c.next_stream_id ≤ j → d j = 0) →
      ∃ w, (Connection.handleFrame f (Header.parse header) payload).1.c.out = f.c.out ++ w ∧
        Whole w ∧ Balanced (sent ++ frames w) (t ++ (header ++ payload))
          (Connection.handleFrame f (Header.parse header) payload).1.c ∧
        (Connection.handleFrame f (Header.parse header) payload).1.c.config = f.c.config :=
    fun d ha hd hun => h.accounts ha htakes.next_stream_id hnone
      (fun j => by rw [hflow, hd]) hun
  by_cases hkind : (Header.parse header).kind = kind.DATA
  · -- DATA moves the windows by all of its payload
    cases hparse : Frame.parse (Header.parse header) payload with
    | error e =>
      obtain ⟨code, stream, reason⟩ := e
      have hstream := Frame.parse_data_error hkind hparse
      dsimp only at hstream
      rw [Connection.handleFrame, hparse, hstream] at hok
      cases hok
    | ok frame =>
      obtain ⟨data, hdata, -, rfl⟩ := Frame.parse_data hkind hparse
      have hlen := Frame.length_unpad hdata
      have heq : Connection.handleFrame f (Header.parse header) payload =
          handle f (.Data (Header.parse header).stream ((Header.parse header).has flag.END_STREAM)
            data (Header.parse header).length) := by rw [Connection.handleFrame, hparse]
      rw [heq, handle] at hok
      split at hok
      · cases hok
      · rename_i horder
        rw [dispatch] at hok
        obtain ⟨hodd, hnext, ha⟩ := accounts_onData _ (by omega) hok
        refine hgo (share (Header.parse header).stream (Header.parse header).length) ?_ ?_ ?_
        · rw [heq, handle, if_neg horder, dispatch]
          refine Credits.account ?_ ha
          rw [resetEmpty]
          split
          · exact Credits.refl 0 _
          · exact credits_of_eq rfl rfl rfl rfl rfl
        · intro j
          simp only [flow, share, headerOf, hkind, true_and, hpayload]
        · refine share_unopened ?_ hodd
          rw [resetEmpty] at hnext
          split at hnext <;> exact hnext
  · refine hgo (fun _ => 0) ?_ (fun j => ?_) fun _ _ => rfl
    · rw [Connection.handleFrame] at hok ⊢
      cases hparse : Frame.parse (Header.parse header) payload with
      | error e =>
        obtain ⟨code, stream, reason⟩ := e
        rw [hparse] at hok
        cases stream with
        | none => cases hok
        | some id => exact credits_streamError _ _ _ _ _
      | ok frame =>
        obtain ⟨hdata, hwf, -⟩ := Frame.parse_control hkind hparse
        rw [hparse] at hok
        dsimp only at hok ⊢
        rw [handle] at hok ⊢
        split at hok
        · cases hok
        · rename_i horder
          rw [if_neg horder]
          have hreset : Credits 0 0 f.c (f.c.resetEmpty frame) := by
            rw [resetEmpty]
            split
            · exact Credits.refl 0 _
            · exact credits_of_eq rfl rfl rfl rfl rfl
          cases frame with
          | Data => cases hdata
          | _ => exact hreset.trans ((does_handleControl _ hwf).1.credits)
    · rw [flow, headerOf, if_neg fun hk => hkind hk.1]

lemma steps_and {I I' : Bytes → Feeding → Prop}
    {E E' : Bytes → Feeding → Outcome ConnectionError Unit → Prop} {r : Running}
    {x : Running ⊕ Ran} (h : Steps I E t r x) (h' : Steps I' E' t r x) :
    Steps (fun t f => I t f ∧ I' t f) (fun t f o => E t f o ∧ E' t f o) t r x := by
  cases x with
  | inl r' =>
    obtain ⟨used, hused, hI⟩ := h
    obtain ⟨used', hused', hI'⟩ := h'
    have heq : used = used' := append_cancel_right (hused.symm.trans hused')
    exact ⟨used, hused, hI, heq ▸ hI'⟩
  | inr x =>
    obtain ⟨used, hused, hE⟩ := h
    obtain ⟨used', hused', hE'⟩ := h'
    have heq : used = used' := append_cancel_right (hused.symm.trans hused')
    exact ⟨used, hused, hE, heq ▸ hE'⟩

theorem holds_turn (t : Bytes) (s : Running) (x : Running ⊕ Ran) (hduring : During c₀ sent t s.f)
    (h : Holds c₀ sent t s.f) (hx : Turns s x) :
    Steps (Holds c₀ sent) (fun t f r => r = .ok () → Holds c₀ sent t f) t s x := by
  have hstay : ∀ r : Outcome ConnectionError Unit, ∃ used, s.rest = used ++ s.rest ∧
      (r = .ok () → Holds c₀ sent (t ++ used) s.f) := fun r =>
    ⟨[], rfl, fun _ => by rw [append_nil]; exact h⟩
  cases hx with
  | @arriving i hi hlt =>
    have hat := hduring.at hi
    exact ⟨s.rest, (append_nil _).symm, fun _ => h.next fun _ hb => hb.arrive hi hat hlt⟩
  | @arrived i hi hle =>
    have hat := hduring.at hi
    have hlen : (s.rest.take i.remaining).length = i.remaining := length_take_of_le (by omega)
    exact ⟨s.rest.take i.remaining, (take_append_drop _ _).symm,
      h.next fun _ hb => hb.arriveLast hi hat hlen⟩
  | short | large | cut | unsettled => exact hstay _
  | @begun header rest c hi hrest hheader hlen hcut hstream hbegin =>
    have hwhole : Whole t := hduring.at hi
    refine ⟨header, hrest, h.next fun _ hb => ?_⟩
    have hgo := hb.beginData hwhole hheader (by rw [hbegin])
    rwa [hbegin] at hgo
  | @notBegun header rest c r hi hrest hheader hlen hcut hstream hbegin hr =>
    exact ⟨header, hrest, fun hok => absurd hok hr⟩
  | @handled header payload rest f hi hrest hheader hlen hpayload hset hhandle =>
    have hwhole : Whole t := hduring.at hi
    refine ⟨header ++ payload, hrest, h.next fun _ hb => ?_⟩
    have hgo := hb.handleFrame hi hwhole hheader hpayload (by rw [hhandle])
    rwa [hhandle] at hgo
  | @notHandled header payload rest f r hi hrest hheader hlen hpayload hset hhandle hr =>
    exact ⟨header ++ payload, hrest, fun hok => absurd hok hr⟩

lemma Balanced.same (h : Balanced sent t c) (hstreams : c'.streams = c.streams)
    (hrecv : c'.recv_window = c.recv_window) (hun : c'.unannounced = c.unannounced)
    (hconfig : c'.config = c.config) (hnext : c'.next_stream_id = c.next_stream_id)
    (hincoming : c'.incoming = c.incoming) : Balanced sent t c' := by
  have hlive : ∀ id, c'.live id = c.live id := fun id => by rw [live, live, hstreams]
  obtain ⟨hbooks, ⟨h1, h2, h3, hsmall⟩, h4⟩ := h
  refine ⟨⟨?_, ?_, ?_, ?_, ?_⟩, ⟨?_, ?_, ?_, hconfig ▸ hsmall⟩, ?_⟩
  · rw [ClientIds, hstreams]
    exact hbooks.ids
  · rw [hrecv, hun, hstreams, hconfig]
    exact hbooks.balance
  · rw [hrecv]
    exact hbooks.nonneg
  · rw [hstreams]
    exact hbooks.placed
  · simp only [hlive, hconfig]
    exact hbooks.streams
  · rw [hrecv]
    exact h1
  · simp only [hlive, hconfig]
    exact h2
  · rw [hnext]
    exact h3
  · simp only [Room, hincoming, hrecv, hnext, hlive]
    exact h4

theorem feed_holds {direct : Option Direct} (hduring : During c sent t ⟨c, direct⟩)
    (h : Balanced sent t c) (hidle : Idle c) (data : Bytes) :
    ∃ f used rest r, c.feedDirect data direct = finished f r ∧ c.inbound ++ data = used ++ rest ∧
      (Through c sent (t ++ used) f r ∧ (r = .ok () → Holds c sent (t ++ used) f)) ∧
      (r = .ok () → f.c.inbound = rest ∧ Idle f.c) := by
  have hkeep : ∀ t f b, Holds c sent t f → Holds c sent t (keepInbound f b) := by
    rintro t f b ⟨w, hout, hwhole, hbal, hconfig⟩
    exact ⟨w, hout, hwhole, hbal.same rfl rfl rfl rfl rfl rfl, hconfig⟩
  have hstart : Holds c sent t ⟨c, direct⟩ := by
    refine ⟨[], (append_nil _).symm, Whole.nil, ?_, rfl⟩
    rwa [frames_nil_eq, append_nil]
  refine feedDirect_rule (I := fun t f => During c sent t f ∧ Holds c sent t f)
    (E := fun t f r => Through c sent t f r ∧ (r = .ok () → Holds c sent t f))
    (fun t s x h hx => steps_and (during_turn t s x h.1 hx) (holds_turn t s x h.1 h.2 hx))
    (fun t f hE => ⟨hE.1.2.2 rfl, hE.2 rfl⟩) ?_ ?_ ⟨hduring, hstart⟩ hidle hduring.1.1 data
  · rintro t f r b ⟨hthrough, hholds⟩
    exact ⟨hthrough.keepInbound b, fun hr => hkeep t f b (hholds hr)⟩
  · rintro t f b ⟨h1, h2⟩
    exact ⟨h1.keepInbound b, hkeep t f b h2⟩

/-! ### Sessions -/

variable {config : Config} {s : Session}

/-- The books of a session whose connection is not lost. -/
def InBalance (config : Config) (s : Session) : Prop :=
  s.c.error = none → Balanced s.sent s.taken s.c ∧ s.c.config = config

namespace InBalance

variable (h : InBalance config s)
include h

lemma credits {op : Op} (ha : Credits 0 0 s.c (op.apply s.c))
    (haside : Aside s.c (op.apply s.c))
    (hnext : (op.apply s.c).next_stream_id = s.c.next_stream_id)
    (htaken : takenIn s.c (op.apply s.c) op = []) : InBalance config (s.step op) := by
  intro herr
  obtain ⟨hbal, hconfig⟩ := h (haside.error.symm.trans herr)
  obtain ⟨w, hout, -, hbal', hconfig'⟩ := hbal.credits ha hnext haside.incoming
  have hwritten := written_eq hout haside.error
  refine ⟨?_, hconfig'.trans hconfig⟩
  show Balanced (s.sent ++ written s.c (op.apply s.c)) (s.taken ++ takenIn s.c (op.apply s.c) op)
    (op.apply s.c)
  rw [hwritten, htaken, append_nil]
  exact hbal'

lemma kept {op : Op} (ha : Credits 0 0 s.c (op.apply s.c))
    (hk : Kept s.c (op.apply s.c)) (htaken : takenIn s.c (op.apply s.c) op = []) :
    InBalance config (s.step op) := h.credits ha hk.aside hk.next_stream_id htaken

lemma consumeOutput (n : ℕ) :
    InBalance config (s.step (.consumeOutput n)) := by
  obtain ⟨out, out_pos, hc, hwritten⟩ := consumeOutput_spec s.c n
  intro herr
  have herr' : s.c.error = none := by
    have heq : (s.step (.consumeOutput n)).c.error = s.c.error := by
      show (s.c.consumeOutput n).error = s.c.error
      rw [hc]
    rw [← heq]
    exact herr
  obtain ⟨hbal, hconfig⟩ := h herr'
  refine ⟨?_, ?_⟩
  · show Balanced (s.sent ++ written s.c (s.c.consumeOutput n)) (s.taken ++ [])
      (s.c.consumeOutput n)
    rw [hwritten, append_nil, append_nil, hc]
    exact hbal.same rfl rfl rfl rfl rfl rfl
  · show (s.c.consumeOutput n).config = config
    rw [hc]
    exact hconfig

lemma sendData (hs : Sound s) (id : ℕ) (data : Bytes) (end_stream : Bool) :
    InBalance config (s.step (.sendData id data end_stream)) := by
  rcases sendData_cases s.c id data end_stream with heq |
    ⟨stream, n, finish, hlive, -, -, -, -, -, heq⟩
  · refine h.kept ?_ ?_ rfl
    · rw [Op.apply, heq]
      exact Credits.refl 0 _
    · rw [Op.apply, heq]
      exact Kept.refl _
  · obtain ⟨hget, -⟩ := live_eq_some.1 hlive
    obtain ⟨-, hid⟩ := hs.tied.clientIds id stream hget
    refine h.credits ?_ ?_ ?_ rfl
    · rw [Op.apply, heq]
      have hset : Credits 0 0 s.c (s.c.setStream id { stream with
          send_window := stream.send_window - n
          local_ended := stream.local_ended || finish }) :=
        credits_alike hget ⟨rfl, rfl, rfl, rfl, rfl, fun h => h⟩
      exact (hset.trans (credits_write fun _ => silent_writeDataRest hid finish
        s.c.peer_max_frame (data.take n))).trans (credits_of_eq rfl rfl rfl rfl rfl)
    · rw [Op.apply, heq]
      exact ⟨rfl, rfl, rfl, fun ht => ht⟩
    · rw [Op.apply, heq]

lemma openStream (hs : Sound s) (request : Request) (end_stream : Bool) :
    InBalance config (s.step (.openStream request end_stream)) := by
  rcases openStream_cases s.c request end_stream with ⟨heq, -⟩ |
    ⟨encoder, block, herr, hmax, -, heq⟩
  · refine h.kept ?_ ?_ rfl
    · rw [Op.apply, heq]
      exact Credits.refl 0 _
    · rw [Op.apply, heq]
      exact Kept.refl _
  · intro _
    obtain ⟨hbal, hconfig⟩ := h herr
    obtain ⟨hodd, hle⟩ := hs.tied.next
    rw [MAX_STREAM_ID] at hmax
    have hid : s.c.next_stream_id < 2 ^ 31 := by omega
    have hsilent := silent_writeHeaderBlockRest hid end_stream s.c.peer_max_frame true block
    rw [writeHeaderBlock] at heq
    generalize writeHeaderBlockRest s.c.next_stream_id end_stream s.c.peer_max_frame true block = w
      at hsilent heq
    have hc : Op.apply s.c (.openStream request end_stream) = _ := heq
    have hwritten : written s.c (Op.apply s.c (.openStream request end_stream)) = frames w := by
      rw [hc]
      exact written_eq rfl rfl
    have hnew : s.c.streams.get s.c.next_stream_id = none := by
      cases hget : s.c.streams.get s.c.next_stream_id with
      | none => rfl
      | some t => exact absurd (hs.tied.ids _ t hget).2 (lt_irrefl _)
    have hcredit : ∀ i, credit i (s.sent ++ frames w) = credit i s.sent := by
      intro i
      rw [credit_append, hsilent.2, add_zero]
    refine ⟨?_, ?_⟩
    · show Balanced (s.sent ++ written s.c (Op.apply s.c (.openStream request end_stream)))
        (s.taken ++ []) (Op.apply s.c (.openStream request end_stream))
      rw [hwritten, append_nil, hc]
      refine ⟨⟨?_, ?_, hbal.books.nonneg, ?_, ?_⟩, ⟨?_, ?_, ?_, fun f hf i => ?_⟩, ?_⟩
      · intro i t ht
        rcases get_insert_eq_some.1 ht with ⟨rfl, -⟩ | ⟨-, ht⟩
        · exact ⟨hodd, hid⟩
        · exact hbal.books.ids i t ht
      · have hb := hbal.books.balance
        have hsum := sum_insert s.c.streams Stream.unread s.c.next_stream_id
          (s.c.opened request end_stream)
        rw [remove_of_get_none hnew] at hsum
        have hzero : (s.c.opened request end_stream).unread = 0 := rfl
        dsimp only
        rw [hsum, hzero]
        exact hb
      · intro i t ht
        rcases get_insert_eq_some.1 ht with ⟨-, rfl⟩ | ⟨-, ht⟩
        · exact fun _ => le_rfl
        · exact hbal.books.placed i t ht
      · intro i t ht
        obtain ⟨hget, hfail⟩ := live_eq_some.1 ht
        rcases get_insert_eq_some.1 hget with ⟨-, rfl⟩ | ⟨-, hget⟩
        · refine ⟨?_, Int.natCast_nonneg _⟩
          show (s.c.config.stream_window : ℤ) + (0 : ℕ) + (0 : ℕ) = s.c.config.stream_window
          omega
        · exact hbal.books.streams i t (live_eq_some.2 ⟨hget, hfail⟩)
      · rw [hcredit]
        exact hbal.viewed.connection
      · intro i t ht
        obtain ⟨hget, hfail⟩ := live_eq_some.1 ht
        rw [hcredit]
        rcases get_insert_eq_some.1 hget with ⟨rfl, rfl⟩ | ⟨-, hget⟩
        · rw [credit_unopened hs.tied le_rfl, hbal.viewed.unopened _ le_rfl]
          show (s.c.config.stream_window : ℤ) = s.c.config.stream_window + (0 : ℕ) - (0 : ℕ)
          omega
        · exact hbal.viewed.streams i t (live_eq_some.2 ⟨hget, hfail⟩)
      · intro i hi
        dsimp only at hi
        exact hbal.viewed.unopened i (by omega)
      · rcases mem_append.1 hf with hf | hf
        · exact hbal.viewed.small f hf i
        · exact (grant_le_granted hf i).trans ((hsilent.2 i).trans_le (Nat.zero_le _))
      · intro i hi
        obtain ⟨h1, h2, h3, h4⟩ := hbal.room i hi
        refine ⟨h1, h2, by dsimp only; omega, fun t ht => ?_⟩
        obtain ⟨hget, hfail⟩ := live_eq_some.1 ht
        rcases get_insert_eq_some.1 hget with ⟨heq', -⟩ | ⟨-, hget⟩
        · omega
        · exact h4 t (live_eq_some.2 ⟨hget, hfail⟩)
    · show (Op.apply s.c (.openStream request end_stream)).config = config
      rw [hc]
      exact hconfig

lemma feedDirect (hs : Sound s) (data : Bytes) (direct : Option Direct) :
    InBalance config (s.step (.feedDirect data direct)) := by
  intro hnone
  cases herr : s.c.error with
  | some e =>
    have hc : Op.apply s.c (.feedDirect data direct) = s.c := by
      rw [Op.apply, Connection.feedDirect, herr]
    exact absurd ((congrArg Connection.error hc).symm.trans hnone) (by rw [herr]; simp)
  | none =>
    obtain ⟨hbal, hconfig⟩ := h herr
    obtain ⟨-, hidle, -⟩ := hs.feeding herr
    obtain ⟨f, used, rest, r, hfeed, hsplit, ⟨hthrough, hholds⟩, hlast⟩ :=
      feed_holds (hs.during herr direct) hbal hidle data
    have hc : Op.apply s.c (.feedDirect data direct) = f.c.finish r := by
      rw [Op.apply, hfeed, finished]
    cases r with
    | ok u =>
      obtain ⟨hrest, -⟩ := hlast rfl
      obtain ⟨w, hout, -, hbal', hconfig'⟩ := hholds rfl
      have herr' : f.c.error = none := (hthrough.2.2 rfl).1.1
      have hc' : Op.apply s.c (.feedDirect data direct) = f.c := hc
      refine ⟨?_, ?_⟩
      · show Balanced (s.sent ++ written s.c (Op.apply s.c (.feedDirect data direct)))
          (s.taken ++ takenIn s.c (Op.apply s.c (.feedDirect data direct))
            (.feedDirect data direct)) (Op.apply s.c (.feedDirect data direct))
        rw [hc', written_eq hout (herr'.trans herr.symm), takenIn_feed herr' hrest hsplit]
        exact hbal'
      · show (Op.apply s.c (.feedDirect data direct)).config = config
        rw [hc']
        exact hconfig'.trans hconfig
    | err e =>
      have hlost : (Op.apply s.c (.feedDirect data direct)).error ≠ none := by
        rw [hc, Connection.finish]
        simp [die]
      exact absurd hnone hlost
    | fault => exact absurd rfl hthrough.1

theorem step (hs : Sound s) (op : Op) : InBalance config (s.step op) := by
  cases op with
  | feedDirect data direct => exact h.feedDirect hs data direct
  | openStream request end_stream => exact h.openStream hs request end_stream
  | sendData id data end_stream => exact h.sendData hs id data end_stream
  | releaseStream id =>
    exact h.kept (credits_releaseStream s.c id) (reads_releaseStream s.c id).kept rfl
  | poll id sink => exact h.kept (credits_poll s.c id sink) (reads_poll s.c id sink).kept rfl
  | collectStream id limit =>
    exact h.kept (credits_collectStream s.c id limit) (reads_collectStream s.c id limit).kept rfl
  | collected id => exact h.kept (credits_collected s.c id) (reads_collected s.c id).kept rfl
  | consumeOutput n => exact h.consumeOutput n

end InBalance

lemma inBalance_new (config : Config) : InBalance config (Session.new config) := by
  intro _
  have hlt := config.connection_window_lt
  have hwin : DEFAULT_WINDOW ≤ config.window := le_max_right _ _
  have hsilent : Silent (writeSettings [(setting.HEADER_TABLE_SIZE,
    HEADER_TABLE_SIZE), (setting.ENABLE_PUSH, 0),
    (setting.INITIAL_WINDOW_SIZE, config.stream_window),
    (setting.MAX_HEADER_LIST_SIZE, config.max_header_list)]) := silent_writeSettings (by simp)
  -- what is granted at first is the rest of the window of the connection
  have hgranted : ∀ i, granted i (writeSettings [(setting.HEADER_TABLE_SIZE,
      HEADER_TABLE_SIZE), (setting.ENABLE_PUSH, 0),
      (setting.INITIAL_WINDOW_SIZE, config.stream_window),
      (setting.MAX_HEADER_LIST_SIZE, config.max_header_list)] ++
      if config.connection_window > DEFAULT_WINDOW then
        writeWindowUpdate 0 (config.connection_window - DEFAULT_WINDOW) else []) =
      if 0 = i then config.window - DEFAULT_WINDOW else 0 := by
    intro i
    rw [granted_append hsilent.1, hsilent.2, zero_add, Config.window]
    split
    · rw [granted_writeWindowUpdate (by omega) (by omega)]
      split_ifs <;> omega
    · rw [granted_nil]
      split_ifs <;> omega
  have hcredit : credit 0 (Session.new config).sent = config.window - DEFAULT_WINDOW := by
    have happ := credit_append 0 [] (writeSettings [(setting.HEADER_TABLE_SIZE,
      HEADER_TABLE_SIZE), (setting.ENABLE_PUSH, 0),
      (setting.INITIAL_WINDOW_SIZE, config.stream_window),
      (setting.MAX_HEADER_LIST_SIZE, config.max_header_list)] ++
      if config.connection_window > DEFAULT_WINDOW then
        writeWindowUpdate 0 (config.connection_window - DEFAULT_WINDOW) else [])
    rw [nil_append, ← sent_new_eq, hgranted, if_pos rfl] at happ
    exact happ.trans (Nat.zero_add _)
  refine ⟨⟨⟨?_, ?_, Int.natCast_nonneg _, ?_, ?_⟩, ⟨?_, ?_, ?_, fun f hf i => ?_⟩, ?_⟩, rfl⟩
  · intro i t ht
    cases ht
  · show (config.window : ℤ) + (0 : ℕ) + (0 : ℕ) + (0 : ℕ) = config.window
    omega
  · intro i t ht
    cases ht
  · intro i t ht
    cases ht
  · rw [hcredit]
    show (config.window : ℤ) = _
    rw [Session.new, flowed_nil]
    omega
  · intro i t ht
    cases ht
  · intro i _
    exact flowed_nil i
  · rw [sent_new_eq] at hf
    refine (grant_le_granted hf i).trans ((hgranted i).trans_le (le_max_of_le_left ?_))
    show _ ≤ config.window
    split_ifs <;> omega
  · intro i hi
    cases hi

theorem inBalance_run (config : Config) (ops : List Op) :
    InBalance config (Session.run config ops) := by
  have hboth : Sound (Session.run config ops) ∧ InBalance config (Session.run config ops) := by
    rw [Session.run]
    induction ops using reverseRecOn with
    | nil => exact ⟨sound_new config, inBalance_new config⟩
    | append_singleton ops op ih =>
      rw [foldl_append]
      exact ⟨(ih.1.keeps op).1, ih.2.step ih.1 op⟩
  exact hboth.2

lemma credit_eq_increments {most : ℕ} (hmost : most ≤ MAX_WINDOW)
    (hsmall : ∀ f ∈ sent, ∀ id, grant id f ≤ most) (id : ℕ) :
    credit id sent = (sent.map (increment id)).sum := by
  rw [credit]
  refine congrArg List.sum (map_congr_left fun f hf => ?_)
  have hle := hsmall f hf id
  rw [MAX_WINDOW] at hmost
  rw [grant] at hle ⊢
  rw [increment, kindOf, streamOf]
  split_ifs at hle ⊢
  · exact (Nat.mod_eq_of_lt (by omega)).symm
  · rfl

/-- The receive windows balance as long as the connection is not lost, and what the peer may still
send is what it takes it to be, by the increments as they are written: as a peer reads them, in 31
bits, if the windows of the configuration have no more. -/
theorem receive_windows_balance (config : Config) (ops : List Op)
    (hnone : (Session.run config ops).c.error = none) :
    let s := Session.run config ops
    s.c.recv_window + s.c.unannounced + s.c.streams.sum Stream.unread =
      (max config.connection_window DEFAULT_WINDOW : ℕ) ∧
    0 ≤ s.c.recv_window ∧
    (∀ id stream, s.c.streams.get id = some stream → stream.failure = none →
      stream.recv_window + stream.unannounced + stream.unread = config.stream_window) ∧
    (0 ≤ s.c.send_window ∧ s.c.send_window ≤ (MAX_WINDOW : ℤ)) ∧
    s.c.recv_window = (DEFAULT_WINDOW : ℤ) + credit 0 s.sent - flowed 0 s.taken ∧
    (∀ id stream, s.c.streams.get id = some stream → stream.failure = none →
      stream.recv_window = (config.stream_window : ℤ) + credit id s.sent - flowed id s.taken) ∧
    (config.connection_window ≤ MAX_WINDOW → config.stream_window ≤ MAX_WINDOW →
      ∀ id, credit id s.sent = (s.sent.map (increment id)).sum) := by
  intro s
  obtain ⟨⟨hbooks, hviewed, -⟩, hconfig⟩ := inBalance_run config ops hnone
  have hbalance := hbooks.balance
  rw [hconfig] at hbalance
  refine ⟨?_, hbooks.nonneg, fun id stream hget hfail => ?_, ?_, hviewed.connection,
    fun id stream hget hfail => ?_, fun hconn hstream => ?_⟩
  · rw [Config.window, Nat.cast_zero, add_zero] at hbalance
    exact hbalance
  · have hstream := (hbooks.streams id stream (live_eq_some.2 ⟨hget, hfail⟩)).balance
    rw [hconfig] at hstream
    exact hstream
  · exact ((sound_run config ops).fair hnone).windows.range
  · have hstream := hviewed.streams id stream (live_eq_some.2 ⟨hget, hfail⟩)
    rw [hconfig] at hstream
    exact hstream
  · have hsmall := hviewed.small
    rw [hconfig] at hsmall
    exact credit_eq_increments (max_le (max_le hconn (by decide)) hstream) hsmall

/-- A response arrives in two parts, the first of them cut in the middle of its DATA, and is
read. -/
theorem receive_windows_balance_one_response :
    let ops : List Op := [.openStream ⟨asBytes "GET", asBytes "https", asBytes "a", asBytes "/", [],
        []⟩ true,
      .feedDirect (writeSettings [] ++ (start 1 kind.HEADERS flag.END_HEADERS 1 ++ [0x88]) ++
        (start 3 kind.DATA flag.END_STREAM 1 ++ [1])) none,
      .poll 1 (.Copy 10), .poll 1 (.Copy 10), .feedDirect [2, 3] none]
    (Session.run Config.default ops).c.error = none ∧
      flowed 1 (Session.run Config.default ops).taken = 3 ∧
      (Session.run Config.default ops).c.recv_window +
        (Session.run Config.default ops).c.unannounced +
        (Session.run Config.default ops).c.streams.sum Stream.unread = (32 <<< 20 : ℕ) := by
  intro ops
  have hnone : (Session.run Config.default ops).c.error = none := by decide +kernel
  have hflowed : flowed 1 (Session.run Config.default ops).taken = 3 := by decide +kernel
  exact ⟨hnone, hflowed, (receive_windows_balance Config.default ops hnone).1⟩

end Lazaret.H2
