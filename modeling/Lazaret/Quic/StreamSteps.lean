import Lazaret.Quic.Accounting

/-!
# What each call on the streams keeps

The accounting (`Sound`) through each call on the streams: of the application, for a frame that
arrived, for the frames to send, and for what became of them.
-/

namespace Lazaret.Quic.Flow

open List BTreeMap
open Wire (Frame MAX_VARINT MAX_STREAMS_LIMIT)

namespace Streams

/-- The accounting of the streams when the frames of `log` were sent. -/
structure Sound (rest : List ℕ) (log : List StreamFrame) (s : Streams) : Prop where
  send : SendSide rest log s
  recv : RecvSide 0 s
  opens : s.Opens log

variable {rest : List ℕ} {log : List StreamFrame} {s t : Streams} {id : ℕ} {x x' : Send}
    {r r' : Recv}

namespace Sound

section

variable (h : Sound rest log s)
include h

lemma sendOnly (ht : s.SendOnly t) {rest' : List ℕ}
    (hsend : SendSide rest' log t) : Sound rest' log t :=
  ⟨hsend, h.recv.sendOnly ht, h.opens.sendOnly ht⟩

lemma recvOnly (ht : s.RecvOnly t) (hrecv : RecvSide 0 t) : Sound rest log t :=
  ⟨h.send.recvOnly ht, hrecv, h.opens.recvOnly ht⟩

lemma due (ha : t.accounts = s.accounts) (hs : t.streams = s.streams)
    (hq : t.send_queue = s.send_queue) (hp : t.parked = s.parked) : Sound rest log t := by
  have ht := SendOnly.of_eq ha hs
  refine h.sendOnly ht (h.send.congr (fun j => ?_) hq hp (congrArg (·.sent_total) ha)
    (congrArg (·.send_max_data) ha))
  rw [sendOf, hs]
  rfl

lemma setSend (hx : s.sendOf id = some x) (hid : id ∉ rest)
    (hok : SendOk log id x') (hq : x'.queued = x.queued) (hp : x'.parked = x.parked) :
    Sound rest log (s.setSend id x') :=
  h.sendOnly (SendOnly.setSend s id x') (h.send.setSend hx hid hok hq hp)

lemma setRecv (hr : s.recvOf id = some r) (r' : Recv) (hok : RecvOk r')
    (hhigh : r'.high = r.high) (hconsumed : r'.consumed = r.consumed) :
    Sound rest log (s.setRecv id r') :=
  h.recvOnly (RecvOnly.setRecv s id r') (h.recv.setRecv hr r' hok hhigh hconsumed)

lemma markRecv (hr : s.recvOf id = some r) (r' : Recv) (hbuf : r'.buf = r.buf)
    (hmax : r'.max_data = r.max_data) (hhigh : r'.high = r.high)
    (hfinal : r'.final_size = r.final_size) (hwindow : r'.window = r.window)
    (hstop : ∀ stop ∈ r'.stop, stop.error ≤ MAX_VARINT) (hconsumed : r'.consumed = r.consumed) :
    Sound rest log (s.setRecv id r') :=
  have hok := h.recv.sides id r hr
  h.setRecv hr r' (hok.raise r' hbuf hmax.ge (hmax.trans_le hok.max_le) hhigh hfinal hwindow hstop)
    hhigh hconsumed

lemma schedule (hid : id ∉ rest) : Sound rest log (s.schedule id) :=
  h.sendOnly (SendOnly.schedule s id) (h.send.schedule hid)

end

lemma cleanup (h : Sound [] log s) (id : ℕ) : Sound [] log (s.cleanup id) :=
  ⟨h.send.cleanup id, h.recv.cleanup id, h.opens.cleanup id⟩

lemma doReset (h : Sound [] log s) (hsending : ∀ x, s.sendOf id = some x → x.sending = true)
    {error : ℕ} (herror : error ≤ MAX_VARINT) : Sound [] log (s.doReset id error) :=
  h.sendOnly (SendOnly.doReset s id error) (h.send.doReset (by simp) hsending herror)

end Sound

/-! ### The credit that moves up -/

lemma creditFits_congr {n : ℕ} (ha : t.accounts = s.accounts) (h : s.CreditFits n) :
    t.CreditFits n := by
  obtain ⟨-, hc, hlimit⟩ := recvCounts_eq ha
  have hcfg : t.cfg = s.cfg := congrArg (·.cfg) ha
  rwa [CreditFits, hlimit, hc, hcfg]

lemma RecvOnly.growConnectionWindow (s : Streams) : RecvOnly s s.growConnectionWindow := by
  rw [Streams.growConnectionWindow]
  split
  · exact ⟨rfl, fun _ => rfl, fun _ => rfl, rfl, rfl⟩
  · exact RecvOnly.refl s

lemma afterConsume_spec {n : ℕ} (h : RecvSide n s) (id : ℕ) (hconn : s.CreditFits n)
    (hstream : ∀ r, s.recvOf id = some r → r.CreditFits 0) :
    RecvSide 0 (s.afterConsume id n) ∧ RecvOnly s (s.afterConsume id n) := by
  have hle := h.consumed_le.trans (h.le.trans h.limit_le)
  have hcount : RecvSide 0 { s with consumed := s.consumed + n } :=
    ⟨h.sides, h.gone, h.total, h.consumed, h.le, h.limit_le⟩
  have honly : RecvOnly s { s with consumed := s.consumed + n } :=
    ⟨rfl, fun _ => rfl, fun _ => rfl, rfl, rfl⟩
  have hfits : ({ s with consumed := s.consumed + n } : Streams).CreditFits 0 := hconn
  have hat : ∀ r, ({ s with consumed := s.consumed + n } : Streams).recvOf id = some r →
      r.CreditFits 0 := hstream
  rw [afterConsume, addU64_eq (by omega) (by omega)]
  dsimp only
  generalize { s with consumed := s.consumed + n } = u at hcount honly hfits hat ⊢
  have hgrow : ∀ v, RecvSide 0 v → RecvOnly s v → v.CreditFits 0 →
      RecvSide 0 v.growConnectionWindow ∧ RecvOnly s v.growConnectionWindow := fun v hv hv' hv'' =>
    ⟨hv.growConnectionWindow hv'', hv'.trans (RecvOnly.growConnectionWindow v)⟩
  split
  · exact hgrow u hcount honly hfits
  · rename_i r hr
    have hok := hcount.sides id r hr
    rw [addU64_eq (hok.read_le.trans (hok.high_le.trans hok.max_le)) hok.window_le]
    split
    · rename_i hnew
      have hset := hcount.setRecv hr
        { r with max_data := r.buf.read + r.window, max_data_pending := true }
        (hok.raise _ rfl hnew.2.2.1.le
          (hat r hr hnew.1 hnew.2.2.1 hnew.2.2.2) rfl rfl rfl hok.stop_le)
        rfl rfl
      have ha := accounts_setRecv u id
        { r with max_data := r.buf.read + r.window, max_data_pending := true }
      refine hgrow _ (hset.sendOnly (SendOnly.of_eq rfl rfl)) ((honly.trans
        (RecvOnly.setRecv u id _)).trans ⟨rfl, fun _ => rfl, fun _ => rfl, rfl, rfl⟩) ?_
      exact creditFits_congr (s := u) ha hfits
    · exact hgrow u hcount honly hfits

/-- There is room for the credit of the connection and of the stream when `n` bytes of it are
read. -/
def Room (s : Streams) (r : Recv) (n : ℕ) : Prop := s.CreditFits n ∧ r.CreditFits n

instance (s : Streams) (r : Recv) (n : ℕ) : Decidable (s.Room r n) :=
  inferInstanceAs (Decidable (_ ∧ _))

lemma Sound.consume (h : Sound rest log s) (hr : s.recvOf id = some r) (n : ℕ) (hok : RecvOk r')
    (hhigh : r'.high = r.high) (hconsumed : r'.consumed = r.consumed + n) (hroom : s.CreditFits n)
    (hroom' : r'.CreditFits 0) : Sound rest log ((s.setRecv id r').afterConsume id n) := by
  have ha := accounts_setRecv s id r'
  obtain ⟨htotal, hc, hlimit⟩ := recvCounts_eq ha
  have howed : RecvSide n (s.setRecv id r') :=
    h.recv.update hr hok (by rw [htotal, hhigh]) (by rw [hc, hconsumed]; omega)
      (htotal.trans_le h.recv.le) hlimit rfl (congrArg (·.forgotten) ha)
  obtain ⟨hside, honly⟩ := afterConsume_spec howed id
    (creditFits_congr ha hroom) fun y hy => by
      rw [recvOf_setRecv hr, if_pos rfl, Option.some.injEq] at hy
      exact hy ▸ hroom'
  exact h.recvOnly ((RecvOnly.setRecv s id r').trans honly) hside

lemma Sound.drain (h : Sound [] log s) (id : ℕ) (hroom : ∀ r, s.recvOf id = some r →
    r.discard = true → r.state = .open → s.Room r r.buf.discard.1) : Sound [] log (s.drain id) := by
  rw [Streams.drain]
  split
  · exact h
  rename_i r hr
  split
  · exact h
  rename_i hopen
  simp only [Bool.or_eq_true, Bool.not_eq_true', decide_eq_true_eq, not_or, Bool.not_eq_false,
    not_not] at hopen
  obtain ⟨hconn, hstream⟩ := hroom r hr hopen.1 hopen.2
  rw [Reassembler.discard_eq] at hconn hstream ⊢
  dsimp only at hconn hstream ⊢
  generalize hstate : (if r.final_size = some r.buf.take.2.read then RecvState.fin else r.state) =
    state
  have hread : ∀ y : Recv, y.state = state → y.consumed = y.buf.read := by
    intro y hy
    rw [Recv.consumed, hy, ← hstate, hopen.2]
    split_ifs <;> rfl
  have hold : r.consumed = r.buf.read := by
    rw [Recv.consumed, hopen.2]
  obtain ⟨hok, hsum⟩ := (h.recv.sides id r hr).readInto r.buf.readable
    { r with buf := r.buf.take.2, state := state } rfl rfl rfl rfl rfl rfl
  have hnext := h.consume hr r.buf.take.1.length hok rfl
    (by rw [hread _ rfl, hold, hsum]; rfl) hconn (hstream.read hsum rfl rfl rfl)
  split
  · exact hnext.cleanup id
  · exact hnext

/-! ### The application -/

lemma Opens.fresh (h : s.Opens log) (hnew : ¬s.Opened id) :
    s.streams.get id = none ∧ ∀ offset len fin, StreamFrame.stream id offset len fin ∉ log := by
  refine ⟨?_, fun o l f hin => hnew (h.used id o l f hin)⟩
  have hc : ¬s.contains id = true := fun hc => hnew ((h.ever id).2 (Or.inl hc))
  rw [contains] at hc
  exact Option.isNone_iff_eq_none.1 (by simpa using hc)

lemma Sound.insert (h : Sound rest log s) (hnew : ¬s.Opened id) {st : Stream}
    (hstreams : t.streams = s.streams.insert id st)
    (hsend : ∀ x, st.send = some x → ∃ max ≤ MAX_VARINT, x = Send.new max)
    (hrecv : ∀ r, st.recv = some r → ∃ window ≤ MAX_VARINT, r = Recv.new window)
    (hqueue : t.send_queue = s.send_queue) (hparked : t.parked = s.parked)
    (hsent : t.sent_total = s.sent_total ∧ t.send_max_data = s.send_max_data)
    (hreceived : t.recv_total = s.recv_total ∧ t.consumed = s.consumed ∧
      t.recv_limit = s.recv_limit)
    (hforgotten : t.forgotten = s.forgotten) (hopens : t.Opens log) : Sound rest log t := by
  obtain ⟨hnone, hlog⟩ := h.opens.fresh hnew
  refine ⟨h.send.insert hnone hstreams (fun x hx => ?_) hqueue hparked hsent.1 hsent.2,
    h.recv.insert hnone hstreams
    (fun r hr => ?_) hforgotten hreceived.1 hreceived.2.1 hreceived.2.2,
    hopens⟩
  · obtain ⟨max, hmax, rfl⟩ := hsend x hx
    exact ⟨SendOk.new hmax hlog, rfl, rfl⟩
  · obtain ⟨window, hwindow, rfl⟩ := hrecv r hr
    exact ⟨RecvOk.new hwindow, rfl, rfl⟩

theorem Sound.open (h : Sound [] log s) (bidirectional : Bool) :
    Sound [] log (s.open bidirectional).2 := by
  rw [Streams.open]
  split
  · exact h
  rename_i peer hpeer
  dsimp only
  generalize Kind.of bidirectional = k
  split
  · split
    · exact h.due rfl rfl rfl rfl
    · exact h.due rfl rfl rfl rfl
  rename_i hlimit
  have hid : ¬s.Opened (makeId (s.opened.get k) k s.cfg.client) := by
    rw [Opened, isClientInitiated_makeId, if_pos rfl, indexOf_makeId, kindOf_makeId]
    exact lt_irrefl _
  have hmax := h.opens.peer peer (by rw [hpeer]; rfl)
  refine h.insert hid rfl (fun x hx => ?_) (fun r hr => ?_) rfl rfl ⟨rfl, rfl⟩
    ⟨rfl, rfl, rfl⟩ rfl ?_
  · rw [Option.some.injEq] at hx
    refine ⟨_, ?_, hx.symm⟩
    split
    · exact hmax.2.1
    · exact hmax.2.2
  · simp only at hr
    split at hr
    · rw [Option.some.injEq] at hr
      exact ⟨_, s.cfg.local_le, hr.symm⟩
    · cases hr
  · refine h.opens.insert (c := s.cfg.client) (k := k) (fun j => ?_) (fun k' => ?_) ?_ rfl rfl rfl
      (fun k' => ?_) h.opens.peer_opened rfl h.opens.peer_le rfl
    · rw [contains, get_insert, if_pos rfl]
      split_ifs <;> rfl
    · simp only [if_true, PerKind.get_set]
    · simp only [if_true]
    · simp only [PerKind.get_set]
      split_ifs with hk
      · rw [hk]
        omega
      · exact h.opens.opened k'

theorem Sound.write (h : Sound [] log s) (id : ℕ) (data : List UInt8) (fin : Bool) :
    ∃ res t, s.write id data fin = some (res, t) ∧ Sound [] log t := by
  rw [Streams.write]
  split
  · exact ⟨_, _, rfl, h⟩
  rename_i x hx
  have hok := h.send.sides id x hx
  split
  · exact ⟨_, _, rfl, h⟩
  rename_i hopen
  rw [not_not] at hopen
  dsimp only
  split
  · exact ⟨_, _, rfl, h.setSend hx (by simp)
      (hok.remark rfl rfl rfl rfl (.inl rfl) hok.resting hok.apart) rfl rfl⟩
  obtain ⟨b, hb, hwf, hsent, hnext, hfin⟩ :=
    hok.write hopen (data.take (min data.length (s.cfg.send_buffer - x.buf.buffered)))
  rw [hb]
  refine ⟨_, _, rfl, Sound.schedule ?_ (by simp)⟩
  have hset := hok.setBuf hwf hsent hnext fun _ => hfin
  split_ifs
  · exact h.setSend hx (by simp)
      (hset.remark rfl rfl rfl rfl (.inl rfl) hset.resting hset.apart) rfl rfl
  · -- the end of the stream is written: it was not sent before
    obtain ⟨stream, hwf⟩ := hwf
    have hsending : x.sending = true := by simp [Send.sending, hopen]
    refine h.setSend hx (by simp) ⟨⟨stream, hwf.finish⟩, hok.max_le, hok.below, fun _ y => ?_,
      fun _ offset len fin hin => ?_, by simp, by simp, hok.reset_le, hok.blocked_le,
      by simp [Send.sending], hok.apart⟩ rfl rfl
    · rw [hok.sent hsending y, ← hsent]
      rfl
    · have := hok.out hsending offset len fin hin
      rw [← hnext] at this
      exact this
  · exact h.setSend hx (by simp) hset rfl rfl

theorem Sound.read (h : Sound [] log s) (id n : ℕ) (hroom : ∀ r, s.recvOf id = some r →
    r.state = .open → r.discard = false → s.Room r (r.buf.readInto n).1.length) :
    Sound [] log (s.read id n).2 := by
  rw [Streams.read]
  split
  · exact h
  rename_i r hr
  have hold := h.recv.sides id r hr
  split
  · rename_i c hstate
    refine (h.markRecv hr { r with state := .resetRead c, queued := false } rfl rfl rfl rfl rfl
      hold.stop_le ?_).cleanup id
    rw [Recv.consumed, Recv.consumed, hstate]
  · exact h
  · exact h
  rename_i hstate
  split
  · exact h
  rename_i hdiscard
  obtain ⟨hconn, hstream⟩ := hroom r hr hstate (by simpa using hdiscard)
  dsimp only
  have hconsumed : r.consumed = r.buf.read := by rw [Recv.consumed, hstate]
  generalize hfin : decide (r.final_size = some (r.buf.readInto n).2.read) = fin
  split
  · rename_i hnone
    obtain ⟨hok, hsum⟩ := hold.readInto n { r with buf := (r.buf.readInto n).2, queued := false }
      rfl rfl rfl rfl rfl rfl
    refine h.setRecv hr _ hok rfl ?_
    rw [hconsumed, Recv.consumed]
    simp only [hstate]
    rw [hsum, hnone.1]
    rfl
  · generalize (if (fin || decide ((r.buf.readInto n).2.readable = 0)) = true then false
      else r.queued) = queued
    generalize hafter : (if fin = true then RecvState.fin else r.state) = state
    obtain ⟨hok, hsum⟩ := hold.readInto n
      { r with buf := (r.buf.readInto n).2, state := state, queued := queued } rfl rfl rfl
      rfl rfl rfl
    have hnext := h.consume hr (r.buf.readInto n).1.length hok rfl (by
      rw [hconsumed, ← hsum, Recv.consumed, ← hafter]
      simp only [hstate]
      split_ifs <;> rfl) hconn (hstream.read hsum rfl rfl rfl)
    split
    · exact hnext.cleanup id
    · exact hnext

theorem Sound.reset (h : Sound [] log s) (id error : ℕ)
    (herror : ∀ x, s.sendOf id = some x → x.sending = true → error ≤ MAX_VARINT) :
    Sound [] log (s.reset id error).2 := by
  rw [Streams.reset]
  split
  · exact h
  rename_i x hx
  dsimp only
  split_ifs with hsending
  · refine h.doReset (fun y hy => ?_) (herror x hx hsending)
    rw [hx, Option.some.injEq] at hy
    exact hy ▸ hsending
  · exact h

theorem Sound.stopSending (h : Sound [] log s) (id error : ℕ)
    (hfits : ∀ r, s.recvOf id = some r → r.state = .open → r.discard = false →
      (r.allReceived = false → error ≤ MAX_VARINT) ∧ s.Room r r.buf.discard.1) :
    Sound [] log (s.stopSending id error).2 := by
  rw [Streams.stopSending]
  split
  · exact h
  rename_i r hr
  have hold := h.recv.sides id r hr
  split
  · exact h
  rename_i hopen
  obtain ⟨hstate, hdiscard⟩ := not_or.1 hopen
  obtain ⟨herror, hroom⟩ := hfits r hr (not_not.1 hstate) (by simpa using hdiscard)
  dsimp only
  -- the side that is drained differs in its marks from the one before
  have hdrain : ∀ (r' : Recv) (t : Streams), Sound [] log t → t.recvOf id = some r' → r'.buf =
      r.buf → r'.max_data = r.max_data → r'.final_size = r.final_size → r'.window = r.window →
      t.accounts = s.accounts → Sound [] log (t.drain id) := by
    intro r' t ht hr' hbuf hmax hfinal hwindow ha
    refine ht.drain id fun y hy _ _ => ?_
    obtain rfl : r' = y := Option.some_inj.1 (hr'.symm.trans hy)
    refine ⟨creditFits_congr ha (hbuf ▸ hroom.1), ?_⟩
    rw [Recv.CreditFits, hbuf, hmax, hfinal, hwindow]
    exact hroom.2
  split
  · have hmark := h.markRecv hr { r with discard := true, queued := false } rfl rfl rfl rfl rfl
      hold.stop_le rfl
    refine hdrain { r with discard := true, queued := false } _ hmark ?_ rfl rfl rfl rfl
      (accounts_setRecv s id _)
    exact (recvOf_setRecv hr id).trans (if_pos rfl)
  · rename_i hall
    have hmark := h.markRecv hr
      { r with discard := true, queued := false, stop := some ⟨error, true⟩ } rfl rfl rfl rfl rfl
      (by rintro stop ⟨⟩; exact herror (by simpa using hall)) rfl
    refine hdrain { r with discard := true, queued := false, stop := some ⟨error, true⟩ } _
      (hmark.due rfl rfl rfl rfl) ?_ rfl rfl rfl rfl (accounts_setRecv s id _)
    exact (recvOf_setRecv hr id).trans (if_pos rfl)

/-! ### Frames that arrive -/

section

variable (h : Sound rest log s)
include h

lemma Sound.openNext {k : Kind}
    (hlimit : s.peer_opened.get k < s.max_streams.get k)
    (hle : s.peer_opened.get k < MAX_STREAMS_LIMIT) : Sound rest log (s.openNext k) := by
  have hother : ¬(!s.cfg.client) = s.cfg.client := by cases s.cfg.client <;> simp
  have hid : ¬s.Opened (makeId (s.peer_opened.get k) k (!s.cfg.client)) := by
    rw [Opened, isClientInitiated_makeId, if_neg hother, indexOf_makeId, kindOf_makeId]
    exact lt_irrefl _
  rw [Streams.openNext]
  refine h.insert hid rfl (fun x hx => ?_) (fun r hr => ?_) rfl rfl ⟨rfl, rfl⟩
    ⟨rfl, rfl, rfl⟩ rfl ?_
  · simp only at hx
    split_ifs at hx
    rw [Option.some.injEq] at hx
    refine ⟨_, ?_, hx.symm⟩
    cases hpeer : s.peer with
    | none => exact Nat.zero_le _
    | some p => exact (h.opens.peer p hpeer).1
  · rw [Option.some.injEq] at hr
    refine ⟨_, ?_, hr.symm⟩
    split
    · exact s.cfg.remote_le
    · exact s.cfg.uni_le
  · refine h.opens.insert (c := !s.cfg.client) (k := k) (fun j => ?_) (fun k' => ?_) ?_ rfl rfl rfl
      h.opens.opened (fun k' => ?_) rfl (fun k' => ?_) rfl
    · rw [contains, get_insert, if_neg hother]
      split_ifs <;> rfl
    · simp only [if_neg hother, PerKind.get_set]
    · simp only [if_neg hother]
    · simp only [PerKind.get_set]
      split_ifs with hk
      · rw [hk]
        omega
      · exact h.opens.peer_opened k'
    · simp only [PerKind.get_set]
      split_ifs
      · omega
      · exact h.opens.peer_le k'

lemma Sound.openMany {k : Kind} {n : ℕ} (hlimit : s.peer_opened.get k + n ≤ s.max_streams.get k)
    (hle : s.peer_opened.get k + n ≤ MAX_STREAMS_LIMIT) : Sound rest log (s.openMany k n) := by
  induction n generalizing s with
  | zero => exact h
  | succ n ih =>
    have hnext : (s.openNext k).peer_opened.get k = s.peer_opened.get k + 1 := by
      simp [Streams.openNext]
    refine ih (h.openNext (by omega) (by omega)) ?_ (by omega)
    rw [hnext]
    exact (by omega : s.peer_opened.get k + 1 + n ≤ s.max_streams.get k)

lemma Sound.openRemote {id : ℕ} (hid : id ≤ MAX_VARINT) (ht : s.openRemote id = .ok t) :
    Sound rest log t := by
  rw [Streams.openRemote] at ht
  split_ifs at ht with hlimit
  simp only [Except.ok.injEq] at ht
  subst ht
  have := h.opens.peer_opened (kindOf id)
  have := h.opens.peer_le (kindOf id)
  rw [MAX_VARINT] at hid
  refine h.openMany (by omega) ?_
  rw [indexOf, MAX_STREAMS_LIMIT] at *
  omega

lemma Sound.checkRecv {id : ℕ} {there : Bool} (hid : id ≤ MAX_VARINT)
    (ht : s.checkRecv id = .ok (there, t)) : Sound rest log t := by
  rw [Streams.checkRecv] at ht
  split_ifs at ht
  · simp only [Except.ok.injEq, Prod.mk.injEq] at ht
    exact ht.2 ▸ h
  · cases hopen : s.openRemote id with
    | error e =>
      rw [hopen] at ht
      cases ht
    | ok u =>
      rw [hopen] at ht
      simp only [Except.map, Except.ok.injEq, Prod.mk.injEq] at ht
      exact ht.2 ▸ h.openRemote hid hopen

lemma Sound.checkSend {id : ℕ} {there : Bool} (hid : id ≤ MAX_VARINT)
    (ht : s.checkSend id = .ok (there, t)) : Sound rest log t := by
  rw [Streams.checkSend] at ht
  split_ifs at ht
  · simp only [Except.ok.injEq, Prod.mk.injEq] at ht
    exact ht.2 ▸ h
  · cases hopen : s.openRemote id with
    | error e =>
      rw [hopen] at ht
      cases ht
    | ok u =>
      rw [hopen] at ht
      simp only [Except.map, Except.ok.injEq, Prod.mk.injEq] at ht
      exact ht.2 ▸ h.openRemote hid hopen

lemma Sound.receive (hr : s.recvOf id = some r) (r' : Recv) (hok : RecvOk r')
    (total consumed : ℕ) (htotal : total + r.high = s.recv_total + r'.high)
    (hconsumed : consumed + r.consumed = s.consumed + r'.consumed) (hle : total ≤ s.recv_limit) :
    Sound rest log { s.setRecv id r' with recv_total := total, consumed := consumed } := by
  have ha := accounts_setRecv s id r'
  have hlimit : (s.setRecv id r').recv_limit = s.recv_limit := congrArg (·.recv_limit) ha
  have hside : RecvSide 0 { s.setRecv id r' with recv_total := total, consumed := consumed } :=
    h.recv.update hr hok htotal hconsumed hle hlimit rfl (congrArg (·.forgotten) ha)
  exact h.recvOnly ((RecvOnly.setRecv s id r').trans ⟨rfl, fun _ => rfl, fun _ => rfl, rfl, rfl⟩)
    hside

end

variable {data : List UInt8} {offset : ℕ} {fin : Bool}

lemma received_ok (h : RecvOk r) {buf : Reassembler} (hwf : buf.Wf) (hread : buf.read = r.buf.read)
    (hholds : ∀ x b, Reassembler.Holds buf.pieces x b ↔ Reassembler.Holds r.buf.pieces x b ∨
      (r.buf.read ≤ x ∧ offset ≤ x ∧ data[x - offset]? = some b))
    (hsize : ∀ fs ∈ r.final_size,
    offset + data.length ≤ fs ∧ (fin = true → offset + data.length = fs))
    (hbelow : r.final_size = none → fin = true → r.high ≤ offset + data.length)
    (hmax : offset + data.length ≤ r.max_data) :
    RecvOk (r.grow buf (offset + data.length) fin) := by
  refine ⟨hwf, fun x b hx => ?_, ?_, max_le h.high_le hmax, fun size hsize' => ?_, h.max_le,
    h.window_le, h.stop_le⟩
  · rcases (hholds x b).1 hx with hx | ⟨-, h1, h2⟩
    · exact lt_of_lt_of_le (h.held x b hx) (le_max_left _ _)
    · have := Reassembler.lt_of_getElem? h2
      exact lt_of_lt_of_le (by omega) (le_max_right r.high (offset + data.length))
  · exact (hread.trans_le h.read_le).trans (le_max_left _ _)
  · rw [Recv.grow] at hsize' ⊢
    cases hfin : fin with
    | true =>
      rw [hfin, if_pos rfl] at hsize'
      obtain rfl : offset + data.length = size := by simpa using hsize'
      refine max_le ?_ le_rfl
      cases hfs : r.final_size with
      | none => exact hbelow hfs hfin
      | some fs => exact (h.final fs hfs).trans ((hsize fs hfs).2 hfin).ge
    | false =>
      rw [hfin, if_neg (by simp)] at hsize'
      exact max_le (h.final size hsize') (hsize size hsize').1

lemma Sound.announce (h : Sound [] log s) (hr : s.recvOf id = some r)
    (hroom : r.discard = true → r.state = .open → s.Room r r.buf.discard.1) :
    Sound [] log (s.announce id r) := by
  rw [Streams.announce]
  split
  · refine h.drain id fun y hy => ?_
    obtain rfl : r = y := Option.some_inj.1 (hr.symm.trans hy)
    exact hroom
  split
  · exact (h.markRecv hr { r with queued := true } rfl rfl rfl rfl rfl
      (h.recv.sides id r hr).stop_le rfl).due rfl rfl rfl rfl
  · exact h

/-- There is room for the credit when the frame is taken: of a stream that is thrown away, of one
that was reset. -/
def FrameFits (s : Streams) : Frame → Prop
  | .stream id offset data fin =>
    ∀ p ∈ (s.checkRecv id).toOption, ∀ r ∈ p.2.recvOf id, r.state = .open → r.discard = true →
      ∀ buf ∈ (r.buf.insert offset data (r.max_data - r.buf.read)).toOption,
        p.2.Room (r.grow buf (offset + data.length) fin) buf.discard.1
  | .resetStream id _ final_size =>
    ∀ p ∈ (s.checkRecv id).toOption, ∀ r ∈ p.2.recvOf id, r.state = .open →
      p.2.CreditFits (final_size - r.buf.read)
  | _ => True

instance (s : Streams) : ∀ f, Decidable (s.FrameFits f)
  | .stream .. | .resetStream .. => by unfold FrameFits; infer_instance
  | .padding _ | .ping | .ack _ | .stopSending .. | .crypto .. | .newToken _ | .maxData _
  | .maxStreamData .. | .maxStreams .. | .dataBlocked _ | .streamDataBlocked .. | .streamsBlocked ..
  | .newConnectionId .. | .retireConnectionId _ | .pathChallenge _ | .pathResponse _
  | .connectionClose .. | .handshakeDone => .isTrue trivial

lemma Sound.takeStream (h : Sound [] log s) (hr : s.recvOf id = some r) (hopen : r.state = .open)
    (hend : offset + data.length ≤ MAX_VARINT)
    (hroom : r.discard = true → ∀ buf, r.buf.insert offset data (r.max_data - r.buf.read) =
      .ok buf → s.Room (r.grow buf (offset + data.length) fin) buf.discard.1)
    (ht : s.takeStream id r offset data fin = .ok t) : Sound [] log t := by
  have hold := h.recv.sides id r hr
  rw [Streams.takeStream] at ht
  simp only [addU64_eq (by omega : offset ≤ MAX_VARINT) (by omega : data.length ≤ MAX_VARINT),
    addU64_eq (h.recv.le.trans h.recv.limit_le)
      (by omega : offset + data.length - r.high ≤ MAX_VARINT)] at ht
  split at ht
  · cases ht
  rename_i hsize
  split at ht
  · cases ht
  rename_i hbelow
  split at ht
  · cases ht
  rename_i hmax
  split at ht
  · cases ht
  rename_i hlimit
  have hins := Reassembler.insert_spec hold.wf offset data (r.max_data - r.buf.read)
  generalize r.buf.insert offset data (r.max_data - r.buf.read) = res at hins ht hroom
  cases hins with
  | exceeded | inconsistent => cases ht
  | ok buf hwf hread hholds =>
    dsimp only at ht
    have hsize' : ∀ fs ∈ r.final_size,
        offset + data.length ≤ fs ∧ (fin = true → offset + data.length = fs) := by
      intro fs hfs
      rw [Option.mem_def.1 hfs] at hsize
      simp only [Option.any_some, Bool.or_eq_true, decide_eq_true_eq, Bool.and_eq_true, not_or,
        not_and, not_not] at hsize
      exact ⟨not_lt.1 hsize.1, hsize.2⟩
    have hok := received_ok hold hwf hread hholds hsize'
      (fun hnone hfin => not_lt.1 fun hlt => hbelow ⟨hnone, hfin, hlt⟩) (not_lt.1 hmax)
    have hconsumed : (r.grow buf (offset + data.length) fin).consumed = r.consumed := by
      rw [Recv.consumed, Recv.consumed, hopen, Recv.grow, hopen]
      exact hread
    have hhigh : (r.grow buf (offset + data.length) fin).high = max r.high (offset + data.length) :=
      rfl
    have ha := accounts_setRecv s id (r.grow buf (offset + data.length) fin)
    have hsame : (s.setRecv id (r.grow buf (offset + data.length) fin)).consumed = s.consumed :=
      congrArg (·.consumed) ha
    have hnext := h.receive hr _ hok (s.recv_total + (offset + data.length - r.high))
      (s.setRecv id (r.grow buf (offset + data.length) fin)).consumed (by omega)
      (by rw [hsame, hconsumed]) (not_lt.1 hlimit)
    simp only [Except.ok.injEq] at ht
    refine ht ▸ hnext.announce ?_ fun hdiscard _ => ?_
    · exact (recvOf_setRecv hr id).trans (if_pos rfl)
    · obtain ⟨hconn, hstream⟩ := hroom hdiscard buf rfl
      have hfits := creditFits_congr ha hconn
      exact ⟨hfits, hstream⟩

theorem Sound.onStream (h : Sound [] log s) {id : ℕ} (hid : id ≤ MAX_VARINT)
    (hend : offset + data.length ≤ MAX_VARINT) (hfits : s.FrameFits (.stream id offset data fin))
    (ht : s.onStream id offset data fin = .ok t) : Sound [] log t := by
  rw [Streams.onStream] at ht
  obtain ⟨⟨there, u⟩, hcheck, ht⟩ := except_bind_eq_ok.1 ht
  have hu := h.checkRecv hid hcheck
  dsimp only at ht
  split at ht
  · cases ht
    exact hu
  split at ht
  · cases ht
    exact hu
  rename_i r hr
  split at ht
  · cases ht
    exact hu
  · rename_i hopen
    refine hu.takeStream hr (not_not.1 hopen) hend (fun hdiscard buf hbuf => ?_) ht
    exact hfits (there, u) (by rw [hcheck]; rfl) r hr (not_not.1 hopen) hdiscard buf
      (by rw [hbuf]; rfl)

variable {error : ℕ}

lemma Sound.takeReset (h : Sound [] log s) (hr : s.recvOf id = some r) {final_size : ℕ}
    (hfinal : final_size ≤ MAX_VARINT)
    (hroom : r.state = .open → s.CreditFits (final_size - r.buf.read))
    (ht : s.takeReset id r error final_size = .ok t) : Sound [] log t := by
  have hold := h.recv.sides id r hr
  have htotal := h.recv.le.trans h.recv.limit_le
  have hcount := h.recv.consumed_le
  rw [Streams.takeReset] at ht
  simp only [addU64_eq htotal (by omega : final_size - r.high ≤ MAX_VARINT),
    addU64_eq (by omega : s.consumed ≤ MAX_VARINT)
      (by omega : final_size - r.buf.read ≤ MAX_VARINT)] at ht
  split at ht
  · cases ht
  rename_i hsize
  split at ht
  · cases ht
  rename_i hmax
  split at ht
  · cases ht
  rename_i hlimit
  split at ht
  · cases ht
    exact h
  rename_i hopen
  rw [not_not] at hopen
  rw [not_or, not_lt] at hsize
  have hread := hold.read_le
  have hok : RecvOk (r.giveUp error final_size) := by
    refine ⟨Reassembler.wf_new, ?_, Nat.zero_le _, not_lt.1 hmax, fun size hsize' => ?_,
      hold.max_le, hold.window_le, by simp [Recv.giveUp]⟩
    · rintro x b ⟨e, he, -⟩
      simp [Recv.giveUp, Reassembler.new] at he
    · obtain rfl : final_size = size := by simpa [Recv.giveUp] using hsize'
      exact le_rfl
  have hhigh : (r.giveUp error final_size).high = final_size := rfl
  have hconsumed : (r.giveUp error final_size).consumed = final_size := by
    rw [Recv.consumed, Recv.giveUp]
    dsimp only
    split_ifs <;> rfl
  have hold' : r.consumed = r.buf.read := by rw [Recv.consumed, hopen]
  have hnext := h.receive hr _ hok (s.recv_total + (final_size - r.high))
    (s.consumed + (final_size - r.buf.read)) (by omega) (by omega) (not_lt.1 hlimit)
  have ha := accounts_setRecv s id (r.giveUp error final_size)
  have hfits : CreditFits { s.setRecv id (r.giveUp error final_size) with
      recv_total := s.recv_total + (final_size - r.high)
      consumed := s.consumed + (final_size - r.buf.read) } 0 := by
    have hlimit' : (s.setRecv id (r.giveUp error final_size)).recv_limit = s.recv_limit :=
      congrArg (·.recv_limit) ha
    have hcfg : (s.setRecv id (r.giveUp error final_size)).cfg = s.cfg := congrArg (·.cfg) ha
    rw [CreditFits]
    simp only [hlimit', hcfg]
    exact hroom hopen
  generalize { s.setRecv id (r.giveUp error final_size) with
    recv_total := s.recv_total + (final_size - r.high)
    consumed := s.consumed + (final_size - r.buf.read) } = u at hnext hfits ht
  have hevent : Sound [] log (if (!r.discard && !r.queued) = true then
        u.pushEvent (.readable id) else u) ∧
      CreditFits (if (!r.discard && !r.queued) = true then u.pushEvent (.readable id) else u)
      0 := by
    split
    · exact ⟨hnext.due rfl rfl rfl rfl, hfits⟩
    · exact ⟨hnext, hfits⟩
  generalize (if (!r.discard && !r.queued) = true then u.pushEvent (.readable id) else u) = v
    at hevent ht
  have hgrown := hevent.1.recvOnly (RecvOnly.growConnectionWindow v)
    (hevent.1.recv.growConnectionWindow hevent.2)
  simp only [Except.ok.injEq] at ht
  split at ht
  · exact ht ▸ hgrown
  · exact ht ▸ hgrown.cleanup id

theorem Sound.onResetStream (h : Sound [] log s) {id final_size : ℕ} (hid : id ≤ MAX_VARINT)
    (hfinal : final_size ≤ MAX_VARINT) (hfits : s.FrameFits (.resetStream id error final_size))
    (ht : s.onResetStream id error final_size = .ok t) : Sound [] log t := by
  rw [Streams.onResetStream] at ht
  obtain ⟨⟨there, u⟩, hcheck, ht⟩ := except_bind_eq_ok.1 ht
  have hu := h.checkRecv hid hcheck
  dsimp only at ht
  split at ht
  · cases ht
    exact hu
  split at ht
  · cases ht
    exact hu
  · rename_i r hr
    exact hu.takeReset hr hfinal (hfits (there, u) (by rw [hcheck]; rfl) r hr) ht

lemma Sound.markSend (h : Sound rest log s) (hx : s.sendOf id = some x) (hid : id ∉ rest)
    (x' : Send)
    (hbuf : x'.buf = x.buf) (hmax : x'.max_data = x.max_data) (hstate : x'.state = x.state)
    (hreset : x'.reset = x.reset) (hblocked : x'.blocked_sent = x.blocked_sent)
    (hq : x'.queued = x.queued) (hp : x'.parked = x.parked) : Sound rest log (s.setSend id x') := by
  have hok := h.send.sides id x hx
  refine h.setSend hx hid (hok.remark hbuf hmax hstate hreset (.inl hblocked) (fun hrest => ?_) ?_)
    hq hp
  · rw [hq]
    refine hok.resting ?_
    rw [← hrest, Send.sending, Send.sending, hstate]
  · rw [hq, hp]
    exact hok.apart

theorem Sound.onStopSending (h : Sound [] log s) {id : ℕ} (hid : id ≤ MAX_VARINT)
    (herror : error ≤ MAX_VARINT) (ht : s.onStopSending id error = .ok t) : Sound [] log t := by
  rw [Streams.onStopSending] at ht
  obtain ⟨⟨there, u⟩, hcheck, ht⟩ := except_bind_eq_ok.1 ht
  have hu := h.checkSend hid hcheck
  dsimp only at ht
  split at ht
  · cases ht
    exact hu
  split at ht
  · cases ht
    exact hu
  rename_i x hx
  split at ht
  · rename_i hsending
    cases ht
    have hmark := hu.markSend hx (by simp)
      { x with stopped := some error } rfl rfl rfl rfl rfl rfl rfl
    refine (hmark.due (t := (u.setSend id { x with stopped := some error }).pushEvent
      (.stopped id error)) rfl rfl rfl rfl).doReset (fun y hy => ?_) herror
    have hat : (u.setSend id { x with stopped := some error }).sendOf id = some y := hy
    rw [sendOf_setSend hx, if_pos rfl, Option.some.injEq] at hat
    exact hat ▸ hsending
  · cases ht
    exact hu

lemma Sound.unparkAll {ids : List ℕ} (hids : ids.Nodup) (h : Sound ids log s) :
    Sound [] log (ids.foldl Streams.unpark s) := by
  induction ids generalizing s with
  | nil => exact h
  | cons id ids ih =>
    obtain ⟨hid, hids⟩ := nodup_cons.1 hids
    refine ih hids (h.sendOnly ?_ (h.send.unpark hid))
    rw [Streams.unpark]
    split
    · exact (SendOnly.setSend s id _).trans (SendOnly.schedule _ id)
    · exact SendOnly.schedule s id

theorem Sound.onMaxData (h : Sound [] log s) {max : ℕ} (hmax : max ≤ MAX_VARINT) :
    Sound [] log (s.onMaxData max) := by
  rw [Streams.onMaxData]
  split
  · rename_i hlt
    refine Sound.unparkAll ?_ ⟨?_, ?_, ?_⟩
    · exact s.parked.sorted.imp (fun hab => hab.ne) |>.map Prod.fst fun _ _ hab => hab
    · have hmem : ∀ id, id ∈ s.parked.entries.map Prod.fst ↔ (s.parked.get id).isSome = true := by
        intro id
        rw [Option.isSome_iff_exists]
        simp only [get_eq_some, mem_def, mem_map]
        constructor
        · rintro ⟨e, he, rfl⟩
          exact ⟨e.2, he⟩
        · rintro ⟨v, hv⟩
          exact ⟨_, hv, rfl⟩
      refine ⟨h.send.sides, h.send.nodup, h.send.queue, fun id => ?_, fun id _ => rfl, h.send.total,
        h.send.le.trans hlt.le, hmax⟩
      have hall := h.send.parked id
      simp only [not_mem_nil, or_false] at hall
      simp only [hmem, get_empty, Option.isSome_none, Bool.false_eq_true, false_or]
      exact hall
    · exact ⟨h.recv.sides, h.recv.gone, h.recv.total, h.recv.consumed, h.recv.le, h.recv.limit_le⟩
    · exact h.opens.congr (fun _ => rfl) rfl h.opens.used
  · exact h

theorem Sound.onMaxStreamData (h : Sound [] log s) {id max : ℕ} (hid : id ≤ MAX_VARINT)
    (hmax : max ≤ MAX_VARINT) (ht : s.onMaxStreamData id max = .ok t) : Sound [] log t := by
  rw [Streams.onMaxStreamData] at ht
  obtain ⟨⟨there, u⟩, hcheck, ht⟩ := except_bind_eq_ok.1 ht
  have hu := h.checkSend hid hcheck
  dsimp only at ht
  split at ht
  · cases ht
    exact hu
  split at ht
  · cases ht
    exact hu
  rename_i x hx
  split at ht
  · rename_i hlt
    cases ht
    have hok := hu.send.sides id x hx
    have hraised : SendOk log id { x with max_data := max, blocked_pending := false } :=
      ⟨hok.wf, hmax, fun y hy => (hok.below y hy).trans hlt, hok.sent, hok.out,
        hok.unfinished, hok.reset, hok.reset_le, hok.blocked_le, hok.resting, hok.apart⟩
    exact (hu.setSend hx (by simp) hraised rfl rfl).schedule (by simp)
  · cases ht
    exact hu

theorem Sound.onMaxStreams (h : Sound [] log s) (bidirectional : Bool) {max : ℕ}
    (hmax : max ≤ MAX_STREAMS_LIMIT) : Sound [] log (s.onMaxStreams bidirectional max) := by
  rw [Streams.onMaxStreams]
  dsimp only
  generalize Kind.of bidirectional = k
  split
  · rename_i hlt
    have hraised : Sound [] log { s with peer_max_streams := s.peer_max_streams.set k max } := by
      refine ⟨⟨h.send.sides, h.send.nodup, h.send.queue, h.send.parked, h.send.waiting,
        h.send.total,
        h.send.le, h.send.max_le⟩, ⟨h.recv.sides, h.recv.gone, h.recv.total, h.recv.consumed,
        h.recv.le, h.recv.limit_le⟩, ⟨h.opens.ever, h.opens.nodup, h.opens.apart, h.opens.used,
        fun k' => ?_, h.opens.peer_opened, fun k' => ?_, h.opens.peer_le, h.opens.max_le,
          h.opens.peer⟩⟩
      · simp only [PerKind.get_set]
        split_ifs with hk
        · exact hk ▸ (h.opens.opened k).trans hlt.le
        · exact h.opens.opened k'
      · simp only [PerKind.get_set]
        split_ifs
        · exact hmax
        · exact h.opens.streams_le k'
    split
    · exact hraised.due rfl rfl rfl rfl
    · exact hraised
  · exact h

theorem Sound.onFrame (h : Sound [] log s) {f : Frame} (hf : Accepted f) (hfits : s.FrameFits f)
    (ht : s.onFrame f = .ok t) : Sound [] log t := by
  obtain ⟨hn, hl⟩ := hf
  cases f with
  | stream id offset data fin => exact h.onStream (hn id (by simp [Frame.numbers])) hl hfits ht
  | resetStream id error final_size =>
    exact h.onResetStream (hn id (by simp [Frame.numbers]))
      (hn final_size (by simp [Frame.numbers])) hfits ht
  | stopSending id error =>
    exact h.onStopSending (hn id (by simp [Frame.numbers])) (hn error (by simp [Frame.numbers])) ht
  | maxData max =>
    cases ht
    exact h.onMaxData (hn max (by simp [Frame.numbers]))
  | maxStreamData id max =>
    exact h.onMaxStreamData (hn id (by simp [Frame.numbers])) (hn max (by simp [Frame.numbers])) ht
  | maxStreams bidirectional max =>
    cases ht
    exact h.onMaxStreams bidirectional hl
  | streamDataBlocked id limit =>
    rw [Streams.onFrame] at ht
    cases hcheck : s.checkRecv id with
    | error e =>
      rw [hcheck] at ht
      cases ht
    | ok p =>
      rw [hcheck] at ht
      cases ht
      exact h.checkRecv (hn id (by simp [Frame.numbers])) hcheck
  | _ =>
    cases ht
    exact h

/-! ### Frames to send -/

variable {w w' : Writer} {budget : ℕ}

/-- Frames of no stream data were written: the accounting stays. -/
def Wrote (w w' : Writer) : Prop :=
  ∀ (log : List StreamFrame) (s : Streams), Sound [] (log ++ w.sent) s → Sound [] (log ++ w'.sent) s

lemma Wrote.refl (w : Writer) : Wrote w w := fun _ _ h => h

lemma Wrote.trans {w'' : Writer} (h : Wrote w w') (h' : Wrote w' w'') : Wrote w w'' :=
  fun log s hs => h' log s (h log s hs)

lemma exists_lens (vs : List ℕ) (h : ∀ v ∈ vs, v ≤ MAX_VARINT) : ∃ n, Wire.lens vs = some n := by
  induction vs with
  | nil => exact ⟨0, rfl⟩
  | cons v vs ih =>
    obtain ⟨hv, hvs⟩ := forall_mem_cons.1 h
    obtain ⟨len, -, hlen, -, -⟩ := Wire.exists_putVarint hv
    obtain ⟨n, hn⟩ := ih hvs
    obtain ⟨lens, hlens, -⟩ := Option.map_eq_some_iff.1 hn
    exact ⟨(len :: lens).sum, by simp [Wire.lens, hlen, hlens]⟩

lemma Wrote.put (w : Writer) (budget : ℕ) {f : Frame} (record : StreamFrame) (vs : List ℕ)
    (hlen : f.len = (Wire.lens vs).map (1 + ·)) (hvs : ∀ v ∈ vs, v ≤ MAX_VARINT)
    (hf : ∀ id offset len fin, record ≠ .stream id offset len fin) :
    ∃ written w', w.put budget f record = some (written, w') ∧ Wrote w w' := by
  obtain ⟨n, hn⟩ := exists_lens vs hvs
  rw [hn, Option.map_some] at hlen
  have hput : w.put budget f record = if w.used + (1 + n) > budget then some (false, w)
      else some (true, ⟨w.used + (1 + n), w.out ++ [f], w.sent ++ [record]⟩) := by
    rw [Writer.put, hlen]
    rfl
  rw [hput]
  split
  · exact ⟨_, _, rfl, Wrote.refl w⟩
  · refine ⟨_, _, rfl, fun log s h => ?_⟩
    rw [← append_assoc]
    exact ⟨h.send.append hf, h.recv, h.opens.append fun id o l b heq => absurd heq (hf id o l b)⟩

/-- A sending side with other marks of what is due. -/
structure SendDue (x y : Send) : Prop where
  buf : y.buf = x.buf
  max_data : y.max_data = x.max_data
  state : y.state = x.state
  blocked : y.blocked_sent = x.blocked_sent
  queued : y.queued = x.queued
  parked : y.parked = x.parked
  reset : y.reset.map (fun r => (r.error, r.final_size)) = x.reset.map fun r =>
  (r.error, r.final_size)

lemma SendDue.refl (x : Send) : SendDue x x := ⟨rfl, rfl, rfl, rfl, rfl, rfl, rfl⟩

lemma SendDue.trans {y z : Send} (h : SendDue x y) (h' : SendDue y z) : SendDue x z :=
  ⟨h'.buf.trans h.buf, h'.max_data.trans h.max_data, h'.state.trans h.state,
    h'.blocked.trans h.blocked, h'.queued.trans h.queued, h'.parked.trans h.parked,
    h'.reset.trans h.reset⟩

lemma SendDue.ok (hy : SendDue x x') (hok : SendOk log id x) : SendOk log id x' := by
  have hsending : x'.sending = x.sending := by rw [Send.sending, hy.state, Send.sending]
  refine ⟨hy.buf ▸ hok.wf, hy.max_data ▸ hok.max_le, hy.max_data ▸ hok.below,
    by rw [hsending, hy.buf]; exact hok.sent, by rw [hsending, hy.buf]; exact hok.out,
    by rw [hy.state, hy.buf]; exact hok.unfinished, fun hreset => ?_, fun r' hr' => ?_,
    hy.blocked ▸ hok.blocked_le, by rw [hsending, hy.queued]; exact hok.resting,
    by rw [hy.queued, hy.parked]; exact hok.apart⟩
  · have hsome := congrArg Option.isSome hy.reset
    rw [Option.isSome_map, Option.isSome_map] at hsome
    rw [hsome]
    exact hok.reset (hy.state ▸ hreset)
  · have hmap := hy.reset
    rw [Option.mem_def.1 hr', Option.map_some, eq_comm, Option.map_eq_some_iff] at hmap
    obtain ⟨r, hr, heq⟩ := hmap
    have hle := hok.reset_le r hr
    simp only [Prod.mk.injEq] at heq
    rwa [heq.1, heq.2] at hle

lemma Sound.sendDue (h : Sound [] log s) (hx : s.sendOf id = some x) (x' : Send)
    (hy : SendDue x x') : Sound [] log (s.setSend id x') :=
  h.setSend hx (by simp) (hy.ok (h.send.sides id x hx)) hy.queued hy.parked

lemma writeReset_spec (hok : SendOk log id x) (hid : id ≤ MAX_VARINT) (budget : ℕ) (w : Writer) :
    ∃ y w' more, x.writeReset id budget w = some (y, w', more) ∧ SendDue x y ∧ Wrote w w' := by
  rw [Send.writeReset]
  split
  · rename_i r hr
    split
    · have hle := hok.reset_le r hr
      obtain ⟨written, w', hput, hw⟩ := Wrote.put w budget
        (f := .resetStream id r.error r.final_size) (.resetStream id r.error r.final_size)
        [id, r.error, r.final_size] rfl (by simp [hid, hle]) (by simp)
      rw [hput]
      refine ⟨_, _, _, rfl, ?_, hw⟩
      split
      · exact ⟨rfl, rfl, rfl, rfl, rfl, rfl, by rw [hr]; rfl⟩
      · exact SendDue.refl x
    · exact ⟨_, _, _, rfl, SendDue.refl x, Wrote.refl w⟩
  · exact ⟨_, _, _, rfl, SendDue.refl x, Wrote.refl w⟩

lemma writeBlocked_spec (hok : SendOk log id x) (hid : id ≤ MAX_VARINT) (budget : ℕ) (w : Writer) :
    ∃ y w' more, x.writeBlocked id budget w = some (y, w', more) ∧ SendDue x y ∧ Wrote w w' := by
  rw [Send.writeBlocked]
  split
  · have hle : x.blocked_sent.getD x.max_data ≤ MAX_VARINT := by
      cases hb : x.blocked_sent with
      | none => exact hok.max_le
      | some n => exact hok.blocked_le n hb
    obtain ⟨written, w', hput, hw⟩ := Wrote.put w budget
      (f := .streamDataBlocked id (x.blocked_sent.getD x.max_data))
      (.streamDataBlocked id (x.blocked_sent.getD x.max_data))
      [id, x.blocked_sent.getD x.max_data] rfl (by simp [hid, hle]) (by simp)
    dsimp only
    rw [hput]
    refine ⟨_, _, _, rfl, ?_, hw⟩
    split
    · exact ⟨rfl, rfl, rfl, rfl, rfl, rfl, rfl⟩
    · exact SendDue.refl x
  · exact ⟨_, _, _, rfl, SendDue.refl x, Wrote.refl w⟩

/-- A receiving side with other marks of what is due. -/
structure RecvDue (r r' : Recv) : Prop where
  buf : r'.buf = r.buf
  max_data : r'.max_data = r.max_data
  high : r'.high = r.high
  final_size : r'.final_size = r.final_size
  state : r'.state = r.state
  window : r'.window = r.window
  stop : ∀ stop ∈ r'.stop, ∃ stop' ∈ r.stop, stop'.error = stop.error

lemma RecvDue.refl (r : Recv) : RecvDue r r :=
  ⟨rfl, rfl, rfl, rfl, rfl, rfl, fun _ h => ⟨_, h, rfl⟩⟩

lemma RecvDue.trans {r'' : Recv} (h : RecvDue r r') (h' : RecvDue r' r'') : RecvDue r r'' := by
  refine ⟨h'.buf.trans h.buf, h'.max_data.trans h.max_data, h'.high.trans h.high,
    h'.final_size.trans h.final_size, h'.state.trans h.state, h'.window.trans h.window,
    fun stop hstop => ?_⟩
  obtain ⟨stop', hstop', heq⟩ := h'.stop stop hstop
  obtain ⟨stop'', hstop'', heq'⟩ := h.stop stop' hstop'
  exact ⟨stop'', hstop'', heq'.trans heq⟩

lemma RecvDue.stop_le (hd : RecvDue r r') (hok : RecvOk r) :
    ∀ stop ∈ r'.stop, stop.error ≤ MAX_VARINT := by
  intro stop hstop
  obtain ⟨stop', hstop', heq⟩ := hd.stop stop hstop
  exact heq ▸ hok.stop_le stop' hstop'

lemma RecvDue.ok (hd : RecvDue r r') (hok : RecvOk r) : RecvOk r' :=
  hok.raise r' hd.buf hd.max_data.ge
    (hd.max_data.trans_le hok.max_le) hd.high hd.final_size hd.window (hd.stop_le hok)

lemma Sound.recvDue (h : Sound [] log s) (hr : s.recvOf id = some r) (r' : Recv)
    (hd : RecvDue r r') : Sound [] log (s.setRecv id r') := by
  refine h.setRecv hr r' (hd.ok (h.recv.sides id r hr)) hd.high ?_
  rw [Recv.consumed, Recv.consumed, hd.state, hd.high, hd.buf]

lemma writeStop_spec (hok : RecvOk r) {id : ℕ} (hid : id ≤ MAX_VARINT) (budget : ℕ) (w : Writer) :
    ∃ r' w' more, r.writeStop id budget w = some (r', w', more) ∧ RecvDue r r' ∧ Wrote w w' := by
  rw [Recv.writeStop]
  split
  · rename_i stop hstop
    split
    · have hle := hok.stop_le stop hstop
      obtain ⟨written, w', hput, hw⟩ := Wrote.put w budget (f := .stopSending id stop.error)
        (.stopSending id stop.error) [id, stop.error] rfl (by simp [hid, hle]) (by simp)
      rw [hput]
      refine ⟨_, _, _, rfl, ?_, hw⟩
      split
      · refine ⟨rfl, rfl, rfl, rfl, rfl, rfl, ?_⟩
        rintro stop' ⟨⟩
        exact ⟨stop, hstop, rfl⟩
      · exact RecvDue.refl r
    · exact ⟨_, _, _, rfl, RecvDue.refl r, Wrote.refl w⟩
  · exact ⟨_, _, _, rfl, RecvDue.refl r, Wrote.refl w⟩

lemma writeMaxStreamData_spec (hok : RecvOk r) {id : ℕ} (hid : id ≤ MAX_VARINT) (budget : ℕ)
    (w : Writer) :
    ∃ r' w' more, r.writeMaxData id budget w = some (r', w', more) ∧ RecvDue r r' ∧ Wrote w w' := by
  rw [Recv.writeMaxData]
  split
  · obtain ⟨written, w', hput, hw⟩ := Wrote.put w budget (f := .maxStreamData id r.max_data)
      (.maxStreamData id r.max_data) [id, r.max_data] rfl (by simp [hid, hok.max_le])
      (by simp)
    rw [hput]
    refine ⟨_, _, _, rfl, ?_, hw⟩
    split
    · exact ⟨rfl, rfl, rfl, rfl, rfl, rfl, fun _ h => ⟨_, h, rfl⟩⟩
    · exact RecvDue.refl r
  · exact ⟨_, _, _, rfl, RecvDue.refl r, Wrote.refl w⟩

def Written (log : List StreamFrame) (p : Streams × Writer) : Prop := Sound [] (log ++ p.2.sent) p.1

/-- Some frames are written without a panic, and the accounting stays. -/
def Writes (log : List StreamFrame) (o : Option (Streams × Writer)) : Prop :=
  ∃ q, o = some q ∧ Written log q

variable {p : Streams × Writer}

lemma Writes.mark (h : Written log (s, w)) {f : Frame} {record : StreamFrame} {v : ℕ}
    (hlen : f.len = (Wire.lens [v]).map (1 + ·)) (hv : v ≤ MAX_VARINT)
    (hf : ∀ id offset len fin, record ≠ .stream id offset len fin) (ht : Written log (t, w)) :
    Writes log (w.put budget f record >>= fun p => some (if p.1 = true then t else s, p.2)) := by
  obtain ⟨written, w', hput, hw⟩ := Wrote.put w budget record [v] hlen (by simpa using hv) hf
  rw [hput]
  refine ⟨_, rfl, ?_⟩
  dsimp only
  split
  · exact hw log t ht
  · exact hw log s h

variable (budget)

lemma writes_writeMaxData (h : Written log p) : Writes log (writeMaxData budget p) := by
  obtain ⟨s, w⟩ := p
  rw [writeMaxData]
  split
  · exact Writes.mark h rfl h.recv.limit_le (by simp) (h.due rfl rfl rfl rfl)
  · exact ⟨_, rfl, h⟩

lemma writes_writeMaxStreams (h : Written log p) (k : Kind) :
    Writes log (writeMaxStreams budget p k) := by
  obtain ⟨s, w⟩ := p
  rw [writeMaxStreams]
  dsimp only
  split
  · exact Writes.mark h rfl (h.opens.max_le k) (by simp) (h.due rfl rfl rfl rfl)
  · exact ⟨_, rfl, h⟩

lemma writes_writeKind (h : Written log p) (k : Kind) : Writes log (writeKind budget p k) := by
  obtain ⟨⟨s, w⟩, hq, hs⟩ := writes_writeMaxStreams budget h k
  have hle : s.peer_max_streams.get k ≤ MAX_VARINT :=
    (hs.opens.streams_le k).trans (by decide : MAX_STREAMS_LIMIT ≤ MAX_VARINT)
  rw [writeKind, hq]
  dsimp only [Option.bind_eq_bind, Option.bind_some]
  split
  · split
    · exact ⟨_, rfl, hs.due rfl rfl rfl rfl⟩
    · exact Writes.mark hs rfl hle (by simp) (hs.due rfl rfl rfl rfl)
  · exact ⟨_, rfl, hs⟩

lemma writes_writeDataBlocked (h : Written log p) : Writes log (writeDataBlocked budget p) := by
  obtain ⟨s, w⟩ := p
  rw [writeDataBlocked]
  dsimp only
  split
  · split
    · exact ⟨_, rfl, h.due rfl rfl rfl rfl⟩
    · exact Writes.mark h rfl h.send.max_le (by simp) (h.due rfl rfl rfl rfl)
  · exact ⟨_, rfl, h⟩

lemma written_sendControl (h : Written log (s, w)) (hid : id ≤ MAX_VARINT) :
    ∃ t w' more, writeSendControl budget s w id = some (t, w', more) ∧ Written log (t, w') := by
  rw [writeSendControl]
  split
  · rename_i x hx
    have hok := h.send.sides id x hx
    obtain ⟨y, w₁, more, heq, hdue, hw⟩ := writeReset_spec hok hid budget w
    obtain ⟨z, w₂, more', heq', hdue', hw'⟩ := writeBlocked_spec (hdue.ok hok) hid budget w₁
    rw [Send.writeControl, heq]
    dsimp only [Option.bind_eq_bind, Option.bind_some]
    rw [heq']
    exact ⟨_, _, _, rfl, hw.trans hw' log _ (h.sendDue hx _ (hdue.trans hdue'))⟩
  · exact ⟨_, _, _, rfl, h⟩

lemma written_recvControl (h : Written log (s, w)) (hid : id ≤ MAX_VARINT) :
    ∃ t w' more, writeRecvControl budget s w id = some (t, w', more) ∧ Written log (t, w') := by
  rw [writeRecvControl]
  split
  · rename_i r hr
    have hclear : RecvDue r (if r.state ≠ .open then
        { r with max_data_pending := false, stop := none } else r) := by
      split
      · exact ⟨rfl, rfl, rfl, rfl, rfl, rfl, by simp⟩
      · exact RecvDue.refl r
    rw [Recv.writeControl]
    dsimp only
    generalize (if r.state ≠ .open then { r with max_data_pending := false, stop := none } else r) =
      r₀ at hclear ⊢
    have hok := hclear.ok (h.recv.sides id r hr)
    obtain ⟨y, w₁, more, heq, hdue, hw⟩ := writeStop_spec hok hid budget w
    obtain ⟨z, w₂, more', heq', hdue', hw'⟩ := writeMaxStreamData_spec (hdue.ok hok) hid budget w₁
    rw [heq]
    dsimp only [Option.bind_eq_bind, Option.bind_some]
    rw [heq']
    exact ⟨_, _, _, rfl, hw.trans hw' log _ (h.recvDue hr _ ((hclear.trans hdue).trans hdue'))⟩
  · exact ⟨_, _, _, rfl, h⟩

lemma writes_writeControl (h : Written log p) (id : ℕ) : Writes log (writeControl budget p id) := by
  obtain ⟨s, w⟩ := p
  rw [writeControl]
  dsimp only
  split
  · exact ⟨_, rfl, h.due rfl rfl rfl rfl⟩
  rename_i hthere
  have hid := h.opens.id_le (by simpa using hthere)
  obtain ⟨s', w', more, heq, hs'⟩ := written_sendControl budget h hid
  obtain ⟨s'', w'', more', heq', hs''⟩ := written_recvControl budget hs' hid
  rw [heq]
  dsimp only [Option.bind_eq_bind, Option.bind_some]
  rw [heq']
  refine ⟨_, rfl, ?_⟩
  split
  · exact hs''
  · exact hs''.due rfl rfl rfl rfl

lemma writes_controls (h : Written log p) (ids : List ℕ) :
    Writes log (ids.foldlM (writeControl budget) p) := by
  induction ids generalizing p with
  | nil => exact ⟨p, rfl, h⟩
  | cons id ids ih =>
    obtain ⟨q, hq, hsound⟩ := writes_writeControl budget h id
    rw [foldlM_cons, hq]
    exact ih hsound

/-! ### Stream data -/

lemma exists_streamHeaderLen {offset : ℕ} (len : Option ℕ) (hid : id ≤ MAX_VARINT)
    (hoffset : offset ≤ MAX_VARINT) (hlen : ∀ n ∈ len, n ≤ MAX_VARINT) :
    ∃ n, streamHeaderLen id offset len = some n := by
  obtain ⟨n, hn⟩ := exists_lens
    (id :: (if offset ≠ 0 then [offset] else []) ++ len.toList) (fun v hv => by
      rw [cons_append, mem_cons, mem_append, Option.mem_toList] at hv
      rcases hv with rfl | hv | hv
      · exact hid
      · split_ifs at hv
        · rwa [mem_singleton.1 hv]
        · cases hv
      · exact hlen v hv)
  exact ⟨1 + n, by rw [streamHeaderLen, hn]; rfl⟩

lemma exists_shorten {offset n : ℕ} (hid : id ≤ MAX_VARINT) (hoffset : offset ≤ MAX_VARINT)
    (hn : n ≤ MAX_VARINT) (room : ℕ) : ∃ m ≤ n, shorten id offset room n = some m := by
  induction n with
  | zero => exact ⟨0, le_rfl, rfl⟩
  | succ n ih =>
    obtain ⟨header, hheader⟩ := exists_streamHeaderLen (some (n + 1)) hid hoffset
      (by rintro _ ⟨⟩; exact hn)
    rw [shorten, hheader]
    dsimp only [Option.bind_eq_bind, Option.bind_some]
    split
    · obtain ⟨m, hm, heq⟩ := ih (by omega)
      exact ⟨m, hm.trans (Nat.le_succ n), heq⟩
    · exact ⟨n + 1, le_rfl, rfl⟩

lemma Sound.sendChunk (h : Sound [] log s) (hx : s.sendOf id = some x) (hsending : x.sending = true)
    {maxLen limit : ℕ} {c : Chunk} {buf : SendBuf} (hlen : maxLen ≤ x.buf.peekLen limit)
    (hlimit : limit = min x.max_data (addU64 x.buf.sent (s.send_max_data - s.sent_total)))
    (hc : x.buf.nextChunk maxLen limit = some (c, buf)) :
    (buf.copy c.offset c.len).isSome = true ∧ c.offset + c.len ≤ MAX_VARINT ∧
      Sound [] (log ++ [.stream id c.offset c.len c.fin])
        { s.setSend id { x with buf := buf } with sent_total := addU64 s.sent_total c.new } := by
  have hok := h.send.sides id x hx
  have hsent := hok.sent_le hsending
  have hmax := hok.max_le
  have hle := h.send.le
  have hconn := h.send.max_le
  rw [addU64_eq (hsent.trans hmax) (by omega)] at hlimit
  obtain ⟨stream, hwf⟩ := hok.wf
  have hroom := hwf.roomOk hlen (hsent.trans_lt (hmax.trans_lt (by decide)))
  obtain ⟨hwf', hgiven, hnext, hfin, -, -⟩ := hwf.nextChunk hroom hc
  obtain ⟨h1, h2, h3, h4⟩ := hwf.nextChunk_sent hroom hc
  obtain ⟨hcard, hmem⟩ := carried_stream c.fin (hok.sent hsending) h1 h2 h4
  rw [addU64_eq (by omega) (by omega)]
  refine ⟨by rw [hwf'.copy hgiven.base_le hgiven.data_le]; rfl, by omega, ?_, ?_, ?_⟩
  · have hother : ∀ j y, j ≠ id → SendOk log j y →
        SendOk (log ++ [.stream id c.offset c.len c.fin]) j y := by
      intro j y hj hy
      refine hy.append fun o l f heq => hj ?_
      simp only [StreamFrame.stream.injEq] at heq
      exact heq.1.symm
    obtain ⟨hqueue, hparked⟩ := waiting_setSend s id { x with buf := buf }
    obtain ⟨-, hmaxdata⟩ := sendCounts_eq (accounts_setSend s id { x with buf := buf })
    have htotal := h.send.total
    refine h.send.update (by simp) (sendOf_setSend hx _) ?_ hother (hqueue ▸ h.send.nodup)
      (fun j => ?_) (fun j => ?_) ?_ ?_ (hmaxdata.trans_le hconn)
    · refine ⟨⟨stream, hwf'⟩, hmax, fun y hy => ?_, fun _ => hmem, fun _ offset len fin hin => ?_,
        fun hopen => hfin.trans (hok.unfinished hopen), hok.reset, hok.reset_le, hok.blocked_le,
        hok.resting, hok.apart⟩
      · have := (hmem y).1 hy
        simp only
        omega
      · rcases mem_append.1 hin with hin | hin
        · exact (hok.out hsending _ _ _ hin).trans hnext
        · simp only [mem_singleton, StreamFrame.stream.injEq, true_and] at hin
          obtain ⟨rfl, rfl, rfl⟩ := hin
          exact hgiven.stop_le
    · change j ∈ (s.setSend id { x with buf := buf }).send_queue ↔ _
      rw [hqueue]
      split_ifs with hj
      · rw [hj, h.send.queue]
        simp [hx]
      · rfl
    · change ((s.setSend id { x with buf := buf }).parked.get j).isSome = _
      have hpark := h.send.isSome_parked hx (by simp)
      rw [hparked]
      split_ifs with hj
      · rw [hj]
        exact hpark
      · rfl
    · simp only
      omega
    · change s.sent_total + c.new ≤ (s.setSend id { x with buf := buf }).send_max_data
      rw [hmaxdata]
      omega
  · have hrecv := h.recv.sendOnly (SendOnly.setSend s id { x with buf := buf })
    exact ⟨hrecv.sides, hrecv.gone, hrecv.total, hrecv.consumed, hrecv.le, hrecv.limit_le⟩
  · have hthere : s.contains id = true := by
      obtain ⟨st, hst, -⟩ := get_of_sendOf hx
      rw [contains, hst]
      rfl
    have hopens := (h.opens.sendOnly (SendOnly.setSend s id { x with buf := buf })).append
      (f := .stream id c.offset c.len c.fin) fun j o l f heq => by
        simp only [StreamFrame.stream.injEq] at heq
        rw [← heq.1, contains_setSend]
        exact hthere
    exact hopens.congr (fun _ => rfl) rfl hopens.used

lemma written_streamFrame (h : Written log (s, w)) (hready : s.ready id = true) (room : ℕ) :
    s.writeStreamFrame id room w ≠ .fault ∧
      ∀ q, s.writeStreamFrame id room w = .ok q → Written log q := by
  rw [writeStreamFrame]
  split
  · exact ⟨by simp, by simp⟩
  rename_i x hx
  have hsending : x.sending = true := by
    rw [ready, hx, Option.any_some, decide_eq_true_eq] at hready
    exact gate_sending (by rw [hready]; decide)
  have hid := h.opens.id_le (by
    obtain ⟨st, hst, -⟩ := get_of_sendOf hx
    rw [contains, hst]
    rfl)
  have hok := h.send.sides id x hx
  have hsent := (hok.sent_le hsending).trans hok.max_le
  obtain ⟨stream, hwf⟩ := hok.wf
  dsimp only
  generalize hlimit : min x.max_data (addU64 x.buf.sent (s.send_max_data - s.sent_total)) = limit
  have havailable : x.buf.peekLen limit ≤ MAX_VARINT :=
    hwf.peekLen_le.trans (max_le hsent (by have := hok.max_le; omega))
  split
  · exact ⟨by simp, by simp⟩
  rename_i offset hoffset
  have hoffset := (hwf.nextOffset_le hoffset).trans hsent
  obtain ⟨header, hheader⟩ := exists_streamHeaderLen none hid hoffset (by simp)
  rw [hheader]
  dsimp only
  split
  · exact ⟨by simp, by simp⟩
  split
  · exact ⟨by simp, by simp⟩
  -- the data is no longer than what there is, and the numbers of the frame can be written
  obtain ⟨max_len, hlen, heq⟩ : ∃ m ≤ x.buf.peekLen limit,
      (if x.buf.peekLen limit ≥ room - header ∧ x.buf.peekLen limit > 0 then some (room - header)
        else shorten id offset room (x.buf.peekLen limit)) = some m := by
    split
    · rename_i hfill
      exact ⟨_, hfill.1, rfl⟩
    · exact exists_shorten hid hoffset havailable room
  rw [heq]
  dsimp only
  split
  · exact ⟨by simp, by simp⟩
  rename_i c buf hc
  obtain ⟨hcopy, hstop, hsound⟩ := Sound.sendChunk h hx hsending hlen hlimit.symm hc
  obtain ⟨data, hdata⟩ := Option.isSome_iff_exists.1 hcopy
  obtain ⟨n, hn⟩ := exists_streamHeaderLen
    (if c.len = room - header ∧ x.buf.peekLen limit ≥ room - header then none else some c.len)
    hid (by omega : c.offset ≤ MAX_VARINT) (fun v hv => by
      split_ifs at hv
      · cases hv
      · cases hv
        omega)
  rw [hn, hdata]
  refine ⟨by simp, fun q hq => ?_⟩
  simp only [Outcome.ok.injEq] at hq
  subst hq
  rw [append_assoc] at hsound
  exact hsound

lemma Sound.popQueue (h : Sound [] log s) {ids : List ℕ} (hq : s.send_queue = id :: ids) :
    Sound [] log (s.popQueue id) := by
  refine h.sendOnly ?_ (h.send.popQueue hq (by simp))
  rw [Streams.popQueue]
  split
  · exact SendOnly.trans (t := { s with send_queue := s.send_queue.tail }) (SendOnly.of_eq rfl rfl)
      (SendOnly.setSend _ id _)
  · exact SendOnly.of_eq rfl rfl

lemma written_dataLoop (h : Written log p) :
    ∃ q, (dataLoop budget).run p = some q ∧ Written log q := by
  refine Loop.rule (Written log) (fun res => ∃ q, res = some q ∧ Written log q) ?_ ?_ h
  · rintro ⟨s, w⟩ q hp hturn
    change dataTurn budget (s, w) = _ at hturn
    rw [dataTurn] at hturn
    split at hturn
    · cases hturn
    split at hturn
    · cases hturn
    rename_i id ids hqueue
    split at hturn
    · cases hturn
      exact (Sound.popQueue hp hqueue).schedule (by simp)
    rename_i hready
    obtain ⟨-, hok⟩ := written_streamFrame hp (by simpa using hready) (budget - w.used)
    split at hturn
    · cases hturn
    · cases hturn
    · rename_i s' w' hframe
      cases hturn
      have hq : s'.send_queue = id :: ids := (used_writeStreamFrame hframe).2.trans hqueue
      exact (Sound.popQueue (hok _ hframe) hq).schedule (by simp)
  · rintro ⟨s, w⟩ res hp hturn
    change dataTurn budget (s, w) = _ at hturn
    rw [dataTurn] at hturn
    split at hturn
    · cases hturn
      exact ⟨_, rfl, hp⟩
    split at hturn
    · cases hturn
      exact ⟨_, rfl, hp⟩
    split at hturn
    · cases hturn
    rename_i hready
    obtain ⟨hfault, -⟩ := written_streamFrame hp (by simpa using hready) (budget - w.used)
    split at hturn
    · rename_i hf
      exact absurd hf hfault
    · cases hturn
      exact ⟨_, rfl, hp⟩
    · cases hturn

theorem Sound.writeFrames (h : Sound [] log s) (budget : ℕ) :
    ∃ q, s.writeFrames budget = some q ∧ Sound [] (log ++ q.2.sent) q.1 := by
  have hstart : Written log (s, ⟨0, [], []⟩) := by
    rw [Written, append_nil]
    exact h
  obtain ⟨p, hp, hsound⟩ := writes_writeMaxData budget hstart
  obtain ⟨q, hq, hsound⟩ := writes_writeKind budget hsound .bidi
  obtain ⟨r, hr, hsound⟩ := writes_writeKind budget hsound .uni
  obtain ⟨u, hu, hsound⟩ := writes_writeDataBlocked budget hsound
  obtain ⟨v, hv, hsound⟩ := writes_controls budget hsound
    (u.1.control.entries.map Prod.fst)
  rw [Streams.writeFrames]
  simp only [Option.bind_eq_bind, hp, hq, hr, hu, hv, Option.bind_some]
  exact written_dataLoop budget hsound

/-! ### What became of the frames sent -/

lemma acked_ok {log : List StreamFrame} {id len : ℕ} (hok : SendOk log id x)
    (hsending : x.sending = true) (hin : StreamFrame.stream id offset len fin ∈ log) :
    SendOk log id { x with buf := x.buf.onAcked offset len fin } := by
  obtain ⟨stream, hwf⟩ := hok.wf
  obtain ⟨hwf', hnext, hfin, -, -⟩ := hwf.onAcked (hok.out hsending offset len fin hin)
  refine hok.setBuf ⟨stream, hwf'⟩ ?_ hnext fun hopen => hfin.trans (hok.unfinished hopen)
  rw [SendBuf.sent, SendBuf.sent, hnext, hwf'.written_eq, hwf.written_eq]

lemma Sound.onAckedStream (h : Sound [] log s) {id len : ℕ}
    (hin : StreamFrame.stream id offset len fin ∈ log)
    (hquiet : s.completesQueued (.stream id offset len fin) = false) :
    Sound [] log (s.onAcked (.stream id offset len fin)) := by
  rw [Streams.onAcked]
  split
  · exact h
  rename_i x hx
  split
  · exact h
  rename_i hsending
  rw [Bool.not_eq_true', Bool.not_eq_false] at hsending
  have hok := acked_ok (h.send.sides id x hx) hsending hin
  dsimp only
  generalize hy : (if x.state = .finished ∧ (x.buf.onAcked offset len fin).isFullyAcked = true then
    ({ x with buf := x.buf.onAcked offset len fin, state := .done } : Send)
    else { x with buf := x.buf.onAcked offset len fin }) = y
  have hyok : SendOk log id y ∧ y.queued = x.queued ∧ y.parked = x.parked := by
    rw [← hy]
    split
    · rename_i hdone
      have hq : x.queued = false := by
        simp only [completesQueued, hx, Option.any_some, hdone.1, hdone.2, decide_true,
          Bool.true_and, Bool.and_true] at hquiet
        exact hquiet
      exact ⟨hok.rest rfl hok.wf rfl rfl (by simp) hok.reset_le hq, rfl, rfl⟩
    · exact ⟨hok, rfl, rfl⟩
  obtain ⟨hyok, hyq, hyp⟩ := hyok
  split
  · have hmark : SendOk log id { y with write_blocked := false } :=
      hyok.remark rfl rfl rfl rfl (.inl rfl) hyok.resting hyok.apart
    have hset := h.setSend hx (by simp) hmark hyq hyp
    exact (hset.due (t := (s.setSend id { y with write_blocked := false }).pushEvent (.writable id))
      rfl rfl rfl rfl).cleanup id
  · exact (h.setSend hx (by simp) hyok hyq hyp).cleanup id

theorem Sound.onAcked (h : Sound [] log s) {f : StreamFrame} (hin : f ∈ log)
    (hquiet : s.completesQueued f = false) : Sound [] log (s.onAcked f) := by
  cases f with
  | stream id offset len fin => exact h.onAckedStream hin hquiet
  | resetStream id error final_size =>
    rw [Streams.onAcked]
    refine Sound.cleanup ?_ id
    split
    · rename_i x hx
      split
      · rename_i hreset
        have hok := h.send.sides id x hx
        have hrest : x.sending = false := by simp [Send.sending, hreset]
        exact h.setSend hx (by simp) (hok.rest rfl hok.wf rfl rfl (by simp) (by simp)
          (hok.resting hrest)) rfl rfl
      · exact h
    · exact h
  | _ => exact h

theorem Sound.onLost (h : Sound [] log s) (f : StreamFrame) : Sound [] log (s.onLost f) := by
  cases f with
  | stream id offset len fin =>
    rw [Streams.onLost]
    split
    · exact h
    rename_i x hx
    split
    · exact h
    have hok := h.send.sides id x hx
    obtain ⟨stream, hwf⟩ := hok.wf
    obtain ⟨hwf', heq⟩ := hwf.onLost offset len fin
    have hnext : (x.buf.onLost offset len fin).next = x.buf.next := by rw [heq]
    have hfin : (x.buf.onLost offset len fin).fin = x.buf.fin := by rw [heq]
    refine (h.setSend hx (by simp) (hok.setBuf ⟨stream, hwf'⟩ ?_ hnext fun hopen =>
      hfin.trans (hok.unfinished hopen)) rfl rfl).schedule (by simp)
    rw [SendBuf.sent, SendBuf.sent, hnext, hwf'.written_eq, hwf.written_eq]
  | resetStream id error final_size =>
    rw [Streams.onLost]
    split
    · exact h
    rename_i x hx
    split
    · rename_i r hr
      split
      · refine (h.sendDue hx { x with reset := some { r with pending := true } }
          ⟨rfl, rfl, rfl, rfl, rfl, rfl, ?_⟩).due rfl rfl rfl rfl
        rw [hr]
        rfl
      · exact h
    · exact h
  | stopSending id error =>
    rw [Streams.onLost]
    split
    · exact h
    rename_i r hr
    split
    · split
      · rename_i stop hstop hopen
        refine (h.recvDue hr { r with stop := some { stop with pending := true } }
          ⟨rfl, rfl, rfl, rfl, rfl, rfl, ?_⟩).due rfl rfl rfl rfl
        rintro stop' ⟨⟩
        exact ⟨stop, hstop, rfl⟩
      · exact h
    · exact h
  | maxData v =>
    rw [Streams.onLost]
    split
    · exact h.due rfl rfl rfl rfl
    · exact h
  | maxStreamData id max =>
    rw [Streams.onLost]
    split
    · exact h
    rename_i r hr
    split
    · exact (h.recvDue hr { r with max_data_pending := true }
        ⟨rfl, rfl, rfl, rfl, rfl, rfl, fun _ h => ⟨_, h, rfl⟩⟩).due rfl rfl rfl rfl
    · exact h
  | maxStreams | dataBlocked =>
    rw [Streams.onLost]
    split
    · exact h.due rfl rfl rfl rfl
    · exact h
  | streamDataBlocked id limit =>
    rw [Streams.onLost]
    split
    · exact h
    rename_i x hx
    split
    · exact (h.markSend hx (by simp) { x with blocked_pending := true } rfl rfl rfl rfl rfl rfl
        rfl).due rfl rfl rfl rfl
    · exact h
  | streamsBlocked bidirectional limit =>
    rw [Streams.onLost]
    split
    · exact h.due rfl rfl rfl rfl
    · exact h

end Streams

end Lazaret.Quic.Flow
