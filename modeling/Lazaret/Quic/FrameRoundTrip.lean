import Lazaret.Quic.Frames

/-!
# Frames survive the wire

A frame whose fields are in range is read again as it was written, in as many bytes as `len` says
(`yields_read`), and so is a list of them, with neighbouring PADDING merged (`frames_writeAll`).
-/

namespace Lazaret.Quic.Wire

open Cursor types List

/-! ## What is in range -/

/-- The ranges after the first one were checked: there are as many as the frame says, and none of
them goes below 0. -/
structure Ack.Checked (a : Ack) : Prop where
  first : a.firstRange ≤ a.largest
  others : Yields (checkRanges a.rangeCount (a.largest - a.firstRange)) a.rangeBytes ()

/-- The numbers of a frame, lengths of what it carries among them. -/
def Frame.numbers : Frame → List ℕ
  | .padding _ | .ping | .handshakeDone | .pathChallenge _ | .pathResponse _ => []
  | .ack a => [a.largest, a.delay, a.rangeCount, a.firstRange] ++ ecnNumbers a.ecn
  | .resetStream id error finalSize => [id, error, finalSize]
  | .stopSending id error => [id, error]
  | .crypto offset data => [offset, data.length]
  | .newToken token => [token.length]
  | .stream id offset data _ => [id, offset, data.length]
  | .maxData n | .dataBlocked n | .retireConnectionId n => [n]
  | .maxStreamData id n | .streamDataBlocked id n => [id, n]
  | .maxStreams _ n | .streamsBlocked _ n => [n]
  | .newConnectionId sequence retirePriorTo cid _ => [sequence, retirePriorTo, cid.length]
  | .connectionClose code frameType reason => code :: frameType.toList ++ [reason.length]

def Frame.Limits : Frame → Prop
  | .ack a => a.Checked
  | .crypto offset data | .stream _ offset data _ => offset + data.length ≤ MAX_VARINT
  | .newToken token => token ≠ []
  | .maxStreams _ n | .streamsBlocked _ n => n ≤ MAX_STREAMS_LIMIT
  | .newConnectionId sequence retirePriorTo cid _ =>
    (1 ≤ cid.length ∧ cid.length ≤ MAX_CID_LEN) ∧ retirePriorTo ≤ sequence
  | _ => True

structure Frame.InRange (f : Frame) : Prop where
  numbers : ∀ v ∈ f.numbers, v ≤ MAX_VARINT
  limits : f.Limits

def Frame.IsPadding (f : Frame) : Prop := ∃ n, f = .padding n

/-! ## Parts of frames -/

lemma yields_orShort {α : Type} {p : Reader α} {xs : List UInt8} {a : α} (h : Yields p xs a) :
    Yields (orShort p) xs a :=
  h.mapError _

lemma exists_putPrefixed {data : List UInt8} (h : data.length ≤ MAX_VARINT) :
    ∃ bs len, putPrefixed data = some bs ∧ varintLen data.length = some len ∧
      bs.length = len + data.length ∧ Yields lengthPrefixed bs data := by
  obtain ⟨bs, hput, hlen, hy⟩ := exists_put h
  refine ⟨bs ++ data, bs.length, ?_, hlen, length_append, hy.bind (yields_bytes rfl)⟩
  rw [putPrefixed, hput]
  rfl

lemma lens_append (vs ws : List ℕ) :
    lens (vs ++ ws) = (lens vs).bind fun n => (lens ws).map (n + ·) := by
  rw [lens, lens, lens, mapM_append]
  cases vs.mapM varintLen <;> cases ws.mapM varintLen <;> simp

lemma exists_putEcn {ecn : Option EcnCounts} (h : ∀ v ∈ ecnNumbers ecn, v ≤ MAX_VARINT) :
    ∃ bs, putEcn ecn = some bs ∧ lens (ecnNumbers ecn) = some bs.length ∧
      ∀ ft, (ft = ACK_ECN ↔ ecn.isSome) → Yields (ecnOf ft) bs ecn := by
  cases ecn with
  | none =>
    refine ⟨[], rfl, rfl, fun ft hft => ?_⟩
    rw [ecnOf, if_neg (by rw [hft]; decide)]
    exact Yields.pure none
  | some e =>
    obtain ⟨b0, hb0, hl0, hy0⟩ := exists_put (h e.ect0 (by simp [ecnNumbers]))
    obtain ⟨b1, hb1, hl1, hy1⟩ := exists_put (h e.ect1 (by simp [ecnNumbers]))
    obtain ⟨bce, hbce, hlce, hyce⟩ := exists_put (h e.ce (by simp [ecnNumbers]))
    refine ⟨b0 ++ (b1 ++ bce), ?_, ?_, fun ft hft => ?_⟩
    · simp [putEcn, hb0, hb1, hbce]
    · simp [ecnNumbers, lens, hl0, hl1, hlce]
    · rw [ecnOf, if_pos (hft.2 rfl)]
      exact Yields.map some ((yields_orShort hy0).bind ((yields_orShort hy1).bind
        ((yields_orShort hyce).bind_nil (Yields.pure e))))

/-! ## Bodies -/

/-- What is written of a frame after its type is read, and is as long as `len` says. -/
def Carried (f : Frame) : Prop :=
  ∃ bs, f.writeBody = some bs ∧ f.len = some (1 + bs.length) ∧ Yields (body f.frameType) bs f

lemma carried_one {f : Frame} {mk : ℕ → Frame} {v : ℕ} (hv : v ≤ MAX_VARINT)
    (hwrite : f.writeBody = putVarint v) (hlen : f.len = (lens [v]).map (1 + ·))
    (hread : body f.frameType = mk <$> orShort varint) (hmk : mk v = f) : Carried f := by
  obtain ⟨bs, hput, hl, hy⟩ := exists_put hv
  refine ⟨bs, by rw [hwrite, hput], by rw [hlen]; simp [lens, hl], ?_⟩
  rw [hread, ← hmk]
  exact (yields_orShort hy).map mk

lemma carried_two {f : Frame} {mk : ℕ → ℕ → Frame} {v w : ℕ} (hv : v ≤ MAX_VARINT)
    (hw : w ≤ MAX_VARINT) (hwrite : f.writeBody = putTwo v w)
    (hlen : f.len = (lens [v, w]).map (1 + ·))
    (hread : body f.frameType = do
      let x ← orShort varint
      let y ← orShort varint
      pure (mk x y)) (hmk : mk v w = f) : Carried f := by
  obtain ⟨bv, hbv, hlv, hyv⟩ := exists_put hv
  obtain ⟨bw, hbw, hlw, hyw⟩ := exists_put hw
  refine ⟨bv ++ bw, ?_, ?_, ?_⟩
  · rw [hwrite, putTwo, hbv, hbw]
    rfl
  · rw [hlen]
    simp [lens, hlv, hlw]
  · rw [hread, ← hmk]
    exact (yields_orShort hyv).bind ((yields_orShort hyw).bind_nil (Yields.pure _))

lemma carried_streams {f : Frame} {mk : ℕ → Frame} {n : ℕ} (hn : n ≤ MAX_STREAMS_LIMIT)
    (hwrite : f.writeBody = putVarint n) (hlen : f.len = (lens [n]).map (1 + ·))
    (hread : body f.frameType = mk <$> streamCount) (hmk : mk n = f) : Carried f := by
  have hv : n ≤ MAX_VARINT := hn.trans (by decide)
  obtain ⟨bs, hput, hl, hy⟩ := exists_put hv
  refine ⟨bs, by rw [hwrite, hput], by rw [hlen]; simp [lens, hl], ?_⟩
  rw [hread, ← hmk]
  exact Yields.map mk ((yields_orShort hy).bind_nil (Yields.require hn (Yields.pure n)))

lemma carried_resetStream {id error finalSize : ℕ} (hid : id ≤ MAX_VARINT)
    (herror : error ≤ MAX_VARINT) (hsize : finalSize ≤ MAX_VARINT) :
    Carried (.resetStream id error finalSize) := by
  obtain ⟨bi, hbi, hli, hyi⟩ := exists_put hid
  obtain ⟨be, hbe, hle, hye⟩ := exists_put herror
  obtain ⟨bs, hbs, hls, hys⟩ := exists_put hsize
  refine ⟨bi ++ (be ++ bs), ?_, ?_, ?_⟩
  · simp [Frame.writeBody, putTwo, hbi, hbe, hbs]
  · simp [Frame.len, lens, hli, hle, hls]
  · exact (yields_orShort hyi).bind ((yields_orShort hye).bind
      ((yields_orShort hys).bind_nil (Yields.pure _)))

lemma carried_crypto {offset : ℕ} {data : List UInt8} (hoffset : offset ≤ MAX_VARINT)
    (hdata : data.length ≤ MAX_VARINT) (hend : offset + data.length ≤ MAX_VARINT) :
    Carried (.crypto offset data) := by
  obtain ⟨bo, hbo, hlo, hyo⟩ := exists_put hoffset
  obtain ⟨bd, len, hbd, hld, hlen, hyd⟩ := exists_putPrefixed hdata
  refine ⟨bo ++ bd, ?_, ?_, ?_⟩
  · simp [Frame.writeBody, hbo, hbd]
  · simp [Frame.len, lens, hlo, hld, hlen]
    omega
  · exact (yields_orShort hyo).bind ((yields_orShort hyd).bind_nil
      (Yields.require hend (Yields.pure _)))

lemma carried_newToken {token : List UInt8} (htoken : token.length ≤ MAX_VARINT)
    (hne : token ≠ []) : Carried (.newToken token) := by
  obtain ⟨bs, len, hput, hl, hlen, hy⟩ := exists_putPrefixed htoken
  refine ⟨bs, hput, ?_, ?_⟩
  · simp [Frame.len, lens, hl, hlen]
    omega
  · exact (yields_orShort hy).bind_nil (Yields.require hne (Yields.pure _))

lemma streamType (id offset : ℕ) (data : List UInt8) (fin : Bool) :
    let ft := (Frame.stream id offset data fin).frameType
    (ft &&& STREAM_OFF ≠ 0 ↔ offset ≠ 0) ∧ ft &&& STREAM_LEN ≠ 0 ∧
      decide (ft &&& STREAM_FIN ≠ 0) = fin ∧ body ft = streamBody ft := by
  by_cases h0 : offset = 0 <;> cases fin <;> simp [Frame.frameType, h0] <;>
    exact ⟨by decide, by decide, by decide, rfl⟩

lemma exists_putOffset {offset : ℕ} (h : offset ≤ MAX_VARINT) :
    ∃ bs, putOffset offset = some bs ∧
      lens (if offset ≠ 0 then [offset] else []) = some bs.length ∧
      ∀ ft, (ft &&& STREAM_OFF ≠ 0 ↔ offset ≠ 0) → Yields (streamOffset ft) bs offset := by
  by_cases h0 : offset = 0
  · refine ⟨[], ?_, ?_, fun ft hft => ?_⟩
    · rw [putOffset, if_neg (not_not_intro h0)]
    · rw [if_neg (not_not_intro h0)]
      rfl
    · rw [streamOffset, if_neg (mt hft.1 (not_not_intro h0)), h0]
      exact Yields.pure 0
  · obtain ⟨bs, hput, hl, hy⟩ := exists_put h
    refine ⟨bs, ?_, ?_, fun ft hft => ?_⟩
    · rw [putOffset, if_pos h0, hput]
    · rw [if_pos h0]
      simp [lens, hl]
    · rw [streamOffset, if_pos (hft.2 h0)]
      exact yields_orShort hy

lemma carried_stream {id offset : ℕ} {data : List UInt8} {fin : Bool} (hid : id ≤ MAX_VARINT)
    (hoffset : offset ≤ MAX_VARINT) (hdata : data.length ≤ MAX_VARINT)
    (hend : offset + data.length ≤ MAX_VARINT) : Carried (.stream id offset data fin) := by
  obtain ⟨bi, hbi, hli, hyi⟩ := exists_put hid
  obtain ⟨bo, hbo, hlo, hyo⟩ := exists_putOffset hoffset
  obtain ⟨bd, len, hbd, hld, hlen, hyd⟩ := exists_putPrefixed hdata
  obtain ⟨hoff, hlength, hfin, hbody⟩ := streamType id offset data fin
  refine ⟨bi ++ (bo ++ bd), ?_, ?_, ?_⟩
  · simp [Frame.writeBody, hbi, hbo, hbd]
  · by_cases h0 : offset = 0 <;> simp [lens, h0] at hlo <;>
      simp [Frame.len, lens, hli, hlo, hld, hlen, h0] <;> omega
  · have hydata : Yields (streamData (Frame.stream id offset data fin).frameType) bd data := by
      rw [streamData, if_pos hlength]
      exact yields_orShort hyd
    rw [hbody]
    refine (yields_orShort hyi).bind ((hyo _ hoff).bind (hydata.bind_nil
      (Yields.require hend ?_)))
    rw [hfin]
    exact Yields.pure _

lemma carried_newConnectionId {sequence retirePriorTo : ℕ} {cid : List UInt8}
    {resetToken : List.Vector UInt8 16} (hseq : sequence ≤ MAX_VARINT)
    (hretire : retirePriorTo ≤ MAX_VARINT) (hcid : 1 ≤ cid.length ∧ cid.length ≤ MAX_CID_LEN)
    (hle : retirePriorTo ≤ sequence) :
    Carried (.newConnectionId sequence retirePriorTo cid resetToken) := by
  obtain ⟨bs, hbs, hls, hys⟩ := exists_put hseq
  obtain ⟨br, hbr, hlr, hyr⟩ := exists_put hretire
  have hbyte : (UInt8.ofNat cid.length).toNat = cid.length := by
    rw [MAX_CID_LEN] at hcid
    rw [UInt8.toNat_ofNat']
    omega
  refine ⟨bs ++ (br ++ ([UInt8.ofNat cid.length] ++ (cid ++ resetToken.toList))), ?_, ?_, ?_⟩
  · simp [Frame.writeBody, hbs, hbr, hcid, hle]
  · simp [Frame.len, lens, hls, hlr]
    omega
  · refine (yields_orShort hys).bind ((yields_orShort hyr).bind
      ((yields_orShort (yields_u8 _)).bind (Yields.require ?_ (Yields.require hle ?_))))
    · rw [hbyte]
      exact ⟨by omega, hcid.2⟩
    · rw [hbyte]
      exact (yields_orShort (yields_bytes rfl)).bind
        ((Yields.array _ resetToken).bind_nil (Yields.pure _))

lemma carried_connectionClose {code : ℕ} {frameType : Option ℕ} {reason : List UInt8}
    (hcode : code ≤ MAX_VARINT) (htype : ∀ t ∈ frameType, t ≤ MAX_VARINT)
    (hreason : reason.length ≤ MAX_VARINT) : Carried (.connectionClose code frameType reason) := by
  obtain ⟨bc, hbc, hlc, hyc⟩ := exists_put hcode
  obtain ⟨br, len, hbr, hlr, hlen, hyr⟩ := exists_putPrefixed hreason
  cases frameType with
  | none =>
    refine ⟨bc ++ br, ?_, ?_, ?_⟩
    · simp [Frame.writeBody, hbc, hbr]
    · simp [Frame.len, lens, hlc, hlr, hlen]
      omega
    · exact (yields_orShort hyc).bind ((yields_orShort hyr).bind_nil (Yields.pure _))
  | some t =>
    obtain ⟨bt, hbt, hlt, hyt⟩ := exists_put (htype t rfl)
    refine ⟨bc ++ (bt ++ br), ?_, ?_, ?_⟩
    · simp [Frame.writeBody, hbc, hbt, hbr]
    · simp [Frame.len, lens, hlc, hlt, hlr, hlen]
      omega
    · exact (yields_orShort hyc).bind ((yields_orShort hyt).bind
        ((yields_orShort hyr).bind_nil (Yields.pure _)))

lemma le_length_of_checkRanges {n smallest : ℕ} {s t : List UInt8}
    (h : checkRanges n smallest s = .ok ((), t)) : 2 * n + t.length ≤ s.length := by
  induction n generalizing smallest s with
  | zero =>
    obtain ⟨-, rfl⟩ := pure_eq_ok.1 h
    omega
  | succ n ih =>
    rw [checkRanges] at h
    obtain ⟨p, u, hp, h⟩ := bind_eq_ok.1 h
    obtain ⟨gap, v, hgap, hrest⟩ := bind_eq_ok.1 (mapError_eq_ok.1 hp)
    obtain ⟨len, w, hlen, hpair⟩ := bind_eq_ok.1 hrest
    obtain ⟨rfl, rfl⟩ := pure_eq_ok.1 hpair
    have hgap' := length_lt_of_varint hgap
    have hlen' := length_lt_of_varint hlen
    cases hnext : nextRange smallest gap len with
    | none =>
      rw [hnext] at h
      cases h
    | some r =>
      rw [hnext] at h
      have := ih h
      omega

lemma carried_ack {a : Ack} (h : (Frame.ack a).InRange) : Carried (.ack a) := by
  have hn := h.numbers
  simp only [Frame.numbers, cons_append, nil_append, forall_mem_cons] at hn
  obtain ⟨hlargest, hdelay, hcount, hfirst, hecn⟩ := hn
  obtain ⟨hle, hranges⟩ := h.limits
  obtain ⟨bl, hbl, hll, hyl⟩ := exists_put hlargest
  obtain ⟨bd, hbd, hld, hyd⟩ := exists_put hdelay
  obtain ⟨bc, hbc, hlc, hyc⟩ := exists_put hcount
  obtain ⟨bf, hbf, hlf, hyf⟩ := exists_put hfirst
  obtain ⟨be, hbe, hle', hye⟩ := exists_putEcn hecn
  have hft : (Frame.ack a).frameType = ACK_ECN ↔ a.ecn.isSome := by
    rw [Frame.frameType]
    split <;> simp_all [ACK, ACK_ECN]
  have hbody : body (Frame.ack a).frameType = .ack <$> ackBody (Frame.ack a).frameType := by
    rw [Frame.frameType]
    split <;> rfl
  refine ⟨bl ++ (bd ++ (bc ++ (bf ++ (a.rangeBytes ++ be)))), ?_, ?_, ?_⟩
  · simp [Frame.writeBody, hbl, hbd, hbc, hbf, hbe]
  · simp only [Frame.len, lens_append, hle']
    simp [lens, hll, hld, hlc, hlf]
    omega
  · rw [hbody]
    apply Yields.map
    intro rest
    simp only [append_assoc]
    rw [ackBody, (yields_orShort hyl).bind_apply, (yields_orShort hyd).bind_apply,
      (yields_orShort hyc).bind_apply, (yields_orShort hyf).bind_apply]
    have hroom : a.rangeCount ≤ (a.rangeBytes ++ (be ++ rest)).length / 2 := by
      have := le_length_of_checkRanges hranges.apply_self
      rw [length_append]
      rw [length_nil] at this
      omega
    have hslice : (a.rangeBytes ++ (be ++ rest)).take
        ((a.rangeBytes ++ (be ++ rest)).length - (be ++ rest).length) = a.rangeBytes := by
      rw [length_append, Nat.add_sub_cancel, take_left]
    simp only [require, if_pos hle, if_pos hroom, bind_apply, pure_apply, get_apply,
      hranges (be ++ rest), hye _ hft rest, hslice]

lemma carried_of_inRange {f : Frame} (h : f.InRange) (hne : ¬ f.IsPadding) : Carried f := by
  have hn := h.numbers
  have hl := h.limits
  cases f with
  | padding n => exact absurd ⟨n, rfl⟩ hne
  | ping | handshakeDone => exact ⟨[], rfl, rfl, Yields.pure _⟩
  | ack a => exact carried_ack h
  | resetStream id error finalSize =>
    exact carried_resetStream (hn _ (by simp [Frame.numbers])) (hn _ (by simp [Frame.numbers]))
      (hn _ (by simp [Frame.numbers]))
  | crypto offset data =>
    exact carried_crypto (hn _ (by simp [Frame.numbers])) (hn _ (by simp [Frame.numbers])) hl
  | newToken token => exact carried_newToken (hn _ (by simp [Frame.numbers])) hl
  | stream id offset data fin =>
    exact carried_stream (hn _ (by simp [Frame.numbers])) (hn _ (by simp [Frame.numbers]))
      (hn _ (by simp [Frame.numbers])) hl
  | stopSending id n | maxStreamData id n | streamDataBlocked id n =>
    exact carried_two (hn id (by simp [Frame.numbers])) (hn n (by simp [Frame.numbers])) rfl
      rfl rfl rfl
  | maxData n | dataBlocked n | retireConnectionId n =>
    exact carried_one (hn n (by simp [Frame.numbers])) rfl rfl rfl rfl
  | maxStreams bidirectional n | streamsBlocked bidirectional n =>
    cases bidirectional <;> exact carried_streams hl rfl rfl rfl rfl
  | newConnectionId sequence retirePriorTo cid resetToken =>
    exact carried_newConnectionId (hn _ (by simp [Frame.numbers]))
      (hn retirePriorTo (by simp [Frame.numbers])) hl.1 hl.2
  | pathChallenge d | pathResponse d =>
    exact ⟨d.toList, rfl, by simp [Frame.len], (Yields.array _ d).map _⟩
  | connectionClose code frameType reason =>
    refine carried_connectionClose (hn _ (by simp [Frame.numbers])) ?_
      (hn _ (by simp [Frame.numbers]))
    intro t ht
    apply hn t
    rw [Option.mem_def] at ht
    simp [Frame.numbers, ht]

/-! ## Whole frames -/

/-- A frame may be in a packet of a type, and its fields are in range.  A run of PADDING is of one
byte at least. -/
structure Frame.Valid (ty : PacketType) (f : Frame) : Prop where
  inRange : f.InRange
  allowed : allowedIn f.frameType ty = true
  run : ∀ n, f = .padding n → 1 ≤ n

lemma frameType_le (f : Frame) : f.frameType ≤ HANDSHAKE_DONE := by
  cases f with
  | ack a =>
    rw [Frame.frameType]
    split <;> decide
  | stream id offset data fin =>
    rw [Frame.frameType]
    cases fin <;> split <;> decide
  | maxStreams bidirectional n | streamsBlocked bidirectional n =>
    cases bidirectional <;> exact Nat.le_of_ble_eq_true rfl
  | connectionClose code frameType reason =>
    cases frameType <;> exact Nat.le_of_ble_eq_true rfl
  | _ => exact Nat.le_of_ble_eq_true rfl

lemma putVarint_type {ft : ℕ} (h : ft ≤ HANDSHAKE_DONE) :
    putVarint ft = some [UInt8.ofNat ft] := by
  rw [HANDSHAKE_DONE] at h
  interval_cases ft <;> rfl

lemma read_type {ty : PacketType} {ft : ℕ} (hle : ft ≤ HANDSHAKE_DONE)
    (hallowed : allowedIn ft ty = true) {s t : List UInt8} {f : Frame}
    (h : body ft s = .ok (f, t)) : Frame.read ty (UInt8.ofNat ft :: s) = .ok (f, t) :=
  read_eq_ok.2 ⟨ft, s, yields_varintMinimal (putVarint_type hle) s, hle, hallowed, h⟩

lemma yields_read {ty : PacketType} {f : Frame} (h : f.Valid ty) (hne : ¬ f.IsPadding) :
    ∃ bs, f.write = some (UInt8.ofNat f.frameType :: bs) ∧ f.len = some (1 + bs.length) ∧
      Yields (Frame.read ty) (UInt8.ofNat f.frameType :: bs) f := by
  obtain ⟨bs, hwrite, hlen, hy⟩ := carried_of_inRange h.inRange hne
  refine ⟨bs, ?_, hlen, fun rest => read_type (frameType_le f) h.allowed (hy rest)⟩
  rw [Frame.write, hwrite, Option.map_some]
  exact fun n hn => hne ⟨n, hn⟩

lemma read_padding {ty : PacketType} (h : allowedIn PADDING ty = true) (s : List UInt8) :
    Frame.read ty (0 :: s) =
      .ok (.padding (1 + (s.takeWhile (· = 0)).length), s.dropWhile (· = 0)) :=
  @read_type ty PADDING (by decide) h _ _ _ rfl

lemma write_padding {n : ℕ} (h : 1 ≤ n) :
    (Frame.padding n).write = some (replicate n 0) ∧ (Frame.padding n).len = some n := by
  obtain ⟨k, rfl⟩ : ∃ k, n = k + 1 := ⟨n - 1, by omega⟩
  constructor
  · show some ((0 :: replicate (k + 1 - 1) 0).take (k + 1)) = _
    rw [Nat.add_sub_cancel, replicate_succ, take_of_length_le (by simp)]
  · rfl

lemma takeWhile_replicate_append (n : ℕ) (s : List UInt8) :
    ((replicate n 0 ++ s).takeWhile (· = 0)).length = n + (s.takeWhile (· = 0)).length ∧
      (replicate n 0 ++ s).dropWhile (· = 0) = s.dropWhile (· = 0) := by
  induction n with
  | zero => simp
  | succ n ih =>
    obtain ⟨htake, hdrop⟩ := ih
    constructor
    · rw [replicate_succ, cons_append, takeWhile_cons_of_pos (by decide), length_cons, htake]
      omega
    · rw [replicate_succ, cons_append, dropWhile_cons_of_pos (by decide), hdrop]

lemma takeWhile_replicate (n : ℕ) {s : List UInt8} (h : s.head? ≠ some 0) :
    ((replicate n 0 ++ s).takeWhile (· = 0)).length = n ∧
      (replicate n 0 ++ s).dropWhile (· = 0) = s := by
  have hs : s.takeWhile (· = 0) = [] ∧ s.dropWhile (· = 0) = s := by
    cases s with
    | nil => exact ⟨rfl, rfl⟩
    | cons b s =>
      have hb : b ≠ 0 := fun hb => h (by rw [hb, head?_cons])
      simp [hb]
  obtain ⟨htake, hdrop⟩ := takeWhile_replicate_append n s
  rw [htake, hdrop, hs.1, hs.2]
  exact ⟨rfl, rfl⟩

lemma read_write {ty : PacketType} {f : Frame} (h : f.Valid ty) :
    ∃ bs, f.write = some bs ∧ f.len = some bs.length ∧
      ∀ rest, (f.IsPadding → rest.head? ≠ some 0) → Frame.read ty (bs ++ rest) = .ok (f, rest) := by
  by_cases hpad : f.IsPadding
  · obtain ⟨n, rfl⟩ := hpad
    have hn := h.run n rfl
    obtain ⟨hwrite, hlen⟩ := write_padding hn
    refine ⟨replicate n 0, hwrite, by rw [hlen, length_replicate], fun rest hrest => ?_⟩
    obtain ⟨k, rfl⟩ : ∃ k, n = k + 1 := ⟨n - 1, by omega⟩
    obtain ⟨htake, hdrop⟩ := takeWhile_replicate k (hrest ⟨_, rfl⟩)
    rw [replicate_succ, cons_append, read_padding h.allowed, htake, hdrop, add_comm]
  · obtain ⟨bs, hwrite, hlen, hy⟩ := yields_read h hpad
    exact ⟨_, hwrite, by rw [hlen, length_cons, add_comm], fun rest _ => hy rest⟩

/-! ## Lists of frames -/

def mergePadding : List Frame → List Frame
  | [] => []
  | .padding m :: rest =>
    match mergePadding rest with
    | .padding n :: rest => .padding (m + n) :: rest
    | rest => .padding m :: rest
  | f :: rest => f :: mergePadding rest

lemma framesFrom_nil (ty : PacketType) : framesFrom ty [] = [] := by
  rw [framesFrom, if_pos rfl]

lemma framesFrom_of_read {ty : PacketType} {s t : List UInt8} {f : Frame}
    (h : Frame.read ty s = .ok (f, t)) : framesFrom ty s = .ok f :: framesFrom ty t := by
  have hs : s ≠ [] := by
    rintro rfl
    exact absurd (length_lt_of_read h) (by simp)
  rw [framesFrom, if_neg hs]
  split
  · rename_i e he
    rw [h] at he
    cases he
  · rename_i g u hg
    rw [h] at hg
    cases hg
    rfl

lemma head_of_mergePadding {ty : PacketType} {fs rest : List Frame} {bs : List UInt8} {n : ℕ}
    (hvalid : ∀ f ∈ fs, f.Valid ty) (hwrite : writeAll fs = some bs)
    (h : mergePadding fs = .padding n :: rest) : bs.head? = some 0 := by
  cases fs with
  | nil => cases h
  | cons f fs =>
    obtain ⟨first, hfirst, hothers⟩ := Option.bind_eq_some_iff.1 hwrite
    obtain ⟨others, -, hbs⟩ := Option.bind_eq_some_iff.1 hothers
    cases hbs
    obtain ⟨m, rfl⟩ : f.IsPadding := by
      by_contra hne
      cases f with
      | padding n => exact hne ⟨n, rfl⟩
      | _ => cases h
    have hm := (hvalid (.padding m) (mem_cons_self ..)).run m rfl
    rw [(write_padding hm).1] at hfirst
    cases hfirst
    obtain ⟨k, rfl⟩ : ∃ k, m = k + 1 := ⟨m - 1, by omega⟩
    rfl

lemma framesFrom_padding {ty : PacketType} (hallowed : allowedIn PADDING ty = true) {m : ℕ}
    (hm : 1 ≤ m) {fs : List Frame} {bs : List UInt8}
    (hfs : framesFrom ty bs = (mergePadding fs).map .ok)
    (hhead : ∀ n rest, mergePadding fs = .padding n :: rest → bs.head? = some 0) :
    framesFrom ty (replicate m 0 ++ bs) = (mergePadding (.padding m :: fs)).map .ok := by
  obtain ⟨k, rfl⟩ : ∃ k, m = k + 1 := ⟨m - 1, by omega⟩
  rw [replicate_succ, cons_append, framesFrom_of_read (read_padding hallowed _)]
  by_cases hzero : bs.head? = some 0
  · obtain ⟨s, rfl⟩ : ∃ s, bs = 0 :: s := by
      cases bs with
      | nil => cases hzero
      | cons b s => exact ⟨s, by rw [Option.some.inj hzero]⟩
    obtain ⟨htake, hdrop⟩ := takeWhile_replicate_append (k + 1) s
    have hrun : replicate k 0 ++ 0 :: s = replicate (k + 1) 0 ++ s := by
      rw [replicate_succ', append_assoc, singleton_append]
    rw [framesFrom_of_read (read_padding hallowed s)] at hfs
    obtain ⟨f, rest, hmerge, hf, hrest⟩ := map_eq_cons_iff.1 hfs.symm
    cases hf
    rw [hrun, htake, hdrop, ← hrest, mergePadding, hmerge, map_cons]
    have hlen : 1 + (k + 1 + (s.takeWhile (· = 0)).length) =
        k + 1 + (1 + (s.takeWhile (· = 0)).length) := by omega
    rw [hlen]
  · obtain ⟨htake, hdrop⟩ := takeWhile_replicate k hzero
    rw [htake, hdrop, hfs, add_comm 1 k, mergePadding]
    split
    · rename_i n rest h
      exact absurd (hhead n rest h) hzero
    · rfl

lemma framesFrom_writeAll {ty : PacketType} {fs : List Frame} (hvalid : ∀ f ∈ fs, f.Valid ty) :
    ∃ bs, writeAll fs = some bs ∧ framesFrom ty bs = (mergePadding fs).map .ok := by
  induction fs with
  | nil => exact ⟨[], rfl, framesFrom_nil ty⟩
  | cons f fs ih =>
    rw [forall_mem_cons] at hvalid
    obtain ⟨others, hothers, hfs⟩ := ih hvalid.2
    by_cases hpad : f.IsPadding
    · obtain ⟨m, rfl⟩ := hpad
      have hm := hvalid.1.run m rfl
      refine ⟨replicate m 0 ++ others, ?_, ?_⟩
      · rw [writeAll, (write_padding hm).1, hothers]
        rfl
      · exact framesFrom_padding hvalid.1.allowed hm hfs fun n rest h =>
          head_of_mergePadding hvalid.2 hothers h
    · obtain ⟨bs, hwrite, -, hy⟩ := yields_read hvalid.1 hpad
      refine ⟨UInt8.ofNat f.frameType :: bs ++ others, ?_, ?_⟩
      · rw [writeAll, hwrite, hothers]
        rfl
      · rw [framesFrom_of_read (hy others), hfs]
        cases f with
        | padding n => exact absurd ⟨n, rfl⟩ hpad
        | _ => rfl

end Lazaret.Quic.Wire
