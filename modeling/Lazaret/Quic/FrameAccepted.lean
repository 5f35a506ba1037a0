import Lazaret.Quic.FrameRoundTrip

/-!
# Frames that are read

`write_ack` is given ranges of packet numbers from the highest down and writes them as gaps and
lengths; what it writes is read as a frame with these ranges (`exists_writeAck`), which acknowledges
the numbers in them and no others (`acknowledges_iff`).  A frame that is read is in range, and may
be in the packet it was read from (`valid_of_read`).
-/

namespace Lazaret.Quic.Wire

open Cursor types List Option

/-- Ranges of packet numbers from the highest down, with a number between neighbours at least. -/
structure Descending (ranges : List (ℕ × ℕ)) : Prop where
  proper : ∀ r ∈ ranges, r.1 ≤ r.2
  apart : ranges.IsChain fun r q => q.2 + 2 ≤ r.1

namespace Descending

variable {r : ℕ × ℕ} {rest : List (ℕ × ℕ)}

lemma head (h : Descending (r :: rest)) : r.1 ≤ r.2 := h.proper r (mem_cons_self ..)

lemma tail (h : Descending (r :: rest)) : Descending rest :=
  ⟨fun q hq => h.proper q (mem_cons_of_mem _ hq), h.apart.tail⟩

lemma cons {q : ℕ × ℕ} (hr : r.1 ≤ r.2) (hq : q.2 + 2 ≤ r.1) (h : Descending (q :: rest)) :
    Descending (r :: q :: rest) where
  proper := forall_mem_cons.2 ⟨hr, h.proper⟩
  apart := h.apart.cons_cons hq

lemma next {q : ℕ × ℕ} (h : Descending (r :: q :: rest)) : q.2 + 2 ≤ r.1 :=
  (isChain_cons_cons.1 h.apart).1

lemma below (h : Descending (r :: rest)) : ∀ q ∈ rest, q.2 < r.1 := by
  induction rest generalizing r with
  | nil => simp
  | cons q rest ih =>
    have hnext := h.next
    have hproper := h.tail.head
    intro p hp
    rcases mem_cons.1 hp with rfl | hp
    · omega
    · have := ih h.tail p hp
      omega

lemma length_le (h : Descending (r :: rest)) : 2 * rest.length ≤ r.1 := by
  induction rest generalizing r with
  | nil => simp
  | cons q rest ih =>
    have hnext := h.next
    have hproper := h.tail.head
    have := ih h.tail
    rw [length_cons]
    omega

end Descending

lemma inRanges_iff {ranges : List (ℕ × ℕ)} (h : Descending ranges) (pn : ℕ) :
    inRanges pn ranges = true ↔ ∃ r ∈ ranges, r.1 ≤ pn ∧ pn ≤ r.2 := by
  induction ranges with
  | nil => simp [inRanges]
  | cons r rest ih =>
    rw [inRanges, exists_mem_cons_iff]
    split_ifs with habove hin
    -- above the range, the number is above all that come after it
    · simp only [false_iff]
      rintro (⟨-, hle⟩ | ⟨q, hq, -, hle⟩)
      · omega
      · have := h.below q hq
        have := h.head
        omega
    · simp only [true_iff]
      exact .inl ⟨hin, by omega⟩
    · rw [ih h.tail]
      constructor
      · exact .inr
      · rintro (⟨hle, -⟩ | hrest)
        · omega
        · exact hrest

lemma nextRange_eq_some {smallest gap len : ℕ} {r : ℕ × ℕ} :
    nextRange smallest gap len = some r ↔ r.1 + len = r.2 ∧ r.2 + 2 + gap = smallest := by
  obtain ⟨low, high⟩ := r
  simp only [nextRange, checkedSub, bind_eq_bind]
  split_ifs with h1
  · rw [bind_some]
    split_ifs with h2
    · rw [bind_some]
      split_ifs with h3
      · simp
        omega
      · simp
        omega
    · simp
      omega
  · simp
    omega

lemma rangesFrom_ne_nil (n : ℕ) (r : ℕ × ℕ) (s : List UInt8) :
    ∃ rest, rangesFrom n r s = r :: rest := by
  cases n with
  | zero => exact ⟨[], rfl⟩
  | succ n => exact ⟨_, rfl⟩

lemma descending_rangesFrom {n : ℕ} {r : ℕ × ℕ} {s t : List UInt8} (hr : r.1 ≤ r.2)
    (h : checkRanges n r.1 s = .ok ((), t)) :
    Descending (rangesFrom n r s) ∧ (rangesFrom n r s).length = n + 1 := by
  induction n generalizing r s with
  | zero => exact ⟨⟨by simpa [rangesFrom] using hr, isChain_singleton r⟩, rfl⟩
  | succ n ih =>
    rw [checkRanges] at h
    obtain ⟨p, u, hp, h⟩ := bind_eq_ok.1 h
    rw [orShort, mapError_eq_ok] at hp
    rw [rangesFrom, hp]
    dsimp only
    cases hnext : nextRange r.1 p.1 p.2 with
    | none =>
      rw [hnext] at h
      cases h
    | some q =>
      rw [hnext] at h
      obtain ⟨hlen, hgap⟩ := nextRange_eq_some.1 hnext
      obtain ⟨hdesc, hlength⟩ := ih (by omega) h
      dsimp only
      refine ⟨?_, by rw [length_cons, hlength]⟩
      obtain ⟨rest, hrest⟩ := rangesFrom_ne_nil n q u
      rw [hrest] at hdesc ⊢
      exact hdesc.cons hr (by omega)

lemma descending_ranges {a : Ack} (h : a.Checked) :
    Descending a.ranges ∧ a.ranges.length = a.rangeCount + 1 :=
  descending_rangesFrom (r := (a.largest - a.firstRange, a.largest)) (Nat.sub_le _ _)
    h.others.apply_self

lemma acknowledges_iff {a : Ack} (h : a.Checked) (pn : ℕ) :
    a.acknowledges pn = true ↔ ∃ r ∈ a.ranges, r.1 ≤ pn ∧ pn ≤ r.2 :=
  inRanges_iff (descending_ranges h).1 pn

lemma exists_putRanges {r : ℕ × ℕ} {rest : List (ℕ × ℕ)} (h : Descending (r :: rest))
    (hr : r.1 ≤ MAX_VARINT) :
    ∃ bs, putRanges r.1 rest = some bs ∧ Yields (checkRanges rest.length r.1) bs () ∧
      rangesFrom rest.length r bs = r :: rest := by
  induction rest generalizing r with
  | nil => exact ⟨[], rfl, Yields.pure (), rfl⟩
  | cons q rest ih =>
    have hnext := h.next
    have hproper := h.tail.head
    obtain ⟨bs, hput, hy, hranges⟩ := ih h.tail (by omega)
    obtain ⟨bg, hbg, -, hyg⟩ := exists_put (v := r.1 - q.2 - 2) (by omega)
    obtain ⟨bl, hbl, -, hyl⟩ := exists_put (v := q.2 - q.1) (by omega)
    have hpair : Yields gapAndLen (bg ++ bl) (r.1 - q.2 - 2, q.2 - q.1) :=
      hyg.bind (hyl.bind_nil (Yields.pure _))
    have hrange : nextRange r.1 (r.1 - q.2 - 2) (q.2 - q.1) = some q :=
      nextRange_eq_some.2 ⟨by omega, by omega⟩
    refine ⟨bg ++ bl ++ bs, ?_, ?_, ?_⟩
    · have hbelow : q.2 ≤ r.1 := by omega
      have hroom : 2 ≤ r.1 - q.2 := by omega
      simp [putRanges, checkedSub, hbelow, hroom, hproper, putTwo, hbg, hbl, hput]
    · refine (yields_orShort hpair).bind ?_
      simp only [hrange]
      exact hy
    · rw [length_cons, rangesFrom, hpair bs]
      simp only [hrange, hranges]

lemma writeAck_eq_write {delay : ℕ} {r : ℕ × ℕ} {rest : List (ℕ × ℕ)} {bs : List UInt8}
    {ecn : Option EcnCounts} (hr : r.1 ≤ r.2) (hput : putRanges r.1 rest = some bs) :
    writeAck delay (r :: rest) ecn =
      (Frame.ack ⟨r.2, delay, r.2 - r.1, rest.length, bs, ecn⟩).write := by
  simp only [writeAck, Frame.write, Frame.writeBody, Frame.frameType, checkedSub, if_pos hr, hput]
  cases putVarint r.2 <;> cases putVarint delay <;> cases putVarint rest.length <;> try rfl
  show ((putVarint (r.2 - r.1)).bind fun len => _) = _
  cases putVarint (r.2 - r.1) <;> cases putEcn ecn <;> rfl

lemma exists_writeAck {ty : PacketType} {delay : ℕ} {ranges : List (ℕ × ℕ)}
    {ecn : Option EcnCounts} (hne : ranges ≠ []) (h : Descending ranges)
    (hlargest : ∀ r ∈ ranges, r.2 ≤ MAX_VARINT) (hdelay : delay ≤ MAX_VARINT)
    (hecn : ∀ v ∈ ecnNumbers ecn, v ≤ MAX_VARINT)
    (hallowed : allowedIn (if ecn.isSome then ACK_ECN else ACK) ty = true) :
    ∃ bs a, writeAck delay ranges ecn = some bs ∧ Yields (Frame.read ty) bs (.ack a) ∧
      a.ranges = ranges ∧ a.delay = delay ∧ a.ecn = ecn ∧ a.Checked := by
  cases ranges with
  | nil => exact absurd rfl hne
  | cons r rest =>
    have hhigh := hlargest r (mem_cons_self ..)
    have hlow := h.head
    obtain ⟨bs, hput, hy, hranges⟩ := exists_putRanges h (by omega)
    have hback : r.2 - (r.2 - r.1) = r.1 := by omega
    have hcount : rest.length ≤ MAX_VARINT := by
      have := h.length_le
      omega
    have hfirst : r.2 - r.1 ≤ MAX_VARINT := by omega
    have hchecked : (⟨r.2, delay, r.2 - r.1, rest.length, bs, ecn⟩ : Ack).Checked :=
      ⟨Nat.sub_le _ _, by rwa [hback]⟩
    have hvalid : (Frame.ack ⟨r.2, delay, r.2 - r.1, rest.length, bs, ecn⟩).Valid ty := by
      refine ⟨⟨?_, hchecked⟩, hallowed, fun n hn => by cases hn⟩
      simp only [Frame.numbers, cons_append, nil_append, forall_mem_cons]
      exact ⟨hhigh, hdelay, hcount, hfirst, hecn⟩
    obtain ⟨out, hwrite, -, hread⟩ := yields_read hvalid (by rintro ⟨n, hn⟩; cases hn)
    refine ⟨_, _, ?_, hread, ?_, rfl, rfl, hchecked⟩
    · rw [writeAck_eq_write hlow hput, hwrite]
    · rw [Ack.ranges, hback]
      exact hranges

lemma gives_number : Gives (orShort varint) (· ≤ MAX_VARINT) :=
  Gives.mapError _ fun _ _ _ h => le_of_varint h

lemma gives_data : Gives (orShort lengthPrefixed) (·.length ≤ MAX_VARINT) := by
  refine Gives.mapError _ (Gives.bind (fun _ _ _ h => le_of_varint h) fun n hn => ?_)
  intro s xs t h
  rw [(bytes_eq_ok.1 h).1]
  exact hn

lemma gives_streamCount : Gives streamCount fun n => n ≤ MAX_VARINT ∧ n ≤ MAX_STREAMS_LIMIT :=
  gives_number.bind fun _ hn => Gives.require fun hle => Gives.pure ⟨hn, hle⟩

/-- What is known of a frame when it was read behind a type. -/
structure Fits (ft : ℕ) (f : Frame) : Prop where
  inRange : f.InRange
  allowed : ∀ ty, allowedIn ft ty = true → allowedIn f.frameType ty = true
  run : ∀ n, f = .padding n → 1 ≤ n

lemma Fits.mk' {ft : ℕ} {f : Frame} (hn : ∀ v ∈ f.numbers, v ≤ MAX_VARINT) (hl : f.Limits)
    (hft : f.frameType = ft) (hne : ∀ n, f ≠ .padding n) : Fits ft f where
  inRange := ⟨hn, hl⟩
  allowed := fun ty h => by rwa [hft]
  run := fun n h => absurd h (hne n)

lemma gives_ecnOf (ft : ℕ) :
    Gives (ecnOf ft) fun ecn => (∀ v ∈ ecnNumbers ecn, v ≤ MAX_VARINT) ∧
      (ft = ACK_ECN ↔ ecn.isSome) := by
  refine Gives.ite (fun hft => Gives.map ?_) fun hft => Gives.pure ⟨by simp [ecnNumbers], by simpa⟩
  refine gives_number.bind fun e0 h0 => gives_number.bind fun e1 h1 =>
    gives_number.bind fun ce hce => Gives.pure ⟨?_, by simpa⟩
  simp [ecnNumbers, h0, h1, hce]

lemma gives_ackBody {ft : ℕ} (hft : ft = ACK ∨ ft = ACK_ECN) :
    Gives (ackBody ft) fun a => Fits ft (.ack a) := by
  refine gives_number.bind fun largest hlargest => gives_number.bind fun delay hdelay =>
    gives_number.bind fun rangeCount hcount => gives_number.bind fun firstRange hfirst =>
      Gives.require fun hle => ?_
  intro s a t h
  obtain ⟨start, u, hget, h⟩ := bind_eq_ok.1 h
  cases hget
  rw [require_bind_eq_ok] at h
  obtain ⟨-, h⟩ := h
  obtain ⟨⟨⟩, rest, hranges, h⟩ := bind_eq_ok.1 h
  obtain ⟨u, v, hget, h⟩ := bind_eq_ok.1 h
  cases hget
  obtain ⟨ecn, w, hecn, h⟩ := bind_eq_ok.1 h
  obtain ⟨rfl, -⟩ := pure_eq_ok.1 h
  obtain ⟨xs, rfl, hxs⟩ := local_checkRanges _ _ _ _ _ hranges
  obtain ⟨hnumbers, hkind⟩ := gives_ecnOf ft _ _ _ hecn
  have hslice : (xs ++ rest).take ((xs ++ rest).length - rest.length) = xs := by
    rw [List.length_append, Nat.add_sub_cancel, List.take_left]
  rw [hslice]
  refine Fits.mk' ?_ ⟨hle, hxs⟩ ?_ (by simp)
  · simp only [Frame.numbers, List.cons_append, List.nil_append, List.forall_mem_cons]
    exact ⟨hlargest, hdelay, hcount, hfirst, hnumbers⟩
  · rw [Frame.frameType]
    split_ifs with hsome
    · exact (hkind.2 hsome).symm
    · exact (hft.resolve_right (mt hkind.1 hsome)).symm

lemma allowedIn_stream {ft : ℕ} (h : 0x08 ≤ ft ∧ ft ≤ 0x0f) (ty : PacketType) :
    allowedIn ft ty = (ty = .zeroRtt ∨ ty = .oneRtt) := by
  obtain ⟨hlow, hhigh⟩ := h
  interval_cases ft <;> simp [allowedIn, PADDING, PING, CONNECTION_CLOSE, ACK, ACK_ECN, CRYPTO,
    NEW_TOKEN, PATH_RESPONSE, HANDSHAKE_DONE, RESET_STREAM, STOP_SENDING]

lemma gives_streamBody {ft : ℕ} (hft : 0x08 ≤ ft ∧ ft ≤ 0x0f) :
    Gives (streamBody ft) (Fits ft) := by
  refine gives_number.bind fun id hid => ?_
  refine Gives.after fun offset => Gives.after fun data => Gives.require fun hend =>
    Gives.pure ⟨⟨?_, hend⟩, fun ty h => ?_, fun n hn => by cases hn⟩
  · simp only [Frame.numbers, List.forall_mem_cons]
    exact ⟨hid, by omega, by omega, by simp⟩
  · have hwritten : 0x08 ≤ (Frame.stream id offset data (ft &&& STREAM_FIN ≠ 0)).frameType ∧
        (Frame.stream id offset data (ft &&& STREAM_FIN ≠ 0)).frameType ≤ 0x0f := by
      rw [Frame.frameType]
      cases decide (ft &&& STREAM_FIN ≠ 0) <;> split <;> decide
    rwa [allowedIn_stream hwritten, ← allowedIn_stream hft]

lemma gives_newConnectionIdBody : Gives newConnectionIdBody (Fits NEW_CONNECTION_ID) := by
  refine gives_number.bind fun sequence hseq => gives_number.bind fun retire hretire =>
    Gives.after fun len => Gives.require fun hlen => Gives.require fun hle => ?_
  refine Gives.bind (P := fun cid => cid.length = len.toNat)
    (Gives.mapError _ fun _ _ _ h => (bytes_eq_ok.1 h).1) fun cid hcid => Gives.after fun token =>
      Gives.pure (Fits.mk' ?_ ⟨?_, hle⟩ rfl (by simp))
  · have hmax : cid.length ≤ MAX_VARINT := by
      rw [MAX_CID_LEN] at hlen
      rw [MAX_VARINT]
      omega
    simp [Frame.numbers, hseq, hretire, hmax]
  · rw [hcid]
    exact ⟨by omega, hlen.2⟩

lemma gives_two {ft : ℕ} {mk : ℕ → ℕ → Frame}
    (h : ∀ v w, v ≤ MAX_VARINT → w ≤ MAX_VARINT → Fits ft (mk v w)) :
    Gives (ε := Bad) (do
      let v ← orShort varint
      let w ← orShort varint
      pure (mk v w)) (Fits ft) :=
  gives_number.bind fun v hv => gives_number.bind fun w hw => Gives.pure (h v w hv hw)

lemma gives_body {ft : ℕ} (hle : ft ≤ HANDSHAKE_DONE) : Gives (body ft) (Fits ft) := by
  rw [body]
  refine Gives.ite (fun h => Gives.map ?_) fun h0 => ?_
  · intro s n t hn
    cases hn
    refine ⟨⟨by simp [Frame.numbers], trivial⟩, fun ty hty => by rwa [h] at hty, fun n hn => ?_⟩
    cases hn
    omega
  refine Gives.ite (fun h => Gives.pure ?_) fun h1 => ?_
  · exact Fits.mk' (by simp [Frame.numbers]) trivial h.symm (by simp)
  refine Gives.ite (fun h => Gives.map (gives_ackBody h)) fun h2 => ?_
  refine Gives.ite (fun h => ?_) fun h3 => ?_
  · exact gives_number.bind fun id hid => gives_two fun error size he hs =>
      Fits.mk' (by simp [Frame.numbers, hid, he, hs]) trivial h.symm (by simp)
  refine Gives.ite (fun h => gives_two fun id error hid he => ?_) fun h4 => ?_
  · exact Fits.mk' (by simp [Frame.numbers, hid, he]) trivial h.symm (by simp)
  refine Gives.ite (fun h => ?_) fun h5 => ?_
  · exact gives_number.bind fun offset ho => gives_data.bind fun data hd =>
      Gives.require fun hend => Gives.pure
        (Fits.mk' (by simp [Frame.numbers, ho, hd]) hend h.symm (by simp))
  refine Gives.ite (fun h => ?_) fun h6 => ?_
  · exact gives_data.bind fun token htoken => Gives.require fun hne => Gives.pure
      (Fits.mk' (by simp [Frame.numbers, htoken]) hne h.symm (by simp))
  refine Gives.ite (fun h => gives_streamBody h) fun h7 => ?_
  refine Gives.ite (fun h => Gives.map ?_) fun h8 => ?_
  · exact fun s n t hn => Fits.mk' (by simp [Frame.numbers, gives_number s n t hn]) trivial h.symm
      (by simp)
  refine Gives.ite (fun h => gives_two fun id n hid hn => ?_) fun h9 => ?_
  · exact Fits.mk' (by simp [Frame.numbers, hid, hn]) trivial h.symm (by simp)
  refine Gives.ite (fun h => Gives.map ?_) fun h10 => ?_
  · intro s n t hn
    obtain ⟨hmax, hstreams⟩ := gives_streamCount s n t hn
    refine Fits.mk' (by simp [Frame.numbers, hmax]) hstreams ?_ (by simp)
    obtain rfl | rfl := h <;> rfl
  refine Gives.ite (fun h => Gives.map ?_) fun h11 => ?_
  · exact fun s n t hn => Fits.mk' (by simp [Frame.numbers, gives_number s n t hn]) trivial h.symm
      (by simp)
  refine Gives.ite (fun h => gives_two fun id n hid hn => ?_) fun h12 => ?_
  · exact Fits.mk' (by simp [Frame.numbers, hid, hn]) trivial h.symm (by simp)
  refine Gives.ite (fun h => Gives.map ?_) fun h13 => ?_
  · intro s n t hn
    obtain ⟨hmax, hstreams⟩ := gives_streamCount s n t hn
    refine Fits.mk' (by simp [Frame.numbers, hmax]) hstreams ?_ (by simp)
    obtain rfl | rfl := h <;> rfl
  refine Gives.ite (fun h => ?_) fun h14 => ?_
  · rw [h]
    exact gives_newConnectionIdBody
  refine Gives.ite (fun h => Gives.map ?_) fun h15 => ?_
  · exact fun s n t hn => Fits.mk' (by simp [Frame.numbers, gives_number s n t hn]) trivial h.symm
      (by simp)
  refine Gives.ite (fun h => Gives.map ?_) fun h16 => ?_
  · exact fun s d t hd => Fits.mk' (by simp [Frame.numbers]) trivial h.symm (by simp)
  refine Gives.ite (fun h => Gives.map ?_) fun h17 => ?_
  · exact fun s d t hd => Fits.mk' (by simp [Frame.numbers]) trivial h.symm (by simp)
  refine Gives.ite (fun h => ?_) fun h18 => Gives.ite (fun h => ?_) fun h19 => ?_
  · exact gives_number.bind fun code hcode => gives_number.bind fun type htype =>
      gives_data.bind fun reason hreason => Gives.pure
        (Fits.mk' (by simp [Frame.numbers, hcode, htype, hreason]) trivial h.symm (by simp))
  · exact gives_number.bind fun code hcode => gives_data.bind fun reason hreason => Gives.pure
      (Fits.mk' (by simp [Frame.numbers, hcode, hreason]) trivial h.symm (by simp))
  -- what is left is the largest of the types
  · refine Gives.pure (Fits.mk' (by simp [Frame.numbers]) trivial ?_ (by simp))
    simp only [types.PADDING, types.PING, types.ACK, types.ACK_ECN, types.RESET_STREAM,
      types.STOP_SENDING, types.CRYPTO, types.NEW_TOKEN, types.MAX_DATA, types.MAX_STREAM_DATA,
      types.MAX_STREAMS_BIDI, types.MAX_STREAMS_UNI, types.DATA_BLOCKED, types.STREAM_DATA_BLOCKED,
      types.STREAMS_BLOCKED_BIDI, types.STREAMS_BLOCKED_UNI, types.NEW_CONNECTION_ID,
      types.RETIRE_CONNECTION_ID, types.PATH_CHALLENGE, types.PATH_RESPONSE, types.CONNECTION_CLOSE,
      types.CONNECTION_CLOSE_APP, types.HANDSHAKE_DONE] at *
    show 0x1e = ft
    omega

lemma valid_of_read {ty : PacketType} {s t : List UInt8} {f : Frame}
    (h : Frame.read ty s = .ok (f, t)) : f.Valid ty := by
  obtain ⟨ft, u, -, hle, hallowed, hbody⟩ := read_eq_ok.1 h
  obtain ⟨hrange, hft, hrun⟩ := gives_body hle u f t hbody
  exact ⟨hrange, hft ty hallowed, hrun⟩

lemma mergePadding_ne_nil {fs : List Frame} (h : fs ≠ []) : mergePadding fs ≠ [] := by
  cases fs with
  | nil => exact absurd rfl h
  | cons f fs =>
    cases f with
    | padding n =>
      rw [mergePadding]
      split <;> simp
    | _ => exact List.cons_ne_nil _ _

/-- A frame that is in range is read as it was written, and frames written one after another are
read again, with neighbouring PADDING as one.  A frame that is read is written and read again as it
was. -/
theorem frames_survive_the_wire :
    (∀ (ty : PacketType) (f : Frame), f.Valid ty →
      ∃ bs, f.write = some bs ∧ f.len = some bs.length ∧ ∀ rest,
        (f.IsPadding → rest.head? ≠ some 0) → Frame.read ty (bs ++ rest) = .ok (f, rest)) ∧
    (∀ (ty : PacketType) (fs : List Frame), fs ≠ [] → (∀ f ∈ fs, f.Valid ty) →
      ∃ bs, writeAll fs = some bs ∧ frames bs ty = (mergePadding fs).map .ok) ∧
    (∀ (ty : PacketType) (delay : ℕ) (ranges : List (ℕ × ℕ)) (ecn : Option EcnCounts),
      ranges ≠ [] → Descending ranges → (∀ r ∈ ranges, r.2 ≤ MAX_VARINT) → delay ≤ MAX_VARINT →
      (∀ v ∈ ecnNumbers ecn, v ≤ MAX_VARINT) →
      allowedIn (if ecn.isSome then ACK_ECN else ACK) ty = true →
      ∃ bs a, writeAck delay ranges ecn = some bs ∧
        (∀ rest, Frame.read ty (bs ++ rest) = .ok (.ack a, rest)) ∧
        a.ranges = ranges ∧ a.delay = delay ∧ a.ecn = ecn ∧
        ∀ pn, a.acknowledges pn = true ↔ ∃ r ∈ ranges, r.1 ≤ pn ∧ pn ≤ r.2) ∧
    (∀ (ty : PacketType) (s t : List UInt8) (f : Frame), Frame.read ty s = .ok (f, t) →
      f.Valid ty ∧
      (∀ a, f = .ack a → a.firstRange ≤ a.largest ∧ a.ranges.length = a.rangeCount + 1 ∧
        Descending a.ranges) ∧
      ∃ bs, f.write = some bs ∧ Frame.read ty bs = .ok (f, [])) := by
  refine ⟨fun ty f => read_write, fun ty fs hne hvalid => ?_, ?_, fun ty s t f h => ?_⟩
  · obtain ⟨bs, hwrite, hread⟩ := framesFrom_writeAll hvalid
    refine ⟨bs, hwrite, ?_⟩
    have hbs : bs ≠ [] := by
      rintro rfl
      rw [framesFrom_nil, eq_comm, List.map_eq_nil_iff] at hread
      exact mergePadding_ne_nil hne hread
    rw [frames, if_neg hbs, hread]
  · intro ty delay ranges ecn hne hranges hmax hdelay hecn hallowed
    obtain ⟨bs, a, hwrite, hread, rfl, hadelay, haecn, hchecked⟩ :=
      exists_writeAck hne hranges hmax hdelay hecn hallowed
    exact ⟨bs, a, hwrite, hread, rfl, hadelay, haecn, acknowledges_iff hchecked⟩
  · have hvalid := valid_of_read h
    obtain ⟨bs, hwrite, -, hread⟩ := read_write hvalid
    refine ⟨hvalid, ?_, bs, hwrite, ?_⟩
    · rintro a rfl
      have hchecked : a.Checked := hvalid.inRange.limits
      obtain ⟨hdescending, hlength⟩ := descending_ranges hchecked
      exact ⟨hchecked.first, hlength, hdescending⟩
    · have := hread [] fun _ => by simp
      rwa [List.append_nil] at this

/-- A STREAM frame and an ACK frame of two ranges, in a 1-RTT packet. -/
theorem frames_survive_the_wire_oneRtt :
    (∃ bs, (Frame.stream 4 0 [1, 2, 3] true).write = some bs ∧
      Frame.read .oneRtt bs = .ok (.stream 4 0 [1, 2, 3] true, [])) ∧
    ∃ bs a, writeAck 25 [(7, 9), (1, 3)] none = some bs ∧
      Frame.read .oneRtt bs = .ok (.ack a, []) ∧ a.ranges = [(7, 9), (1, 3)] := by
  obtain ⟨hframe, -, hack, -⟩ := frames_survive_the_wire
  constructor
  · obtain ⟨bs, hwrite, -, hread⟩ := hframe .oneRtt (.stream 4 0 [1, 2, 3] true)
      ⟨⟨by decide, show 0 + 3 ≤ MAX_VARINT by decide⟩, rfl, fun n hn => by cases hn⟩
    refine ⟨bs, hwrite, ?_⟩
    have := hread [] fun _ => by simp
    rwa [List.append_nil] at this
  · obtain ⟨bs, a, hwrite, hread, hranges, -⟩ := hack .oneRtt 25 [(7, 9), (1, 3)] none (by simp)
      ⟨by decide, by decide⟩ (by decide) (by decide) (by decide) rfl
    refine ⟨bs, a, hwrite, ?_, hranges⟩
    have := hread []
    rwa [List.append_nil] at this

/-- A run of no PADDING is written as nothing, so it is not read again; and a payload of no frames
is an error. -/
theorem padding_zero_not_read :
    (Frame.padding 0).InRange ∧ allowedIn (Frame.padding 0).frameType .oneRtt = true ∧
      (Frame.padding 0).write = some [] ∧ (Frame.padding 0).len = some 0 ∧
      Frame.read .oneRtt [] = .error ⟨.truncated, 0⟩ ∧ writeAll [] = some [] ∧
      frames [] .oneRtt = [.error ⟨.empty, 0⟩] :=
  ⟨⟨by decide, trivial⟩, rfl, rfl, rfl, rfl, rfl, rfl⟩

end Lazaret.Quic.Wire
