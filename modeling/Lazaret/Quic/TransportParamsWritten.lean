import Lazaret.Quic.TransportParamsOrder

/-!
# Transport parameters are read back

`encode` writes the parameters that are not the default, and `decode` reads them back
(`decode_encode`).
-/

namespace Lazaret.Quic.TransportParams

open Cursor Wire List

/-! ## What is written is read back -/

def knownIds : List ℕ := List.range 0x11 ++ [0x20]

/-- The parameters are within the ranges that `decode` checks, those that the sender must give are
there, and the ones that only a server gives are not from a client. -/
structure TransportParameters.Valid (p : TransportParameters) (sender : Sender) : Prop where
  numbers : ∀ v ∈ [p.maxIdleTimeout, p.maxUdpPayloadSize, p.initialMaxData,
    p.initialMaxStreamDataBidiLocal, p.initialMaxStreamDataBidiRemote, p.initialMaxStreamDataUni,
    p.activeConnectionIdLimit] ++ p.maxDatagramFrameSize.toList, v ≤ MAX_VARINT
  payload : MIN_UDP_PAYLOAD_SIZE ≤ p.maxUdpPayloadSize
  streams : p.initialMaxStreamsBidi ≤ MAX_STREAMS_LIMIT ∧ p.initialMaxStreamsUni ≤ MAX_STREAMS_LIMIT
  exponent : p.ackDelayExponent.toNat ≤ MAX_ACK_DELAY_EXPONENT
  ackDelay : p.maxAckDelay < MAX_ACK_DELAY_LIMIT
  connectionIds : 2 ≤ p.activeConnectionIdLimit
  cids : ∀ cid ∈ p.originalDestinationConnectionId.toList ++ p.initialSourceConnectionId.toList ++
    p.retrySourceConnectionId.toList, cid.length ≤ MAX_CID_LEN
  address : ∀ a ∈ p.preferredAddress,
    1 ≤ a.connectionId.length ∧ a.connectionId.length ≤ MAX_CID_LEN
  unknown : ∀ u ∈ p.unknown, u.1 ∉ knownIds ∧ u.1 ≤ MAX_VARINT ∧ u.2.length ≤ MAX_VARINT
  distinct : (p.unknown.map Prod.fst).Nodup
  source : p.initialSourceConnectionId ≠ none
  server : sender = .server → p.originalDestinationConnectionId ≠ none
  client : sender = .client → p.originalDestinationConnectionId = none ∧
    p.statelessResetToken = none ∧ p.preferredAddress = none ∧ p.retrySourceConnectionId = none

/-- What is written of these parameters makes one record of the other. -/
def Reads (sender : Sender) (ws : List (ℕ × Value)) (p q : TransportParameters) : Prop :=
  ∃ chunks items cs, ws.mapM (fun i => put i.1 i.2) = some chunks ∧ Items chunks items ∧
    Checked sender items cs ∧ cs.foldl .set p = q ∧ items.map Prod.fst = ws.map Prod.fst

namespace Reads

variable {sender : Sender} {ws vs : List (ℕ × Value)} {p q r : TransportParameters}

lemma nil (p : TransportParameters) : Reads sender [] p p :=
  ⟨[], [], [], rfl, .nil, .nil, rfl, rfl⟩

lemma of_eq (h : p = q) : Reads sender [] p q := h ▸ nil p

lemma append (h : Reads sender ws p q) (h' : Reads sender vs q r) :
    Reads sender (ws ++ vs) p r := by
  obtain ⟨chunks, items, cs, hput, hitems, hcs, rfl, hids⟩ := h
  obtain ⟨chunks', items', cs', hput', hitems', hcs', rfl, hids'⟩ := h'
  refine ⟨chunks ++ chunks', items ++ items', cs ++ cs', ?_, rel_append hitems hitems',
    rel_append hcs hcs', foldl_append, ?_⟩
  · rw [mapM_append, hput, hput']
    rfl
  · rw [map_append, map_append, hids, hids']

lemma step {rest : List (List (ℕ × Value))} (h : Reads sender ws p q)
    (h' : Reads sender rest.flatten q r) : Reads sender (ws :: rest).flatten p r :=
  h.append h'

lemma one {pid : ℕ} {v : Value} {chunk value : List UInt8} {c : Parameter}
    (hput : put pid v = some chunk) (hitem : Yields item chunk (pid, value))
    (hc : parameter sender pid value = .ok c) : Reads sender [(pid, v)] p (p.set c) :=
  ⟨[chunk], [(pid, value)], [c], by simp [hput], .cons hitem .nil, .cons hc .nil, rfl, rfl⟩

end Reads

lemma yields_item {pid : ℕ} {head len value : List UInt8} (hhead : Yields varint head pid)
    (hlen : Yields varint len value.length) : Yields item (head ++ (len ++ value)) (pid, value) :=
  (hhead.mapError _).bind ((hlen.mapError _).bind
    (((yields_bytes rfl).mapError _).bind_nil (Yields.pure _)))

lemma reads_bytes {sender : Sender} {pid : ℕ} {value : List UInt8} {p : TransportParameters}
    {c : Parameter} (hpid : pid ≤ MAX_VARINT) (hlen : value.length ≤ MAX_VARINT)
    (hc : parameter sender pid value = .ok c) :
    Reads sender [(pid, .bytes value)] p (p.set c) := by
  obtain ⟨head, hhead, -, hyhead⟩ := exists_put hpid
  obtain ⟨len, hput, -, hylen⟩ := exists_put hlen
  refine Reads.one ?_ (yields_item hyhead hylen) hc
  simp [put, hhead, hput]

lemma whole_of_yields {α : Type} {p : Cursor UInt8 Error α} {value : List UInt8} {a : α}
    {longer : String} (h : Yields p value a) : whole p longer value = .ok a := by
  rw [whole, h.apply_self]
  rfl

lemma reads_number {sender : Sender} {pid v : ℕ} {p : TransportParameters} {c : Parameter}
    (hpid : pid ≤ MAX_VARINT) (hv : v ≤ MAX_VARINT)
    (hc : ∀ value, number value = .ok v → parameter sender pid value = .ok c) :
    Reads sender [(pid, .number v)] p (p.set c) := by
  obtain ⟨head, hhead, -, hyhead⟩ := exists_put hpid
  obtain ⟨value, hvalue, hlenv, hyvalue⟩ := exists_put hv
  have hsmall : value.length ≤ MAX_VARINT := by
    rw [varintLen] at hlenv
    split_ifs at hlenv <;> rw [← Option.some.inj hlenv] <;> decide
  obtain ⟨len, hlen, -, hylen⟩ := exists_put hsmall
  refine Reads.one ?_ (yields_item hyhead hylen) (hc value (whole_of_yields (hyvalue.mapError _)))
  simp [put, hhead, hlenv, hlen, hvalue]

section Known

variable {sender : Sender} {pid : ℕ} {p q : TransportParameters}

lemma reads_unlessDefault {v d : ℕ} (mk : ℕ → Parameter) (hpid : pid ≤ MAX_VARINT)
    (hv : v ≤ MAX_VARINT)
    (hc : ∀ value, number value = .ok v → parameter sender pid value = .ok (mk v))
    (hd : p.set (mk d) = p) (hq : p.set (mk v) = q) : Reads sender (unlessDefault pid v d) p q := by
  rw [unlessDefault, ← hq]
  split_ifs with h
  · exact reads_number hpid hv hc
  · rw [not_not.1 h, hd]
    exact Reads.nil p

lemma reads_plain {v d : ℕ} (mk : ℕ → Parameter) (hpid : pid ≤ MAX_VARINT) (hv : v ≤ MAX_VARINT)
    (hc : ∀ value, parameter sender pid value = mk <$> number value)
    (hd : p.set (mk d) = p) (hq : p.set (mk v) = q) : Reads sender (unlessDefault pid v d) p q :=
  reads_unlessDefault mk hpid hv (fun value h => by rw [hc, h]; rfl) hd hq

lemma reads_checked {v d : ℕ} (mk : ℕ → Parameter) {ok : ℕ → Bool} {what : String}
    (hpid : pid ≤ MAX_VARINT) (hv : v ≤ MAX_VARINT)
    (hc : ∀ value, parameter sender pid value = mk <$> checked ok what value) (hok : ok v = true)
    (hd : p.set (mk d) = p) (hq : p.set (mk v) = q) : Reads sender (unlessDefault pid v d) p q := by
  refine reads_unlessDefault mk hpid hv (fun value h => ?_) hd hq
  rw [hc, checked, h]
  show mk <$> (if ok v = true then _ else _) = _
  rw [if_pos hok]
  rfl

variable {α : Type} {x : Option α} {f : α → List UInt8} (mk : α → Parameter)

lemma reads_ifSome (update : Option α → TransportParameters) (hpid : pid ≤ MAX_VARINT)
    (hnone : update none = p) (hsome : ∀ a, p.set (mk a) = update (some a)) (hq : update x = q)
    (hx : ∀ a ∈ x, (f a).length ≤ MAX_VARINT ∧ parameter sender pid (f a) = .ok (mk a)) :
    Reads sender (ifSome pid f x) p q := by
  rw [← hq]
  cases x with
  | none =>
    rw [hnone]
    exact Reads.nil p
  | some a =>
    obtain ⟨hlen, hc⟩ := hx a rfl
    rw [← hsome]
    exact reads_bytes hpid hlen hc

lemma reads_ifServer (update : Option α → TransportParameters) (hpid : pid ≤ MAX_VARINT)
    (hnone : update none = p) (hsome : ∀ a, p.set (mk a) = update (some a)) (hq : update x = q)
    (hclient : sender = .client → x = none)
    (hx : ∀ a ∈ x, (f a).length ≤ MAX_VARINT ∧ parameter .server pid (f a) = .ok (mk a)) :
    Reads sender (ifServer sender pid f x) p q := by
  cases sender with
  | client =>
    rw [← hq, hclient rfl, hnone]
    exact Reads.nil p
  | server => exact reads_ifSome mk update hpid hnone hsome hq hx

end Known

lemma reads_unknown {sender : Sender} {us : List (ℕ × List UInt8)} (p : TransportParameters)
    (h : ∀ u ∈ us, u.1 ∉ knownIds ∧ u.1 ≤ MAX_VARINT ∧ u.2.length ≤ MAX_VARINT) :
    Reads sender (us.map fun u => (u.1, .bytes u.2)) p { p with unknown := p.unknown ++ us } := by
  induction us generalizing p with
  | nil =>
    rw [append_nil]
    exact Reads.nil p
  | cons u us ih =>
    rw [forall_mem_cons] at h
    obtain ⟨⟨hid, hpid, hlen⟩, hrest⟩ := h
    have hc : parameter sender u.1 u.2 = .ok (.unknown u.1 u.2) := by
      rw [parameter]
      iterate 18 rw [if_neg fun he => hid (by rw [he]; decide)]
    have := (reads_bytes (p := p) hpid hlen hc).append (ih (p.set (.unknown u.1 u.2)) hrest)
    simpa [TransportParameters.set, append_assoc] using this

/-! ### The parameters that are known -/

lemma fromBeBytes_toBeBytes (port : UInt16) :
    fromBeBytes (toBeBytes port) = port := by
  have hlt : port.toNat < 2 ^ 16 := UInt16.toNat_lt port
  have hhigh : (UInt8.ofNat (port.toNat / 256)).toNat = port.toNat / 256 := by
    rw [UInt8.toNat_ofNat']
    omega
  have hlow : (UInt8.ofNat port.toNat).toNat = port.toNat % 256 := UInt8.toNat_ofNat'
  show UInt16.ofNat ((UInt8.ofNat (port.toNat / 256)).toNat * 256 +
    (UInt8.ofNat port.toNat).toNat) = port
  rw [hhigh, hlow, Nat.div_add_mod']
  exact UInt16.ofNat_toNat

lemma preferredAddress_addressBytes {pa : PreferredAddress}
    (h : 1 ≤ pa.connectionId.length ∧ pa.connectionId.length ≤ MAX_CID_LEN) :
    preferredAddress (addressBytes pa) = .ok pa := by
  obtain ⟨⟨v4, p4⟩, ⟨v6, p6⟩, cid, token⟩ := pa
  dsimp only at h
  have hbyte : (UInt8.ofNat cid.length).toNat = cid.length := by
    rw [MAX_CID_LEN] at h
    rw [UInt8.toNat_ofNat']
    omega
  apply whole_of_yields
  refine (Yields.array _ v4).bind ((Yields.array _ (toBeBytes p4)).bind
    ((Yields.array _ v6).bind ((Yields.array _ (toBeBytes p6)).bind ?_)))
  have hlen : Yields (u8.mapError fun _ => (⟨"preferred_address is cut short"⟩ : Error))
      [UInt8.ofNat cid.length] (UInt8.ofNat cid.length) := (yields_u8 _).mapError _
  refine hlen.bind ?_
  refine Yields.require ⟨by omega, by omega⟩ ?_
  refine ((yields_bytes hbyte.symm).mapError _).bind ((Yields.array _ token).bind_nil ?_)
  rw [fromBeBytes_toBeBytes, fromBeBytes_toBeBytes]
  exact Yields.pure _

lemma length_addressBytes {pa : PreferredAddress} (h : pa.connectionId.length ≤ MAX_CID_LEN) :
    (addressBytes pa).length ≤ MAX_VARINT := by
  have hmax : MAX_CID_LEN + 100 ≤ MAX_VARINT := by decide
  simp only [addressBytes, length_append, length_cons, List.Vector.toList_length]
  omega

lemma reads_migration {sender : Sender} {p : TransportParameters} {b : Bool}
    (h : p.disableActiveMigration = false) :
    Reads sender (if b then [(id.DISABLE_ACTIVE_MIGRATION, .bytes [])] else []) p
      { p with disableActiveMigration := b } := by
  cases b with
  | false =>
    refine Reads.of_eq ?_
    rw [← h]
  | true =>
    have hlen : ([] : List UInt8).length ≤ MAX_VARINT := by decide
    exact reads_bytes (c := .disableActiveMigration) (by decide) hlen rfl

lemma reads_datagram {sender : Sender} {p : TransportParameters} {x : Option ℕ}
    (h : p.maxDatagramFrameSize = none) (hx : ∀ n ∈ x.toList, n ≤ MAX_VARINT) :
    Reads sender (ifNumber id.MAX_DATAGRAM_FRAME_SIZE x) p
      { p with maxDatagramFrameSize := x } := by
  cases x with
  | none =>
    refine Reads.of_eq ?_
    rw [← h]
  | some size =>
    refine reads_number (c := .maxDatagramFrameSize size) (by decide) (hx size (by simp))
      fun value hvalue => ?_
    show _ <$> number value = _
    rw [hvalue]
    rfl

/-- The first so many of the known parameters, and the defaults of the others. -/
def filled (p : TransportParameters) (n : ℕ) : TransportParameters where
  originalDestinationConnectionId := if 1 ≤ n then p.originalDestinationConnectionId else none
  maxIdleTimeout := if 2 ≤ n then p.maxIdleTimeout else 0
  statelessResetToken := if 3 ≤ n then p.statelessResetToken else none
  maxUdpPayloadSize := if 4 ≤ n then p.maxUdpPayloadSize else DEFAULT_MAX_UDP_PAYLOAD_SIZE
  initialMaxData := if 5 ≤ n then p.initialMaxData else 0
  initialMaxStreamDataBidiLocal := if 6 ≤ n then p.initialMaxStreamDataBidiLocal else 0
  initialMaxStreamDataBidiRemote := if 7 ≤ n then p.initialMaxStreamDataBidiRemote else 0
  initialMaxStreamDataUni := if 8 ≤ n then p.initialMaxStreamDataUni else 0
  initialMaxStreamsBidi := if 9 ≤ n then p.initialMaxStreamsBidi else 0
  initialMaxStreamsUni := if 10 ≤ n then p.initialMaxStreamsUni else 0
  ackDelayExponent := if 11 ≤ n then p.ackDelayExponent else DEFAULT_ACK_DELAY_EXPONENT
  maxAckDelay := if 12 ≤ n then p.maxAckDelay else DEFAULT_MAX_ACK_DELAY
  disableActiveMigration := if 13 ≤ n then p.disableActiveMigration else false
  preferredAddress := if 14 ≤ n then p.preferredAddress else none
  activeConnectionIdLimit :=
    if 15 ≤ n then p.activeConnectionIdLimit else DEFAULT_ACTIVE_CONNECTION_ID_LIMIT
  initialSourceConnectionId := if 16 ≤ n then p.initialSourceConnectionId else none
  retrySourceConnectionId := if 17 ≤ n then p.retrySourceConnectionId else none
  maxDatagramFrameSize := if 18 ≤ n then p.maxDatagramFrameSize else none
  unknown := []

lemma reads_known {p : TransportParameters} {sender : Sender} (h : p.Valid sender) :
    Reads sender (p.known sender) default { p with unknown := [] } := by
  have hn := h.numbers
  simp only [cons_append, nil_append, forall_mem_cons] at hn
  obtain ⟨hidle, hpayload, hdata, hlocal, hremote, huni, hlimit, hdatagram⟩ := hn
  obtain ⟨hbidi, hstreams⟩ := h.streams
  have hmax : ∀ n ≤ MAX_STREAMS_LIMIT, n ≤ MAX_VARINT := fun n hn => hn.trans (by decide)
  have hcids : ∀ (mk : List UInt8 → Parameter) (cid : List UInt8), cid.length ≤ MAX_CID_LEN →
      cid.length ≤ MAX_VARINT ∧ (mk <$> connectionId cid) = .ok (mk cid) := fun mk cid hcid =>
    ⟨hcid.trans (by decide), by rw [connectionId, if_neg (by omega)]; rfl⟩
  have hclient := h.client
  show Reads sender (p.known sender) (filled p 0) (filled p 18)
  rw [TransportParameters.known]
  refine Reads.step (q := filled p 1) ?_ ?_
  · refine reads_ifServer .originalDestinationConnectionId
      (fun x => { filled p 0 with originalDestinationConnectionId := x }) (by decide) rfl
      (fun _ => rfl) rfl (fun hs => (hclient hs).1) fun cid hcid => ?_
    exact hcids _ cid (h.cids cid (by simp [Option.mem_def.1 hcid]))
  refine Reads.step (q := filled p 2)
    (reads_plain .maxIdleTimeout (by decide) hidle (fun _ => rfl) rfl rfl) ?_
  refine Reads.step (q := filled p 3) ?_ ?_
  · refine reads_ifServer .statelessResetToken
      (fun x => { filled p 2 with statelessResetToken := x }) (by decide) rfl
      (fun _ => rfl) rfl (fun hs => (hclient hs).2.1) fun token _ => ⟨?_, ?_⟩
    · rw [token.toList_length]
      decide
    · show _ <$> resetToken token.toList = _
      rw [resetToken, dif_pos token.toList_length]
      rfl
  refine Reads.step (q := filled p 4) (reads_checked .maxUdpPayloadSize (by decide) hpayload
    (fun _ => rfl) (decide_eq_true h.payload) rfl rfl) ?_
  refine Reads.step (q := filled p 5)
    (reads_plain .initialMaxData (by decide) hdata (fun _ => rfl) rfl rfl) ?_
  refine Reads.step (q := filled p 6)
    (reads_plain .initialMaxStreamDataBidiLocal (by decide) hlocal (fun _ => rfl) rfl rfl) ?_
  refine Reads.step (q := filled p 7)
    (reads_plain .initialMaxStreamDataBidiRemote (by decide) hremote (fun _ => rfl) rfl rfl) ?_
  refine Reads.step (q := filled p 8)
    (reads_plain .initialMaxStreamDataUni (by decide) huni (fun _ => rfl) rfl rfl) ?_
  refine Reads.step (q := filled p 9) (reads_checked .initialMaxStreamsBidi (by decide)
    (hmax _ hbidi) (fun _ => rfl) (decide_eq_true hbidi) rfl rfl) ?_
  refine Reads.step (q := filled p 10) (reads_checked .initialMaxStreamsUni (by decide)
    (hmax _ hstreams) (fun _ => rfl) (decide_eq_true hstreams) rfl rfl) ?_
  refine Reads.step (q := filled p 11) (reads_checked .ackDelayExponent (by decide)
    (h.exponent.trans (by decide)) (fun _ => rfl) (decide_eq_true h.exponent) rfl ?_) ?_
  · rw [TransportParameters.set, UInt8.ofNat_toNat]
    rfl
  refine Reads.step (q := filled p 12) (reads_checked .maxAckDelay (by decide)
    (h.ackDelay.le.trans (by decide)) (fun _ => rfl) (decide_eq_true h.ackDelay) rfl rfl) ?_
  refine Reads.step (q := filled p 13) (reads_migration (p := filled p 12) rfl) ?_
  refine Reads.step (q := filled p 14) ?_ ?_
  · refine reads_ifServer .preferredAddress
      (fun x => { filled p 13 with preferredAddress := x }) (by decide) rfl
      (fun _ => rfl) rfl (fun hs => (hclient hs).2.2.1) fun a ha => ?_
    refine ⟨length_addressBytes (h.address a ha).2, ?_⟩
    show _ <$> preferredAddress (addressBytes a) = _
    rw [preferredAddress_addressBytes (h.address a ha)]
    rfl
  refine Reads.step (q := filled p 15) (reads_checked .activeConnectionIdLimit (by decide) hlimit
    (fun _ => rfl) (decide_eq_true h.connectionIds) rfl rfl) ?_
  refine Reads.step (q := filled p 16) ?_ ?_
  · refine reads_ifSome .initialSourceConnectionId
      (fun x => { filled p 15 with initialSourceConnectionId := x }) (by decide) rfl
      (fun _ => rfl) rfl fun cid hcid => ?_
    exact hcids _ cid (h.cids cid (by simp [Option.mem_def.1 hcid]))
  refine Reads.step (q := filled p 17) ?_ ?_
  · refine reads_ifServer .retrySourceConnectionId
      (fun x => { filled p 16 with retrySourceConnectionId := x }) (by decide) rfl
      (fun _ => rfl) rfl (fun hs => (hclient hs).2.2.2) fun cid hcid => ?_
    exact hcids _ cid (h.cids cid (by simp [Option.mem_def.1 hcid]))
  exact Reads.step (q := filled p 18) (reads_datagram (p := filled p 17) rfl hdatagram)
    (Reads.of_eq rfl)

/-! ### The ids that are written -/

lemma sublist_ifSome {α : Type} {pid : ℕ} {f : α → List UInt8} {x : Option α} :
    ((ifSome pid f x).map Prod.fst).Sublist [pid] := by
  cases x <;> simp [ifSome]

lemma sublist_ifServer {α : Type} {sender : Sender} {pid : ℕ} {f : α → List UInt8} {x : Option α} :
    ((ifServer sender pid f x).map Prod.fst).Sublist [pid] := by
  rw [ifServer]
  split
  · exact sublist_ifSome
  · simp

lemma sublist_ifNumber {pid : ℕ} {x : Option ℕ} :
    ((ifNumber pid x).map Prod.fst).Sublist [pid] := by
  cases x <;> simp [ifNumber]

lemma sublist_unlessDefault {pid v d : ℕ} :
    ((unlessDefault pid v d).map Prod.fst).Sublist [pid] := by
  rw [unlessDefault]
  split <;> simp

lemma sublist_step {pid : ℕ} {ws : List (ℕ × Value)} {rest : List (List (ℕ × Value))}
    {ids : List ℕ} (h : (ws.map Prod.fst).Sublist [pid])
    (h' : (rest.flatten.map Prod.fst).Sublist ids) :
    ((ws :: rest).flatten.map Prod.fst).Sublist (pid :: ids) := by
  rw [flatten_cons, map_append]
  exact h.append h'

lemma sublist_known (p : TransportParameters) (sender : Sender) :
    ((p.known sender).map Prod.fst).Sublist knownIds := by
  rw [TransportParameters.known]
  refine sublist_step sublist_ifServer (sublist_step sublist_unlessDefault ?_)
  refine sublist_step sublist_ifServer ?_
  iterate 9 refine sublist_step sublist_unlessDefault ?_
  refine sublist_step ?_ (sublist_step sublist_ifServer (sublist_step sublist_unlessDefault ?_))
  · split
    · exact Sublist.refl _
    · exact nil_sublist _
  exact sublist_step sublist_ifSome (sublist_step sublist_ifServer
    (sublist_step sublist_ifNumber (Sublist.refl _)))

lemma nodup_written {p : TransportParameters} {sender : Sender} (h : p.Valid sender) :
    ((p.written sender).map Prod.fst).Nodup := by
  have hids : (p.unknown.map fun u => ((u.1, Value.bytes u.2) : ℕ × Value)).map Prod.fst =
      p.unknown.map Prod.fst := by
    rw [map_map]
    rfl
  rw [TransportParameters.written, map_append, hids]
  refine Nodup.append ((sublist_known p sender).nodup (by decide)) h.distinct ?_
  intro pid hknown hunknown
  obtain ⟨u, hu, rfl⟩ := mem_map.1 hunknown
  exact (h.unknown u hu).1 ((sublist_known p sender).subset hknown)

lemma decode_encode {p : TransportParameters} {sender : Sender} (h : p.Valid sender) :
    ∃ bs, p.encode sender = some bs ∧ decode bs sender = .ok p := by
  obtain ⟨chunks, items, cs, hput, hitems, hcs, hfold, hids⟩ :=
    (reads_known h).append (reads_unknown { p with unknown := [] } h.unknown)
  refine ⟨chunks.flatten, ?_, (decode_flatten hitems).2 ⟨⟨cs, hcs, hfold⟩, ?_, h.server, h.source⟩⟩
  · rw [TransportParameters.encode, putAll, TransportParameters.written, hput, Option.map_some]
  · rw [hids]
    exact nodup_written h

/-- Transport parameters that are in range are read back as they were written.  Whatever `decode`
accepts has no id twice, and is accepted in any order. -/
theorem transport_parameters_round_trip (sender : Sender) :
    (∀ p : TransportParameters, p.Valid sender →
      ∃ bs, p.encode sender = some bs ∧ decode bs sender = .ok p) ∧
    (∀ data p, decode data sender = .ok p → ∃ chunks items, Items chunks items ∧
      data = chunks.flatten ∧ (items.map Prod.fst).Nodup) ∧
    (∀ chunks items p, Items chunks items → decode chunks.flatten sender = .ok p →
      ∀ chunks' : List (List UInt8), chunks'.Perm chunks → ∃ p', decode chunks'.flatten sender =
        .ok p' ∧ Same p p') ∧
    ∀ chunks items, Items chunks items → ¬ (items.map Prod.fst).Nodup →
      ∃ e, decode chunks.flatten sender = .error e := by
  refine ⟨fun p => decode_encode, fun data p h => ?_, fun chunks items p hitems h chunks' hperm =>
    decode_perm hitems hperm h, fun chunks items hitems htwice => ?_⟩
  · cases hall : readAll sender data default [] with
    | error e =>
      rw [decode, hall] at h
      cases h
    | ok r =>
      obtain ⟨chunks, items, hitems, rfl⟩ := exists_items hall
      exact ⟨chunks, items, hitems, rfl, ((decode_flatten hitems).1 h).2.1⟩
  · cases h : decode chunks.flatten sender with
    | error e => exact ⟨e, rfl⟩
    | ok p => exact absurd ((decode_flatten hitems).1 h).2.1 htwice

/-- A client's parameters, one of them of an id that is not known. -/
theorem transport_parameters_round_trip_client :
    ∃ bs, TransportParameters.encode { default with
        maxIdleTimeout := 30000
        initialSourceConnectionId := some [1, 2, 3, 4]
        unknown := [(27, [0, 0])] } .client = some bs ∧
      decode bs .client = .ok { default with
        maxIdleTimeout := 30000
        initialSourceConnectionId := some [1, 2, 3, 4]
        unknown := [(27, [0, 0])] } := by
  refine (transport_parameters_round_trip .client).1 _ ?_
  constructor <;> decide

end Lazaret.Quic.TransportParams
