import Lazaret.Quic.TransportParams
import Mathlib.Data.List.Perm.Lattice

/-!
# Transport parameters in any order

`decode` reads the parameters one by one and checks at the end which of them were there
(`decode_flatten`).  Each known parameter sets a field of its own (`set_comm`), so the order of the
parameters does not matter where no id occurs twice (`decode_perm`).
-/

namespace Lazaret.Quic.TransportParams

open Cursor Wire List

/-! ## The parameters one by one -/

/-- Bytes that are one parameter each, and these parameters. -/
abbrev Items (chunks : List (List UInt8)) (items : List (ℕ × List UInt8)) : Prop :=
  List.Forall₂ (Yields item) chunks items

abbrev Checked (sender : Sender) (items : List (ℕ × List UInt8)) (cs : List Parameter) : Prop :=
  List.Forall₂ (fun i c => parameter sender i.1 i.2 = .ok c) items cs

lemma readAll_nil (sender : Sender) (p : TransportParameters) (ids : List ℕ) :
    readAll sender [] p ids = .ok (p, ids) := by
  rw [readAll, if_pos rfl]

variable {sender : Sender} {ids : List ℕ}

lemma readAll_of_item {s rest value : List UInt8} {pid : ℕ}
    {p : TransportParameters} (h : item s = .ok ((pid, value), rest)) :
    readAll sender s p ids =
      (parameter sender pid value >>= fun c => readAll sender rest (p.set c) (ids ++ [pid])) := by
  have hs : s ≠ [] := by
    rintro rfl
    exact absurd (length_lt_of_item h) (by simp)
  rw [readAll, if_neg hs]
  split
  · rename_i e he
    rw [h] at he
    cases he
  · rename_i hi
    rw [h] at hi
    cases hi
    rfl

variable {chunks : List (List UInt8)} {items : List (ℕ × List UInt8)}

lemma readAll_flatten (h : Items chunks items) {p q : TransportParameters} {ids' : List ℕ} :
    readAll sender chunks.flatten p ids = .ok (q, ids') ↔
      ∃ cs, Checked sender items cs ∧ cs.foldl .set p = q ∧ ids ++ items.map Prod.fst = ids' := by
  induction h generalizing p ids with
  | nil =>
    rw [flatten_nil, readAll_nil]
    simp [Checked]
  | @cons chunk i chunks items hi hrest ih =>
    rw [flatten_cons, readAll_of_item (hi _)]
    simp only [Checked, forall₂_cons_left_iff]
    constructor
    · intro hread
      cases hc : parameter sender i.1 i.2 with
      | error e =>
        rw [hc] at hread
        cases hread
      | ok c =>
        rw [hc] at hread
        obtain ⟨cs, hcs, hq, hids⟩ := ih.1 hread
        refine ⟨c :: cs, ⟨c, cs, rfl, hcs, rfl⟩, hq, ?_⟩
        rw [← hids, map_cons, append_assoc, singleton_append]
    · rintro ⟨-, ⟨c, cs, hc, hcs, rfl⟩, hq, hids⟩
      rw [hc]
      refine ih.2 ⟨cs, hcs, hq, ?_⟩
      rw [← hids, map_cons, append_assoc, singleton_append]

lemma exists_items {s : List UInt8} {p : TransportParameters}
    {r : TransportParameters × List ℕ} (h : readAll sender s p ids = .ok r) :
    ∃ chunks items, Items chunks items ∧ s = chunks.flatten := by
  induction hn : s.length using Nat.strong_induction_on generalizing s p ids with
  | _ n ih =>
    by_cases hs : s = []
    · exact ⟨[], [], .nil, hs⟩
    · cases hi : item s with
      | error e =>
        rw [readAll, if_neg hs] at h
        split at h
        · cases h
        · rename_i hok
          rw [hi] at hok
          cases hok
      | ok r =>
        obtain ⟨⟨pid, value⟩, rest⟩ := r
        rw [readAll_of_item hi] at h
        have hlt := length_lt_of_item hi
        obtain ⟨chunk, rfl, hchunk⟩ := local_item _ _ _ hi
        cases hc : parameter sender pid value with
        | error e =>
          rw [hc] at h
          cases h
        | ok c =>
          rw [hc] at h
          obtain ⟨chunks, items, hitems, hrest⟩ := ih rest.length (by omega) h rfl
          exact ⟨chunk :: chunks, (pid, value) :: items, .cons hchunk hitems, by
            rw [flatten_cons, hrest]⟩

/-! ## No id twice -/

lemma neighboursEqual_eq_false {l : List ℕ} (h : l.Pairwise (· ≤ ·)) :
    neighboursEqual l = false ↔ l.Nodup := by
  induction l with
  | nil => simp [neighboursEqual]
  | cons a l ih =>
    cases l with
    | nil => simp [neighboursEqual]
    | cons b l =>
      obtain ⟨ha, hl⟩ := pairwise_cons.1 h
      have hmem : a ∈ b :: l ↔ a = b := by
        constructor
        · intro hab
          rcases mem_cons.1 hab with rfl | hal
          · rfl
          · exact le_antisymm (ha b (by simp)) ((pairwise_cons.1 hl).1 a hal)
        · rintro rfl
          simp
      rw [nodup_cons, hmem, ← ih hl]
      simp [neighboursEqual]

lemma neighboursEqual_mergeSort : neighboursEqual (ids.mergeSort (· ≤ ·)) = false ↔ ids.Nodup := by
  rw [neighboursEqual_eq_false (pairwise_mergeSort' _ _), (mergeSort_perm ids (· ≤ ·)).nodup_iff]

lemma decode_flatten (h : Items chunks items) {p : TransportParameters} :
    decode chunks.flatten sender = .ok p ↔
      (∃ cs, Checked sender items cs ∧ cs.foldl .set default = p) ∧ (items.map Prod.fst).Nodup ∧
        (sender = .server → p.originalDestinationConnectionId ≠ none) ∧
        p.initialSourceConnectionId ≠ none := by
  constructor
  · intro hread
    cases hall : readAll sender chunks.flatten default [] with
    | error e =>
      rw [decode, hall] at hread
      cases hread
    | ok r =>
      obtain ⟨q, ids⟩ := r
      obtain ⟨cs, hcs, hq, rfl⟩ := (readAll_flatten h).1 hall
      rw [decode, hall] at hread
      change (if _ then _ else _) = _ at hread
      split_ifs at hread with hserver hsource htwice
      cases hread
      refine ⟨⟨cs, hcs, hq⟩, ?_, fun hs hnone => hserver ⟨hs, hnone⟩, hsource⟩
      exact neighboursEqual_mergeSort.1 (Bool.eq_false_iff.2 htwice)
  · rintro ⟨⟨cs, hcs, hq⟩, hnodup, hserver, hsource⟩
    rw [decode, (readAll_flatten h).2 ⟨cs, hcs, hq, rfl⟩]
    change (if _ then _ else _) = _
    rw [if_neg fun hs => hserver hs.1 hs.2, if_neg hsource, if_neg]
    rw [Bool.not_eq_true, neighboursEqual_mergeSort]
    exact hnodup

/-! ## In any order -/

def Parameter.id : Parameter → ℕ
  | .originalDestinationConnectionId _ => id.ORIGINAL_DESTINATION_CONNECTION_ID
  | .maxIdleTimeout _ => id.MAX_IDLE_TIMEOUT
  | .statelessResetToken _ => id.STATELESS_RESET_TOKEN
  | .maxUdpPayloadSize _ => id.MAX_UDP_PAYLOAD_SIZE
  | .initialMaxData _ => id.INITIAL_MAX_DATA
  | .initialMaxStreamDataBidiLocal _ => id.INITIAL_MAX_STREAM_DATA_BIDI_LOCAL
  | .initialMaxStreamDataBidiRemote _ => id.INITIAL_MAX_STREAM_DATA_BIDI_REMOTE
  | .initialMaxStreamDataUni _ => id.INITIAL_MAX_STREAM_DATA_UNI
  | .initialMaxStreamsBidi _ => id.INITIAL_MAX_STREAMS_BIDI
  | .initialMaxStreamsUni _ => id.INITIAL_MAX_STREAMS_UNI
  | .ackDelayExponent _ => id.ACK_DELAY_EXPONENT
  | .maxAckDelay _ => id.MAX_ACK_DELAY
  | .disableActiveMigration => id.DISABLE_ACTIVE_MIGRATION
  | .preferredAddress _ => id.PREFERRED_ADDRESS
  | .activeConnectionIdLimit _ => id.ACTIVE_CONNECTION_ID_LIMIT
  | .initialSourceConnectionId _ => id.INITIAL_SOURCE_CONNECTION_ID
  | .retrySourceConnectionId _ => id.RETRY_SOURCE_CONNECTION_ID
  | .maxDatagramFrameSize _ => id.MAX_DATAGRAM_FRAME_SIZE
  | .unknown pid _ => pid

/-- The same but for the order of the parameters that are not known. -/
structure Same (p q : TransportParameters) : Prop where
  known : { p with unknown := [] } = { q with unknown := [] }
  unknown : p.unknown.Perm q.unknown

namespace Same

variable {p q r : TransportParameters}

@[refl] lemma refl (p : TransportParameters) : Same p p := ⟨rfl, .refl _⟩

lemma trans (h : Same p q) (h' : Same q r) : Same p r :=
  ⟨h.known.trans h'.known, h.unknown.trans h'.unknown⟩

lemma set (h : Same p q) (c : Parameter) : Same (p.set c) (q.set c) := by
  obtain ⟨hknown, hunknown⟩ := h
  obtain ⟨⟩ := p
  obtain ⟨⟩ := q
  simp only [TransportParameters.mk.injEq, and_true] at hknown
  obtain ⟨rfl, rfl, rfl, rfl, rfl, rfl, rfl, rfl, rfl, rfl, rfl, rfl, rfl, rfl, rfl, rfl, rfl, rfl⟩
    := hknown
  cases c with
  | unknown pid value => exact ⟨rfl, hunknown.append_right _⟩
  | _ => exact ⟨rfl, hunknown⟩

lemma foldl (h : Same p q) (cs : List Parameter) : Same (cs.foldl .set p) (cs.foldl .set q) := by
  induction cs generalizing p q with
  | nil => exact h
  | cons c cs ih => exact ih (h.set c)

end Same

lemma set_comm {c d : Parameter} (h : c.id ≠ d.id) (p : TransportParameters) :
    Same ((p.set c).set d) ((p.set d).set c) := by
  cases c <;> cases d <;> first | exact Same.refl _ | exact absurd rfl h | skip
  refine ⟨rfl, ?_⟩
  simp only [TransportParameters.set, append_assoc, singleton_append]
  exact (List.Perm.swap ..).append_left _

lemma foldl_perm {cs ds : List Parameter} (h : cs.Perm ds) (hnodup : (cs.map Parameter.id).Nodup)
    (p : TransportParameters) : Same (cs.foldl .set p) (ds.foldl .set p) := by
  induction h generalizing p with
  | nil => exact Same.refl p
  | cons c _ ih => exact ih (nodup_cons.1 hnodup).2 (p.set c)
  | swap c d cs =>
    refine Same.foldl (set_comm ?_ p) cs
    intro heq
    simp [heq] at hnodup
  | trans h _ ih ih' =>
    exact (ih hnodup p).trans (ih' ((h.map Parameter.id).nodup_iff.1 hnodup) p)

/-- A check gives a parameter of this id, if it gives one. -/
def HasId (pid : ℕ) (r : Except Error Parameter) : Prop := ∀ c, r = .ok c → c.id = pid

namespace HasId

variable {pid : ℕ}

lemma ok {c : Parameter} (h : c.id = pid) : HasId pid (.ok c) := by
  rintro d ⟨⟩
  exact h

lemma error (e : Error) : HasId pid (.error e) := by
  rintro c ⟨⟩

lemma map {α : Type} {mk : α → Parameter} (h : ∀ a, (mk a).id = pid) (r : Except Error α) :
    HasId pid (mk <$> r) := by
  cases r with
  | error e => exact error e
  | ok a => exact ok (h a)

lemma ite {q : Prop} [Decidable q] {r r' : Except Error Parameter} (h : q → HasId pid r)
    (h' : HasId pid r') : HasId pid (if q then r else r') := by
  split
  · rename_i hq
    exact h hq
  · exact h'

lemma serverOnly {sender : Sender} {r : Except Error Parameter} (h : HasId pid r) :
    HasId pid (serverOnly sender r) :=
  ite (fun _ => error _) h

end HasId

lemma hasId_parameter (sender : Sender) (pid : ℕ) (value : List UInt8) :
    HasId pid (parameter sender pid value) := by
  rw [parameter]
  refine HasId.ite (fun h => HasId.serverOnly (HasId.map (fun _ => by exact h.symm) _)) ?_
  refine HasId.ite (fun h => HasId.map (fun _ => by exact h.symm) _) ?_
  refine HasId.ite (fun h => HasId.serverOnly (HasId.map (fun _ => by exact h.symm) _)) ?_
  iterate 9 refine HasId.ite (fun h => HasId.map (fun _ => by exact h.symm) _) ?_
  refine HasId.ite (fun h => HasId.ite (fun _ => HasId.error _) (HasId.ok (by exact h.symm))) ?_
  refine HasId.ite (fun h => HasId.serverOnly (HasId.map (fun _ => by exact h.symm) _)) ?_
  iterate 2 refine HasId.ite (fun h => HasId.map (fun _ => by exact h.symm) _) ?_
  refine HasId.ite (fun h => HasId.serverOnly (HasId.map (fun _ => by exact h.symm) _)) ?_
  exact HasId.ite (fun h => HasId.map (fun _ => by exact h.symm) _) (HasId.ok rfl)

lemma map_id_of_checked {cs : List Parameter}
    (h : Checked sender items cs) : cs.map Parameter.id = items.map Prod.fst := by
  induction h with
  | nil => rfl
  | cons hc _ ih =>
    rw [map_cons, map_cons, ih, hasId_parameter _ _ _ _ hc]

lemma decode_perm {chunks' : List (List UInt8)} {p : TransportParameters} (h : Items chunks items)
    (hperm : chunks'.Perm chunks) (hread : decode chunks.flatten sender = .ok p) :
    ∃ p', decode chunks'.flatten sender = .ok p' ∧ Same p p' := by
  obtain ⟨⟨cs, hcs, rfl⟩, hnodup, hserver, hsource⟩ := (decode_flatten h).1 hread
  obtain ⟨items', hitems', hperm'⟩ := perm_comp_forall₂ hperm h
  obtain ⟨cs', hcs', hpermcs⟩ := perm_comp_forall₂ hperm' hcs
  have hids : (cs.map Parameter.id).Nodup := by rwa [map_id_of_checked hcs]
  have hsame : Same (cs.foldl .set default) (cs'.foldl .set default) :=
    foldl_perm hpermcs.symm hids default
  have hknown := hsame.known
  simp only [TransportParameters.mk.injEq] at hknown
  refine ⟨cs'.foldl .set default, (decode_flatten hitems').2 ⟨⟨cs', hcs', rfl⟩, ?_, ?_, ?_⟩, hsame⟩
  · exact (hperm'.map Prod.fst).nodup_iff.2 hnodup
  · rwa [← hknown.1]
  · rwa [← hknown.2.2.2.2.2.2.2.2.2.2.2.2.2.2.2.1]

end Lazaret.Quic.TransportParams
