import Lazaret.Lib.Run
import Lazaret.Quic.Recovery
import Mathlib.Data.List.Perm.Basic

/-!
# Every packet is settled once

What loss recovery does over whole runs.  A packet that was sent is outstanding until it is
returned, once: as acknowledged, lost, discarded with its space, or given up when everything starts
over.  The books are the bytes in flight and the count of the ack-eliciting packets in flight of
each space.
-/

namespace Lazaret.Quic.Recovery

open List BTreeMap

variable {T : Type*}

inductive Fate where
  | acked
  | lost
  | discarded
  | reset
deriving DecidableEq

/-- The packets still waiting to be acknowledged, each with its space. -/
def outstanding (r : Recovery T) : List (Space × Sent T) :=
  Space.all.flatMap fun space => (values (r.spaces space)).map (Prod.mk space)

inductive Call (T : Type*) where
  | onPacketSent (now : ℕ) (space : Space) (sent : Sent T)
  | onAckReceived (now : ℕ) (space : Space) (largest ack_delay : ℕ) (ranges : List (ℕ × ℕ))
  | onTimeout (now : ℕ)
  | discardSpace (now : ℕ) (space : Space)
  | reset (rtt : Option ℕ)
  | onHandshakeConfirmed (now : ℕ)
  | setMaxDatagramSize (size : ℕ)

/-- Loss recovery, with all that was sent and all that was returned. -/
structure World (T : Type*) where
  recovery : Recovery T
  now : ℕ
  /-- The number after the last one used, for each space. -/
  next_pn : Space → ℕ
  sent : List (Space × Sent T)
  settled : List ((Space × Sent T) × Fate)

namespace World

def new (max_datagram_size : ℕ) : World T :=
  ⟨Recovery.new max_datagram_size, 0, fun _ => 0, [], []⟩

def settle (w : World T) (space : Space) (fate : Fate) (ps : List (Sent T)) : World T :=
  { w with settled := w.settled ++ ps.map fun p => ((space, p), fate) }

def step (w : World T) : Call T → Option (World T)
  | .onPacketSent now space sent =>
    some { w with
      recovery := w.recovery.onPacketSent now space sent
      now := now
      next_pn := Function.update w.next_pn space (sent.pn + 1)
      sent := w.sent ++ [(space, sent)] }
  | .onAckReceived now space largest ack_delay ranges =>
    (w.recovery.onAckReceived now space largest ack_delay ranges).map fun (out, r) =>
      ({ w with recovery := r, now := now }.settle space .acked out.acked).settle space .lost
      out.lost
  | .onTimeout now =>
    (w.recovery.onTimeout now).map fun (out, r) =>
      { w with recovery := r, now := now }.settle out.lost_space .lost out.lost
  | .discardSpace now space =>
    let (gone, r) := w.recovery.discardSpace now space
    some ({ w with recovery := r, now := now }.settle space .discarded gone)
  | .reset rtt =>
    -- the packets come back space after space
    let (gone, r) := w.recovery.reset rtt
    let spaces := w.recovery.outstanding.map Prod.fst
    some { w with
      recovery := r
      settled := w.settled ++ (spaces.zip gone).map fun p => (p, Fate.reset) }
  | .onHandshakeConfirmed now =>
    some { w with recovery := w.recovery.onHandshakeConfirmed now, now := now }
  | .setMaxDatagramSize size => some { w with recovery := w.recovery.setMaxDatagramSize size }

/-- The most bytes that a UDP datagram says it has: its length field has 16 bits. -/
def MAX_DATAGRAM : ℕ := 65535

/-- What the caller keeps to: packet numbers ascend in each space, a packet is in one datagram, an
acknowledgment has ranges from the highest down that are apart and below the next packet number, and
time does not go back. -/
def Allowed (w : World T) : Call T → Prop
  | .onPacketSent now space sent => w.now ≤ now ∧ w.next_pn space ≤ sent.pn ∧
    sent.size ≤ MAX_DATAGRAM
  | .onAckReceived now space _ _ ranges =>
    w.now ≤ now ∧ (∀ r ∈ ranges, r.1 ≤ r.2 ∧ r.2 < w.next_pn space) ∧
      ranges.Pairwise fun r r' => r'.2 < r.1
  | .onTimeout now => w.now ≤ now
  | .discardSpace now _ => w.now ≤ now
  | .reset _ => True
  | .onHandshakeConfirmed now => w.now ≤ now
  | .setMaxDatagramSize size => size ≤ MAX_DATAGRAM

instance (w : World T) : (c : Call T) → Decidable (Allowed w c)
  | .onPacketSent .. => inferInstanceAs (Decidable (_ ∧ _ ∧ _))
  | .onAckReceived .. => inferInstanceAs (Decidable (_ ∧ _ ∧ _))
  | .onTimeout _ => inferInstanceAs (Decidable (_ ≤ _))
  | .discardSpace .. => inferInstanceAs (Decidable (_ ≤ _))
  | .reset _ => inferInstanceAs (Decidable True)
  | .onHandshakeConfirmed _ => inferInstanceAs (Decidable (_ ≤ _))
  | .setMaxDatagramSize _ => inferInstanceAs (Decidable (_ ≤ _))

end World

/-- What a packet counts for in the bytes in flight. -/
def weight (p : Sent T) : ℕ := if p.in_flight then p.size else 0

def bytes (ps : List (Space × Sent T)) : ℕ := (ps.map fun p => weight p.2).sum

/-- Whether a packet counts among those to be acknowledged. -/
def counts (p : Sent T) : Bool := p.in_flight && p.ack_eliciting

def MayProbe (r : Recovery T) (space : Space) : Prop :=
  space ≠ .application ∨ r.handshake_confirmed = true

/-- Each packet is settled once, and the books balance. -/
structure Balanced (w : World T) : Prop where
  /-- A packet is outstanding or was returned, and not both. -/
  settled_once : w.sent.Perm (w.recovery.outstanding ++ w.settled.map Prod.fst)
  distinct : (w.sent.map fun p => (p.1, p.2.pn)).Nodup
  in_flight : w.recovery.cc.in_flight = bytes w.recovery.outstanding
  /-- Nothing was cut off by a subtraction: what was sent is in flight or was returned. -/
  exact : w.recovery.cc.in_flight + bytes (w.settled.map Prod.fst) = bytes w.sent
  ack_eliciting : ∀ space, (w.recovery.spaces space).ack_eliciting_in_flight =
    (values (w.recovery.spaces space)).countP counts
  window : minimumWindow w.recovery.cc.max_datagram_size ≤ w.recovery.cc.window
  timer_set : ∀ space, MayProbe w.recovery space →
    0 < (w.recovery.spaces space).ack_eliciting_in_flight → w.recovery.timer.isSome = true
  timer_off : (∀ space, (w.recovery.spaces space).ack_eliciting_in_flight = 0 ∧
    (w.recovery.spaces space).loss_time = none) →
    w.recovery.peerCompletedAddressValidation = true → w.recovery.timer = none

/-! ### Packets taken out of a space -/

def load (ps : List (Sent T)) : ℕ := (ps.map weight).sum

lemma load_perm {ps qs : List (Sent T)} (h : ps.Perm qs) : load ps = load qs :=
  (h.map weight).sum_nat

lemma bytes_append (ps qs : List (Space × Sent T)) : bytes (ps ++ qs) = bytes ps + bytes qs := by
  rw [bytes, map_append, sum_append]
  rfl

lemma bytes_perm {ps qs : List (Space × Sent T)} (h : ps.Perm qs) : bytes ps = bytes qs :=
  (h.map fun p : Space × Sent T => weight p.2).sum_nat

@[simp] lemma bytes_mk (space : Space) (ps : List (Sent T)) :
    bytes (ps.map (Prod.mk space)) = load ps := by
  rw [bytes, map_map]
  rfl

lemma takeOut_perm {m : BTreeMap ℕ (Sent T)} {keys : List ℕ}
    {out : List (Sent T) × BTreeMap ℕ (Sent T)} (h : takeOut m keys = some out) :
    (m.entries.map Prod.snd).Perm (out.1 ++ out.2.entries.map Prod.snd) ∧ ∀ e ∈ out.2, e ∈ m := by
  induction keys generalizing m out with
  | nil =>
    cases h
    exact ⟨Perm.refl _, fun e he => he⟩
  | cons k keys ih =>
    rw [takeOut] at h
    split at h
    · cases h
    · rename_i p hp
      obtain ⟨rest, hrest, rfl⟩ := Option.map_eq_some_iff.1 h
      obtain ⟨hperm, hsub⟩ := ih hrest
      refine ⟨?_, fun e he => (mem_remove.1 (hsub e he)).1⟩
      exact ((entries_remove hp).map Prod.snd).trans (hperm.cons p)

lemma takeOut_isSome {m : BTreeMap ℕ (Sent T)} {keys : List ℕ} (hnodup : keys.Nodup)
    (hmem : ∀ k ∈ keys, ∃ p, (k, p) ∈ m) : ∃ out, takeOut m keys = some out := by
  induction keys generalizing m with
  | nil => exact ⟨_, rfl⟩
  | cons k keys ih =>
    rw [nodup_cons] at hnodup
    obtain ⟨p, hp⟩ := hmem k mem_cons_self
    have hleft : ∀ q ∈ keys, ∃ p', (q, p') ∈ m.remove k := by
      intro q hq
      obtain ⟨p', hp'⟩ := hmem q (mem_cons_of_mem _ hq)
      refine ⟨p', mem_remove.2 ⟨hp', ?_⟩⟩
      rintro rfl
      exact hnodup.1 hq
    obtain ⟨rest, hrest⟩ := ih hnodup.2 hleft
    refine ⟨(p :: rest.1, rest.2), ?_⟩
    rw [takeOut, get_eq_some.2 hp]
    simp only [hrest, Option.map_some]

lemma keys_nodup (m : BTreeMap ℕ (Sent T)) : (m.entries.map Prod.fst).Nodup := by
  rw [nodup_iff_pairwise_ne, pairwise_map]
  exact m.sorted.imp fun h => ne_of_lt h

lemma takeOut_of_sublist {m : BTreeMap ℕ (Sent T)} {es : List (ℕ × Sent T)}
    (h : es.Sublist m.entries) : ∃ out, takeOut m (es.map Prod.fst) = some out := by
  refine takeOut_isSome ((keys_nodup m).sublist (h.map Prod.fst)) fun k hk => ?_
  obtain ⟨e, he, rfl⟩ := mem_map.1 hk
  exact ⟨e.2, h.subset he⟩

lemma takeRanges_spec (m : BTreeMap ℕ (Sent T)) (ranges : List (ℕ × ℕ)) :
    ∃ out, takeRanges m ranges = some out ∧
      (m.entries.map Prod.snd).Perm (out.1 ++ out.2.entries.map Prod.snd) ∧ ∀ e ∈ out.2, e ∈ m := by
  induction ranges generalizing m with
  | nil => exact ⟨_, rfl, Perm.refl _, fun e he => he⟩
  | cons r ranges ih =>
    obtain ⟨here, hhere⟩ := takeOut_of_sublist
      (filter_sublist (p := fun e : ℕ × Sent T => decide (r.1 ≤ e.1 ∧ e.1 ≤ r.2))
        (l := m.entries))
    obtain ⟨hperm, hsub⟩ := takeOut_perm hhere
    obtain ⟨rest, hrest, hperm', hsub'⟩ := ih here.2
    refine ⟨(here.1 ++ rest.1, rest.2), ?_, ?_, fun e he => hsub e (hsub' e he)⟩
    · rw [takeRanges]
      dsimp only [BTreeMap.range]
      rw [hhere, Option.bind_some, hrest]
      rfl
    · rw [append_assoc]
      exact hperm.trans (hperm'.append_left _)

/-- `r'` is `r` with the packets `ps` of `space` taken out; what is in the other spaces is as it
was. -/
structure Splits (r r' : Recovery T) (space : Space) (ps : List (Sent T)) : Prop where
  other : ∀ s, s ≠ space → r'.spaces s = r.spaces s
  values_perm : (values (r.spaces space)).Perm (ps ++ values (r'.spaces space))
  subset : ∀ e ∈ (r'.spaces space).sent, e ∈ (r.spaces space).sent

namespace Splits

variable {r r' r'' : Recovery T} {space : Space} {ps qs : List (Sent T)}

variable (h : Splits r r' space ps)
include h

lemma trans (h' : Splits r' r'' space qs) :
    Splits r r'' space (ps ++ qs) where
  other := fun s hs => (h'.other s hs).trans (h.other s hs)
  values_perm := by
    rw [append_assoc]
    exact h.values_perm.trans (h'.values_perm.append_left _)
  subset := fun e he => h.subset e (h'.subset e he)

lemma of_spaces (heq : r''.spaces = r'.spaces) : Splits r r'' space ps := by
  obtain ⟨h1, h2, h3⟩ := h
  exact ⟨heq ▸ h1, heq ▸ h2, heq ▸ h3⟩

lemma perm (hqs : ps.Perm qs) : Splits r r' space qs :=
  ⟨h.other, h.values_perm.trans (hqs.append_right _), h.subset⟩

lemma outstanding_perm :
    r.outstanding.Perm (ps.map (Prod.mk space) ++ r'.outstanding) := by
  have hsplit := (h.values_perm.map (Prod.mk space))
  rw [map_append] at hsplit
  simp only [outstanding, Space.all, flatMap_cons, flatMap_nil, append_nil]
  cases space with
  | initial =>
    rw [h.other .handshake (by decide), h.other .application (by decide)]
    refine (hsplit.append_right _).trans ?_
    rw [append_assoc]
  | handshake =>
    rw [h.other .initial (by decide), h.other .application (by decide)]
    refine ((hsplit.append_right _).append_left _).trans ?_
    rw [append_assoc]
    exact perm_append_comm_assoc _ _ _
  | application =>
    rw [h.other .initial (by decide), h.other .handshake (by decide)]
    refine ((hsplit.append_left _).append_left _).trans ?_
    refine ((perm_append_comm_assoc _ _ _).append_left _).trans ?_
    exact perm_append_comm_assoc _ _ _

lemma bytes_eq : bytes r.outstanding = load ps + bytes r'.outstanding := by
  rw [bytes_perm h.outstanding_perm, bytes_append, bytes_mk]

end Splits

/-! ### The books -/

/-- The books of `r`, in which `space` still has `b` bytes and `n` ack-eliciting packets in flight
that are not outstanding any more. -/
structure Owing (r : Recovery T) (space : Space) (b n : ℕ) : Prop where
  in_flight : r.cc.in_flight = bytes r.outstanding + b
  count : (r.spaces space).ack_eliciting_in_flight = (values (r.spaces space)).countP counts + n
  other : ∀ s, s ≠ space →
    (r.spaces s).ack_eliciting_in_flight = (values (r.spaces s)).countP counts
  wide : r.cc.Wide
  keyed : ∀ s, ∀ e ∈ (r.spaces s).sent, e.1 = e.2.pn
  last : ∀ s, 0 < (r.spaces s).ack_eliciting_in_flight →
    (r.spaces s).last_ack_eliciting.isSome = true

variable {r r' : Recovery T} {space : Space} {b n now : ℕ}

def Sound (r : Recovery T) : Prop := ∀ space, Owing r space 0 0

lemma Owing.sound (h : Owing r space 0 0) : Sound r := by
  intro s
  refine ⟨h.in_flight, ?_, fun s' _ => ?_, h.wide, h.keyed, h.last⟩
  · rcases eq_or_ne s space with rfl | hs
    · exact h.count
    · exact h.other s hs
  · rcases eq_or_ne s' space with rfl | hs
    · exact h.count
    · exact h.other s' hs

lemma sound_new (max_datagram_size : ℕ) : Sound (new max_datagram_size : Recovery T) := by
  intro space
  refine ⟨?_, ?_, fun s _ => ?_, NewReno.wide_new _, fun s e he => ?_, fun s hs => ?_⟩
  · cases space <;> rfl
  · rfl
  · rfl
  · exact absurd he not_mem_empty
  · exact absurd hs (by simp [new, SpaceState.new])

lemma Owing.of_eq (h : Owing r space b n) (hspaces : r'.spaces = r.spaces) (hcc : r'.cc = r.cc) :
    Owing r' space b n := by
  obtain ⟨h1, h2, h3, h4, h5, h6⟩ := h
  refine ⟨?_, ?_, ?_, ?_, ?_, ?_⟩
  · rw [outstanding, hspaces, hcc]
    exact h1
  · rwa [hspaces]
  · rwa [hspaces]
  · rwa [hcc]
  · rwa [hspaces]
  · rwa [hspaces]

lemma Owing.split {ps : List (Sent T)} (h : Owing r space b n) (hsplit : Splits r r' space ps)
    (hcc : r'.cc = r.cc) (n' : ℕ)
    (hcount : (r'.spaces space).ack_eliciting_in_flight + ps.countP counts + n =
      (r.spaces space).ack_eliciting_in_flight + n')
    (hle : (r'.spaces space).ack_eliciting_in_flight ≤ (r.spaces space).ack_eliciting_in_flight)
    (hlast : (r'.spaces space).last_ack_eliciting = (r.spaces space).last_ack_eliciting) :
    Owing r' space (b + load ps) n' where
  in_flight := by
    rw [hcc, h.in_flight, hsplit.bytes_eq]
    omega
  count := by
    have hperm := hsplit.values_perm.countP_eq counts
    rw [countP_append] at hperm
    have := h.count
    omega
  other := fun s hs => by
    rw [hsplit.other s hs]
    exact h.other s hs
  wide := hcc ▸ h.wide
  keyed := fun s e he => by
    rcases eq_or_ne s space with rfl | hs
    · exact h.keyed s e (hsplit.subset e he)
    · rw [hsplit.other s hs] at he
      exact h.keyed s e he
  last := fun s hpos => by
    rcases eq_or_ne s space with rfl | hs
    · rw [hlast]
      exact h.last s (by omega)
    · rw [hsplit.other s hs] at hpos ⊢
      exact h.last s hpos

@[simp] lemma setSpace_same (s : SpaceState T) : (r.setSpace space s).spaces space = s := by
  simp [setSpace]

lemma setSpace_other (s : SpaceState T) {s' : Space} (h : s' ≠ space) :
    (r.setSpace space s).spaces s' = r.spaces s' := by
  simp [setSpace, h]

lemma foldl_lostOrClose (now loss_delay largest : ℕ) (es : List (ℕ × Sent T))
    (found : List ℕ × Option ℕ) :
    ∃ fs : List (ℕ × Sent T), fs.Sublist es ∧
      (es.foldl (lostOrClose now loss_delay largest) found).1 = found.1 ++ fs.map Prod.fst := by
  induction es generalizing found with
  | nil => exact ⟨[], Sublist.refl _, by simp⟩
  | cons e es ih =>
    rw [foldl_cons, lostOrClose]
    split_ifs
    · obtain ⟨fs, hfs, heq⟩ := ih (found.1 ++ [e.1], found.2)
      refine ⟨e :: fs, hfs.cons_cons e, ?_⟩
      rw [heq, map_cons, append_assoc]
      rfl
    · obtain ⟨fs, hfs, heq⟩ := ih (found.1, some (found.2.elim (later e.2.time loss_delay)
        fun l => min l (later e.2.time loss_delay)))
      exact ⟨fs, hfs.cons e, heq⟩

lemma Owing.detectLost (h : Owing r space b n) (now : ℕ) :
    ∃ lost r', r.detectLost now space = some (lost, r') ∧ Splits r r' space lost ∧
      Owing r' space (b + load lost) n := by
  rw [Recovery.detectLost]
  dsimp only
  split
  · have hsplit : Splits r (r.setSpace space { r.spaces space with loss_time := none }) space
      [] := by
      refine ⟨fun s hs => setSpace_other _ hs, ?_, ?_⟩
      · rw [setSpace_same]
        exact Perm.refl _
      · rw [setSpace_same]
        exact fun e he => he
    refine ⟨_, _, rfl, hsplit, h.split hsplit rfl n ?_ ?_ ?_⟩
    all_goals simp
  · rename_i largest hlargest
    set loss_delay := max (max r.latest_rtt r.smoothed_rtt * 9 / 8) GRANULARITY
    obtain ⟨fs, hfs, hfound⟩ := foldl_lostOrClose now loss_delay largest
      ((r.spaces space).sent.range fun k => k ≤ largest) ([], none)
    rw [nil_append] at hfound
    obtain ⟨out, hout⟩ := takeOut_of_sublist (hfs.trans filter_sublist)
    obtain ⟨hperm, hsub⟩ := takeOut_perm hout
    have hle : out.1.countP counts ≤ (r.spaces space).ack_eliciting_in_flight := by
      have hcount := hperm.countP_eq counts
      rw [countP_append] at hcount
      have := h.count
      rw [values] at this
      omega
    have hsub' : checkedSub (r.spaces space).ack_eliciting_in_flight
        (out.1.countP fun p => p.in_flight && p.ack_eliciting) =
        some ((r.spaces space).ack_eliciting_in_flight - out.1.countP counts) := if_pos hle
    rw [hfound, hout, Option.bind_some, hsub']
    refine ⟨_, _, rfl, ?_⟩
    have hsplit : Splits r (r.setSpace space { r.spaces space with
        sent := out.2
        loss_time := (((r.spaces space).sent.range fun k => k ≤ largest).foldl
          (lostOrClose now loss_delay largest) ([], none)).2
        ack_eliciting_in_flight :=
          (r.spaces space).ack_eliciting_in_flight - out.1.countP counts }) space out.1 := by
      refine ⟨fun s hs => setSpace_other _ hs, ?_, ?_⟩
      · rw [setSpace_same]
        exact hperm
      · rw [setSpace_same]
        exact hsub
    refine ⟨hsplit, h.split hsplit rfl n ?_ ?_ ?_⟩
    all_goals rw [setSpace_same]
    · dsimp only
      omega
    · dsimp only
      omega

lemma takeOffLost_spec (lost : List (Sent T)) (cc : NewReno) (last_sent : Option ℕ) (h : cc.Wide) :
    (takeOffLost lost cc last_sent).1.Wide ∧
      (takeOffLost lost cc last_sent).1.in_flight = cc.in_flight - load lost := by
  induction lost generalizing cc last_sent with
  | nil => exact ⟨h, rfl⟩
  | cons p lost ih =>
    rw [takeOffLost]
    split_ifs with hp
    · obtain ⟨h1, h2⟩ := ih (cc.onLost p.size) _ (h.onLost p.size)
      refine ⟨h1, ?_⟩
      rw [h2, NewReno.onLost_in_flight, load, load, map_cons, sum_cons, weight, if_pos hp]
      omega
    · obtain ⟨h1, h2⟩ := ih cc last_sent h
      refine ⟨h1, ?_⟩
      rw [h2, load, load, map_cons, sum_cons, weight, if_neg hp]
      omega

lemma onPacketsLost_spaces (r : Recovery T) (now : ℕ) (lost : List (Sent T)) :
    (r.onPacketsLost now lost).spaces = r.spaces := by
  rw [onPacketsLost]
  dsimp only
  split_ifs <;> rfl

lemma onPacketsLost_cc (r : Recovery T) (now : ℕ) (lost : List (Sent T)) (h : r.cc.Wide) :
    (r.onPacketsLost now lost).cc.Wide ∧
      (r.onPacketsLost now lost).cc.in_flight = r.cc.in_flight - load lost := by
  obtain ⟨hwide, hflight⟩ := takeOffLost_spec lost r.cc none h
  have hevent : ∀ last_sent : Option ℕ,
      (last_sent.elim (takeOffLost lost r.cc none).1
        fun sent => (takeOffLost lost r.cc none).1.onCongestionEvent now sent).Wide ∧
      (last_sent.elim (takeOffLost lost r.cc none).1
        fun sent => (takeOffLost lost r.cc none).1.onCongestionEvent now sent).in_flight =
        r.cc.in_flight - load lost := by
    intro last_sent
    cases last_sent with
    | none => exact ⟨hwide, hflight⟩
    | some sent => exact ⟨hwide.onCongestionEvent sent now, by simp [hflight]⟩
  rw [onPacketsLost]
  dsimp only
  split_ifs
  · exact ⟨NewReno.wide_onPersistentCongestion, (hevent _).2⟩
  · exact hevent _

lemma Owing.onPacketsLost {lost : List (Sent T)} (h : Owing r space (b + load lost) n) (now : ℕ) :
    Owing (r.onPacketsLost now lost) space b n := by
  obtain ⟨hwide, hflight⟩ := onPacketsLost_cc r now lost h.wide
  have hspaces := onPacketsLost_spaces r now lost
  have hin := h.in_flight
  refine ⟨?_, ?_, ?_, hwide, ?_, ?_⟩
  · rw [hflight, outstanding, hspaces]
    rw [outstanding] at hin
    omega
  · rw [hspaces]
    exact h.count
  · rw [hspaces]
    exact h.other
  · rw [hspaces]
    exact h.keyed
  · rw [hspaces]
    exact h.last

lemma takeOffAcked_spec (before : ℕ) (acked : List (Sent T)) (cc : NewReno) (count : ℕ)
    (h : cc.Wide) (hle : acked.countP counts ≤ count) :
    ∃ cc', takeOffAcked before acked cc count = some (cc', count - acked.countP counts) ∧ cc'.Wide ∧
      cc'.in_flight = cc.in_flight - load acked := by
  induction acked generalizing cc count with
  | nil => exact ⟨cc, rfl, h, rfl⟩
  | cons p acked ih =>
    rw [countP_cons, counts] at hle
    rw [takeOffAcked, countP_cons, counts]
    have hload : load (p :: acked) = weight p + load acked := by
      rw [load, map_cons, sum_cons]
      rfl
    cases hp : p.in_flight with
    | false =>
      rw [hp] at hle
      obtain ⟨cc', h1, h2, h3⟩ := ih cc count h (by simpa using hle)
      refine ⟨cc', by simpa using h1, h2, ?_⟩
      rw [h3, hload, weight, hp]
      simp
    | true =>
      cases ha : p.ack_eliciting with
      | false =>
        rw [hp, ha] at hle
        obtain ⟨cc', h1, h2, h3⟩ := ih _ count (h.onAcked p.size p.time before)
          (by simpa using hle)
        refine ⟨cc', by simpa using h1, h2, ?_⟩
        rw [h3, hload, weight, hp, NewReno.onAcked_in_flight, if_pos rfl]
        omega
      | true =>
        rw [hp, ha] at hle
        simp only [Bool.and_self, if_true] at hle
        obtain ⟨cc', h1, h2, h3⟩ := ih _ (count - 1) (h.onAcked p.size p.time before) (by omega)
        refine ⟨cc', ?_, h2, ?_⟩
        · rw [if_pos rfl]
          dsimp only
          rw [if_pos rfl, checkedSub, if_pos (by omega), Option.bind_some, h1]
          simp only [Bool.and_self, if_true]
          congr 2
          omega
        · rw [h3, hload, weight, hp, NewReno.onAcked_in_flight, if_pos rfl]
          omega

/-! ### The timer -/

/-- The timer is set for a space that may be probed, and off if there is nothing to wait for. -/
structure Timed (r : Recovery T) : Prop where
  timer_set : ∀ space, MayProbe r space → 0 < (r.spaces space).ack_eliciting_in_flight →
    r.timer.isSome = true
  timer_off : (∀ space, (r.spaces space).ack_eliciting_in_flight = 0 ∧
    (r.spaces space).loss_time = none) → r.peerCompletedAddressValidation = true → r.timer = none

lemma isSome_earlier (best : Option (ℕ × Space)) (t : ℕ) (space : Space) :
    (earlier best t space).isSome = true := by
  cases best with
  | none => rfl
  | some e =>
    rw [earlier]
    split_ifs <;> rfl

lemma isSome_ptoLoop (r : Recovery T) (backoff base : ℕ) (spaces : List Space)
    {best : Option (ℕ × Space)} (h : best.isSome = true) :
    (r.ptoLoop backoff base spaces best).isSome = true := by
  induction spaces generalizing best with
  | nil => exact h
  | cons s spaces ih =>
    rw [ptoLoop]
    dsimp only
    split
    · exact ih h
    · split
      · exact h
      · split
        · exact ih h
        · exact ih (isSome_earlier _ _ _)

lemma isSome_ptoLoop_of_mem (r : Recovery T) (backoff base : ℕ) {spaces : List Space}
    (best : Option (ℕ × Space)) (hlast : ∀ s, 0 < (r.spaces s).ack_eliciting_in_flight →
      (r.spaces s).last_ack_eliciting.isSome = true)
    (hmem : space ∈ spaces) (hprobe : MayProbe r space)
    (hpos : 0 < (r.spaces space).ack_eliciting_in_flight)
    (hend : r.handshake_confirmed = false → ∀ pre post, spaces = pre ++ .application :: post →
      space ∈ pre) :
    (r.ptoLoop backoff base spaces best).isSome = true := by
  induction spaces generalizing best with
  | nil => exact absurd hmem not_mem_nil
  | cons s spaces ih =>
    have hrest : s ≠ space → ∀ best', (r.ptoLoop backoff base spaces best').isSome = true := by
      intro hs best'
      refine ih best' ((mem_cons.1 hmem).resolve_left fun h => hs h.symm) fun hc pre post hp => ?_
      have := hend hc (s :: pre) post (by rw [hp]; rfl)
      exact (mem_cons.1 this).resolve_left fun h => hs h.symm
    rw [ptoLoop]
    dsimp only
    rcases eq_or_ne s space with rfl | hs
    · rw [if_neg (by omega), if_neg]
      · obtain ⟨last, hsome⟩ := Option.isSome_iff_exists.1 (hlast s hpos)
        rw [hsome]
        exact isSome_ptoLoop _ _ _ _ (isSome_earlier _ _ _)
      · rintro ⟨happ, hc⟩
        exact hprobe.elim (fun h => h happ) hc
    · split
      · exact hrest hs best
      · split
        · rename_i happ
          have := hend (by simpa using happ.2) [] spaces (by rw [happ.1]; rfl)
          exact absurd this not_mem_nil
        · split
          · exact hrest hs best
          · exact hrest hs _

lemma anyAckElicitingInFlight_iff (r : Recovery T) :
    r.anyAckElicitingInFlight = true ↔ ∃ s, 0 < (r.spaces s).ack_eliciting_in_flight := by
  rw [anyAckElicitingInFlight, any_eq_true]
  constructor
  · rintro ⟨s, -, hs⟩
    exact ⟨s, by simpa using hs⟩
  · rintro ⟨s, hs⟩
    exact ⟨s, by cases s <;> decide, by simpa using hs⟩

lemma lossTimeAndSpace_eq_none {r : Recovery T} (h : ∀ s, (r.spaces s).loss_time = none) :
    r.lossTimeAndSpace = none := by
  simp [lossTimeAndSpace, Space.all, h]

lemma timed_setTimer (hlast : ∀ s, 0 < (r.spaces s).ack_eliciting_in_flight →
    (r.spaces s).last_ack_eliciting.isSome = true) (now : ℕ) : Timed (r.setTimer now) where
  timer_set := fun space hprobe hpos => by
    have hany : r.anyAckElicitingInFlight = true := r.anyAckElicitingInFlight_iff.2 ⟨space, hpos⟩
    change (r.timerAt now).isSome = true
    rw [timerAt]
    split
    · rfl
    · rw [if_neg (by simp [hany]), Option.isSome_map, ptoTimeAndSpace, if_neg (by simp [hany])]
      refine isSome_ptoLoop_of_mem r _ _ none hlast (by cases space <;> decide) hprobe hpos ?_
      intro hc pre post hsplit
      -- the Application space is the last one
      have hne : space ≠ .application := hprobe.resolve_right (by simp [setTimer, hc])
      rcases pre with _ | ⟨a, _ | ⟨b, pre⟩⟩
      · cases hsplit
      · cases hsplit
      · obtain ⟨rfl, rfl, -⟩ : a = .initial ∧ b = .handshake ∧ _ := by
          simpa [Space.all, eq_comm] using hsplit
        cases space
        · exact mem_cons_self
        · exact mem_cons_of_mem _ mem_cons_self
        · exact absurd rfl hne
  timer_off := fun hidle hvalid => by
    change ∀ s, (r.spaces s).ack_eliciting_in_flight = 0 ∧ (r.spaces s).loss_time = none at hidle
    change r.timerAt now = none
    have hany : r.anyAckElicitingInFlight = false := by
      rw [Bool.eq_false_iff, Ne, anyAckElicitingInFlight_iff]
      rintro ⟨s, hs⟩
      have := (hidle s).1
      exact absurd this (ne_of_gt hs)
    rw [timerAt, lossTimeAndSpace_eq_none fun s => (hidle s).2]
    exact if_pos ⟨by simp [hany], hvalid⟩

lemma Timed.of_eq (h : Timed r) (htimer : r'.timer = r.timer)
    (hcount : ∀ s, (r'.spaces s).ack_eliciting_in_flight = (r.spaces s).ack_eliciting_in_flight)
    (hloss : ∀ s, (r'.spaces s).loss_time = (r.spaces s).loss_time)
    (hconfirmed : r'.handshake_confirmed = r.handshake_confirmed)
    (hacked : r'.handshake_acked = r.handshake_acked) : Timed r' where
  timer_set := fun space hprobe hpos => by
    rw [MayProbe, hconfirmed] at hprobe
    rw [hcount] at hpos
    rw [htimer]
    exact h.timer_set space hprobe hpos
  timer_off := fun hidle hvalid => by
    rw [peerCompletedAddressValidation, hconfirmed, hacked] at hvalid
    rw [htimer]
    exact h.timer_off (fun s => by rw [← hcount, ← hloss]; exact hidle s) hvalid

/-! ### The operations -/

lemma Owing.setTimer (h : Owing r space b n) (now : ℕ) : Owing (r.setTimer now) space b n :=
  h.of_eq rfl rfl

lemma updateRtt_spaces (r : Recovery T) (now ack_delay : ℕ) :
    (r.updateRtt now ack_delay).spaces = r.spaces ∧ (r.updateRtt now ack_delay).cc = r.cc := by
  rw [updateRtt]
  split_ifs <;> exact ⟨rfl, rfl⟩

lemma sample_spaces (r : Recovery T) (now : ℕ) (space : Space) (largest ack_delay : ℕ)
    (acked : List (Sent T)) : (r.sample now space largest ack_delay acked).spaces = r.spaces ∧
      (r.sample now space largest ack_delay acked).cc = r.cc := by
  rw [sample]
  split
  · exact ⟨rfl, rfl⟩
  · dsimp only
    split
    · exact updateRtt_spaces _ _ _
    · exact ⟨rfl, rfl⟩

lemma Owing.afterAcked {acked : List (Sent T)}
    (h : Owing r space (load acked) (acked.countP counts)) (now largest ack_delay : ℕ) :
    ∃ lost r', r.afterAcked now space largest ack_delay acked = some (⟨acked, lost⟩, r') ∧
      Splits r r' space lost ∧ Sound r' ∧ Timed r' := by
  rw [Recovery.afterAcked]
  dsimp only
  set r₁ := r.sample now space largest ack_delay acked
  set r₂ := if space = .handshake then { r₁ with handshake_acked := true } else r₁ with hr₂
  have heq : r₂.spaces = r.spaces ∧ r₂.cc = r.cc := by
    rw [hr₂]
    split
    · exact sample_spaces r now space largest ack_delay acked
    · exact sample_spaces r now space largest ack_delay acked
  obtain ⟨lost, r₃, hlost, hsplit, howing⟩ := (h.of_eq heq.1 heq.2).detectLost now
  have h₃ := howing.onPacketsLost now
  have hspaces := onPacketsLost_spaces r₃ now lost
  set r₄ := r₃.onPacketsLost now lost
  have hle : acked.countP counts ≤ (r₄.spaces space).ack_eliciting_in_flight := by
    have := h₃.count
    omega
  obtain ⟨cc, hcc, hwide, hflight⟩ := takeOffAcked_spec r₂.cc.in_flight acked r₄.cc
    (r₄.spaces space).ack_eliciting_in_flight h₃.wide hle
  rw [hlost, Option.bind_some]
  dsimp only
  rw [hcc]
  refine ⟨_, _, rfl, ?_⟩
  set r₅ : Recovery T := { r₄ with cc := cc }.setSpace space { r₄.spaces space with
      ack_eliciting_in_flight := (r₄.spaces space).ack_eliciting_in_flight -
        acked.countP counts } with hr₅
  set r₆ := if r₅.peerCompletedAddressValidation then { r₅ with pto_count := 0 } else r₅ with hr₆
  have hsame : r₅.spaces space = { r₄.spaces space with
      ack_eliciting_in_flight := (r₄.spaces space).ack_eliciting_in_flight -
        acked.countP counts } :=
    setSpace_same _
  have hother : ∀ s, s ≠ space → r₅.spaces s = r₄.spaces s := fun s hs => setSpace_other _ hs
  have hsplit₅ : Splits r₄ r₅ space [] := by
    refine ⟨hother, ?_, ?_⟩
    · rw [hsame]
      exact Perm.refl _
    · rw [hsame]
      exact fun e he => he
  have h₅ : Owing r₅ space 0 0 := by
    refine ⟨?_, ?_, fun s hs => ?_, hwide, fun s e he => ?_, fun s hpos => ?_⟩
    · have hbytes := hsplit₅.bytes_eq
      have hin := h₃.in_flight
      change cc.in_flight = _
      rw [hflight]
      simp only [load, map_nil, sum_nil] at hbytes hin ⊢
      omega
    · rw [hsame]
      have := h₃.count
      change (r₄.spaces space).ack_eliciting_in_flight - _ =
        (values (r₄.spaces space)).countP counts + 0
      omega
    · rw [hother s hs]
      exact h₃.other s hs
    · rcases eq_or_ne s space with rfl | hs
      · rw [hsame] at he
        exact h₃.keyed s e he
      · rw [hother s hs] at he
        exact h₃.keyed s e he
    · rcases eq_or_ne s space with rfl | hs
      · rw [hsame] at hpos ⊢
        refine h₃.last s ?_
        dsimp only at hpos
        omega
      · rw [hother s hs] at hpos ⊢
        exact h₃.last s hpos
  have heq₆ : r₆.spaces = r₅.spaces ∧ r₆.cc = r₅.cc := by
    rw [hr₆]
    split <;> exact ⟨rfl, rfl⟩
  have h₆ : Owing r₆ space 0 0 := h₅.of_eq heq₆.1 heq₆.2
  refine ⟨?_, (h₆.setTimer now).sound, timed_setTimer h₆.last now⟩
  have hstart : Splits r r₂ space [] := by
    refine ⟨fun s _ => by rw [heq.1], ?_, ?_⟩
    · rw [heq.1]
      exact Perm.refl _
    · rw [heq.1]
      exact fun e he => he
  have hall := ((hstart.trans hsplit).of_spaces hspaces).trans hsplit₅
  rw [nil_append, append_nil] at hall
  exact hall.of_spaces heq₆.1

lemma Sound.onAckReceived (h : Sound r) (ht : Timed r) (now : ℕ) (space : Space)
    (largest ack_delay : ℕ) (ranges : List (ℕ × ℕ)) :
    ∃ out r', r.onAckReceived now space largest ack_delay ranges = some (out, r') ∧
      Splits r r' space (out.acked ++ out.lost) ∧ Sound r' ∧ Timed r' := by
  rw [Recovery.onAckReceived]
  dsimp only
  obtain ⟨⟨acked, left⟩, htake, hperm, hsub⟩ := takeRanges_spec (r.spaces space).sent ranges
  rw [htake, Option.bind_some]
  dsimp only
  set r₁ := r.setSpace space { r.spaces space with
    largest_acked := some ((r.spaces space).largest_acked.elim largest fun p => max p largest)
    sent := left }
  have hsame : r₁.spaces space = { r.spaces space with
    largest_acked := some ((r.spaces space).largest_acked.elim largest fun p => max p largest)
    sent := left } := setSpace_same _
  have hother : ∀ s, s ≠ space → r₁.spaces s = r.spaces s := fun s hs => setSpace_other _ hs
  have hsplit : Splits r r₁ space acked := by
    refine ⟨hother, ?_, ?_⟩
    · rw [hsame]
      exact hperm
    · rw [hsame]
      exact hsub
  have howing : Owing r₁ space (load acked) (acked.countP counts) := by
    have := (h space).split hsplit rfl (acked.countP counts) (by rw [hsame]; dsimp only; omega)
      (by rw [hsame]) (by rw [hsame])
    rwa [zero_add] at this
  cases acked with
  | nil =>
    refine ⟨_, _, rfl, hsplit, howing.sound, ht.of_eq rfl (fun s => ?_) (fun s => ?_) rfl rfl⟩
    · rcases eq_or_ne s space with rfl | hs
      · rw [hsame]
      · rw [hother s hs]
    · rcases eq_or_ne s space with rfl | hs
      · rw [hsame]
      · rw [hother s hs]
  | cons p acked =>
    have hsort := perm_insertionSort (fun p q : Sent T => p.pn ≤ q.pn) (p :: acked)
    rw [← load_perm hsort, ← hsort.countP_eq] at howing
    obtain ⟨lost, r', hafter, hsplit', hsound, htimed⟩ := howing.afterAcked now largest ack_delay
    refine ⟨_, r', hafter, ?_, hsound, htimed⟩
    exact (hsplit.perm hsort.symm).trans hsplit'

lemma Sound.onTimeout (h : Sound r) (now : ℕ) :
    ∃ out r', r.onTimeout now = some (out, r') ∧ Splits r r' out.lost_space out.lost ∧ Sound r' ∧
      Timed r' := by
  rw [Recovery.onTimeout]
  split
  · rename_i space hspace
    obtain ⟨lost, r₁, hlost, hsplit, howing⟩ := (h space).detectLost now
    rw [hlost, Option.map_some]
    have h₁ := howing.onPacketsLost now
    refine ⟨_, _, rfl, ?_, (h₁.setTimer now).sound, timed_setTimer h₁.last now⟩
    exact hsplit.of_spaces (onPacketsLost_spaces r₁ now lost)
  · refine ⟨_, _, rfl, ⟨fun _ _ => rfl, Perm.refl _, fun e he => he⟩, ?_, ?_⟩
    · exact fun space => (h space).of_eq rfl rfl
    · exact timed_setTimer (r := { r with pto_count := r.pto_count + 1 }) (h .initial).last now

lemma sum_filter_in_flight (ps : List (Sent T)) :
    ((ps.filter Sent.in_flight).map Sent.size).sum = load ps := by
  induction ps with
  | nil => rfl
  | cons p ps ih =>
    rw [load, map_cons, sum_cons, weight]
    rw [load] at ih
    cases hp : p.in_flight with
    | false =>
      rw [filter_cons_of_neg (by simp [hp]), ih]
      simp
    | true =>
      rw [filter_cons_of_pos hp, map_cons, sum_cons, ih]
      simp

lemma Sound.discardSpace (h : Sound r) (now : ℕ) (space : Space) :
    Splits r (r.discardSpace now space).2 space (r.discardSpace now space).1 ∧
      Sound (r.discardSpace now space).2 ∧ Timed (r.discardSpace now space).2 := by
  have hsplit : Splits r (r.discardSpace now space).2 space (values (r.spaces space)) := by
    refine ⟨fun s hs => setSpace_other _ hs, ?_, fun e he => ?_⟩
    · have : values ((r.discardSpace now space).2.spaces space) = [] := by
        change values ((r.setSpace space SpaceState.new).spaces space) = []
        rw [setSpace_same]
        rfl
      rw [this, append_nil]
    · change e ∈ ((r.setSpace space SpaceState.new).spaces space).sent at he
      rw [setSpace_same] at he
      exact absurd he not_mem_empty
  have hsame : (r.discardSpace now space).2.spaces space = SpaceState.new := setSpace_same _
  have howing : Owing (r.discardSpace now space).2 space 0 0 := by
    refine ⟨?_, ?_, fun s hs => ?_, (h space).wide, fun s e he => ?_, fun s hpos => ?_⟩
    · change r.cc.in_flight -
        ((((values (r.spaces space)).filter Sent.in_flight).map Sent.size).sum) = _
      rw [sum_filter_in_flight, (h space).in_flight, hsplit.bytes_eq]
      omega
    · rw [hsame]
      rfl
    · rw [hsplit.other s hs]
      exact (h space).other s hs
    · rcases eq_or_ne s space with rfl | hs
      · rw [hsame] at he
        exact absurd he not_mem_empty
      · rw [hsplit.other s hs] at he
        exact (h space).keyed s e he
    · rcases eq_or_ne s space with rfl | hs
      · rw [hsame] at hpos
        exact absurd hpos (by simp [SpaceState.new])
      · rw [hsplit.other s hs] at hpos ⊢
        exact (h space).last s hpos
  exact ⟨hsplit, howing.sound, timed_setTimer howing.last now⟩

lemma reset_spaces (r : Recovery T) (rtt : Option ℕ) :
    (r.reset rtt).2.spaces = fun _ => SpaceState.new := by
  cases rtt <;> rfl

lemma Sound.reset (rtt : Option ℕ) : Sound (r.reset rtt).2 ∧ Timed (r.reset rtt).2 ∧
    (r.reset rtt).2.outstanding = [] := by
  have hspaces := reset_spaces r rtt
  have hcc : (r.reset rtt).2.cc = NewReno.new r.cc.max_datagram_size := by cases rtt <;> rfl
  have htimer : (r.reset rtt).2.timer = none := by cases rtt <;> rfl
  refine ⟨fun s => ?_, ?_, ?_⟩
  · exact (sound_new r.cc.max_datagram_size s).of_eq hspaces hcc
  · refine ⟨fun s _ hpos => ?_, fun _ _ => htimer⟩
    rw [hspaces] at hpos
    exact absurd hpos (by simp [SpaceState.new])
  · rw [outstanding, hspaces]
    rfl

lemma reset_gone (r : Recovery T) (rtt : Option ℕ) :
    (r.reset rtt).1 = r.outstanding.map Prod.snd := by
  have hgone : (r.reset rtt).1 = Space.all.flatMap fun space => values (r.spaces space) := by
    cases rtt <;> rfl
  have hsnd : ∀ space, ((values (r.spaces space)).map (Prod.mk space)).map Prod.snd =
      values (r.spaces space) := by
    intro space
    rw [map_map]
    exact map_id _
  rw [hgone, outstanding, map_flatMap]
  simp only [hsnd]

lemma noteEliciting_sent (s : SpaceState T) (now : ℕ) (b : Bool) :
    (noteEliciting s now b).sent = s.sent := by
  cases b <;> rfl

lemma Sound.insert {p : Sent T} (h : Sound r) (hnew : (r.spaces space).sent.get p.pn = none)
    (hother : ∀ s, s ≠ space → r'.spaces s = r.spaces s)
    (hsent : (r'.spaces space).sent = (r.spaces space).sent.insert p.pn p)
    (hcount : (r'.spaces space).ack_eliciting_in_flight =
      (r.spaces space).ack_eliciting_in_flight + if counts p then 1 else 0)
    (hlast : 0 < (r'.spaces space).ack_eliciting_in_flight →
      (r'.spaces space).last_ack_eliciting.isSome = true)
    (hflight : r'.cc.in_flight = r.cc.in_flight + weight p) (hwide : r'.cc.Wide) :
    Splits r' r space [p] ∧ Owing r' space 0 0 := by
  have hsplit : Splits r' r space [p] := by
    refine ⟨fun s hs => (hother s hs).symm, ?_, fun e he => ?_⟩
    · rw [values, hsent]
      exact (entries_insert p hnew).map Prod.snd
    · rw [hsent]
      refine mem_insert.2 (.inr ⟨he, fun hk => ?_⟩)
      exact get_eq_none.1 hnew e.2 (hk ▸ he)
  refine ⟨hsplit, ?_, ?_, fun s hs => ?_, hwide, fun s e he => ?_, fun s hpos => ?_⟩
  · rw [hflight, (h space).in_flight, hsplit.bytes_eq, load, map_singleton, sum_singleton]
    omega
  · have hperm := hsplit.values_perm.countP_eq counts
    rw [countP_append, countP_singleton] at hperm
    rw [hcount, hperm, (h space).count]
    omega
  · rw [hother s hs]
    exact (h space).other s hs
  · rcases eq_or_ne s space with rfl | hs
    · rw [hsent] at he
      rcases mem_insert.1 he with rfl | ⟨he, -⟩
      · rfl
      · exact (h s).keyed s e he
    · rw [hother s hs] at he
      exact (h space).keyed s e he
  · rcases eq_or_ne s space with rfl | hs
    · exact hlast hpos
    · rw [hother s hs] at hpos ⊢
      exact (h space).last s hpos

lemma Sound.onPacketSent {p : Sent T} (h : Sound r) (ht : Timed r) (now : ℕ)
    (hnew : (r.spaces space).sent.get p.pn = none) :
    Splits (r.onPacketSent now space p) r space [p] ∧ Sound (r.onPacketSent now space p) ∧
      Timed (r.onPacketSent now space p) := by
  rw [Recovery.onPacketSent]
  dsimp only
  split_ifs with hp
  · set s := noteEliciting (r.spaces space) now p.ack_eliciting with hs
    set r₁ : Recovery T := { r.setSpace space { s with sent := s.sent.insert p.pn p } with
      cc := (r.setSpace space { s with sent := s.sent.insert p.pn p }).cc.onSent p.size }
    have hsame : r₁.spaces space = { s with sent := s.sent.insert p.pn p } := setSpace_same _
    obtain ⟨hsplit, howing⟩ : Splits r₁ r space [p] ∧ Owing r₁ space 0 0 := h.insert hnew
      (fun s' hs' => setSpace_other _ hs')
      (by rw [hsame]; dsimp only; rw [hs, noteEliciting_sent])
      (by
        rw [hsame, counts, hp]
        change s.ack_eliciting_in_flight = _
        rw [hs]
        cases p.ack_eliciting <;> rfl)
      (by
        intro hpos
        rw [hsame] at hpos ⊢
        change 0 < s.ack_eliciting_in_flight at hpos
        change s.last_ack_eliciting.isSome = true
        rw [hs] at hpos ⊢
        cases ha : p.ack_eliciting with
        | false =>
          rw [ha] at hpos
          exact (h space).last space hpos
        | true => rfl)
      (by rw [weight, if_pos hp]; rfl) (h space).wide
    refine ⟨⟨hsplit.other, hsplit.values_perm, hsplit.subset⟩, (howing.setTimer now).sound, ?_⟩
    exact timed_setTimer howing.last now
  · set r₁ := r.setSpace space { r.spaces space with sent := (r.spaces space).sent.insert p.pn p }
    have hsame : r₁.spaces space = { r.spaces space with
      sent := (r.spaces space).sent.insert p.pn p } := setSpace_same _
    have hother : ∀ s', s' ≠ space → r₁.spaces s' = r.spaces s' :=
      fun s' hs' => setSpace_other _ hs'
    have hnot : counts p = false := by simp [counts, hp]
    obtain ⟨hsplit, howing⟩ : Splits r₁ r space [p] ∧ Owing r₁ space 0 0 := h.insert hnew hother
      (by rw [hsame])
      (by rw [hsame, hnot]; rfl)
      (by
        intro hpos
        rw [hsame] at hpos ⊢
        exact (h space).last space hpos)
      (by rw [weight, if_neg hp]; rfl) (h space).wide
    refine ⟨hsplit, howing.sound, ht.of_eq rfl (fun s' => ?_) (fun s' => ?_) rfl rfl⟩
    · rcases eq_or_ne s' space with rfl | hs'
      · rw [hsame]
      · rw [hother s' hs']
    · rcases eq_or_ne s' space with rfl | hs'
      · rw [hsame]
      · rw [hother s' hs']

/-! ### Runs -/

namespace World

variable {w w' : World T}

structure Kept (w : World T) : Prop where
  sound : Sound w.recovery
  timed : Timed w.recovery
  settled_once : w.sent.Perm (w.recovery.outstanding ++ w.settled.map Prod.fst)
  distinct : (w.sent.map fun p => (p.1, p.2.pn)).Nodup
  below : ∀ p ∈ w.sent, p.2.pn < w.next_pn p.1

lemma kept_new (max_datagram_size : ℕ) : Kept (new max_datagram_size : World T) where
  sound := sound_new _
  timed :=
    ⟨fun _ _ hpos => absurd hpos (by simp [new, Recovery.new, SpaceState.new]), fun _ _ => rfl⟩
  settled_once := Perm.refl _
  distinct := nodup_nil
  below := fun _ hp => absurd hp not_mem_nil

lemma Kept.settle (h : Kept w) {r : Recovery T} {space : Space} {ps : List (Sent T)}
    (hsplit : Splits w.recovery r space ps) (hsound : Sound r) (htimed : Timed r)
    (hrecovery : w'.recovery = r) (hnext : w'.next_pn = w.next_pn) (hsent : w'.sent = w.sent)
    (hsettled : w'.settled.map Prod.fst = w.settled.map Prod.fst ++ ps.map (Prod.mk space)) :
    Kept w' where
  sound := hrecovery ▸ hsound
  timed := hrecovery ▸ htimed
  settled_once := by
    rw [hsent, hsettled, hrecovery]
    refine h.settled_once.trans ((hsplit.outstanding_perm.append_right _).trans ?_)
    rw [append_assoc, ← append_assoc r.outstanding]
    exact perm_append_comm
  distinct := hsent ▸ h.distinct
  below := by
    rw [hsent, hnext]
    exact h.below

lemma Kept.get_eq_none (h : Kept w) {space : Space} {pn : ℕ} (hpn : w.next_pn space ≤ pn) :
    (w.recovery.spaces space).sent.get pn = none := by
  refine BTreeMap.get_eq_none.2 fun p hp => ?_
  have hout : (space, p) ∈ w.recovery.outstanding := by
    refine mem_flatMap.2 ⟨space, by cases space <;> decide, ?_⟩
    exact mem_map_of_mem (mem_map.2 ⟨(pn, p), hp, rfl⟩)
  have hlt := h.below _ (h.settled_once.mem_iff.2 (mem_append_left _ hout))
  have hkey : pn = p.pn := (h.sound space).keyed space _ hp
  dsimp only at hlt
  omega

lemma Kept.step (h : Kept w) {c : Call T} (hc : Allowed w c) :
    ∃ w', w.step c = some w' ∧ Kept w' := by
  cases c with
  | onPacketSent now space p =>
    obtain ⟨hsplit, hsound, htimed⟩ := h.sound.onPacketSent h.timed now (h.get_eq_none hc.2.1)
    refine ⟨_, rfl, hsound, htimed, ?_, ?_, fun q hq => ?_⟩
    · refine perm_append_comm.trans ?_
      refine ((h.settled_once.append_left [(space, p)])).trans ?_
      rw [← append_assoc]
      exact hsplit.outstanding_perm.symm.append_right _
    · dsimp only
      rw [map_append, nodup_append]
      refine ⟨h.distinct, by simp, fun a ha b hb => ?_⟩
      obtain ⟨q, hq, rfl⟩ := mem_map.1 ha
      have hlt := h.below q hq
      obtain rfl : b = (space, p.pn) := by simpa using hb
      rintro heq
      rw [Prod.mk.injEq] at heq
      rw [heq.1, heq.2] at hlt
      exact absurd hc.2.1 (by omega)
    · dsimp only
      rcases mem_append.1 hq with hq | hq
      · have hlt := h.below q hq
        rcases eq_or_ne q.1 space with hs | hs
        · rw [hs, Function.update_self]
          rw [hs] at hlt
          have := hc.2.1
          omega
        · rwa [Function.update_of_ne hs]
      · rw [mem_singleton.1 hq, Function.update_self]
        exact Nat.lt_succ_self _
  | onAckReceived now space largest ack_delay ranges =>
    obtain ⟨out, r, hack, hsplit, hsound, htimed⟩ :=
      h.sound.onAckReceived h.timed now space largest ack_delay ranges
    rw [World.step, hack]
    refine ⟨_, rfl, h.settle hsplit hsound htimed rfl rfl rfl ?_⟩
    simp only [World.settle, map_append, map_map, append_assoc]
    rfl
  | onTimeout now =>
    obtain ⟨out, r, htimeout, hsplit, hsound, htimed⟩ := h.sound.onTimeout now
    rw [World.step, htimeout]
    refine ⟨_, rfl, h.settle hsplit hsound htimed rfl rfl rfl ?_⟩
    simp only [World.settle, map_append, map_map]
    rfl
  | discardSpace now space =>
    obtain ⟨hsplit, hsound, htimed⟩ := h.sound.discardSpace now space
    refine ⟨_, rfl, h.settle hsplit hsound htimed rfl rfl rfl ?_⟩
    simp only [World.settle, map_append, map_map]
    rfl
  | reset rtt =>
    obtain ⟨hsound, htimed, hnil⟩ := Sound.reset (r := w.recovery) rtt
    refine ⟨_, rfl, hsound, htimed, ?_, h.distinct, h.below⟩
    have hzip : (w.recovery.outstanding.map Prod.fst).zip (w.recovery.reset rtt).1 =
        w.recovery.outstanding := by
      rw [reset_gone]
      exact (zip_of_prod rfl rfl).symm
    change w.sent.Perm ((w.recovery.reset rtt).2.outstanding ++ (w.settled ++
      ((w.recovery.outstanding.map Prod.fst).zip (w.recovery.reset rtt).1).map
        fun p => (p, Fate.reset)).map Prod.fst)
    rw [hnil, hzip, nil_append, map_append, map_map]
    refine h.settled_once.trans (perm_append_comm.trans ?_)
    simp [Function.comp_def]
  | onHandshakeConfirmed now =>
    refine ⟨_, rfl, fun s => (h.sound s).of_eq rfl rfl, ?_, h.settled_once, h.distinct, h.below⟩
    exact timed_setTimer (r := { w.recovery with handshake_confirmed := true })
      (h.sound .initial).last now
  | setMaxDatagramSize size =>
    refine ⟨_, rfl, fun s => ?_, h.timed.of_eq rfl (fun _ => rfl) (fun _ => rfl) rfl rfl,
      h.settled_once, h.distinct, h.below⟩
    obtain ⟨h1, h2, h3, -, h5, h6⟩ := h.sound s
    exact ⟨h1, h2, h3, NewReno.wide_setMaxDatagramSize size, h5, h6⟩

lemma Kept.balanced (h : Kept w) : Balanced w where
  settled_once := h.settled_once
  distinct := h.distinct
  in_flight := (h.sound .initial).in_flight
  exact := by
    rw [(h.sound .initial).in_flight, bytes_perm h.settled_once, bytes_append, add_zero]
  ack_eliciting := fun space => (h.sound space).count
  window := (h.sound .initial).wide
  timer_set := h.timed.timer_set
  timer_off := h.timed.timer_off

/-- In every run each packet is settled once and the books balance, and no call that is allowed
panics. -/
theorem every_packet_settled_once {max_datagram_size : ℕ} {calls : List (Call T)}
    (h : Run step Allowed (new max_datagram_size) calls w) :
    Balanced w ∧ ∀ c, Allowed w c → (w.step c).isSome = true := by
  have hkeep : ∀ (w : World T) (c : Call T) (w' : World T), Kept w → Allowed w c →
      w.step c = some w' → Kept w' := by
    intro w c w' hw hc hstep
    obtain ⟨w₁, h1, h2⟩ := hw.step hc
    rw [hstep, Option.some.injEq] at h1
    exact h1 ▸ h2
  have hkept : Kept w := h.invariant hkeep (kept_new max_datagram_size)
  refine ⟨hkept.balanced, fun c hc => ?_⟩
  obtain ⟨w₁, h1, -⟩ := hkept.step hc
  rw [h1]
  rfl

/-- Four packets, of which an acknowledgment settles three, one of them as lost, and the end of the
other space the last one. -/
def lossyCalls : List (Call Unit) :=
  [.onPacketSent 0 .initial ⟨0, 0, 1200, true, true, ()⟩,
   .onPacketSent 5 .initial ⟨1, 5, 40, false, false, ()⟩,
   .onPacketSent 6 .initial ⟨3, 6, 600, true, true, ()⟩,
   .onPacketSent 7 .handshake ⟨0, 7, 800, true, true, ()⟩,
   .onAckReceived 9 .initial 3 0 [(3, 3), (1, 1)],
   .discardSpace 10 .handshake]

theorem every_packet_settled_once_lossy : ∃ w, Run step Allowed (new 1200) lossyCalls w ∧
    w.settled.map (fun p => (p.1.1, p.1.2.pn, p.2)) =
      [(.initial, 1, .acked), (.initial, 3, .acked), (.initial, 0, .lost),
       (.handshake, 0, .discarded)] ∧ Balanced w := by
  have hsettled : (Run.exec step Allowed (new 1200) lossyCalls).map
      (fun w => w.settled.map fun p => (p.1.1, p.1.2.pn, p.2)) =
      some [(.initial, 1, .acked), (.initial, 3, .acked), (.initial, 0, .lost),
        (.handshake, 0, .discarded)] := by decide
  obtain ⟨w, hexec, hw⟩ := Option.map_eq_some_iff.1 hsettled
  have hrun := Run.of_exec hexec
  exact ⟨w, hrun, hw, (every_packet_settled_once hrun).1⟩

end World

end Lazaret.Quic.Recovery
