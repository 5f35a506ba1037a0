import Lazaret.Quic.Acknowledge

/-!
# Packets that come twice, and acknowledgments that are owed

Once the peer has acknowledged an ACK frame of ours, every number up to the largest of that frame is
forgotten.  So a packet up to there that comes again is acted on again, and a number that the frame
did not list is not acknowledged any more.  A frame lists the highest ranges only, so a number below
many of them is in no later frame.  Where this does not happen is `NotBelow` and `Covered`.
-/

namespace Lazaret.Quic.Ack

open List BTreeMap

/-! ### Notes on a space -/

def Note.space : Note → Space
  | .ran space _ => space
  | .received space _ _ => space
  | .wrote space _ _ => space
  | .acked space _ => space
  | .trimmed space _ => space
  | .discarded space => space

/-- The numbers that were trimmed with this note are below `pn`. -/
def Note.TrimsBelow (pn : ℕ) : Note → Prop
  | .trimmed _ largest => largest < pn
  | _ => True

instance (pn : ℕ) : (n : Note) → Decidable (n.TrimsBelow pn)
  | .trimmed _ largest => inferInstanceAs (Decidable (largest < pn))
  | .ran .. => inferInstanceAs (Decidable True)
  | .received .. => inferInstanceAs (Decidable True)
  | .wrote .. => inferInstanceAs (Decidable True)
  | .acked .. => inferInstanceAs (Decidable True)
  | .discarded _ => inferInstanceAs (Decidable True)

/-- The notes on a space since it was last discarded, the newest first. -/
def life (space : Space) : List Note → List Note
  | [] => []
  | n :: log =>
    if n = .discarded space then []
    else if n.space = space then n :: life space log
    else life space log

def Note.listed : Note → List (ℕ × ℕ)
  | .wrote _ _ ranges => ranges
  | _ => []

/-- `x` is in one of the ranges. -/
def Lists (ranges : List (ℕ × ℕ)) (x : ℕ) : Prop := ∃ r ∈ ranges, r.1 ≤ x ∧ x ≤ r.2

instance (ranges : List (ℕ × ℕ)) (x : ℕ) : Decidable (Lists ranges x) :=
  inferInstanceAs (Decidable (∃ r ∈ ranges, _))

def elicited : List Note → List ℕ
  | [] => []
  | .received _ x true :: log => x :: elicited log
  | _ :: log => elicited log

/-- The ack-eliciting numbers received since an ACK frame was last written. -/
def fresh : List Note → List ℕ
  | [] => []
  | .received _ x true :: log => x :: fresh log
  | .wrote .. :: _ => []
  | _ :: log => fresh log

/-- The ack-eliciting numbers received that no ACK frame written since lists. -/
def unlisted : List Note → List ℕ
  | [] => []
  | .received _ x true :: log => x :: unlisted log
  | .wrote _ _ ranges :: log => (unlisted log).filter fun x => ¬ Lists ranges x
  | _ :: log => unlisted log

/-- The ACK frame in our packet `pn` lists `x`, and `x` was not received since it was written. -/
def covered (x pn : ℕ) : List Note → Bool
  | [] => false
  | .received _ y true :: log => decide (x ≠ y) && covered x pn log
  | .wrote _ pn' ranges :: log => if pn' = pn then decide (Lists ranges x) else covered x pn log
  | _ :: log => covered x pn log

/-- How many ranges of the set begin above `x`. -/
def rangesAbove (R : RangeSet) (x : ℕ) : ℕ := (R.ranges.entries.filter fun e => x < e.1).length

namespace Conn

def view (c : Conn) (space : Space) : AckState × List Note :=
  ((c.spaces space).ack, life space c.log)

/-! ### The conditions -/

/-- A packet that was acted on before comes again only while no ACK frame of ours with a largest
number at or above it has been acknowledged. -/
def NotBelow (c : Conn) : Event → Prop
  | .packet _ space pn _ =>
    .ran space pn ∈ life space c.log → ∀ n ∈ life space c.log, n.TrimsBelow pn
  | _ => True

instance (c : Conn) : (e : Event) → Decidable (c.NotBelow e)
  | .packet .. => inferInstanceAs (Decidable (_ → _))
  | .transmit .. => inferInstanceAs (Decidable True)
  | .timeout _ => inferInstanceAs (Decidable True)
  | .retry _ => inferInstanceAs (Decidable True)
  | .discard .. => inferInstanceAs (Decidable True)
  | .close => inferInstanceAs (Decidable True)

/-- Our packets that an ACK frame with these ranges newly acknowledges. -/
def ackedBy (c : Conn) (space : Space) (ranges : List (ℕ × ℕ)) : List (Sent (List SentFrame)) :=
  ((c.recovery.spaces space).sent.entries.filter fun e => Lists ranges e.1).map Prod.snd

/-- Each ack-eliciting number that is forgotten with a frame of ours is listed in an ACK frame that
was written since the number was received and that is acknowledged too. -/
def FrameCovered (c : Conn) (space : Space) (ranges : List (ℕ × ℕ)) : SentFrame → Prop
  | .ack largest =>
    ∀ x ∈ elicited (life space c.log), x ≤ largest → x ∈ (c.spaces space).ack.received →
      ∃ q ∈ c.ackedBy space ranges, covered x q.pn (life space c.log) = true
  | .other => True

/-- The same for all that a frame of the peer acknowledges. -/
def AckCovered (c : Conn) (space : Space) : Frame → Prop
  | .ack _ _ ranges => ∀ p ∈ c.ackedBy space ranges, ∀ f ∈ p.payload, c.FrameCovered space ranges f
  | _ => True

/-- The same for each frame of a packet, in the state that it comes in. -/
def FramesCovered (now : ℕ) (space : Space) : Conn → List Frame → Prop
  | _, [] => True
  | c, f :: frames =>
    c.AckCovered space f ∧
      match c.processFrame now space f with
      | some (true, c') => c'.closing = false → FramesCovered now space c' frames
      | _ => True

/-- Once this packet is noted as received, an ACK frame of the highest ranges reaches down to each
number that is still to be listed. -/
def Reaches (c : Conn) (space : Space) (pn : ℕ) (eliciting : Bool) : Prop :=
  ∀ x ∈ unlisted (.received space pn eliciting :: life space c.log),
    rangesAbove ((c.spaces space).ack.received.insert ⟨pn, pn + 1⟩).2 x < MAX_ACK_RANGES

/-- The same for a packet whose frames are all acted on. -/
def FramesReach (c : Conn) (now : ℕ) (space : Space) (pn : ℕ) (frames : List Frame) : Prop :=
  match processFrames now space c frames false with
  | some (some eliciting, c') => c'.closing = false → c'.Reaches space pn eliciting
  | _ => True

/-- A packet has a number of QUIC, what its ACK frames have us forget is covered, and an ACK frame
reaches what is to be listed. -/
def Covered (c : Conn) : Event → Prop
  | .packet now space pn frames =>
    pn ≤ Wire.MAX_VARINT ∧ (c.accepts space pn = true →
      FramesCovered now space (c.note (.ran space pn)) frames ∧
        (c.note (.ran space pn)).FramesReach now space pn frames)
  | _ => True

instance (R : RangeSet) (x : ℕ) : Decidable (x ∈ R) :=
  inferInstanceAs (Decidable (∃ e ∈ R.ranges.entries, e.1 ≤ x ∧ x < e.2))

instance (c : Conn) (space : Space) (ranges : List (ℕ × ℕ)) :
    (f : SentFrame) → Decidable (c.FrameCovered space ranges f)
  | .ack _ => inferInstanceAs (Decidable (∀ x ∈ elicited _, _ → _ → ∃ q ∈ c.ackedBy _ _, _))
  | .other => inferInstanceAs (Decidable True)

instance (c : Conn) (space : Space) : (f : Frame) → Decidable (c.AckCovered space f)
  | .ack _ _ _ => inferInstanceAs (Decidable (∀ p ∈ c.ackedBy _ _, ∀ f ∈ p.payload, _))
  | .handshakeDone => inferInstanceAs (Decidable True)
  | .other _ _ => inferInstanceAs (Decidable True)

instance decidableFramesCovered (now : ℕ) (space : Space) :
    (c : Conn) → (frames : List Frame) → Decidable (FramesCovered now space c frames)
  | _, [] => inferInstanceAs (Decidable True)
  | c, f :: frames =>
    have : Decidable (match c.processFrame now space f with
        | some (true, c') => c'.closing = false → FramesCovered now space c' frames
        | _ => True) :=
      match c.processFrame now space f with
      | some (true, c') =>
        have := decidableFramesCovered now space c' frames
        inferInstanceAs (Decidable (_ → _))
      | some (false, _) => inferInstanceAs (Decidable True)
      | none => inferInstanceAs (Decidable True)
    inferInstanceAs (Decidable (_ ∧ _))

instance (c : Conn) (space : Space) (pn : ℕ) (eliciting : Bool) :
    Decidable (c.Reaches space pn eliciting) :=
  inferInstanceAs (Decidable (∀ x ∈ unlisted _, _))

instance (c : Conn) (now : ℕ) (space : Space) (pn : ℕ) (frames : List Frame) :
    Decidable (c.FramesReach now space pn frames) := by
  unfold FramesReach
  split
  · infer_instance
  · infer_instance

instance (c : Conn) : (e : Event) → Decidable (c.Covered e)
  | .packet .. => inferInstanceAs (Decidable (_ ∧ (_ → _)))
  | .transmit .. => inferInstanceAs (Decidable True)
  | .timeout _ => inferInstanceAs (Decidable True)
  | .retry _ => inferInstanceAs (Decidable True)
  | .discard .. => inferInstanceAs (Decidable True)
  | .close => inferInstanceAs (Decidable True)

/-! ### What a frame does to a space -/

variable {c c' : Conn} {space s : Space}

lemma view_note {n : Note} (hspace : n.space = s) (hn : n ≠ .discarded s) :
    (c.note n).view s = ((c.view s).1, n :: (c.view s).2) := by
  rw [view, note, life, if_neg hn, if_pos hspace]
  rfl

lemma view_note_other {n : Note} (hspace : n.space ≠ s) : (c.note n).view s = c.view s := by
  have hn : n ≠ .discarded s := by
    rintro rfl
    exact hspace rfl
  rw [view, note, life, if_neg hn, if_neg hspace]
  rfl

/-- The view of `space` has the new notes, and the numbers up to those they trim are gone. -/
structure Trims (space : Space) (new : List Note) (v v' : AckState × List Note) : Prop where
  notes : v'.2 = new ++ v.2
  wf : v.1.received.Wf → v'.1.received.Wf
  mem : v.1.received.Wf → ∀ x, x ∈ v'.1.received ↔
    x ∈ v.1.received ∧ ∀ largest, .trimmed space largest ∈ new → largest < x
  rest : v'.1 = { v.1 with received := v'.1.received }

lemma Trims.refl (v : AckState × List Note) : Trims space [] v v :=
  ⟨rfl, id, fun _ x => by simp, rfl⟩

lemma Trims.trans {new new' : List Note} {v v' v'' : AckState × List Note}
    (h : Trims space new v v') (h' : Trims space new' v' v'') :
    Trims space (new' ++ new) v v'' where
  notes := by rw [h'.notes, h.notes, append_assoc]
  wf := fun hwf => h'.wf (h.wf hwf)
  mem := fun hwf x => by
    rw [h'.mem (h.wf hwf), h.mem hwf]
    constructor
    · rintro ⟨⟨hx, h1⟩, h2⟩
      refine ⟨hx, fun largest hl => ?_⟩
      rcases mem_append.1 hl with hl | hl
      · exact h2 largest hl
      · exact h1 largest hl
    · rintro ⟨hx, h1⟩
      exact ⟨⟨hx, fun largest hl => h1 largest (mem_append_right _ hl)⟩,
        fun largest hl => h1 largest (mem_append_left _ hl)⟩
  rest := by rw [h'.rest, h.rest]

lemma trims_note_acked (c : Conn) (space : Space) (pn : ℕ) :
    Trims space [.acked space pn] (c.view space) ((c.note (.acked space pn)).view space) := by
  rw [view_note (n := .acked space pn) (s := space) rfl (by simp)]
  exact ⟨rfl, id, fun _ x => by simp, rfl⟩

lemma trims_trim (c : Conn) (space : Space) (largest : ℕ) :
    Trims space [.trimmed space largest] (c.view space) ((c.trim space largest).view space) := by
  have hview : (c.trim space largest).view space = ({ (c.view space).1 with
      received := (c.view space).1.received.removeBelow (largest + 1) },
      .trimmed space largest :: (c.view space).2) := by
    rw [trim, view_note (n := .trimmed space largest) (s := space) rfl (by simp)]
    simp [view, setSpace]
  rw [hview]
  refine ⟨rfl, RangeSet.wf_removeBelow, fun hwf x => ?_, rfl⟩
  rw [RangeSet.mem_removeBelow hwf]
  refine and_congr_right fun _ => ⟨fun h l hl => ?_, fun h => h largest mem_cons_self⟩
  cases mem_singleton.1 hl
  exact h

lemma view_trim_other (c : Conn) (largest : ℕ) (h : s ≠ space) :
    (c.trim space largest).view s = c.view s := by
  rw [trim, view_note_other (fun hs => h hs.symm)]
  simp [view, setSpace, h]

lemma foldl_onAckedFrame (c : Conn) (space : Space) (payload : List SentFrame) :
    (∃ new, Trims space new (c.view space) ((payload.foldl (onAckedFrame space) c).view space) ∧
      ∀ n ∈ new, ∃ largest, .ack largest ∈ payload ∧ n = .trimmed space largest) ∧
    ∀ s, s ≠ space → (payload.foldl (onAckedFrame space) c).view s = c.view s := by
  induction payload generalizing c with
  | nil => exact ⟨⟨[], Trims.refl _, by simp⟩, fun _ _ => rfl⟩
  | cons f payload ih =>
    rw [foldl_cons]
    obtain ⟨⟨new, hnew, hall⟩, hother⟩ := ih (onAckedFrame space c f)
    cases f with
    | ack largest =>
      refine ⟨⟨_, (trims_trim c space largest).trans hnew, fun n hn => ?_⟩, fun s hs => ?_⟩
      · rcases mem_append.1 hn with hn | hn
        · obtain ⟨l, hl, rfl⟩ := hall n hn
          exact ⟨l, mem_cons_of_mem _ hl, rfl⟩
        · exact ⟨largest, mem_cons_self, mem_singleton.1 hn⟩
      · rw [hother s hs]
        exact view_trim_other c largest hs
    | other =>
      refine ⟨⟨new, hnew, fun n hn => ?_⟩, hother⟩
      obtain ⟨l, hl, rfl⟩ := hall n hn
      exact ⟨l, mem_cons_of_mem _ hl, rfl⟩

/-- The new notes are on the packets that were acknowledged, and on the ACK frames in them. -/
structure NotesOn (space : Space) (acked : List (Sent (List SentFrame))) (new : List Note) :
    Prop where
  complete : ∀ p ∈ acked, .acked space p.pn ∈ new
  sound : ∀ n ∈ new, ∃ p ∈ acked, n = .acked space p.pn ∨
    ∃ largest, .ack largest ∈ p.payload ∧ n = .trimmed space largest

lemma foldl_onAcked (c : Conn) (space : Space) (acked : List (Sent (List SentFrame))) :
    (∃ new, Trims space new (c.view space) ((acked.foldl (onAcked space) c).view space) ∧
      NotesOn space acked new) ∧
    ∀ s, s ≠ space → (acked.foldl (onAcked space) c).view s = c.view s := by
  induction acked generalizing c with
  | nil => exact ⟨⟨[], Trims.refl _, by simp, by simp⟩, fun _ _ => rfl⟩
  | cons p acked ih =>
    rw [foldl_cons]
    obtain ⟨⟨new, hnew, hon⟩, hother⟩ := ih (onAcked space c p)
    obtain ⟨⟨new', hnew', hall'⟩, hother'⟩ :=
      foldl_onAckedFrame (c.note (.acked space p.pn)) space p.payload
    refine ⟨⟨_, ((trims_note_acked c space p.pn).trans hnew').trans hnew, ?_, ?_⟩, fun s hs => ?_⟩
    · intro q hq
      rcases mem_cons.1 hq with rfl | hq
      · exact mem_append_right _ (mem_append_right _ mem_cons_self)
      · exact mem_append_left _ (hon.complete q hq)
    · intro n hn
      rcases mem_append.1 hn with hn | hn
      · obtain ⟨q, hq, h⟩ := hon.sound n hn
        exact ⟨q, mem_cons_of_mem _ hq, h⟩
      · refine ⟨p, mem_cons_self, ?_⟩
        rcases mem_append.1 hn with hn | hn
        · exact .inr (hall' n hn)
        · exact .inl (mem_singleton.1 hn)
    · rw [hother s hs, onAcked, hother' s hs]
      exact view_note_other fun h => hs h.symm

end Conn

/-! ### The packets that an ACK frame acknowledges -/

variable {T : Type*}

lemma mem_takeOut {m : BTreeMap ℕ (Sent T)} {keys : List ℕ}
    {out : List (Sent T) × BTreeMap ℕ (Sent T)} (h : takeOut m keys = some out) :
    (∀ p, p ∈ out.1 ↔ ∃ k ∈ keys, (k, p) ∈ m) ∧ ∀ e, e ∈ out.2 ↔ e ∈ m ∧ e.1 ∉ keys := by
  induction keys generalizing m out with
  | nil =>
    cases h
    simp
  | cons k keys ih =>
    rw [takeOut] at h
    split at h
    · cases h
    · rename_i p hp
      obtain ⟨rest, hrest, rfl⟩ := Option.map_eq_some_iff.1 h
      obtain ⟨h1, h2⟩ := ih hrest
      have hk := get_eq_some.1 hp
      refine ⟨fun q => ?_, fun e => ?_⟩
      · rw [mem_cons, h1]
        constructor
        · rintro (rfl | ⟨k', hk', hq⟩)
          · exact ⟨k, mem_cons_self, hk⟩
          · exact ⟨k', mem_cons_of_mem _ hk', (mem_remove.1 hq).1⟩
        · rintro ⟨k', hk', hq⟩
          rcases eq_or_ne k' k with rfl | hne
          · exact .inl (value_unique hq hk)
          · exact .inr ⟨k', (mem_cons.1 hk').resolve_left hne,
              mem_remove.2 ⟨hq, hne⟩⟩
      · rw [h2, mem_remove, mem_cons, not_or, and_assoc]

lemma mem_takeRanges {m : BTreeMap ℕ (Sent T)} {ranges : List (ℕ × ℕ)}
    {out : List (Sent T) × BTreeMap ℕ (Sent T)} (h : takeRanges m ranges = some out) (p : Sent T) :
    p ∈ out.1 ↔ ∃ k, Lists ranges k ∧ (k, p) ∈ m := by
  induction ranges generalizing m out with
  | nil =>
    cases h
    simp [Lists]
  | cons r ranges ih =>
    rw [takeRanges] at h
    obtain ⟨here, hhere, h⟩ := Option.bind_eq_some_iff.1 h
    obtain ⟨rest, hrest, rfl⟩ := Option.map_eq_some_iff.1 h
    obtain ⟨h1, h2⟩ := mem_takeOut hhere
    have hkeys : ∀ k q, (k, q) ∈ m →
        (k ∈ (m.range fun k => decide (r.1 ≤ k ∧ k ≤ r.2)).map Prod.fst ↔ r.1 ≤ k ∧ k ≤ r.2) := by
      intro k q hkq
      rw [mem_map]
      constructor
      · rintro ⟨e, he, rfl⟩
        simpa using (mem_filter.1 he).2
      · exact fun hr => ⟨(k, q), mem_filter.2 ⟨hkq, by simpa using hr⟩, rfl⟩
    rw [mem_append, h1, ih hrest]
    constructor
    · rintro (⟨k, hk, hp⟩ | ⟨k, ⟨r', hr', hin⟩, hp⟩)
      · exact ⟨k, ⟨r, mem_cons_self, (hkeys k p hp).1 hk⟩, hp⟩
      · exact ⟨k, ⟨r', mem_cons_of_mem _ hr', hin⟩, ((h2 _).1 hp).1⟩
    · rintro ⟨k, ⟨r', hr', hin⟩, hp⟩
      rcases mem_cons.1 hr' with rfl | hr'
      · exact .inl ⟨k, (hkeys k p hp).2 hin, hp⟩
      · by_cases hk : r.1 ≤ k ∧ k ≤ r.2
        · exact .inl ⟨k, (hkeys k p hp).2 hk, hp⟩
        · exact .inr ⟨k, ⟨r', hr', hin⟩, (h2 _).2 ⟨hp, fun h => hk ((hkeys k p hp).1 h)⟩⟩

lemma afterAcked_acked {r r' : Recovery T} {now largest ack_delay : ℕ} {space : Space}
    {acked : List (Sent T)} {out : AckOutcome T}
    (h : r.afterAcked now space largest ack_delay acked = some (out, r')) : out.acked = acked := by
  obtain ⟨_, _, h⟩ := Option.bind_eq_some_iff.1 h
  obtain ⟨_, _, h⟩ := Option.map_eq_some_iff.1 h
  exact (congrArg (fun o => o.1.acked) h).symm

lemma mem_onAckReceived {r r' : Recovery T} {now largest ack_delay : ℕ} {space : Space}
    {ranges : List (ℕ × ℕ)} {out : AckOutcome T}
    (h : r.onAckReceived now space largest ack_delay ranges = some (out, r')) (p : Sent T) :
    p ∈ out.acked ↔ ∃ k, Lists ranges k ∧ (k, p) ∈ (r.spaces space).sent := by
  obtain ⟨taken, htake, h⟩ := Option.bind_eq_some_iff.1 h
  rw [← mem_takeRanges htake]
  dsimp only at h
  split_ifs at h with hempty
  · have hout := congrArg (fun o => o.1.acked) (Option.some.inj h)
    dsimp only at hout
    rw [← hout, isEmpty_iff.1 hempty]
  · rw [afterAcked_acked h]
    exact (perm_insertionSort _ _).mem_iff

namespace Conn

variable {c c' : Conn} {space s : Space} {now : ℕ}

lemma view_discardSpace (c : Conn) (now : ℕ) (space s : Space) :
    (c.discardSpace now space).view s = c.view s ∨
      s = space ∧ (c.discardSpace now space).view s = (AckState.new, []) := by
  rw [discardSpace]
  dsimp only
  split_ifs
  · exact .inl rfl
  · rcases eq_or_ne s space with rfl | hs
    · refine .inr ⟨rfl, ?_⟩
      simp [view, note, life, setSpace]
    · refine .inl ?_
      rw [view_note_other (fun h => hs h.symm)]
      simp [view, setSpace, hs]

lemma processFrame_view {f : Frame} {ok : Bool} (h : c.processFrame now space f = some (ok, c'))
    (s : Space) : c'.view s = c.view s ∨ (s ≠ space ∧ c'.view s = (AckState.new, [])) ∨
      (s = space ∧ ∃ largest delay ranges new, f = .ack largest delay ranges ∧
        Trims space new (c.view space) (c'.view space) ∧
        NotesOn space (c.ackedBy space ranges) new) := by
  cases f with
  | ack largest delay ranges =>
    rw [processFrame, onAckFrame] at h
    split at h
    · cases h
      exact .inl rfl
    · obtain ⟨⟨out, r⟩, hack, heq⟩ := Option.map_eq_some_iff.1 h
      cases heq
      obtain ⟨⟨new, htrims, hon⟩, hother⟩ := foldl_onAcked { c with recovery := r } space out.acked
      rcases eq_or_ne s space with rfl | hs
      · have hmem : ∀ p, p ∈ out.acked ↔ p ∈ c.ackedBy s ranges := by
          intro p
          rw [mem_onAckReceived hack, ackedBy, mem_map]
          constructor
          · rintro ⟨k, hk, hp⟩
            exact ⟨(k, p), mem_filter.2 ⟨hp, by simpa using hk⟩, rfl⟩
          · rintro ⟨e, he, rfl⟩
            obtain ⟨h1, h2⟩ := mem_filter.1 he
            exact ⟨e.1, by simpa using h2, h1⟩
        refine .inr (.inr ⟨rfl, largest, delay, ranges, new, rfl, htrims, ?_, fun n hn => ?_⟩)
        · exact fun p hp => hon.complete p ((hmem p).2 hp)
        · obtain ⟨p, hp, hn⟩ := hon.sound n hn
          exact ⟨p, (hmem p).1 hp, hn⟩
      · exact .inl (hother s hs)
  | handshakeDone =>
    rw [processFrame, Option.some.injEq, onHandshakeDone] at h
    split_ifs at h with happ hconf
    · cases h
      exact .inl rfl
    · cases h
      exact .inl rfl
    · cases h
      rcases view_discardSpace { c with handshake_confirmed := true } now .handshake s with hv | hv
      · exact .inl hv
      · refine .inr (.inl ⟨?_, hv.2⟩)
        rintro rfl
        exact happ (by rw [hv.1]; simp)
  | other eliciting effect =>
    refine .inl ?_
    rw [processFrame, Option.some.injEq] at h
    cases effect with
    | installs space' tx rx =>
      rw [onEffect, Prod.mk.injEq] at h
      rw [← h.2]
      rcases eq_or_ne s space' with rfl | hs
      · split_ifs <;> simp [view, setSpace]
      · split_ifs <;> simp [view, setSpace, hs]
    | nothing | error | parameters | completes | closes =>
      cases h
      rfl

lemma onReceived_received (a : AckState) (now pn : ℕ) (eliciting delay_allowed : Bool)
    (max_ack_delay : ℕ) : (a.onReceived now pn eliciting delay_allowed max_ack_delay).received =
      (a.received.insert ⟨pn, pn + 1⟩).2 := by
  rw [AckState.onReceived]
  dsimp only
  split_ifs <;> rfl

/-! ### A packet is acted on once -/

/-- The numbers that were acted on and are above all that was trimmed are among those received, but
for one that is being acted on; none was acted on twice. -/
structure Caught (space : Space) (skip : Option ℕ) (v : AckState × List Note) : Prop where
  wf : v.1.received.Wf
  caught : ∀ pn, .ran space pn ∈ v.2 → some pn ≠ skip →
    (∀ largest, .trimmed space largest ∈ v.2 → largest < pn) → pn ∈ v.1.received
  once : ∀ pn, v.2.count (.ran space pn) ≤ 1

variable {skip : Option ℕ} {v v' : AckState × List Note}

lemma caught_new : Caught space skip (AckState.new, []) :=
  ⟨RangeSet.wf_new, fun _ h => absurd h not_mem_nil, fun _ => by simp⟩

lemma Caught.trims {acked : List (Sent (List SentFrame))} {new : List Note}
    (h : Caught space skip v)
    (htrims : Trims space new v v') (hon : NotesOn space acked new) : Caught space skip v' := by
  have hnot : ∀ pn, .ran space pn ∉ new := by
    intro pn hpn
    obtain ⟨p, -, hn | ⟨l, -, hn⟩⟩ := hon.sound _ hpn
    · cases hn
    · cases hn
  refine ⟨htrims.wf h.wf, fun pn hran hskip habove => ?_, fun pn => ?_⟩
  · rw [htrims.notes] at hran habove
    have hran' := (mem_append.1 hran).resolve_left (hnot pn)
    refine (htrims.mem h.wf pn).2 ⟨h.caught pn hran' hskip fun l hl => ?_, fun l hl => ?_⟩
    · exact habove l (mem_append_right _ hl)
    · exact habove l (mem_append_left _ hl)
  · rw [htrims.notes, count_append, count_eq_zero_of_not_mem (hnot pn), zero_add]
    exact h.once pn

lemma Caught.of_eq (h : Caught space skip v) (hreceived : v'.1.received = v.1.received)
    {n : Note} (hnotes : v'.2 = n :: v.2) (hran : ∀ pn, n ≠ .ran space pn) :
    Caught space skip v' := by
  refine ⟨hreceived ▸ h.wf, fun pn hpn hskip habove => ?_, fun pn => ?_⟩
  · rw [hnotes] at hpn habove
    rw [hreceived]
    refine h.caught pn ((mem_cons.1 hpn).resolve_left fun hn => hran pn hn.symm) hskip ?_
    exact fun l hl => habove l (mem_cons_of_mem _ hl)
  · rw [hnotes, count_cons_of_ne (hran pn)]
    exact h.once pn

/-- The number that is being acted on, in its space. -/
def skipAt (space : Space) (pn : ℕ) (s : Space) : Option ℕ := if s = space then some pn else none

variable {eliciting : Bool} {frames : List Frame}

lemma processFrames_caught {out : Option Bool} {skip : Space → Option ℕ}
    (h : ∀ s, Caught s (skip s) (c.view s))
    (hrun : processFrames now space c frames eliciting = some (out, c')) :
    ∀ s, Caught s (skip s) (c'.view s) := by
  induction frames generalizing c eliciting with
  | nil =>
    cases hrun
    exact h
  | cons f frames ih =>
    rw [processFrames] at hrun
    obtain ⟨⟨ok, c₁⟩, hframe, hrest⟩ := Option.bind_eq_some_iff.1 hrun
    have h₁ : ∀ s, Caught s (skip s) (c₁.view s) := by
      intro s
      rcases processFrame_view hframe s with hv | ⟨-, hv⟩ | ⟨rfl, _, _, _, new, -, htrims, hon⟩
      · rw [hv]
        exact h s
      · rw [hv]
        exact caught_new
      · exact (h s).trims htrims hon
    dsimp only at hrest
    split_ifs at hrest
    · cases hrest
      exact h₁
    · exact ih h₁ hrest
    · cases hrest
      exact h₁

/-- In every state: no packet was acted on twice, and while the connection lives the next packet
that comes again is caught. -/
def Guarded (c : Conn) : Prop :=
  ∃ skip : Space → Option ℕ, (∀ s, Caught s (skip s) (c.view s)) ∧
    (c.closing = false → ∀ s, skip s = none)

lemma guarded_new (config : Config) : Guarded (new config) :=
  ⟨fun _ => none, fun _ => caught_new, fun _ _ => rfl⟩

lemma Guarded.of_view (h : Guarded c) (hview : ∀ s, c'.view s = c.view s)
    (hclosing : c'.closing = false → c.closing = false) : Guarded c' := by
  obtain ⟨skip, h1, h2⟩ := h
  exact ⟨skip, fun s => by rw [hview s]; exact h1 s, fun hc => h2 (hclosing hc)⟩

lemma Guarded.received {pn : ℕ} (h : ∀ s, Caught s (skipAt space pn s) (c.view s)) :
    Guarded (c.received now space pn eliciting) := by
  refine ⟨fun _ => none, fun s => ?_, fun _ _ => rfl⟩
  rcases eq_or_ne s space with rfl | hs
  · have hs := h s
    rw [Conn.received, view_note (n := .received s pn eliciting) (s := s) rfl (by simp)]
    set delay_allowed := decide (s = .application) && c.handshake_complete
    set ack := (c.spaces s).ack.onReceived now pn eliciting delay_allowed c.config.max_ack_delay
      with hack
    have hview : (c.setSpace s { c.spaces s with ack := ack }).view s = (ack, (c.view s).2) := by
      simp [view, setSpace]
    rw [hview, hack]
    refine ⟨?_, fun pn' hpn' _ habove => ?_, fun pn' => ?_⟩
    · rw [onReceived_received]
      exact RangeSet.wf_insert hs.wf
    · dsimp only at hpn' habove ⊢
      rw [onReceived_received]
      refine (RangeSet.mem_insert hs.wf).2 ?_
      rcases eq_or_ne pn' pn with rfl | hne
      · exact .inr ⟨le_refl _, Nat.lt_succ_self _⟩
      · refine .inl (hs.caught pn' (by simpa using hpn') ?_ fun l hl => ?_)
        · rw [skipAt, if_pos rfl]
          simpa using hne
        · exact habove l (mem_cons_of_mem _ hl)
    · rw [count_cons_of_ne (by simp)]
      exact hs.once pn'
  · have hview : (c.received now space pn eliciting).view s = c.view s := by
      rw [Conn.received, view_note_other (fun h => hs h.symm)]
      simp [view, setSpace, hs]
    rw [hview]
    have := h s
    rwa [skipAt, if_neg hs] at this

lemma Guarded.processPacket {pn : ℕ} (h : Guarded c)
    (hbelow : c.NotBelow (.packet now space pn frames))
    (hstep : c.processPacket now space pn frames = some c') : Guarded c' := by
  rw [Conn.processPacket] at hstep
  split_ifs at hstep with hacc
  swap
  · cases hstep
    exact h
  · rw [accepts, Bool.and_eq_true, Bool.and_eq_true, Bool.not_eq_true', Bool.not_eq_true'] at hacc
    obtain ⟨skip, hcaught, hnone⟩ := h
    have hnone := hnone hacc.1.1
    -- the number was not acted on before: it would be among those received
    have hnew : .ran space pn ∉ (c.view space).2 := by
      intro hran
      have hmem := (hcaught space).caught pn hran (by rw [hnone]; simp)
        fun l hl => hbelow hran _ hl
      rw [← RangeSet.contains_iff (hcaught space).wf] at hmem
      exact Bool.false_ne_true (hacc.2.symm.trans hmem)
    have hstart : ∀ s, Caught s (skipAt space pn s) ((c.note (.ran space pn)).view s) := by
      intro s
      have hs := hcaught s
      rw [hnone s] at hs
      rcases eq_or_ne s space with rfl | hne
      · rw [view_note (n := .ran s pn) (s := s) rfl (by simp), skipAt, if_pos rfl]
        refine ⟨hs.wf, fun pn' hpn' hskip habove => ?_, fun pn' => ?_⟩
        · refine hs.caught pn' ?_ (by simp) fun l hl => habove l (mem_cons_of_mem _ hl)
          refine (mem_cons.1 hpn').resolve_left fun heq => hskip ?_
          cases heq
          rfl
        · rcases eq_or_ne pn' pn with rfl | hpn
          · rw [count_cons_self, count_eq_zero_of_not_mem hnew]
          · rw [count_cons_of_ne (by simpa using hpn.symm)]
            exact hs.once pn'
      · rw [view_note_other (fun h => hne h.symm), skipAt, if_neg hne]
        exact hs
    obtain ⟨⟨out, c₁⟩, hframes, hend⟩ := Option.map_eq_some_iff.1 hstep
    have h₁ := processFrames_caught hstart hframes
    cases out with
    | none =>
      cases hend
      exact ⟨_, h₁, fun hc => absurd hc (by simp)⟩
    | some eliciting =>
      dsimp only at hend
      split_ifs at hend with hclosing
      · cases hend
        exact ⟨_, h₁, fun hc => absurd hc (by simp [hclosing])⟩
      · cases hend
        exact Guarded.received h₁

lemma view_sendPacket (c : Conn) (size : ℕ) (eliciting in_flight : Bool) (payload : List SentFrame)
    (s : Space) : (c.sendPacket now space size eliciting in_flight payload).view s = c.view s := by
  rcases eq_or_ne s space with rfl | hs
  · simp [view, sendPacket, setSpace]
  · simp [view, sendPacket, setSpace, hs]

lemma transmit_view {budget size : ℕ} {others : List SentFrame} {eliciting in_flight : Bool}
    (h : c.transmit now space budget size others eliciting in_flight = some c') (s : Space) :
    c'.view s = c.view s ∨ s = space ∧ ∃ pn ranges ack,
      (c.view s).1.write now c.config.ack_delay_exponent budget = some (some (ranges, ack)) ∧
        c'.view s = (ack, .wrote space pn ranges :: (c.view s).2) := by
  rw [transmit] at h
  dsimp only at h
  by_cases hidle : c.closing = true ∨ ¬ (c.spaces space).tx = true
  · rw [if_pos hidle] at h
    cases h
    exact .inl rfl
  · rw [if_neg hidle] at h
    obtain ⟨written, hwrite, heq⟩ := Option.map_eq_some_iff.1 h
    cases written with
    | some out =>
      obtain ⟨ranges, ack⟩ := out
      dsimp only at heq
      subst heq
      rw [view_sendPacket]
      rcases eq_or_ne s space with rfl | hs
      · refine .inr ⟨rfl, (c.spaces s).next_pn, ranges, ack, hwrite, ?_⟩
        rw [view_note (n := .wrote s _ ranges) (s := s) rfl (by simp)]
        simp [view, setSpace]
      · refine .inl ?_
        rw [view_note_other (fun h => hs h.symm)]
        simp [view, setSpace, hs]
    | none =>
      dsimp only at heq
      split_ifs at heq
      · exact .inl (by rw [heq])
      · subst heq
        exact .inl (view_sendPacket c size eliciting in_flight others s)

lemma closing_transmit {budget size : ℕ} {others : List SentFrame} {eliciting in_flight : Bool}
    (h : c.transmit now space budget size others eliciting in_flight = some c') :
    c'.closing = c.closing := by
  rw [transmit] at h
  dsimp only at h
  by_cases hidle : c.closing = true ∨ ¬ (c.spaces space).tx = true
  · rw [if_pos hidle] at h
    cases h
    rfl
  · rw [if_neg hidle] at h
    obtain ⟨written, -, rfl⟩ := Option.map_eq_some_iff.1 h
    cases written with
    | some out => rfl
    | none =>
      dsimp only
      split_ifs <;> rfl

lemma closing_discardSpace (c : Conn) (now : ℕ) (space : Space) :
    (c.discardSpace now space).closing = c.closing := by
  rw [discardSpace]
  dsimp only
  split_ifs <;> rfl

variable {a : AckState} {room : ℕ}

lemma write_spec {a' : AckState} {exponent : ℕ} {ranges : List (ℕ × ℕ)}
    (h : a.write now exponent room = some (some (ranges, a'))) :
    (∃ n, ranges = a.ranges.take n) ∧
      a' = { a with unacked := 0, immediate := false, deadline := none } := by
  have hfit : ∀ n, AckState.fit (a.delay now exponent) room a.ranges n = some (some ranges) →
      ∃ n, ranges = a.ranges.take n := by
    intro n
    induction n with
    | zero => exact fun hrs => absurd hrs (by simp [AckState.fit])
    | succ n ih =>
      intro hrs
      obtain ⟨frame, -, hrs⟩ := Option.bind_eq_some_iff.1 hrs
      split_ifs at hrs
      · cases hrs
        exact ⟨n + 1, rfl⟩
      · exact ih hrs
  rw [AckState.write] at h
  split_ifs at h
  swap
  · cases h
  obtain ⟨fits, hfits, heq⟩ := Option.bind_eq_some_iff.1 h
  rw [Option.some.injEq, Option.map_eq_some_iff] at heq
  obtain ⟨rs, rfl, heq⟩ := heq
  cases heq
  exact ⟨hfit _ hfits, rfl⟩

lemma onTimeout_view (h : c.onTimeout now = some c') :
    (∀ s, c'.view s = c.view s) ∧ c'.closing = c.closing := by
  rw [onTimeout] at h
  split_ifs at h
  · cases h
    exact ⟨fun _ => rfl, rfl⟩
  · obtain ⟨_, -, rfl⟩ := Option.map_eq_some_iff.1 h
    exact ⟨fun _ => rfl, rfl⟩

lemma onRetry_view (c : Conn) (rtt : Option ℕ) :
    (∀ s, (c.onRetry rtt).view s = c.view s) ∧ (c.onRetry rtt).closing = c.closing := by
  rw [onRetry]
  split_ifs <;> exact ⟨fun _ => rfl, rfl⟩

lemma Guarded.step {e : Event} (h : Guarded c) (hbelow : c.NotBelow e)
    (hstep : c.step e = some c') : Guarded c' := by
  cases e with
  | packet now space pn frames => exact h.processPacket hbelow hstep
  | transmit now space budget size others eliciting in_flight =>
    obtain ⟨skip, hcaught, hnone⟩ := h
    refine ⟨skip, fun s => ?_, fun hc => hnone (by rwa [closing_transmit hstep] at hc)⟩
    rcases transmit_view hstep s with hv | ⟨rfl, pn, ranges, ack, hwrite, hv⟩
    · rw [hv]
      exact hcaught s
    · rw [hv, (write_spec hwrite).2]
      exact (hcaught s).of_eq rfl rfl (by simp)
  | timeout now => exact h.of_view (onTimeout_view hstep).1 fun hc => (onTimeout_view hstep).2 ▸ hc
  | retry rtt =>
    cases hstep
    exact h.of_view (onRetry_view c rtt).1 fun hc => (onRetry_view c rtt).2 ▸ hc
  | discard now space =>
    cases hstep
    obtain ⟨skip, hcaught, hnone⟩ := h
    refine ⟨skip, fun s => ?_, fun hc => hnone (by rwa [closing_discardSpace] at hc)⟩
    rcases view_discardSpace c now space s with hv | ⟨-, hv⟩
    · rw [hv]
      exact hcaught s
    · rw [hv]
      exact caught_new
  | close =>
    cases hstep
    exact h.of_view (fun _ => rfl) fun hc => absurd hc (by simp)

/-- In a run in which no packet comes again at or below the largest number of an acknowledged ACK
frame of ours, the frames of a packet are acted on at most once. -/
theorem acted_on_at_most_once {config : Config} {events : List Event}
    (h : Run step NotBelow (new config) events c) (space : Space) (pn : ℕ) :
    (life space c.log).count (.ran space pn) ≤ 1 := by
  have hguarded : Guarded c :=
    h.invariant (fun _ _ _ hc hbelow hstep => hc.step hbelow hstep) (guarded_new config)
  obtain ⟨skip, hcaught, -⟩ := hguarded
  exact (hcaught space).once pn

/-- A ping comes twice, before and after an ACK frame of ours was acknowledged. -/
def pingAgain : List Event :=
  [.packet 0 .initial 0 [.other true (.installs .handshake true true)],
   .packet 0 .handshake 0 [.other true (.installs .application true true), .other true .completes],
   .packet 1 .application 0 [.other true .nothing],
   .transmit 2 .application 1000 40 1 true true,
   .packet 3 .application 1 [.ack 0 0 [(0, 0)]],
   .packet 4 .application 0 [.other true .nothing]]

/-- The same ping, that comes again while the ACK frame is not acknowledged yet. -/
def pingAgainEarly : List Event :=
  [.packet 0 .initial 0 [.other true (.installs .handshake true true)],
   .packet 0 .handshake 0 [.other true (.installs .application true true), .other true .completes],
   .packet 1 .application 0 [.other true .nothing],
   .transmit 2 .application 1000 40 1 true true,
   .packet 3 .application 0 [.other true .nothing],
   .packet 4 .application 1 [.ack 0 0 [(0, 0)]]]

theorem acted_on_at_most_once_early : ∃ c,
    Run step NotBelow (new ⟨1200, 3, 25000000⟩) pingAgainEarly c ∧
      .ran .application 0 ∈ life .application c.log ∧
      (life .application c.log).count (.ran .application 0) ≤ 1 := by
  have hran : (Run.exec step NotBelow (new ⟨1200, 3, 25000000⟩) pingAgainEarly).map
      (fun c => decide (.ran .application 0 ∈ life .application c.log)) = some true := by decide
  obtain ⟨c, hexec, hmem⟩ := Option.map_eq_some_iff.1 hran
  have hrun := Run.of_exec hexec
  exact ⟨c, hrun, of_decide_eq_true hmem, acted_on_at_most_once hrun .application 0⟩

/-- The ping is acted on twice. -/
theorem replayed_ping_is_acted_on_again : ∃ c,
    Run step (fun _ _ => True) (new ⟨1200, 3, 25000000⟩) pingAgain c ∧
      (life .application c.log).count (.ran .application 0) = 2 := by
  have htwice : (Run.exec step (fun _ _ => True) (new ⟨1200, 3, 25000000⟩) pingAgain).map
      (fun c => (life .application c.log).count (.ran .application 0)) = some 2 := by decide
  obtain ⟨c, hexec, hcount⟩ := Option.map_eq_some_iff.1 htwice
  exact ⟨c, Run.of_exec hexec, hcount⟩

/-! ### No acknowledgment is forgotten -/

variable {log : List Note}

lemma space_of_mem_life {n : Note} (h : n ∈ life space log) : n.space = space := by
  induction log with
  | nil => exact absurd h not_mem_nil
  | cons m log ih =>
    rw [life] at h
    split_ifs at h with h1 h2
    · exact absurd h not_mem_nil
    · rcases mem_cons.1 h with rfl | h
      · exact h2
      · exact ih h
    · exact ih h

lemma mem_elicited {x : ℕ} : x ∈ elicited log ↔ ∃ s, .received s x true ∈ log := by
  induction log with
  | nil => simp [elicited]
  | cons n log ih =>
    cases n with
    | received s y eliciting =>
      cases eliciting with
      | true =>
        rw [elicited, mem_cons, ih]
        constructor
        · rintro (rfl | ⟨s', h⟩)
          · exact ⟨s, mem_cons_self⟩
          · exact ⟨s', mem_cons_of_mem _ h⟩
        · rintro ⟨s', h⟩
          rcases mem_cons.1 h with h | h
          · cases h
            exact .inl rfl
          · exact .inr ⟨s', h⟩
      | false => simpa [elicited] using ih
    | ran | wrote | acked | trimmed | discarded => simpa [elicited] using ih

lemma covered_of_unlisted {x : ℕ} (pn : ℕ) (h : x ∈ unlisted log) :
    covered x pn log = false ∧ x ∈ elicited log := by
  induction log with
  | nil => exact absurd h not_mem_nil
  | cons n log ih =>
    cases n with
    | received s y eliciting =>
      cases eliciting with
      | true =>
        rw [unlisted, mem_cons] at h
        rw [covered, elicited, mem_cons]
        rcases h with rfl | h
        · exact ⟨by simp, .inl rfl⟩
        · exact ⟨by simp [(ih h).1], .inr (ih h).2⟩
      | false => exact ih h
    | wrote s pn' ranges =>
      obtain ⟨h, hnot⟩ := mem_filter.1 h
      have hnot : ¬ Lists ranges x := of_decide_eq_true hnot
      rw [covered]
      split_ifs
      · exact ⟨decide_eq_false hnot, (ih h).2⟩
      · exact ih h
    | ran | acked | trimmed | discarded => exact ih h

lemma unlisted_of_fresh {x : ℕ} (h : x ∈ fresh log) : x ∈ unlisted log := by
  induction log with
  | nil => exact absurd h not_mem_nil
  | cons n log ih =>
    cases n with
    | received s y eliciting =>
      cases eliciting with
      | true =>
        rw [fresh, mem_cons] at h
        exact mem_cons.2 (h.imp_right ih)
      | false => exact ih h
    | wrote s pn ranges => exact absurd h not_mem_nil
    | ran | acked | trimmed | discarded => exact ih h

lemma wrote_of_covered {x pn : ℕ} (h : covered x pn log = true) :
    ∃ s ranges, .wrote s pn ranges ∈ log ∧ Lists ranges x := by
  induction log with
  | nil => exact absurd h (by simp [covered])
  | cons n log ih =>
    have hrest : covered x pn log = true → ∃ s ranges, .wrote s pn ranges ∈ n :: log ∧
        Lists ranges x := by
      intro h
      obtain ⟨s, ranges, h1, h2⟩ := ih h
      exact ⟨s, ranges, mem_cons_of_mem _ h1, h2⟩
    cases n with
    | received s y eliciting =>
      cases eliciting with
      | true =>
        rw [covered, Bool.and_eq_true] at h
        exact hrest h.2
      | false => exact hrest h
    | wrote s pn' ranges =>
      rw [covered] at h
      split_ifs at h with hpn
      · exact ⟨s, ranges, hpn ▸ mem_cons_self, of_decide_eq_true h⟩
      · exact hrest h
    | ran | acked | trimmed | discarded => exact hrest h

/-- What is acknowledged was acted on, and what is to be acknowledged is among the numbers received
until an ACK frame that lists it was acknowledged, and within reach of the next one until one lists
it. -/
structure Owed (space : Space) (v : AckState × List Note) : Prop where
  wf : v.1.received.Wf
  ran : ∀ x ∈ v.1.received, .ran space x ∈ v.2
  le_max : ∀ x ∈ v.1.received, x ≤ Wire.MAX_VARINT
  truthful : ∀ pn ranges, .wrote space pn ranges ∈ v.2 → ∀ x, Lists ranges x → .ran space x ∈ v.2
  kept : ∀ x ∈ elicited v.2, x ∈ v.1.received ∨
    ∃ pn ranges, .wrote space pn ranges ∈ v.2 ∧ Lists ranges x ∧ .acked space pn ∈ v.2
  unlisted_mem : ∀ x ∈ unlisted v.2, x ∈ v.1.received
  reached : ∀ x ∈ unlisted v.2, rangesAbove v.1.received x < MAX_ACK_RANGES
  pending : 0 < v.1.unacked ↔ fresh v.2 ≠ []

lemma owed_new : Owed space (AckState.new, []) where
  wf := RangeSet.wf_new
  ran := fun _ h => absurd h RangeSet.not_mem_new
  le_max := fun _ h => absurd h RangeSet.not_mem_new
  truthful := fun _ _ h => absurd h not_mem_nil
  kept := fun _ h => absurd h not_mem_nil
  unlisted_mem := fun _ h => absurd h not_mem_nil
  reached := fun _ h => absurd h not_mem_nil
  pending := by simp [AckState.new, fresh]

lemma rangesAbove_le {R S : RangeSet} {x : ℕ} (hR : R.Wf) (hS : S.Wf)
    (h : ∀ z, x ≤ z → (z ∈ R ↔ z ∈ S)) : rangesAbove R x ≤ rangesAbove S x := by
  refine (R.ranges.nodup_entries.filter _).subperm (fun e he => ?_) |>.length_le
  obtain ⟨he, hx⟩ := mem_filter.1 he
  have hx : x < e.1 := of_decide_eq_true hx
  exact mem_filter.2 ⟨RangeSet.mem_ranges_of_same hR hS he fun z hz => h z (by omega),
    decide_eq_true hx⟩

lemma NotesOn.skipped {acked : List (Sent (List SentFrame))} {new : List Note}
    (h : NotesOn space acked new) (log : List Note) :
    elicited (new ++ log) = elicited log ∧ unlisted (new ++ log) = unlisted log ∧
      fresh (new ++ log) = fresh log := by
  have hall : ∀ n ∈ new, (∃ pn, n = .acked space pn) ∨ ∃ l, n = .trimmed space l := by
    intro n hn
    obtain ⟨p, -, hn | ⟨l, -, hn⟩⟩ := h.sound n hn
    · exact .inl ⟨_, hn⟩
    · exact .inr ⟨l, hn⟩
  clear h
  induction new with
  | nil => exact ⟨rfl, rfl, rfl⟩
  | cons n new ih =>
    rw [forall_mem_cons] at hall
    rcases hall.1 with ⟨pn, rfl⟩ | ⟨l, rfl⟩
    · exact ih hall.2
    · exact ih hall.2

lemma Owed.trims {ranges : List (ℕ × ℕ)} {new : List Note} (h : Owed space (c.view space))
    (htrims : Trims space new (c.view space) v')
    (hon : NotesOn space (c.ackedBy space ranges) new)
    {largest delay : ℕ} (hcovered : c.AckCovered space (.ack largest delay ranges)) :
    Owed space v' := by
  obtain ⟨helicited, hunlisted, hfresh⟩ := hon.skipped (c.view space).2
  rw [← htrims.notes] at helicited hunlisted hfresh
  have hsub : ∀ n ∈ (c.view space).2, n ∈ v'.2 := by
    rw [htrims.notes]
    exact fun n hn => mem_append_right _ hn
  have hmem := htrims.mem h.wf
  -- a number that is gone is listed in an ACK frame that was acknowledged
  have hgone : ∀ x ∈ elicited (c.view space).2, x ∈ (c.view space).1.received →
      x ∉ v'.1.received → ∃ q ∈ c.ackedBy space ranges,
        covered x q.pn (c.view space).2 = true := by
    intro x hx hin hout
    rw [hmem, not_and] at hout
    have := hout hin
    push Not at this
    obtain ⟨l, hl, hle⟩ := this
    obtain ⟨p, hp, hn | ⟨l', hl', hn⟩⟩ := hon.sound _ hl
    · cases hn
    · cases hn
      exact hcovered p hp _ hl' x hx hle hin
  -- a number that no ACK frame lists is not gone
  have hstays : ∀ x ∈ unlisted (c.view space).2, x ∈ v'.1.received := by
    intro x hx
    by_contra hout
    obtain ⟨q, -, hcov⟩ := hgone x (covered_of_unlisted 0 hx).2 (h.unlisted_mem x hx) hout
    rw [(covered_of_unlisted q.pn hx).1] at hcov
    exact Bool.false_ne_true hcov
  refine ⟨htrims.wf h.wf, fun x hx => hsub _ (h.ran x ((hmem x).1 hx).1),
    fun x hx => h.le_max x ((hmem x).1 hx).1, ?_, ?_, ?_, ?_, ?_⟩
  · intro pn rs hwrote x hx
    rw [htrims.notes] at hwrote
    rcases mem_append.1 hwrote with hw | hw
    · obtain ⟨p, -, hn | ⟨l, -, hn⟩⟩ := hon.sound _ hw
      · cases hn
      · cases hn
    · exact hsub _ (h.truthful pn rs hw x hx)
  · intro x hx
    rw [helicited] at hx
    by_cases hout : x ∈ v'.1.received
    · exact .inl hout
    · refine .inr ?_
      rcases h.kept x hx with hin | ⟨pn, rs, h1, h2, h3⟩
      · obtain ⟨q, hq, hcov⟩ := hgone x hx hin hout
        obtain ⟨s, rs, hw, hlists⟩ := wrote_of_covered hcov
        obtain rfl : s = space := space_of_mem_life hw
        refine ⟨q.pn, rs, hsub _ hw, hlists, ?_⟩
        rw [htrims.notes]
        exact mem_append_left _ (hon.complete q hq)
      · exact ⟨pn, rs, hsub _ h1, h2, hsub _ h3⟩
  · intro x hx
    rw [hunlisted] at hx
    exact hstays x hx
  · intro x hx
    rw [hunlisted] at hx
    refine (rangesAbove_le (htrims.wf h.wf) h.wf fun z hz => ?_).trans_lt (h.reached x hx)
    rw [hmem]
    refine and_iff_left fun l hl => ?_
    exact (((hmem x).1 (hstays x hx)).2 l hl).trans_le hz
  · rw [hfresh, htrims.rest]
    exact h.pending

lemma Owed.note_ran {pn : ℕ} (h : Owed space v) : Owed space (v.1, .ran space pn :: v.2) where
  wf := h.wf
  ran := fun x hx => mem_cons_of_mem _ (h.ran x hx)
  le_max := h.le_max
  truthful := fun p rs hw x hx =>
    mem_cons_of_mem _ (h.truthful p rs ((mem_cons.1 hw).resolve_left (by simp)) x hx)
  kept := fun x hx => by
    rcases h.kept x hx with hin | ⟨p, rs, h1, h2, h3⟩
    · exact .inl hin
    · exact .inr ⟨p, rs, mem_cons_of_mem _ h1, h2, mem_cons_of_mem _ h3⟩
  unlisted_mem := h.unlisted_mem
  reached := h.reached
  pending := h.pending

lemma onReceived_unacked (a : AckState) (now pn : ℕ) (eliciting delay_allowed : Bool)
    (max_ack_delay : ℕ) : (a.onReceived now pn eliciting delay_allowed max_ack_delay).unacked =
      if eliciting then a.unacked + 1 else a.unacked := by
  rw [AckState.onReceived]
  dsimp only
  cases eliciting with
  | false =>
    simp only [Bool.false_eq_true, not_false_eq_true, if_true, if_false]
    split_ifs <;> rfl
  | true =>
    simp only [not_true_eq_false, if_true, if_false]
    split_ifs <;> rfl

lemma Owed.received {pn : ℕ} (h : Owed space v) (hran : .ran space pn ∈ v.2)
    (hmax : pn ≤ Wire.MAX_VARINT) (hreceived : a.received = (v.1.received.insert ⟨pn, pn + 1⟩).2)
    (hunacked : a.unacked = if eliciting then v.1.unacked + 1 else v.1.unacked)
    (hreaches : ∀ x ∈ unlisted (.received space pn eliciting :: v.2),
      rangesAbove a.received x < MAX_ACK_RANGES) :
    Owed space (a, .received space pn eliciting :: v.2) := by
  have hmem : ∀ x, x ∈ a.received ↔ x ∈ v.1.received ∨ x = pn := by
    intro x
    rw [hreceived, RangeSet.mem_insert h.wf, Range.mem_def]
    dsimp only
    refine or_congr_right ?_
    omega
  refine ⟨?_, fun x hx => ?_, fun x hx => ?_, fun p rs hw x hx => ?_, fun x hx => ?_,
    fun x hx => ?_, hreaches, ?_⟩
  · dsimp only
    rw [hreceived]
    exact RangeSet.wf_insert h.wf
  · rcases (hmem x).1 hx with hx | rfl
    · exact mem_cons_of_mem _ (h.ran x hx)
    · exact mem_cons_of_mem _ hran
  · rcases (hmem x).1 hx with hx | rfl
    · exact h.le_max x hx
    · exact hmax
  · exact mem_cons_of_mem _ (h.truthful p rs ((mem_cons.1 hw).resolve_left (by simp)) x hx)
  · have hold : x ∈ elicited v.2 → _ := h.kept x
    cases eliciting with
    | false =>
      rcases hold hx with hin | ⟨p, rs, h1, h2, h3⟩
      · exact .inl ((hmem x).2 (.inl hin))
      · exact .inr ⟨p, rs, mem_cons_of_mem _ h1, h2, mem_cons_of_mem _ h3⟩
    | true =>
      rw [elicited, mem_cons] at hx
      rcases hx with rfl | hx
      · exact .inl ((hmem x).2 (.inr rfl))
      · rcases hold hx with hin | ⟨p, rs, h1, h2, h3⟩
        · exact .inl ((hmem x).2 (.inl hin))
        · exact .inr ⟨p, rs, mem_cons_of_mem _ h1, h2, mem_cons_of_mem _ h3⟩
  · refine (hmem x).2 ?_
    cases eliciting with
    | false => exact .inl (h.unlisted_mem x hx)
    | true =>
      rw [unlisted, mem_cons] at hx
      exact hx.elim .inr fun hx => .inl (h.unlisted_mem x hx)
  · cases eliciting with
    | false =>
      dsimp only
      rw [hunacked]
      exact h.pending
    | true =>
      dsimp only
      rw [hunacked, if_pos rfl]
      exact iff_of_true (Nat.succ_pos _) (cons_ne_nil _ _)

lemma mem_of_write {a' : AckState} {exponent x : ℕ} {ranges : List (ℕ × ℕ)}
    (hwf : a.received.Wf) (h : a.write now exponent room = some (some (ranges, a')))
    (hx : Lists ranges x) : x ∈ a.received := by
  obtain ⟨⟨n, rfl⟩, -⟩ := write_spec h
  obtain ⟨r, hr, hlo, hhi⟩ := hx
  obtain ⟨e, he, rfl⟩ := mem_map.1 (mem_of_mem_take hr)
  have hmem : e ∈ a.received.ranges.entries := mem_reverse.1 (mem_of_mem_take he)
  have hlt : e.1 < e.2 := hwf.nonempty e hmem
  dsimp only at hlo hhi
  exact ⟨e, hmem, hlo, by omega⟩

lemma Owed.wrote {exponent pn : ℕ} {ranges : List (ℕ × ℕ)} (h : Owed space v)
    (hwrite : v.1.write now exponent room = some (some (ranges, a))) :
    Owed space (a, .wrote space pn ranges :: v.2) := by
  have ha := (write_spec hwrite).2
  subst ha
  refine ⟨h.wf, fun x hx => mem_cons_of_mem _ (h.ran x hx), h.le_max, fun p rs hw x hx => ?_,
    fun x hx => ?_, fun x hx => h.unlisted_mem x (mem_filter.1 hx).1,
    fun x hx => h.reached x (mem_filter.1 hx).1, iff_of_false (lt_irrefl 0) (not_not.2 rfl)⟩
  · rcases mem_cons.1 hw with hw | hw
    · cases hw
      exact mem_cons_of_mem _ (h.ran x (mem_of_write h.wf hwrite hx))
    · exact mem_cons_of_mem _ (h.truthful p rs hw x hx)
  · rcases h.kept x hx with hin | ⟨p, rs, h1, h2, h3⟩
    · exact .inl hin
    · exact .inr ⟨p, rs, mem_cons_of_mem _ h1, h2, mem_cons_of_mem _ h3⟩

lemma processFrames_owed {out : Option Bool} {pn : ℕ}
    (h : ∀ s, Owed s (c.view s)) (hran : .ran space pn ∈ (c.view space).2)
    (hcovered : FramesCovered now space c frames)
    (hrun : processFrames now space c frames eliciting = some (out, c')) :
    (∀ s, Owed s (c'.view s)) ∧ .ran space pn ∈ (c'.view space).2 := by
  induction frames generalizing c eliciting with
  | nil =>
    cases hrun
    exact ⟨h, hran⟩
  | cons f frames ih =>
    rw [processFrames] at hrun
    obtain ⟨⟨ok, c₁⟩, hframe, hrest⟩ := Option.bind_eq_some_iff.1 hrun
    have h₁ : ∀ s, Owed s (c₁.view s) := by
      intro s
      rcases processFrame_view hframe s with hv | ⟨-, hv⟩ | ⟨rfl, _, _, _, new, rfl, htrims, hon⟩
      · rw [hv]
        exact h s
      · rw [hv]
        exact owed_new
      · exact (h s).trims htrims hon hcovered.1
    have hran₁ : .ran space pn ∈ (c₁.view space).2 := by
      rcases processFrame_view hframe space with hv | ⟨hne, -⟩ | ⟨-, _, _, _, new, -, htrims, -⟩
      · rw [hv]
        exact hran
      · exact absurd rfl hne
      · rw [htrims.notes]
        exact mem_append_right _ hran
    dsimp only at hrest
    split_ifs at hrest with hok hclosing
    · cases hrest
      exact ⟨h₁, hran₁⟩
    · have hnext := hcovered.2
      rw [hframe, hok] at hnext
      exact ih h₁ hran₁ (hnext (by simpa using hclosing)) hrest
    · cases hrest
      exact ⟨h₁, hran₁⟩

lemma owed_processPacket {pn : ℕ} (h : ∀ s, Owed s (c.view s))
    (hcovered : c.Covered (.packet now space pn frames))
    (hstep : c.processPacket now space pn frames = some c') : ∀ s, Owed s (c'.view s) := by
  rw [Conn.processPacket] at hstep
  split_ifs at hstep with hacc
  swap
  · cases hstep
    exact h
  have hstart : ∀ s, Owed s ((c.note (.ran space pn)).view s) := by
    intro s
    rcases eq_or_ne s space with rfl | hs
    · rw [view_note (n := .ran s pn) (s := s) rfl (by simp)]
      exact (h s).note_ran
    · rw [view_note_other (fun h => hs h.symm)]
      exact h s
  have hran : .ran space pn ∈ ((c.note (.ran space pn)).view space).2 := by
    rw [view_note (n := .ran space pn) (s := space) rfl (by simp)]
    exact mem_cons_self
  obtain ⟨⟨out, c₁⟩, hframes, hend⟩ := Option.map_eq_some_iff.1 hstep
  obtain ⟨hforgets, hreach⟩ := hcovered.2 hacc
  rw [FramesReach, hframes] at hreach
  obtain ⟨h₁, hran₁⟩ := processFrames_owed hstart hran hforgets hframes
  cases out with
  | none =>
    cases hend
    exact h₁
  | some eliciting =>
    dsimp only at hend
    split_ifs at hend with hclosing
    · cases hend
      exact h₁
    · cases hend
      have hreach := hreach (by simpa using hclosing)
      intro s
      rcases eq_or_ne s space with rfl | hs
      · rw [Conn.received, view_note (n := .received s pn eliciting) (s := s) rfl (by simp)]
        set ack := (c₁.spaces s).ack.onReceived now pn eliciting
          (decide (s = .application) && c₁.handshake_complete) c₁.config.max_ack_delay
        have hview : (c₁.setSpace s { c₁.spaces s with ack := ack }).view s =
            (ack, (c₁.view s).2) := by
          simp [view, setSpace]
        rw [hview]
        have hreceived := onReceived_received (c₁.spaces s).ack now pn eliciting
          (decide (s = .application) && c₁.handshake_complete) c₁.config.max_ack_delay
        refine (h₁ s).received hran₁ hcovered.1 hreceived
          (onReceived_unacked _ _ _ _ _ _) fun x hx => ?_
        rw [hreceived]
        exact hreach x hx
      · rw [Conn.received, view_note_other (fun h => hs h.symm)]
        have := h₁ s
        simpa [view, setSpace, hs] using this

lemma owed_step {e : Event} (h : ∀ s, Owed s (c.view s)) (hcovered : c.Covered e)
    (hstep : c.step e = some c') : ∀ s, Owed s (c'.view s) := by
  cases e with
  | packet now space pn frames => exact owed_processPacket h hcovered hstep
  | transmit now space budget size others eliciting in_flight =>
    intro s
    rcases transmit_view hstep s with hv | ⟨rfl, pn, ranges, ack, hwrite, hv⟩
    · rw [hv]
      exact h s
    · rw [hv]
      exact (h s).wrote hwrite
  | timeout now =>
    intro s
    rw [(onTimeout_view hstep).1 s]
    exact h s
  | retry rtt =>
    cases hstep
    intro s
    rw [(onRetry_view c rtt).1 s]
    exact h s
  | discard now space =>
    cases hstep
    intro s
    rcases view_discardSpace c now space s with hv | ⟨-, hv⟩
    · rw [hv]
      exact h s
    · rw [hv]
      exact owed_new
  | close =>
    cases hstep
    exact h

/-- Acknowledgments are truthful, and none is forgotten. -/
structure Acknowledged (c : Conn) : Prop where
  truthful : ∀ space pn ranges x, .wrote space pn ranges ∈ life space c.log → Lists ranges x →
    .ran space x ∈ life space c.log
  /-- What is to be acknowledged is kept until an ACK frame that lists it was acknowledged. -/
  kept : ∀ space x, .received space x true ∈ life space c.log →
    x ∈ (c.spaces space).ack.received ∨
      ∃ pn ranges, .wrote space pn ranges ∈ life space c.log ∧ Lists ranges x ∧
        .acked space pn ∈ life space c.log
  /-- If there is something to acknowledge, an ACK frame is written if there is enough room. -/
  writes : ∀ space, (c.spaces space).ack.pending = true → ∀ now exponent,
    (c.spaces space).ack.delay now exponent ≤ Wire.MAX_VARINT → ∃ enough, ∀ room, enough ≤ room →
      ∃ out, (c.spaces space).ack.write now exponent room = some (some out)
  /-- What no ACK frame lists yet is kept, and is listed if one is written with enough room. -/
  listed : ∀ space, ∀ x ∈ unlisted (life space c.log), x ∈ (c.spaces space).ack.received ∧
    ((c.spaces space).ack.pending = true → ∀ now exponent,
      (c.spaces space).ack.delay now exponent ≤ Wire.MAX_VARINT → ∃ enough, ∀ room, enough ≤ room →
        ∃ ranges ack, (c.spaces space).ack.write now exponent room = some (some (ranges, ack)) ∧
          Lists ranges x)
  /-- What came since an ACK frame was written is to be acknowledged. -/
  late : ∀ space x, x ∈ fresh (life space c.log) → (c.spaces space).ack.pending = true

lemma putRanges_isSome {smallest : ℕ} {ranges : List (ℕ × ℕ)}
    (hsmallest : smallest ≤ Wire.MAX_VARINT)
    (h : ∀ r ∈ ranges, r.1 ≤ Wire.MAX_VARINT ∧ r.2 ≤ Wire.MAX_VARINT) :
    ∃ bs, putRanges smallest ranges = some bs := by
  induction ranges generalizing smallest with
  | nil => exact ⟨_, rfl⟩
  | cons r ranges ih =>
    obtain ⟨hr, h⟩ := forall_mem_cons.1 h
    obtain ⟨gap, hgap, -⟩ := Wire.exists_put (v := smallest - r.2 - 2) (by omega)
    obtain ⟨len, hlen, -⟩ := Wire.exists_put (v := r.2 - r.1) (by omega)
    obtain ⟨rest, hrest⟩ := ih hr.1 h
    exact ⟨gap ++ len ++ rest, by simp [putRanges, hgap, hlen, hrest]⟩

lemma writeAck_isSome {delay : ℕ} {ranges : List (ℕ × ℕ)} (hne : ranges ≠ [])
    (hdelay : delay ≤ Wire.MAX_VARINT) (hcount : ranges.length ≤ MAX_ACK_RANGES)
    (h : ∀ r ∈ ranges, r.1 ≤ Wire.MAX_VARINT ∧ r.2 ≤ Wire.MAX_VARINT) :
    ∃ bs, writeAck delay ranges = some bs := by
  cases ranges with
  | nil => exact absurd rfl hne
  | cons first ranges =>
    obtain ⟨hfirst, h⟩ := forall_mem_cons.1 h
    have hcount : ranges.length ≤ Wire.MAX_VARINT := by
      rw [length_cons, MAX_ACK_RANGES] at hcount
      rw [Wire.MAX_VARINT]
      omega
    obtain ⟨largest, hlargest, -⟩ := Wire.exists_put hfirst.2
    obtain ⟨wait, hwait, -⟩ := Wire.exists_put hdelay
    obtain ⟨count, hcount, -⟩ := Wire.exists_put hcount
    obtain ⟨len, hlen, -⟩ := Wire.exists_put (v := first.2 - first.1) (by omega)
    obtain ⟨rest, hrest⟩ := putRanges_isSome hfirst.1 h
    exact ⟨[0x02] ++ largest ++ wait ++ count ++ len ++ rest,
      by simp [writeAck, hlargest, hwait, hcount, hlen, hrest]⟩

lemma lists_ranges {x : ℕ} (hwf : a.received.Wf) (hx : x ∈ a.received)
    (habove : rangesAbove a.received x < MAX_ACK_RANGES) : Lists a.ranges x := by
  obtain ⟨e, he, hle, hlt⟩ := hx
  obtain ⟨l₁, l₂, hsplit⟩ := append_of_mem he
  have hlater : ∀ f ∈ l₂, x < f.1 := by
    intro f hf
    have hsorted := a.received.ranges.sorted
    rw [hsplit, pairwise_append] at hsorted
    have hf' : f ∈ a.received.ranges.entries := by simp [hsplit, hf]
    exact hlt.trans (hwf.apart e he f hf' ((pairwise_cons.1 hsorted.2.1).1 f hf))
  have hfew : l₂.length < MAX_ACK_RANGES := by
    refine lt_of_le_of_lt ?_ habove
    rw [rangesAbove, hsplit, filter_append, filter_cons, if_neg (by simpa using hle), length_append,
      filter_eq_self.2 fun f hf => decide_eq_true (hlater f hf)]
    exact Nat.le_add_left _ _
  refine ⟨(e.1, e.2 - 1), mem_map.2 ⟨e, ?_, rfl⟩, hle, by dsimp only; omega⟩
  rw [hsplit, reverse_append, reverse_cons, append_assoc, take_append, length_reverse]
  refine mem_append_right _ ?_
  obtain ⟨k, hk⟩ : ∃ k, MAX_ACK_RANGES - l₂.length = k + 1 :=
    ⟨MAX_ACK_RANGES - l₂.length - 1, by omega⟩
  rw [hk]
  exact mem_cons_self

lemma write_lists {x : ℕ} (hpending : a.pending = true) (hwf : a.received.Wf)
    (hmax : ∀ x ∈ a.received, x ≤ Wire.MAX_VARINT) (hx : x ∈ a.received)
    (habove : rangesAbove a.received x < MAX_ACK_RANGES) {exponent : ℕ}
    (hdelay : a.delay now exponent ≤ Wire.MAX_VARINT) :
    ∃ enough, ∀ room, enough ≤ room → ∃ ranges a',
      a.write now exponent room = some (some (ranges, a')) ∧ Lists ranges x := by
  have hlists := lists_ranges hwf hx habove
  have hne : a.ranges ≠ [] := by
    rintro h
    rw [h] at hlists
    obtain ⟨_, hr, -⟩ := hlists
    exact not_mem_nil hr
  have hle : ∀ r ∈ a.ranges, r.1 ≤ Wire.MAX_VARINT ∧ r.2 ≤ Wire.MAX_VARINT := by
    intro r hr
    obtain ⟨e, he, rfl⟩ := mem_map.1 hr
    have hmem : e ∈ a.received.ranges := mem_reverse.1 (mem_of_mem_take he)
    have hlt : e.1 < e.2 := hwf.nonempty e hmem
    exact ⟨hmax e.1 ⟨e, hmem, le_rfl, hlt⟩, hmax (e.2 - 1) ⟨e, hmem, by omega, by omega⟩⟩
  have hcount : a.ranges.length ≤ MAX_ACK_RANGES := by
    rw [AckState.ranges, length_map, length_take]
    exact min_le_left _ _
  obtain ⟨frame, hframe⟩ := writeAck_isSome hne hdelay hcount hle
  obtain ⟨n, hn⟩ : ∃ n, a.ranges.length = n + 1 :=
    Nat.exists_eq_succ_of_ne_zero fun h0 => hne (length_eq_zero_iff.1 h0)
  refine ⟨frame.length, fun room hroom => ⟨a.ranges,
    { a with unacked := 0, immediate := false, deadline := none }, ?_, hlists⟩⟩
  have hfit : AckState.fit (a.delay now exponent) room a.ranges a.ranges.length =
      some (some a.ranges) := by
    have htake : a.ranges.take (n + 1) = a.ranges := take_of_length_le hn.le
    rw [hn, AckState.fit, htake, hframe, Option.bind_eq_bind, Option.bind_some, if_pos hroom]
  rw [AckState.write, if_neg (by simp [hpending]), hfit]
  rfl

/-- In a run in which each ack-eliciting number that is forgotten is covered by an acknowledged ACK
frame, and none that is still to be listed has too many ranges above it, acknowledgments are
truthful and none is forgotten. -/
theorem acknowledgments_kept {config : Config} {events : List Event}
    (h : Run step Covered (new config) events c) : Acknowledged c := by
  have howed : ∀ s, Owed s (c.view s) := by
    have hkeep : ∀ (c : Conn) (e : Event) (c' : Conn), (∀ s, Owed s (c.view s)) → c.Covered e →
        c.step e = some c' → ∀ s, Owed s (c'.view s) :=
          fun c e c' hc he hstep => owed_step hc he hstep
    exact h.invariant hkeep fun s => owed_new
  have hwrites : ∀ space, ∀ x ∈ unlisted (life space c.log), (c.spaces space).ack.pending = true →
      ∀ now exponent, (c.spaces space).ack.delay now exponent ≤ Wire.MAX_VARINT →
        ∃ enough, ∀ room, enough ≤ room → ∃ ranges ack,
          (c.spaces space).ack.write now exponent room = some (some (ranges, ack)) ∧
          Lists ranges x :=
    fun space x hx hpending now exponent hdelay => write_lists hpending (howed space).wf
      (howed space).le_max ((howed space).unlisted_mem x hx) ((howed space).reached x hx) hdelay
  refine ⟨fun space pn ranges x hw hx => (howed space).truthful pn ranges hw x hx, ?_, ?_, ?_, ?_⟩
  · exact fun space x hx => (howed space).kept x (mem_elicited.2 ⟨space, hx⟩)
  · intro space hpending now exponent hdelay
    have hpos : 0 < (c.spaces space).ack.unacked := of_decide_eq_true hpending
    obtain ⟨x, hx⟩ := exists_mem_of_ne_nil _ ((howed space).pending.1 hpos)
    obtain ⟨enough, hall⟩ := hwrites space x (unlisted_of_fresh hx) hpending now exponent hdelay
    refine ⟨enough, fun room hroom => ?_⟩
    obtain ⟨ranges, ack, hwrite, -⟩ := hall room hroom
    exact ⟨_, hwrite⟩
  · exact fun space x hx => ⟨(howed space).unlisted_mem x hx, hwrites space x hx⟩
  · exact fun space x hx => decide_eq_true ((howed space).pending.2 (ne_nil_of_mem hx))

/-- The packet 1 comes and is acknowledged, then comes 0, and then the acknowledgment of our ACK
frame. -/
def lateNumber : List Event :=
  [.packet 0 .initial 0 [.other true (.installs .handshake true true)],
   .packet 0 .handshake 0 [.other true (.installs .application true true), .other true .completes],
   .packet 1 .application 1 [.other true .nothing],
   .transmit 2 .application 1000 40 1 true true,
   .packet 3 .application 0 [.other true .nothing],
   .packet 4 .application 2 [.ack 0 0 [(0, 0)]]]

/-- The packets come in order, one more before our ACK frame is acknowledged. -/
def inOrder : List Event :=
  [.packet 0 .initial 0 [.other true (.installs .handshake true true)],
   .packet 0 .handshake 0 [.other true (.installs .application true true), .other true .completes],
   .packet 1 .application 0 [.other true .nothing],
   .packet 2 .application 1 [.other true .nothing],
   .transmit 3 .application 1000 40 1 true true,
   .packet 4 .application 2 [.other true .nothing],
   .packet 5 .application 3 [.ack 0 0 [(0, 0)]]]

theorem acknowledgments_kept_in_order : ∃ c,
    Run step Covered (new ⟨1200, 3, 25000000⟩) inOrder c ∧
      .trimmed .application 1 ∈ life .application c.log ∧ 2 ∈ unlisted (life .application c.log) ∧
        Acknowledged c := by
  have hnotes : (Run.exec step Covered (new ⟨1200, 3, 25000000⟩) inOrder).map
      (fun c => decide (.trimmed .application 1 ∈ life .application c.log ∧
        2 ∈ unlisted (life .application c.log))) = some true := by
    decide
  obtain ⟨c, hexec, hmem⟩ := Option.map_eq_some_iff.1 hnotes
  have hrun := Run.of_exec hexec
  have hmem := of_decide_eq_true hmem
  exact ⟨c, hrun, hmem.1, hmem.2, acknowledgments_kept hrun⟩

/-- The number 0 is forgotten, and no ACK frame lists it. -/
theorem late_number_is_forgotten : ∃ c,
    Run step (fun _ _ => True) (new ⟨1200, 3, 25000000⟩) lateNumber c ∧ ¬ Acknowledged c := by
  have hlate : (Run.exec step (fun _ _ => True) (new ⟨1200, 3, 25000000⟩) lateNumber).map
      (fun c => decide (.received .application 0 true ∈ life .application c.log ∧
        0 ∉ (c.spaces .application).ack.received ∧
        ∀ n ∈ life .application c.log, ∀ r ∈ n.listed, ¬ (r.1 ≤ 0 ∧ 0 ≤ r.2))) = some true := by
    decide
  obtain ⟨c, hexec, hall⟩ := Option.map_eq_some_iff.1 hlate
  obtain ⟨h1, h2, h3⟩ := of_decide_eq_true hall
  refine ⟨c, Run.of_exec hexec, fun hack => ?_⟩
  rcases hack.kept .application 0 h1 with h | ⟨pn, ranges, hw, ⟨r, hr, hin⟩, -⟩
  · exact h2 h
  · exact h3 _ hw r hr hin

end Conn

end Lazaret.Quic.Ack
