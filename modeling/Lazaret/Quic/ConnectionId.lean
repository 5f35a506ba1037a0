import Lazaret.Lib.Outcome
import Mathlib.Data.List.Dedup
import Mathlib.Data.List.Perm.Subperm

/-!
# Connection ids that the peer gives

What `Connection::on_new_connection_id` (`quic/connection.rs`) makes of a NEW_CONNECTION_ID frame:
the id is noted among the spare ones, those below `retire_prior_to` are retired, and the id in use
is replaced if it is one of them.  The sequence number of the id in use is overwritten before it is
queued to be retired, so the first id of the server, which is never in the list, is never retired.
-/

namespace Lazaret.Quic.Cid

open List

structure TransportError where
  code : ℕ
  reason : String
deriving DecidableEq

def CONNECTION_ID_LIMIT_ERROR : ℕ := 0x9

def PROTOCOL_VIOLATION : ℕ := 0xa

structure PeerCid where
  sequence : ℕ
  cid : List UInt8
  reset_token : List UInt8
deriving DecidableEq

structure NewConnectionId where
  sequence : ℕ
  retire_prior_to : ℕ
  cid : List UInt8
  reset_token : List UInt8
deriving DecidableEq

def NewConnectionId.id (f : NewConnectionId) : PeerCid := ⟨f.sequence, f.cid, f.reset_token⟩

/-- What a connection knows of the ids it may send to. -/
structure Cids where
  active_connection_id_limit : ℕ
  dcid : List UInt8
  dcid_sequence : ℕ
  peer_cids : List PeerCid
  /-- The sequence numbers that RETIRE_CONNECTION_ID is queued for. -/
  retire_cids : List ℕ
  reset_tokens : List (List UInt8)
deriving DecidableEq

namespace Cids

/-- After the first packet of the server, whose source connection id is `scid`. -/
def new (active_connection_id_limit : ℕ) (scid : List UInt8) : Cids :=
  ⟨active_connection_id_limit, scid, 0, [], [], []⟩

/-- The id is noted, unless it is known already or is retired by its own frame. -/
def note (s : Cids) (f : NewConnectionId) : Except TransportError Cids :=
  match s.peer_cids.find? (fun c => c.sequence = f.sequence) with
  | some known =>
    if known.cid ≠ f.cid ∨ known.reset_token ≠ f.reset_token then
      .error ⟨PROTOCOL_VIOLATION,
        "a connection id with a sequence number that was used before, and is not the same"⟩
    else .ok s
  | none =>
    if f.sequence ≥ f.retire_prior_to then
      .ok { s with
        peer_cids := s.peer_cids ++ [f.id]
        reset_tokens := s.reset_tokens ++ [f.reset_token] }
    else .ok { s with retire_cids := s.retire_cids ++ [f.sequence] }

/-- A sequence number is queued to be retired, if it is not yet. -/
def queue (retire_cids : List ℕ) (sequence : ℕ) : List ℕ :=
  if sequence ∈ retire_cids then retire_cids else retire_cids ++ [sequence]

def retire (s : Cids) (retire_prior_to : ℕ) : Cids :=
  { s with
    peer_cids := s.peer_cids.filter fun c => ¬ c.sequence < retire_prior_to
    retire_cids := ((s.peer_cids.filter fun c => c.sequence < retire_prior_to).map
      PeerCid.sequence).foldl queue s.retire_cids }

/-- `min_by_key`: the first of the ids with the lowest sequence number. -/
def lowest : List PeerCid → Option PeerCid
  | [] => none
  | c :: cs =>
    match lowest cs with
    | none => some c
    | some d => if c.sequence ≤ d.sequence then some c else some d

/-- The lowest id that is left is used, if there is one. -/
def useLowest (s : Cids) : Cids :=
  match lowest s.peer_cids with
  | some next => { s with dcid := next.cid, dcid_sequence := next.sequence }
  | none => s

def replace (s : Cids) (retire_prior_to : ℕ) : Cids :=
  if s.dcid_sequence < retire_prior_to then
    let s := s.useLowest
    if s.dcid_sequence ∉ s.retire_cids ∧ s.dcid_sequence < retire_prior_to then
      { s with retire_cids := s.retire_cids ++ [s.dcid_sequence] }
    else s
  else s

def onNewConnectionId (s : Cids) (f : NewConnectionId) : Except TransportError Cids := do
  let s ← s.note f
  let s := (s.retire f.retire_prior_to).replace f.retire_prior_to
  if s.peer_cids.length + 1 > s.active_connection_id_limit then
    .error ⟨CONNECTION_ID_LIMIT_ERROR, "more connection ids than the limit"⟩
  else .ok s

/-- The frames one after the other, until one is an error. -/
def deliver (s : Cids) (fs : List NewConnectionId) : Except TransportError Cids :=
  fs.foldlM onNewConnectionId s

/-- An id that packets may be sent to: the one in use, or a spare one. -/
def Usable (s : Cids) (sequence : ℕ) (cid : List UInt8) : Prop :=
  (sequence = s.dcid_sequence ∧ cid = s.dcid) ∨
    ∃ c ∈ s.peer_cids, c.sequence = sequence ∧ c.cid = cid

end Cids

/-! ### Honest servers -/

/-- The largest `retire_prior_to` of the frames. -/
def maxRetire (fs : List NewConnectionId) : ℕ :=
  (fs.map NewConnectionId.retire_prior_to).foldr max 0

/-- The sequence numbers that are issued and not asked to be retired, the first one included. -/
def active (fs : List NewConnectionId) : List ℕ :=
  (0 :: fs.map NewConnectionId.sequence).filter fun q => maxRetire fs ≤ q

/-- The frames that an honest server could send, in the order it sends them. -/
structure Honest (limit : ℕ) (issued : List NewConnectionId) : Prop where
  /-- The first id of the server has the sequence number 0. -/
  sequence_pos : ∀ f ∈ issued, 1 ≤ f.sequence
  distinct : issued.Pairwise fun f g => f.sequence ≠ g.sequence ∧ f.cid ≠ g.cid
  retire_le : ∀ f ∈ issued, f.retire_prior_to ≤ f.sequence
  active_le : ∀ k, (active (issued.take k)).length ≤ limit

/-- The bookkeeping follows the server on the frames `fs`: there is no error, the id in use is not
one that is to be retired if another was delivered, exactly the known ids below the largest
`retire_prior_to` are queued to be retired, and the order of the frames does not matter for the
usable ids. -/
def Follows (limit : ℕ) (scid : List UInt8) (fs : List NewConnectionId) : Prop :=
  ∃ s, (Cids.new limit scid).deliver fs = .ok s ∧
    ((∃ f ∈ fs, maxRetire fs ≤ f.sequence) → maxRetire fs ≤ s.dcid_sequence) ∧
    (∀ q, q ∈ s.retire_cids ↔ q < maxRetire fs ∧ (q = 0 ∨ ∃ f ∈ fs, f.sequence = q)) ∧
    ∀ fs', (∀ f, f ∈ fs' ↔ f ∈ fs) →
      ∃ s', (Cids.new limit scid).deliver fs' = .ok s' ∧ ∀ q cid, s'.Usable q cid ↔ s.Usable q cid

namespace Cids

variable {s s' : Cids} {f : NewConnectionId}

/-! ### The first id is never retired -/

lemma lowest_eq_none {cs : List PeerCid} : lowest cs = none ↔ cs = [] := by
  cases cs with
  | nil => simp [lowest]
  | cons c cs =>
    rw [lowest]
    split
    · simp
    · split_ifs <;> simp

lemma lowest_mem {cs : List PeerCid} {c : PeerCid} (h : lowest cs = some c) : c ∈ cs := by
  induction cs generalizing c with
  | nil => simp [lowest] at h
  | cons d cs ih =>
    rw [lowest] at h
    split at h
    · cases h
      exact mem_cons_self
    · rename_i e he
      split_ifs at h
      · cases h
        exact mem_cons_self
      · cases h
        exact mem_cons_of_mem _ (ih he)

lemma mem_foldl_queue {qs retire_cids : List ℕ} {q : ℕ} :
    q ∈ qs.foldl queue retire_cids ↔ q ∈ retire_cids ∨ q ∈ qs := by
  induction qs generalizing retire_cids with
  | nil => simp
  | cons a qs ih =>
    rw [foldl_cons, ih, queue, mem_cons]
    split_ifs with ha
    · constructor
      · rintro (h | h)
        · exact .inl h
        · exact .inr (.inr h)
      · rintro (h | rfl | h)
        · exact .inl h
        · exact .inl ha
        · exact .inr h
    · rw [mem_append, mem_singleton, or_assoc]

/-- The first id is not queued to be retired, and no spare id has its number. -/
def Spared (s : Cids) : Prop := 0 ∉ s.retire_cids ∧ ∀ c ∈ s.peer_cids, 1 ≤ c.sequence

/-- A frame whose own id is kept leaves an id to use, so that the number of the first id is
overwritten before it would be queued. -/
lemma Spared.onNewConnectionId (h : s.Spared) (hpos : 1 ≤ f.sequence)
    (hle : f.retire_prior_to ≤ f.sequence) (hok : s.onNewConnectionId f = .ok s') : s'.Spared := by
  obtain ⟨s₁, hnote, hok⟩ := except_bind_eq_ok.1 hok
  dsimp only at hok
  split_ifs at hok
  cases hok
  -- the id of the frame is in the list
  have hs₁ : s₁.Spared ∧ ∃ c ∈ s₁.peer_cids, c.sequence = f.sequence := by
    rw [note] at hnote
    split at hnote
    · rename_i known hfind
      split_ifs at hnote
      cases hnote
      exact ⟨h, known, mem_of_find?_eq_some hfind, by simpa using List.find?_some hfind⟩
    · rw [if_pos hle] at hnote
      cases hnote
      refine ⟨⟨h.1, fun c hc => ?_⟩, f.id, by simp, rfl⟩
      rcases mem_append.1 hc with hc | hc
      · exact h.2 c hc
      · rw [mem_singleton.1 hc]
        exact hpos
  obtain ⟨hs₁, c, hc, hseq⟩ := hs₁
  have hretired : (s₁.retire f.retire_prior_to).Spared := by
    refine ⟨fun h0 => ?_, fun d hd => hs₁.2 d (mem_of_mem_filter hd)⟩
    rcases mem_foldl_queue.1 h0 with h0 | h0
    · exact hs₁.1 h0
    · obtain ⟨d, hd, hd0⟩ := mem_map.1 h0
      have := hs₁.2 d (mem_of_mem_filter hd)
      omega
  have hleft : c ∈ (s₁.retire f.retire_prior_to).peer_cids :=
    mem_filter.2 ⟨hc, by simpa [hseq] using hle⟩
  have hall : ∀ d ∈ (s₁.retire f.retire_prior_to).peer_cids, f.retire_prior_to ≤ d.sequence := by
    intro d hd
    simpa using (mem_filter.1 hd).2
  rw [replace]
  split_ifs
  · dsimp only
    rw [useLowest]
    cases hlow : lowest (s₁.retire f.retire_prior_to).peer_cids with
    | none =>
      rw [lowest_eq_none.1 hlow] at hleft
      exact absurd hleft not_mem_nil
    | some next =>
      have := hall next (lowest_mem hlow)
      dsimp only
      rw [if_neg (by omega)]
      exact hretired
  · exact hretired

lemma Spared.deliver {fs : List NewConnectionId} (h : s.Spared)
    (hfs : ∀ f ∈ fs, 1 ≤ f.sequence ∧ f.retire_prior_to ≤ f.sequence)
    (hok : s.deliver fs = .ok s') : s'.Spared := by
  induction fs generalizing s with
  | nil =>
    cases hok
    exact h
  | cons f fs ih =>
    obtain ⟨s₁, h1, h2⟩ := except_bind_eq_ok.1 hok
    rw [forall_mem_cons] at hfs
    exact ih (h.onNewConnectionId hfs.1.1 hfs.1.2 h1) hfs.2 h2

/-! ### Frames that retire nothing -/

/-- After frames that retire nothing: the id in use is the first one, nothing is queued, and the
spare ids are those of the frames. -/
structure Gathered (limit : ℕ) (scid : List UInt8) (fs : List NewConnectionId) (s : Cids) :
    Prop where
  limit_eq : s.active_connection_id_limit = limit
  dcid_eq : s.dcid = scid
  sequence_eq : s.dcid_sequence = 0
  retire_eq : s.retire_cids = []
  mem_iff : ∀ c, c ∈ s.peer_cids ↔ ∃ f ∈ fs, c = f.id
  nodup : (s.peer_cids.map PeerCid.sequence).Nodup

lemma gathered_new (limit : ℕ) (scid : List UInt8) : Gathered limit scid [] (new limit scid) :=
  ⟨rfl, rfl, rfl, rfl, by simp [new], by simp [new]⟩

variable {limit : ℕ} {scid : List UInt8} {fs : List NewConnectionId}

lemma length_dedup_le {qs rs : List ℕ} (h : ∀ q ∈ qs, q ∈ rs) :
    qs.dedup.length ≤ rs.dedup.length := by
  refine ((nodup_dedup qs).subperm fun q hq => ?_).length_le
  rw [mem_dedup] at *
  exact h q hq

lemma Gathered.length_eq (h : Gathered limit scid fs s) :
    s.peer_cids.length = (fs.map NewConnectionId.sequence).dedup.length := by
  rw [← length_map PeerCid.sequence]
  refine Perm.length_eq ((perm_ext_iff_of_nodup h.nodup (nodup_dedup _)).2 ?_)
  intro q
  rw [mem_dedup, mem_map, mem_map]
  constructor
  · rintro ⟨c, hc, rfl⟩
    obtain ⟨f, hf, rfl⟩ := (h.mem_iff c).1 hc
    exact ⟨f, hf, rfl⟩
  · rintro ⟨f, hf, rfl⟩
    exact ⟨f.id, (h.mem_iff _).2 ⟨f, hf, rfl⟩, rfl⟩

lemma Gathered.onNewConnectionId (h : Gathered limit scid fs s) (hzero : f.retire_prior_to = 0)
    (hsame : ∀ g ∈ fs, g.sequence = f.sequence → g = f) :
    ∃ s₁, Gathered limit scid (fs ++ [f]) s₁ ∧ s.onNewConnectionId f =
      if s₁.peer_cids.length + 1 > limit then
        .error ⟨CONNECTION_ID_LIMIT_ERROR, "more connection ids than the limit"⟩
      else .ok s₁ := by
  have hkeep : ∀ t : Cids, (t.retire 0).replace 0 = t := by
    intro t
    rw [replace, if_neg (by omega), retire]
    simp
  have hnote : ∃ s₁, s.note f = .ok s₁ ∧ Gathered limit scid (fs ++ [f]) s₁ := by
    rw [note]
    split
    · rename_i known hfind
      obtain ⟨g, hg, rfl⟩ := (h.mem_iff known).1 (mem_of_find?_eq_some hfind)
      have hseq := List.find?_some hfind
      have hgf : g = f := hsame g hg (of_decide_eq_true hseq)
      subst hgf
      rw [if_neg (by simp [NewConnectionId.id])]
      refine ⟨s, rfl, h.limit_eq, h.dcid_eq, h.sequence_eq, h.retire_eq, fun c => ?_, h.nodup⟩
      rw [h.mem_iff c]
      constructor
      · rintro ⟨k, hk, rfl⟩
        exact ⟨k, mem_append_left _ hk, rfl⟩
      · rintro ⟨k, hk, rfl⟩
        rcases mem_append.1 hk with hk | hk
        · exact ⟨k, hk, rfl⟩
        · exact ⟨g, hg, by rw [mem_singleton.1 hk]⟩
    · rename_i hfind
      rw [if_pos (by omega)]
      refine ⟨_, rfl, h.limit_eq, h.dcid_eq, h.sequence_eq, h.retire_eq, fun c => ?_, ?_⟩
      · dsimp only
        rw [mem_append, h.mem_iff c, mem_singleton]
        constructor
        · rintro (⟨k, hk, rfl⟩ | rfl)
          · exact ⟨k, mem_append_left _ hk, rfl⟩
          · exact ⟨f, by simp, rfl⟩
        · rintro ⟨k, hk, rfl⟩
          rcases mem_append.1 hk with hk | hk
          · exact .inl ⟨k, hk, rfl⟩
          · exact .inr (by rw [mem_singleton.1 hk])
      · dsimp only
        rw [map_append, map_singleton, nodup_append]
        refine ⟨h.nodup, by simp, fun a ha b hb => ?_⟩
        obtain ⟨c, hc, rfl⟩ := mem_map.1 ha
        rw [mem_singleton.1 hb]
        have hne : ¬ c.sequence = f.sequence := by simpa using List.find?_eq_none.1 hfind c hc
        exact hne
  obtain ⟨s₁, hs₁, hg⟩ := hnote
  refine ⟨s₁, hg, ?_⟩
  rw [Cids.onNewConnectionId, hs₁, hzero]
  change (if ((s₁.retire 0).replace 0).peer_cids.length + 1 >
    ((s₁.retire 0).replace 0).active_connection_id_limit then _ else _) = _
  rw [hkeep, hg.limit_eq]

lemma Gathered.deliver {more : List NewConnectionId} (h : Gathered limit scid fs s)
    (hzero : ∀ f ∈ more, f.retire_prior_to = 0)
    (hsame : ∀ f ∈ fs ++ more, ∀ g ∈ fs ++ more, g.sequence = f.sequence → g = f)
    (hroom : ((fs ++ more).map NewConnectionId.sequence).dedup.length + 1 ≤ limit) :
    ∃ s', s.deliver more = .ok s' ∧ Gathered limit scid (fs ++ more) s' := by
  induction more generalizing s fs with
  | nil => exact ⟨s, rfl, by rwa [append_nil]⟩
  | cons f more ih =>
    have hassoc : fs ++ f :: more = fs ++ [f] ++ more := by simp
    rw [forall_mem_cons] at hzero
    rw [hassoc] at hsame hroom ⊢
    obtain ⟨s₁, hs₁, hone⟩ := h.onNewConnectionId hzero.1 fun g hg =>
      hsame f (by simp) g (by simp [hg])
    have hle : s₁.peer_cids.length + 1 ≤ limit := by
      have hsub : ((fs ++ [f]).map NewConnectionId.sequence).dedup.length ≤
          ((fs ++ [f] ++ more).map NewConnectionId.sequence).dedup.length := by
        refine length_dedup_le fun q hq => ?_
        rw [map_append]
        exact mem_append_left _ hq
      rw [hs₁.length_eq]
      omega
    rw [if_neg (by omega)] at hone
    obtain ⟨s', hs', hg'⟩ := ih hs₁ hzero.2 hsame hroom
    refine ⟨s', ?_, hg'⟩
    rw [Cids.deliver, foldlM_cons, hone]
    exact hs'

lemma Gathered.length_le {more : List NewConnectionId} (h : Gathered limit scid fs s)
    (hlimit : (fs.map NewConnectionId.sequence).dedup.length + 1 ≤ limit)
    (hzero : ∀ f ∈ more, f.retire_prior_to = 0)
    (hsame : ∀ f ∈ fs ++ more, ∀ g ∈ fs ++ more, g.sequence = f.sequence → g = f)
    (hok : s.deliver more = .ok s') :
    ((fs ++ more).map NewConnectionId.sequence).dedup.length + 1 ≤ limit := by
  induction more generalizing s fs with
  | nil => rwa [append_nil]
  | cons f more ih =>
    have hassoc : fs ++ f :: more = fs ++ [f] ++ more := by simp
    rw [forall_mem_cons] at hzero
    rw [hassoc] at hsame ⊢
    obtain ⟨s₁, hs₁, hone⟩ := h.onNewConnectionId hzero.1 fun g hg =>
      hsame f (by simp) g (by simp [hg])
    obtain ⟨s₂, h1, h2⟩ := except_bind_eq_ok.1 hok
    rw [hone] at h1
    split_ifs at h1 with hle
    cases h1
    exact ih hs₁ (by rw [← hs₁.length_eq]; omega) hzero.2 hsame h2

end Cids

/-! ### When the bookkeeping follows the server -/

lemma maxRetire_eq_zero {fs : List NewConnectionId} :
    maxRetire fs = 0 ↔ ∀ f ∈ fs, f.retire_prior_to = 0 := by
  induction fs with
  | nil => simp [maxRetire]
  | cons f fs ih =>
    rw [forall_mem_cons, ← ih]
    simp only [maxRetire, map_cons, foldr_cons]
    omega

lemma Honest.eq_of_sequence {limit : ℕ} {issued : List NewConnectionId} (h : Honest limit issued)
    {f g : NewConnectionId} (hf : f ∈ issued) (hg : g ∈ issued) (hseq : g.sequence = f.sequence) :
    g = f := by
  by_contra hne
  have hp := pairwise_iff_getElem.1 h.distinct
  obtain ⟨i, hi, rfl⟩ := mem_iff_getElem.1 hf
  obtain ⟨j, hj, rfl⟩ := mem_iff_getElem.1 hg
  rcases Nat.lt_trichotomy i j with hij | rfl | hij
  · exact (hp i j hi hj hij).1 hseq.symm
  · exact hne rfl
  · exact (hp j i hj hi hij).1 hseq

/-- The bookkeeping follows an honest server exactly on the frames that retire nothing and whose
ids, with the one in use, are within the limit. -/
theorem follows_iff {limit : ℕ} {scid : List UInt8} {issued fs : List NewConnectionId}
    (h : Honest limit issued) (hfs : ∀ f ∈ fs, f ∈ issued) :
    Follows limit scid fs ↔ (∀ f ∈ fs, f.retire_prior_to = 0) ∧
      (fs.map NewConnectionId.sequence).dedup.length + 1 ≤ limit := by
  have hsame : ∀ f ∈ fs, ∀ g ∈ fs, g.sequence = f.sequence → g = f := fun f hf g hg =>
    h.eq_of_sequence (hfs f hf) (hfs g hg)
  constructor
  · rintro ⟨s, hok, -, hqueued, -⟩
    have hzero : ∀ f ∈ fs, f.retire_prior_to = 0 := by
      by_contra hne
      rw [← maxRetire_eq_zero] at hne
      have hspared : s.Spared := Cids.Spared.deliver ⟨by simp [Cids.new], by simp [Cids.new]⟩
        (fun f hf => ⟨h.sequence_pos f (hfs f hf), h.retire_le f (hfs f hf)⟩) hok
      exact hspared.1 ((hqueued 0).2 ⟨by omega, .inl rfl⟩)
    have hone : 1 ≤ limit := by
      simpa [active, maxRetire] using h.active_le 0
    exact ⟨hzero, (Cids.gathered_new limit scid).length_le (by simpa using hone) hzero hsame hok⟩
  · rintro ⟨hzero, hroom⟩
    have hmax := maxRetire_eq_zero.2 hzero
    obtain ⟨s, hok, hs⟩ := (Cids.gathered_new limit scid).deliver hzero hsame hroom
    rw [nil_append] at hs
    refine ⟨s, hok, fun _ => by omega, fun q => ?_, fun fs' hfs' => ?_⟩
    · rw [hs.retire_eq, hmax]
      simp
    · have hroom' : (fs'.map NewConnectionId.sequence).dedup.length + 1 ≤ limit := by
        have hle : (fs'.map NewConnectionId.sequence).dedup.length ≤
            (fs.map NewConnectionId.sequence).dedup.length := by
          refine Cids.length_dedup_le fun q hq => ?_
          obtain ⟨f, hf, rfl⟩ := mem_map.1 hq
          exact mem_map_of_mem ((hfs' f).1 hf)
        omega
      obtain ⟨s', hok', hs'⟩ := (Cids.gathered_new limit scid).deliver
        (fun f hf => hzero f ((hfs' f).1 hf))
        (fun f hf g hg => hsame f ((hfs' f).1 hf) g ((hfs' g).1 hg)) hroom'
      rw [nil_append] at hs'
      refine ⟨s', hok', fun q cid => ?_⟩
      rw [Cids.Usable, Cids.Usable, hs.dcid_eq, hs.sequence_eq, hs'.dcid_eq, hs'.sequence_eq]
      simp only [hs.mem_iff, hs'.mem_iff, hfs']

/-- Two spare ids of a server that retires nothing, the second one repeated. -/
theorem follows_iff_spare :
    Follows 4 [9] [⟨2, 0, [2], [2]⟩, ⟨1, 0, [1], [1]⟩, ⟨2, 0, [2], [2]⟩] := by
  have h : Honest 4 [⟨1, 0, [1], [1]⟩, ⟨2, 0, [2], [2]⟩] := by
    refine ⟨by decide, by decide, by decide, fun k => ?_⟩
    rcases k with _ | _ | _ | k
    all_goals simp [active, maxRetire]
  exact (follows_iff h (by decide)).2 (by decide)

/-- A server that gives one id and asks for its first one back: that is never retired. -/
theorem first_id_is_not_retired :
    Honest 4 [⟨1, 1, [1], [1]⟩] ∧ ¬ Follows 4 [9] [⟨1, 1, [1], [1]⟩] := by
  constructor
  · refine ⟨by decide, by decide, by decide, fun k => ?_⟩
    rcases k with _ | _ | k
    all_goals simp [active, maxRetire]
  · rintro ⟨s, hok, -, hqueued, -⟩
    have hs : (Cids.new 4 [9]).deliver [⟨1, 1, [1], [1]⟩] =
        .ok ⟨4, [1], 1, [⟨1, [1], [1]⟩], [], [[1]]⟩ := by decide
    rw [hs] at hok
    cases hok
    have h0 := (hqueued 0).2 ⟨by decide, .inl rfl⟩
    exact absurd h0 (by simp)

end Lazaret.Quic.Cid
