import Lazaret.Tuf.Chain

/-!
# No way back

Along every run the root's version only grows, and a timestamp or a snapshot that is stored is only
ever followed by one that is no older in any version it names (`NotBehind`).  A call that fails
leaves the state as it was, except for a timestamp or a snapshot that passed its checks and is
stored but not current (`failed_call`).
-/

namespace Lazaret.Tuf

open Updater

variable {M : Type} {P : Prims M}

structure NotBehind (u v : Updater M) : Prop where
  root : v.root = u.root ∨ u.root.metadata.common.version < v.root.metadata.common.version
  timestamp : ∀ t, u.timestamp = some t → ∃ t', v.timestamp = some t' ∧
    t.metadata.common.version ≤ t'.metadata.common.version ∧
      t.metadata.snapshot.version ≤ t'.metadata.snapshot.version
  snapshot : ∀ s, u.snapshot = some s → ∃ s', v.snapshot = some s' ∧ Keeps s.metadata s'.metadata

lemma Keeps.refl (s : Snapshot) : Keeps s s := fun _ m hm => ⟨m, hm, le_rfl⟩

lemma Keeps.trans {s t u : Snapshot} (h : Keeps s t) (h' : Keeps t u) : Keeps s u := by
  intro name m hm
  obtain ⟨n, hn, hmn⟩ := h name m hm
  obtain ⟨k, hk, hnk⟩ := h' name n hn
  exact ⟨k, hk, hmn.trans hnk⟩

namespace NotBehind

lemma refl (u : Updater M) : NotBehind u u where
  root := .inl rfl
  timestamp t ht := ⟨t, ht, le_rfl, le_rfl⟩
  snapshot s hs := ⟨s, hs, .refl _⟩

variable {u : Updater M}

lemma trans {v w : Updater M} (h : NotBehind u v) (h' : NotBehind v w) : NotBehind u w where
  root := by
    rcases h.root with hv | hv
    · rw [← hv]
      exact h'.root
    · rcases h'.root with hw | hw
      · exact .inr (hw ▸ hv)
      · exact .inr (hv.trans hw)
  timestamp t ht := by
    obtain ⟨t', ht', h1, h2⟩ := h.timestamp t ht
    obtain ⟨t'', ht'', h3, h4⟩ := h'.timestamp t' ht'
    exact ⟨t'', ht'', h1.trans h3, h2.trans h4⟩
  snapshot s hs := by
    obtain ⟨s', hs', hk⟩ := h.snapshot s hs
    obtain ⟨s'', hs'', hk'⟩ := h'.snapshot s' hs'
    exact ⟨s'', hs'', hk.trans hk'⟩

theorem effect {u' : Updater M} {c : Call} {r : Except Error Unit}
    (hu : u.root.metadata.common.version < 2 ^ 64) (h : Effect P u c r u') : NotBehind u u' := by
  cases h with
  | unchanged => exact refl u
  | root new h =>
    have hversion := (h.succeeds hu).version
    exact { refl u with root := .inr (by dsimp only; omega) }
  | timestamp _ new _ h =>
    exact { refl u with
      timestamp := fun t ht => by
        obtain ⟨hlt, hle⟩ := h.newer t ht
        exact ⟨new, rfl, hlt.le, hle⟩ }
  | snapshot _ _ new _ h =>
    exact { refl u with snapshot := fun s hs => ⟨new, rfl, h.keeps s hs⟩ }
  | targets _ role delegator new _ _ h => exact { refl u with }

theorem run {trusted_root : List UInt8} {now : ℤ}
    (h : Updater.new P trusted_root now = .ok u) (pre post : List Call) :
    NotBehind (u.run P pre) (u.run P (pre ++ post)) :=
  after_rel refl (fun _ _ _ => trans) (fun v c hv => hv.effect (call_effect v c))
    (fun v c (hv : Ordered v) => effect hv.version (call_effect v c)) (Ordered.reachable h []) pre
    post

end NotBehind

/-! ## Calls that fail -/

/-- A timestamp that passed its checks but has expired. -/
structure StaleTimestamp (P : Prims M) (u : Updater M) (c : Call) (t : Trusted Timestamp) :
    Prop where
  gives : GivesTimestamp t.bytes c
  accepted : TimestampAccepted P u t
  expired : t.metadata.common.expires ≤ u.now

/-- A snapshot that passed its checks but has expired, or is not the version the timestamp names. -/
structure StaleSnapshot (P : Prims M) (u : Updater M) (c : Call) (s : Trusted Snapshot) :
    Prop where
  gives : ∃ isLocal, GivesSnapshot s.bytes isLocal c ∧ SnapshotAccepted P u isLocal s
  stale : s.metadata.common.expires ≤ u.now ∨ ∀ t, u.timestamp = some t →
    s.metadata.common.version ≠ t.metadata.snapshot.version

variable {t : Trusted Timestamp} {u : Updater M}

lemma timestampVerdict_error {e : Error} : timestampVerdict u t = .error e ↔
      t.metadata.common.expires ≤ u.now ∧ e = .Expired "timestamp" t.metadata.common.expires := by
  simp only [timestampVerdict, checkFinalTimestamp, okOr, checkExpiry, bind, Except.bind]
  by_cases hexp : t.metadata.common.expires ≤ u.now
  · simp [hexp, Except.map, eq_comm]
  · simp [hexp, Except.map]

variable {s : Trusted Snapshot}

lemma snapshotVerdict_error (ht : u.timestamp = some t) (hnow : u.now < t.metadata.common.expires) :
    (∃ e, snapshotVerdict u s = .error e) ↔ s.metadata.common.expires ≤ u.now ∨
      s.metadata.common.version ≠ t.metadata.snapshot.version := by
  have hok : (∃ a, checkFinalSnapshot { u with snapshot := some s } = .ok a) ↔
      ¬ (s.metadata.common.expires ≤ u.now ∨
        s.metadata.common.version ≠ t.metadata.snapshot.version) := by
    simp only [checkFinalSnapshot_eq_ok, ht, Option.some.injEq, not_or, not_le, not_not]
    constructor
    · rintro ⟨_, _, _, rfl, rfl, -, hexp, hv, -⟩
      exact ⟨hexp, hv⟩
    · rintro ⟨hexp, hv⟩
      exact ⟨_, t, s, rfl, rfl, hnow, hexp, hv, rfl⟩
  rw [← not_iff_not, ← hok, snapshotVerdict]
  cases checkFinalSnapshot { u with snapshot := some s } <;> simp [Except.map]

variable {c : Call}

/-- A call that fails leaves everything as it was, except that a timestamp or a snapshot that
passed its checks is stored although it is not current. -/
theorem failed_call {e : Error} (h : (u.call P c).1 = .error e) : (u.call P c).2 = u ∨
    (∃ t, StaleTimestamp P u c t ∧ (u.call P c).2 = { u with timestamp := some t }) ∨
    (∃ s, StaleSnapshot P u c s ∧ (u.call P c).2 = { u with snapshot := some s }) := by
  have heffect := call_effect (P := P) u c
  generalize (u.call P c).2 = v at heffect
  generalize (u.call P c).1 = r at heffect h
  cases heffect with
  | unchanged => exact .inl rfl
  | root new _ => cases h
  | timestamp _ new hc haccepted =>
    exact .inr (.inl ⟨new, ⟨hc, haccepted, (timestampVerdict_error.1 h).1⟩, rfl⟩)
  | snapshot _ isLocal new hc haccepted =>
    obtain ⟨t, ht, hnow, -⟩ := haccepted.timestamp
    refine .inr (.inr ⟨new, ⟨⟨isLocal, hc, haccepted⟩, ?_⟩, rfl⟩)
    rcases (snapshotVerdict_error ht hnow).1 ⟨e, h⟩ with hexp | hv
    · exact .inl hexp
    · refine .inr fun t' ht' => ?_
      rw [ht] at ht'
      cases ht'
      exact hv
  | targets _ role delegator new _ _ _ => cases h

lemma call_of_timestamp_accepted (hc : GivesTimestamp t.bytes c) (h : TimestampAccepted P u t) :
    u.call P c = (timestampVerdict u t, { u with timestamp := some t }) := by
  have hstep := timestampStep_of_accepted h
  have hmap : ((timestampVerdict u t).map fun _ => TimestampUpdate.New).map (fun _ => ()) =
      timestampVerdict u t := by
    cases timestampVerdict u t <;> rfl
  cases hc with
  | load => rw [call, loadLocalTimestamp, hstep, hmap]
  | update => rw [call, updateTimestamp, hstep, hmap]

lemma call_of_snapshot_accepted {isLocal : Bool}
    (hc : GivesSnapshot s.bytes isLocal c) (h : SnapshotAccepted P u isLocal s) :
    u.call P c = (snapshotVerdict u s, { u with snapshot := some s }) := by
  have hstep := snapshotStep_of_accepted h
  cases hc with
  | load => exact hstep
  | update => exact hstep

theorem StaleTimestamp.call (h : StaleTimestamp P u c t) : (∃ e, (u.call P c).1 = .error e) ∧
      (u.call P c).2 = { u with timestamp := some t } := by
  rw [call_of_timestamp_accepted h.gives h.accepted]
  exact ⟨⟨_, timestampVerdict_error.2 ⟨h.expired, rfl⟩⟩, rfl⟩

theorem StaleSnapshot.call (h : StaleSnapshot P u c s) : (∃ e, (u.call P c).1 = .error e) ∧
      (u.call P c).2 = { u with snapshot := some s } := by
  obtain ⟨isLocal, hc, haccepted⟩ := h.gives
  obtain ⟨t, ht, hnow, -⟩ := haccepted.timestamp
  rw [call_of_snapshot_accepted hc haccepted]
  exact ⟨(snapshotVerdict_error ht hnow).2 (h.stale.imp id fun hv => hv t ht), rfl⟩

end Lazaret.Tuf
