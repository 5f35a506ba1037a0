import Lazaret.Tuf.Rollback

/-!
# A refresh

`refresh` (`tuf.rs`) brings an updater up to date with a fetching function, which is a parameter
with a state of its own.  A refresh is a run of the updater's calls (`Refreshed`), so what holds of
runs holds of it; a refresh that succeeds does not end with a timestamp older than a local one that
verifies (`refresh_not_older`).
-/

namespace Lazaret.Tuf

open Updater

variable {M : Type} (P : Prims M) {σ : Type}

inductive Fetched
  | Data (d : List UInt8)
  | NotFound

abbrev Fetch (σ : Type) := σ → Request → Except String Fetched × σ

/-- Metadata the caller kept from an earlier update. -/
structure Local where
  timestamp : Option (List UInt8)
  snapshot : Option (List UInt8)

def fetch (f : Fetch σ) (s : σ) (req : Request) : Except Error Fetched × σ :=
  match f s req with
  | (.error e, s) => (.error (.Fetch s!"{req.path}: {e}"), s)
  | (.ok (.Data d), s) =>
    if req.max_length < d.length then
      (.error (.LengthOrHash s!"{req.path} is longer than {req.max_length} bytes"), s)
    else (.ok (.Data d), s)
  | (.ok .NotFound, s) => (.ok .NotFound, s)

def required (f : Fetch σ) (s : σ) (req : Request) : Except Error (List UInt8) × σ :=
  match fetch f s req with
  | (.error e, s) => (.error e, s)
  | (.ok (.Data d), s) => (.ok d, s)
  | (.ok .NotFound, s) => (.error (.Fetch s!"{req.path} is not in the repository"), s)

/-- `?`: goes on with the value, or returns the error. -/
def andThen {α β τ : Type} (r : Except Error α × τ) (k : α → τ → Except Error β × τ) :
    Except Error β × τ :=
  match r with
  | (.ok a, s) => k a s
  | (.error e, s) => (.error e, s)

lemma andThen_eq_ok {α β τ : Type} {r : Except Error α × τ} {k : α → τ → Except Error β × τ} {b : β}
    {t : τ} (h : andThen r k = (.ok b, t)) : ∃ a s, r = (.ok a, s) ∧ k a s = (.ok b, t) := by
  obtain ⟨x, s⟩ := r
  cases x with
  | error e => cases h
  | ok a => exact ⟨a, s, rfl, h⟩

variable {u : Updater M}

lemma nextRoot_lt {req : Request} (h : u.nextRoot = some req) : u.rotations < ROOT_ROTATIONS := by
  rw [nextRoot] at h
  split at h
  · cases h
  · rename_i hno
    exact not_le.1 fun hle => hno (Or.inr hle)

lemma updateRoot_rotations {u' : Updater M} {bytes : List UInt8}
    (h : u.updateRoot P bytes = (.ok (), u')) : u'.rotations = u.rotations + 1 := by
  rw [updateRoot] at h
  cases hchecks : u.rootChecks P bytes with
  | error e => rw [hchecks] at h; cases h
  | ok new => rw [hchecks] at h; cases h; rfl

/-- The loop over the roots that the repository has. -/
def rotateRoots (metadata : Fetch σ) (u : Updater M) (s : σ) :
    Except Error Unit × Updater M × σ :=
  match _hnext : u.nextRoot with
  | none => (.ok (), u, s)
  | some req =>
    match fetch metadata s req with
    | (.error e, s) => (.error e, u, s)
    | (.ok .NotFound, s) => (.ok (), u, s)
    | (.ok (.Data d), s) =>
      match _hroot : u.updateRoot P d with
      | (.error e, u) => (.error e, u, s)
      | (.ok (), u) => rotateRoots metadata u s
termination_by ROOT_ROTATIONS - u.rotations
decreasing_by
  have hlt := nextRoot_lt _hnext
  have hmore := updateRoot_rotations P _hroot
  omega

/-- The call that takes local metadata, if there is some; what it returns is not looked at. -/
def loadLocal (bytes : Option (List UInt8)) (load : List UInt8 → Except Error Unit × Updater M)
    (u : Updater M) : Updater M :=
  match bytes with
  | some b => (load b).2
  | none => u

/-- The repository's snapshot, if the trusted one is not the current one. -/
def refreshSnapshot (metadata : Fetch σ) (u : Updater M) (s : σ) :
    Except Error Unit × Updater M × σ :=
  if u.snapshotIsFinal then (.ok (), u, s)
  else
    andThen (u.snapshotRequest, u, s) fun req (u, s) =>
    let r := required metadata s req
    andThen (r.1, u, r.2) fun data (u, s) =>
    let r := u.updateSnapshot P data
    (r.1, r.2, s)

def refreshTargets (metadata : Fetch σ) (u : Updater M) (s : σ) :
    Except Error Unit × Updater M × σ :=
  andThen (u.targetsRequest "targets", u, s) fun req (u, s) =>
  let r := required metadata s req
  andThen (r.1, u, r.2) fun data (u, s) =>
  let r := u.updateTargets P data
  (r.1, r.2, s)

/-- The steps of a refresh after the repository's timestamp. -/
def refreshRest (localSnapshot : Option (List UInt8)) (metadata : Fetch σ) (u : Updater M) (s : σ) :
    Except Error Unit × Updater M × σ :=
  andThen (refreshSnapshot P metadata (loadLocal localSnapshot (u.loadLocalSnapshot P) u) s)
    fun _ (u, s) => refreshTargets P metadata u s

/-- The steps of a refresh after the roots and the local timestamp. -/
def refreshTimestamp (localSnapshot : Option (List UInt8)) (metadata : Fetch σ) (u : Updater M)
    (s : σ) : Except Error Unit × Updater M × σ :=
  -- `timestamp_request`
  let r := required metadata s ⟨"timestamp.json", 16384⟩
  andThen (r.1, u, r.2) fun data (u, s) =>
  let r := u.updateTimestamp P data
  andThen (r.1, r.2, s) fun _ (u, s) => refreshRest P localSnapshot metadata u s

def refresh (u : Updater M) (kept : Local) (metadata : Fetch σ) (s : σ) :
    Except Error Unit × Updater M × σ :=
  andThen (rotateRoots P metadata u s) fun _ (u, s) =>
  refreshTimestamp P kept.snapshot metadata (loadLocal kept.timestamp (u.loadLocalTimestamp P) u) s

variable {P}

/-! ## A refresh is a run -/

/-- A state is reached from another by calls of the updater. -/
def Reaches (P : Prims M) (u v : Updater M) : Prop := ∃ calls, v = u.run P calls

namespace Reaches

lemma refl (u : Updater M) : Reaches P u u := ⟨[], rfl⟩

variable {u : Updater M}

lemma trans {v w : Updater M} (h : Reaches P u v) (h' : Reaches P v w) : Reaches P u w := by
  obtain ⟨calls, rfl⟩ := h
  obtain ⟨calls', rfl⟩ := h'
  exact ⟨calls ++ calls', (run_append u calls calls').symm⟩

lemma call (u : Updater M) (c : Call) : Reaches P u (u.call P c).2 :=
  ⟨[c], (run_concat u [] c).symm⟩

lemma andThen {α β : Type} {r : Except Error α × Updater M × σ}
    {k : α → Updater M × σ → Except Error β × Updater M × σ} (hr : Reaches P u r.2.1)
    (hk : ∀ a v s, Reaches P v (k a (v, s)).2.1) : Reaches P u (andThen r k).2.1 := by
  obtain ⟨x, v, s⟩ := r
  cases x with
  | error e => exact hr
  | ok a => exact hr.trans (hk a v s)

lemma loadLocal {bytes : Option (List UInt8)}
    {load : List UInt8 → Except Error Unit × Updater M} (h : ∀ b, Reaches P u (load b).2) :
    Reaches P u (loadLocal bytes load u) := by
  cases bytes with
  | none => exact refl u
  | some b => exact h b

end Reaches

lemma rotateRoots_reaches (metadata : Fetch σ) (u : Updater M) (s : σ) :
    Reaches P u (rotateRoots P metadata u s).2.1 ∧
      (rotateRoots P metadata u s).2.1.timestamp = u.timestamp := by
  have hstep (u : Updater M) (d : List UInt8) : (u.updateRoot P d).2.timestamp = u.timestamp := by
    rw [updateRoot]
    cases u.rootChecks P d <;> rfl
  fun_induction rotateRoots P metadata u s with
  | case1 | case2 | case3 => exact ⟨.refl _, rfl⟩
  | case4 u _ _ _ d _ _ e v hroot =>
    have hcall := Reaches.call (P := P) u (.updateRoot d)
    have hkeep := hstep u d
    rw [Updater.call, hroot] at hcall
    rw [hroot] at hkeep
    exact ⟨hcall, hkeep⟩
  | case5 u _ _ _ d _ _ v hroot ih =>
    have hcall := Reaches.call (P := P) u (.updateRoot d)
    have hkeep := hstep u d
    rw [Updater.call, hroot] at hcall
    rw [hroot] at hkeep
    exact ⟨hcall.trans ih.1, ih.2.trans hkeep⟩

lemma refreshRest_reaches (localSnapshot : Option (List UInt8)) (metadata : Fetch σ)
    (u : Updater M) (s : σ) : Reaches P u (refreshRest P localSnapshot metadata u s).2.1 := by
  have hlocal : Reaches P u (loadLocal localSnapshot (u.loadLocalSnapshot P) u) :=
    .loadLocal fun b => .call u (.loadLocalSnapshot b)
  refine .andThen (hlocal.trans ?_) fun _ u s => ?_
  · unfold refreshSnapshot
    split
    · exact .refl _
    · exact .andThen (.refl _) fun req u s => .andThen (.refl u) fun data u s =>
        .call u (.updateSnapshot data)
  · exact .andThen (.refl u) fun req u s => .andThen (.refl u) fun data u s =>
      .call u (.updateTargets data)

/-! ## The local timestamp -/

variable {v : Updater M}

lemma Reaches.root (h : Reaches P u v) (hu : u.timestamp.isSome = true) : v.root = u.root := by
  obtain ⟨calls, rfl⟩ := h
  have hinv : (u.run P calls).timestamp.isSome = true ∧ (u.run P calls).root = u.root := by
    refine run_invariant (fun v => v.timestamp.isSome = true ∧ v.root = u.root) ⟨hu, rfl⟩
      (fun v c r v' hv he => ?_) calls
    cases he with
    | unchanged => exact hv
    | root new h =>
      rw [h.no_timestamp] at hv
      cases hv.1
    | timestamp _ new _ _ => exact ⟨rfl, hv.2⟩
    | snapshot | targets => exact hv
  exact hinv.2

variable {t : Trusted Timestamp}

lemma Reaches.timestamp (h : Reaches P u v) {n : ℕ}
    (ht : u.timestamp = some t) (hn : n ≤ t.metadata.common.version) :
    ∃ t', v.timestamp = some t' ∧ n ≤ t'.metadata.common.version := by
  obtain ⟨calls, rfl⟩ := h
  refine run_invariant
    (fun v => ∃ t', v.timestamp = some t' ∧ n ≤ t'.metadata.common.version) ⟨t, ht, hn⟩
    (fun v c r v' hv he => ?_) calls
  cases he with
  | unchanged | root => exact hv
  | timestamp _ new _ h =>
    obtain ⟨t', ht', hn'⟩ := hv
    exact ⟨new, rfl, hn'.trans (h.newer t' ht').1.le⟩
  | snapshot | targets => exact hv

lemma timestampStep_frame (u : Updater M) (bytes : List UInt8) :
    (u.timestampStep P bytes).2.now = u.now ∧ (u.timestampStep P bytes).2.root = u.root ∧
      (u.timestampStep P bytes).2.snapshot = u.snapshot := by
  rw [timestampStep]
  split <;> exact ⟨rfl, rfl, rfl⟩

lemma timestampStep_ok {bytes : List UInt8} {r : TimestampUpdate}
    (h : (u.timestampStep P bytes).1 = .ok r) :
    u.snapshot = none ∧ u.now < u.root.metadata.common.expires ∧
      (u.timestampStep P bytes).2.timestamp.isSome = true := by
  rw [timestampStep] at h ⊢
  cases hchecks : u.timestampChecks P bytes with
  | error e =>
    rw [hchecks] at h
    cases h
  | ok checked =>
    obtain ⟨hno, hnow, new, -, hcases⟩ := timestampChecks_cases hchecks
    refine ⟨hno, hnow, ?_⟩
    rcases hcases with ⟨rfl, -⟩ | ⟨rfl, old, hold, -⟩
    · rfl
    · simp [hold]

/-- A local timestamp that the trusted root's keys signed, and that names no older snapshot than a
newer timestamp held before, is not older than the one held after it is loaded. -/
lemma loadLocalTimestamp_not_older
    (hsnapshot : u.snapshot = none) (hroot : u.now < u.root.metadata.common.expires)
    (hsigned : SignedAs P (Timestamp.parse P) u.root.metadata.keys u.root.metadata.timestamp t)
    (hheld : ∀ old, u.timestamp = some old →
      old.metadata.common.version < t.metadata.common.version →
        old.metadata.snapshot.version ≤ t.metadata.snapshot.version) :
    ∃ t', (u.loadLocalTimestamp P t.bytes).2.timestamp = some t' ∧
      t.metadata.common.version ≤ t'.metadata.common.version := by
  by_cases hnewer : ∀ old, u.timestamp = some old →
      old.metadata.common.version < t.metadata.common.version
  · have haccepted : TimestampAccepted P u t :=
      ⟨hsnapshot, hroot, hsigned,
      fun old hold => ⟨hnewer old hold, hheld old hold (hnewer old hold)⟩⟩
    have hcall := call_of_timestamp_accepted GivesTimestamp.load haccepted
    refine ⟨t, ?_, le_rfl⟩
    rw [call] at hcall
    rw [hcall]
  · push Not at hnewer
    obtain ⟨old, hold, hle⟩ := hnewer
    exact (Reaches.call u (.loadLocalTimestamp t.bytes)).timestamp hold hle

/-- A refresh that succeeds does not end with a timestamp older than a local one that verifies:
that the keys of the root it ends with signed, and that goes back on no snapshot that a timestamp
held before names. -/
theorem refresh_not_older {kept : Local} {metadata : Fetch σ} {s s' : σ}
    (h : refresh P u kept metadata s = (.ok (), v, s'))
    (hlocal : kept.timestamp = some t.bytes)
    (hsigned : SignedAs P (Timestamp.parse P) v.root.metadata.keys v.root.metadata.timestamp t)
    (hheld : ∀ old, u.timestamp = some old →
      old.metadata.common.version < t.metadata.common.version →
        old.metadata.snapshot.version ≤ t.metadata.snapshot.version) :
    ∃ t', v.timestamp = some t' ∧ t.metadata.common.version ≤ t'.metadata.common.version := by
  obtain ⟨_, ⟨u₁, s₁⟩, hrotate, h⟩ := andThen_eq_ok h
  have hkeep := (rotateRoots_reaches (P := P) metadata u s).2
  rw [hrotate] at hkeep
  rw [hlocal] at h
  obtain ⟨data, ⟨u₂, s₂⟩, hdata, h⟩ := andThen_eq_ok h
  obtain ⟨r, ⟨u₃, s₃⟩, hupdate, h⟩ := andThen_eq_ok h
  -- `u₁` after the roots, `u₂` after the local timestamp, `u₃` after the repository's
  simp only [Prod.mk.injEq] at hdata hupdate
  obtain ⟨-, hu₂, -⟩ := hdata
  obtain ⟨hok, hu₃, -⟩ := hupdate
  obtain ⟨hnow₂, hroot₂, hsnapshot₂⟩ := timestampStep_frame (P := P) u₁ t.bytes
  obtain ⟨-, hroot₃, -⟩ := timestampStep_frame (P := P) u₂ data
  obtain ⟨hno, hnow, hsome⟩ := timestampStep_ok hok
  have hu₂' : (u₁.timestampStep P t.bytes).2 = u₂ := hu₂
  rw [hu₂'] at hnow₂ hroot₂ hsnapshot₂
  have hrest : Reaches P u₃ v := by
    have := refreshRest_reaches (P := P) kept.snapshot metadata u₃ s₃
    dsimp only at h
    rwa [h] at this
  have hroot : v.root = u₁.root := by
    rw [hrest.root (by rw [← hu₃]; exact hsome), ← hu₃]
    exact hroot₃.trans hroot₂
  obtain ⟨t₂, ht₂, hle₂⟩ := loadLocalTimestamp_not_older (P := P) (u := u₁) (t := t)
    (hsnapshot₂.symm.trans hno) (by rw [← hnow₂, ← hroot₂]; exact hnow) (hroot ▸ hsigned)
    (fun old hold => hheld old (hkeep ▸ hold))
  have hload : (u₁.loadLocalTimestamp P t.bytes).2 = u₂ := hu₂
  rw [hload] at ht₂
  have hreach : Reaches P u₂ v := by
    refine .trans ?_ hrest
    rw [← hu₃]
    exact .call u₂ (.updateTimestamp data)
  exact hreach.timestamp ht₂ hle₂

/-- A local timestamp verifies: the keys of the root signed it, and where it is newer than a
timestamp held before, it names no older snapshot. -/
structure LocalVerifies (P : Prims M) (root : Root M) (held : Option (Trusted Timestamp))
    (t : Trusted Timestamp) : Prop where
  signed : SignedAs P (Timestamp.parse P) root.keys root.timestamp t
  no_rollback : ∀ old, held = some old →
    old.metadata.common.version < t.metadata.common.version →
      old.metadata.snapshot.version ≤ t.metadata.snapshot.version

/-- The later of two moments of a run is not behind the earlier one, and a call that fails leaves
the state as it was, but for a timestamp or a snapshot that passed its checks and is not current. -/
theorem never_goes_back {trusted_root : List UInt8} {now : ℤ} {u : Updater M}
    (h : Updater.new P trusted_root now = .ok u) :
    (∀ pre post, NotBehind (u.run P pre) (u.run P (pre ++ post))) ∧
    (∀ calls c e, ((u.run P calls).call P c).1 = .error e →
      ((u.run P calls).call P c).2 = u.run P calls ∨
      (∃ t, StaleTimestamp P (u.run P calls) c t ∧
        ((u.run P calls).call P c).2 = { u.run P calls with timestamp := some t }) ∨
      (∃ s, StaleSnapshot P (u.run P calls) c s ∧
        ((u.run P calls).call P c).2 = { u.run P calls with snapshot := some s })) ∧
    (∀ calls c t, StaleTimestamp P (u.run P calls) c t →
      (∃ e, ((u.run P calls).call P c).1 = .error e) ∧
        ((u.run P calls).call P c).2 = { u.run P calls with timestamp := some t }) ∧
    (∀ calls c s, StaleSnapshot P (u.run P calls) c s →
      (∃ e, ((u.run P calls).call P c).1 = .error e) ∧
        ((u.run P calls).call P c).2 = { u.run P calls with snapshot := some s }) ∧
    (∀ (σ : Type) (metadata : Fetch σ) s s' calls v kept t,
      refresh P (u.run P calls) kept metadata s = (.ok (), v, s') →
      kept.timestamp = some t.bytes →
      LocalVerifies P v.root.metadata (u.run P calls).timestamp t →
      ∃ t', v.timestamp = some t' ∧
        t.metadata.common.version ≤ t'.metadata.common.version) :=
  ⟨fun pre post => NotBehind.run h pre post,
    fun _ _ _ hfail => failed_call hfail,
    fun _ _ _ ht => ht.call,
    fun _ _ _ hs => hs.call,
    fun _ _ _ _ _ _ _ _ hok hlocal hverifies =>
      refresh_not_older hok hlocal hverifies.signed hverifies.no_rollback⟩

namespace Sample

/-- A repository with one timestamp, snapshot and targets file, and an older timestamp. -/
def current : Prims String :=
  prims [root, timestamp 1 1, timestamp 2 1, snapshot 1 ["targets.json"], targets "k" ["p"] [] []]

def served : Fetch Unit := fun _ req =>
  (.ok (if req.path = "timestamp.json" then .Data (bytes (timestamp 2 1))
    else if req.path = "snapshot.json" then .Data (bytes (snapshot 1 ["targets.json"]))
    else if req.path = "targets.json" then .Data (bytes (targets "k" ["p"] [] []))
    else .NotFound), ())

def keptTimestamp : Trusted Timestamp :=
  ⟨⟨⟨"1.0", 1, 1893456000⟩, ⟨1, none, none⟩⟩, bytes (timestamp 1 1)⟩

end Sample

/-- Whether a refresh from a root succeeds, and the root it ends with signed the timestamp kept
before. -/
def refreshes (P : Prims M) (trusted_root : List UInt8) (now : ℤ) (metadata : Fetch σ) (s : σ)
    (t : Trusted Timestamp) : Bool :=
  match Updater.new P trusted_root now with
  | .error _ => false
  | .ok u =>
    match refresh P u ⟨some t.bytes, none⟩ metadata s with
    | (.error _, _) => false
    | (.ok (), v, _) => u.timestamp.isNone && SignedAs P (Timestamp.parse P)
        v.root.metadata.keys v.root.metadata.timestamp t

lemma refreshes_spec {trusted_root : List UInt8} {now : ℤ} {metadata : Fetch σ} {s : σ}
    (h : refreshes P trusted_root now metadata s t = true) :
    ∃ u v s', Updater.new P trusted_root now = .ok u ∧
      refresh P (u.run P []) ⟨some t.bytes, none⟩ metadata s = (.ok (), v, s') ∧
        LocalVerifies P v.root.metadata (u.run P []).timestamp t := by
  unfold refreshes at h
  split at h
  · cases h
  · rename_i u hu
    split at h
    · cases h
    · rename_i v s' hrefresh
      rw [Bool.and_eq_true, decide_eq_true_eq, Option.isNone_iff_eq_none] at h
      refine ⟨u, v, s', hu, hrefresh, h.2, fun old hold => ?_⟩
      rw [run_nil, h.1] at hold
      cases hold

open Sample in
/-- A refresh with a kept timestamp. -/
theorem never_goes_back_kept : ∃ u v s', Updater.new current (bytes root) 0 = .ok u ∧
    refresh current (u.run current []) ⟨some keptTimestamp.bytes, none⟩ served () =
      (.ok (), v, s') ∧ ∃ t', v.timestamp = some t' ∧
        keptTimestamp.metadata.common.version ≤ t'.metadata.common.version := by
  have hok : refreshes current (bytes root) 0 served () keptTimestamp = true := by decide +kernel
  obtain ⟨u, v, s', hu, hrefresh, hverifies⟩ := refreshes_spec hok
  exact ⟨u, v, s', hu, hrefresh, (never_goes_back hu).2.2.2.2 Unit served () s'
    [] v _ keptTimestamp hrefresh rfl hverifies⟩

end Lazaret.Tuf
