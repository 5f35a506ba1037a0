import Lazaret.Tuf.Trust

/-!
# What one call can do

`Effect` lists what a call of the updater can do: leave the state as it is, or store metadata that
was accepted, with the error that a timestamp or a snapshot is stored with when it is not the
current one.  `call_effect` says that a call does nothing else; every fact about runs is proved
from it.
-/

namespace Lazaret.Tuf

open Updater

variable {M : Type} {P : Prims M}

/-- What a call that stores a timestamp returns: it must not have expired. -/
def timestampVerdict (u : Updater M) (new : Trusted Timestamp) : Except Error Unit :=
  ({ u with timestamp := some new }.checkFinalTimestamp).map fun _ => ()

/-- What a call that stores a snapshot returns: it must be current, and the one the timestamp
names. -/
def snapshotVerdict (u : Updater M) (new : Trusted Snapshot) : Except Error Unit :=
  ({ u with snapshot := some new }.checkFinalSnapshot).map fun _ => ()

inductive GivesTimestamp (bytes : List UInt8) : Call → Prop
  | load : GivesTimestamp bytes (.loadLocalTimestamp bytes)
  | update : GivesTimestamp bytes (.updateTimestamp bytes)

/-- The calls that hand over a snapshot, a local one or not. -/
inductive GivesSnapshot (bytes : List UInt8) : Bool → Call → Prop
  | load : GivesSnapshot bytes true (.loadLocalSnapshot bytes)
  | update : GivesSnapshot bytes false (.updateSnapshot bytes)

/-- The calls that hand over the metadata of a role, with its delegator. -/
inductive GivesTargets (bytes : List UInt8) : String → String → Call → Prop
  | targets : GivesTargets bytes "targets" "root" (.updateTargets bytes)
  | delegated (role delegator : String) :
      GivesTargets bytes role delegator (.updateDelegated role delegator bytes)

variable {bytes : List UInt8} {role : String} {c : Call} {delegator : String}

lemma GivesTimestamp.not_targets {bytes' : List UInt8}
    (h : GivesTimestamp bytes c) : ¬ GivesTargets bytes' role delegator c := by
  rintro (_ | _) <;> cases h

variable {isLocal : Bool}

lemma GivesSnapshot.not_targets {bytes' : List UInt8} (h : GivesSnapshot bytes isLocal c) :
    ¬ GivesTargets bytes' role delegator c := by
  rintro (_ | _) <;> cases h

/-- What a call can do: what it returns, and the state it leaves. -/
inductive Effect (P : Prims M) (u : Updater M) : Call → Except Error Unit → Updater M → Prop
  | unchanged (c : Call) (r : Except Error Unit)
      (hr : ∀ bytes role delegator, GivesTargets bytes role delegator c → ∃ e, r = .error e) :
      Effect P u c r u
  | root (new : Trusted (Root M)) (h : RootAccepted P u new) :
      Effect P u (.updateRoot new.bytes) (.ok ())
        { u with root := new, rotations := u.rotations + 1 }
  | timestamp (c : Call) (new : Trusted Timestamp) (hc : GivesTimestamp new.bytes c)
      (h : TimestampAccepted P u new) :
      Effect P u c (timestampVerdict u new) { u with timestamp := some new }
  | snapshot (c : Call) (isLocal : Bool) (new : Trusted Snapshot)
      (hc : GivesSnapshot new.bytes isLocal c) (h : SnapshotAccepted P u isLocal new) :
      Effect P u c (snapshotVerdict u new) { u with snapshot := some new }
  | targets (c : Call) (role delegator : String) (new : Trusted (Targets M))
      (hc : GivesTargets new.bytes role delegator c)
      (hchecks : u.delegatedChecks P role delegator new.bytes = .ok new.metadata)
      (h : TargetsAccepted P u role delegator new) :
      Effect P u c (.ok ()) { u with targets := u.targets.insert role new.metadata }

variable {u : Updater M}

lemma timestampStep_of_accepted {new : Trusted Timestamp} (h : TimestampAccepted P u new) :
    u.timestampStep P new.bytes = ((timestampVerdict u new).map fun _ => .New,
      { u with timestamp := some new }) := by
  rw [timestampStep, timestampChecks_of_accepted h, timestampVerdict]
  dsimp only
  cases checkFinalTimestamp { u with timestamp := some new } <;> rfl

lemma snapshotStep_of_accepted {new : Trusted Snapshot} (h : SnapshotAccepted P u isLocal new) :
    u.snapshotStep P new.bytes isLocal =
      (snapshotVerdict u new, { u with snapshot := some new }) := by
  rw [snapshotStep, snapshotChecks_of_accepted h]
  rfl

lemma timestampStep_effect (hc : GivesTimestamp bytes c) :
    Effect P u c ((u.timestampStep P bytes).1.map fun _ => ()) (u.timestampStep P bytes).2 := by
  cases hchecks : u.timestampChecks P bytes with
  | error e =>
    rw [timestampStep, hchecks]
    exact Effect.unchanged c _ fun _ _ _ ht => (hc.not_targets ht).elim
  | ok checked =>
    cases checked with
    | none =>
      rw [timestampStep, hchecks]
      exact Effect.unchanged c _ fun _ _ _ ht => (hc.not_targets ht).elim
    | some new =>
      have h := timestampChecks_accepted hchecks
      have hstep := timestampStep_of_accepted h
      dsimp only at hstep
      rw [hstep]
      have hmap : ((timestampVerdict u ⟨new, bytes⟩).map fun _ => TimestampUpdate.New).map
          (fun _ => ()) = timestampVerdict u ⟨new, bytes⟩ := by
        cases timestampVerdict u ⟨new, bytes⟩ <;> rfl
      rw [hmap]
      exact Effect.timestamp c ⟨new, bytes⟩ hc h

lemma snapshotStep_effect (hc : GivesSnapshot bytes isLocal c) :
    Effect P u c (u.snapshotStep P bytes isLocal).1 (u.snapshotStep P bytes isLocal).2 := by
  cases hchecks : u.snapshotChecks P bytes isLocal with
  | error e =>
    rw [snapshotStep, hchecks]
    exact Effect.unchanged c _ fun _ _ _ ht => (hc.not_targets ht).elim
  | ok new =>
    have h := snapshotChecks_accepted hchecks
    have hstep := snapshotStep_of_accepted h
    dsimp only at hstep
    rw [hstep]
    exact Effect.snapshot c isLocal ⟨new, bytes⟩ hc h

lemma updateDelegated_effect (hc : GivesTargets bytes role delegator c) :
    Effect P u c (u.updateDelegated P role delegator bytes).1
      (u.updateDelegated P role delegator bytes).2 := by
  rw [updateDelegated]
  cases hchecks : u.delegatedChecks P role delegator bytes with
  | error e => exact Effect.unchanged c _ fun _ _ _ _ => ⟨e, rfl⟩
  | ok new =>
    exact Effect.targets c role delegator ⟨new, bytes⟩ hc hchecks
      (delegatedChecks_accepted hchecks)

theorem call_effect (u : Updater M) (c : Call) : Effect P u c (u.call P c).1 (u.call P c).2 := by
  cases c with
  | updateRoot bytes =>
    rw [call, updateRoot]
    cases hchecks : u.rootChecks P bytes with
    | error e => exact Effect.unchanged _ _ fun _ _ _ ht => by cases ht
    | ok new => exact Effect.root ⟨new, bytes⟩ (rootChecks_accepted hchecks)
  | loadLocalTimestamp bytes => exact timestampStep_effect (GivesTimestamp.load)
  | updateTimestamp bytes => exact timestampStep_effect (GivesTimestamp.update)
  | loadLocalSnapshot bytes => exact snapshotStep_effect (GivesSnapshot.load)
  | updateSnapshot bytes => exact snapshotStep_effect (GivesSnapshot.update)
  | updateTargets bytes => exact updateDelegated_effect (GivesTargets.targets)
  | updateDelegated role delegator bytes =>
    exact updateDelegated_effect (GivesTargets.delegated role delegator)
  | findTarget path => exact Effect.unchanged _ _ fun _ _ _ ht => by cases ht

namespace Updater

@[simp] lemma run_nil (u : Updater M) : u.run P [] = u := rfl

lemma run_concat (u : Updater M) (calls : List Call) (c : Call) :
    u.run P (calls ++ [c]) = ((u.run P calls).call P c).2 := after_concat _ u calls c

lemma run_append (u : Updater M) (calls calls' : List Call) :
    u.run P (calls ++ calls') = (u.run P calls).run P calls' := after_append _ u calls calls'

theorem run_invariant (Inv : Updater M → Prop) {u : Updater M} (hu : Inv u)
    (hkeep : ∀ v c r v', Inv v → Effect P v c r v' → Inv v') (calls : List Call) :
    Inv (u.run P calls) :=
  after_invariant Inv (fun v c hv => hkeep v c _ _ hv (call_effect v c)) hu calls

lemma new_eq_ok {trusted_root : List UInt8} {now : ℤ} {u : Updater M}
    (h : Updater.new P trusted_root now = .ok u) :
    ∃ root, SignedAs P (Root.parse P) root.keys root.root ⟨root, trusted_root⟩ ∧
      u = ⟨now, ⟨root, trusted_root⟩, 0, none, none, BTreeMap.empty⟩ := by
  unfold Updater.new at h
  obtain ⟨env, henv, h⟩ := except_bind_eq_ok.1 h
  obtain ⟨root, hroot, h⟩ := except_bind_eq_ok.1 h
  obtain ⟨_, hsig, h⟩ := except_bind_eq_ok.1 h
  cases h
  exact ⟨root, ⟨env, henv, hroot, verifyRole_eq_ok.1 hsig⟩, rfl⟩

end Updater

end Lazaret.Tuf
