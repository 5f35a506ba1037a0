import Lazaret.Lib.History
import Lazaret.Tuf.Metadata

/-!
# The updater

`Updater` (`tuf.rs`) is the client's state for one refresh: the trusted metadata so far and the time
it is checked at.  A call that changes it first makes its checks, which read the state only, and
then stores what it was given; the timestamp and the snapshot are stored before the last check.  A
`u64` is a natural number, and the version after `u64::MAX` is 0.
-/

namespace Lazaret.Tuf

variable {M : Type} (P : Prims M)

def ROOT_ROTATIONS : ℕ := 256

def DELEGATIONS : ℕ := 32

/-- What `find_target` found. -/
inductive Lookup
  | Found (f : TargetFile)
  | Load (role delegator : String)
  | NotFound

/-- What to fetch: a path, and the most bytes to take. -/
structure Request where
  path : String
  max_length : ℕ
deriving DecidableEq

/-- What `update_timestamp` did. -/
inductive TimestampUpdate
  | New
  | Unchanged
deriving DecidableEq

structure Trusted (α : Type) where
  metadata : α
  bytes : List UInt8

structure Updater (M : Type) where
  now : ℤ
  root : Trusted (Root M)
  rotations : ℕ
  timestamp : Option (Trusted Timestamp)
  snapshot : Option (Trusted Snapshot)
  targets : BTreeMap String (Targets M)

def okOr {α : Type} (x : Option α) (e : Error) : Except Error α :=
  match x with
  | some a => .ok a
  | none => .error e

/-- The state after the checks of a call: what they gave is stored, and an error stores nothing. -/
def commit {α : Type} (u : Updater M) (checked : Except Error α) (store : α → Updater M) :
    Except Error Unit × Updater M :=
  match checked with
  | .ok a => (.ok (), store a)
  | .error e => (.error e, u)

inductive Call
  | updateRoot (bytes : List UInt8)
  | loadLocalTimestamp (bytes : List UInt8)
  | updateTimestamp (bytes : List UInt8)
  | loadLocalSnapshot (bytes : List UInt8)
  | updateSnapshot (bytes : List UInt8)
  | updateTargets (bytes : List UInt8)
  | updateDelegated (role delegator : String) (bytes : List UInt8)
  | findTarget (path : String)

namespace Updater

/-- `Updater::new`: starts from a root the caller trusts, which must sign itself. -/
def new (trusted_root : List UInt8) (now : ℤ) : Except Error (Updater M) := do
  let env ← envelope P trusted_root
  let root ← Root.parse P env.signed
  root.verify P .root env
  .ok {
    now := now
    root := ⟨root, trusted_root⟩
    rotations := 0
    timestamp := none
    snapshot := none
    targets := BTreeMap.empty }

/-! ## Root -/

def nextRoot (u : Updater M) : Option Request :=
  if u.timestamp.isSome ∨ ROOT_ROTATIONS ≤ u.rotations then none
  else some ⟨s!"{(u.root.metadata.common.version + 1) % 2 ^ 64}.root.json", 512000⟩

/-- The checks of `update_root`. -/
def rootChecks (u : Updater M) (bytes : List UInt8) : Except Error (Root M) := do
  if u.timestamp.isSome then .error (.State "a root after the timestamp")
  else
    let env ← envelope P bytes
    let new ← Root.parse P env.signed
    u.root.metadata.verify P .root env
    let expected := (u.root.metadata.common.version + 1) % 2 ^ 64
    if new.common.version ≠ expected then
      .error (.Version "root" expected new.common.version)
    else
      new.verify P .root env
      .ok new

def updateRoot (u : Updater M) (bytes : List UInt8) : Except Error Unit × Updater M :=
  commit u (u.rootChecks P bytes) fun new =>
    { u with root := ⟨new, bytes⟩, rotations := u.rotations + 1 }

def checkExpiry (u : Updater M) (role : String) (c : Common) : Except Error Unit :=
  if c.expires ≤ u.now then .error (.Expired role c.expires) else .ok ()

/-! ## Timestamp -/

def checkFinalTimestamp (u : Updater M) : Except Error Timestamp := do
  let t ← okOr u.timestamp (.State "no timestamp")
  u.checkExpiry "timestamp" t.metadata.common
  .ok t.metadata

/-- The checks of `timestamp_step`: the new timestamp, or none when it is the version trusted. -/
def timestampChecks (u : Updater M) (bytes : List UInt8) : Except Error (Option Timestamp) := do
  if u.snapshot.isSome then .error (.State "a timestamp after the snapshot")
  else
    u.checkExpiry "root" u.root.metadata.common
    let env ← envelope P bytes
    let new ← Timestamp.parse P env.signed
    u.root.metadata.verify P .timestamp env
    match u.timestamp with
    | none => .ok (some new)
    | some old =>
      if new.common.version < old.metadata.common.version then
        .error (.Rollback
          s!"timestamp version {new.common.version} after {old.metadata.common.version}")
      else if new.common.version = old.metadata.common.version then .ok none
      else if new.snapshot.version < old.metadata.snapshot.version then
        .error (.Rollback <| s!"the timestamp names snapshot version {new.snapshot.version}" ++
          s!" after {old.metadata.snapshot.version}")
      else .ok (some new)

/-- `timestamp_step`: the new timestamp is stored, and then it must not have expired. -/
def timestampStep (u : Updater M) (bytes : List UInt8) :
    Except Error TimestampUpdate × Updater M :=
  match u.timestampChecks P bytes with
  | .error e => (.error e, u)
  | .ok none => (.ok .Unchanged, u)
  | .ok (some new) =>
    let u' : Updater M := { u with timestamp := some ⟨new, bytes⟩ }
    (u'.checkFinalTimestamp.map fun _ => .New, u')

def loadLocalTimestamp (u : Updater M) (bytes : List UInt8) : Except Error Unit × Updater M :=
  let r := u.timestampStep P bytes
  (r.1.map fun _ => (), r.2)

def updateTimestamp (u : Updater M) (bytes : List UInt8) :
    Except Error TimestampUpdate × Updater M :=
  u.timestampStep P bytes

/-! ## Snapshot -/

def snapshotRequest (u : Updater M) : Except Error Request := do
  let t ← u.checkFinalTimestamp
  let path := if u.root.metadata.consistent_snapshot then s!"{t.snapshot.version}.snapshot.json"
    else "snapshot.json"
  .ok ⟨path, t.snapshot.length.getD 2000000⟩

/-- The loop over the files of the snapshot trusted before: each is still listed, no older. -/
def noRollback (new : Snapshot) : List (String × MetaFile) → Except Error Unit
  | [] => .ok ()
  | (name, m) :: rest =>
    match new.files.get name with
    | none => .error (.Rollback s!"the snapshot no longer lists {name}")
    | some n =>
      if n.version < m.version then
        .error (.Rollback s!"{name} version {n.version} after {m.version}")
      else noRollback new rest

/-- The checks of `snapshot_step`. -/
def snapshotChecks (u : Updater M) (bytes : List UInt8) (isLocal : Bool) :
    Except Error Snapshot := do
  if ¬ u.targets.isEmpty then .error (.State "a snapshot after targets")
  else
    let t ← u.checkFinalTimestamp
    checkSome (if isLocal then none else some t.snapshot) fun m => m.check P "snapshot" bytes
    let env ← envelope P bytes
    let new ← Snapshot.parse P env.signed
    u.root.metadata.verify P .snapshot env
    checkSome u.snapshot fun old => noRollback new old.metadata.files.entries
    .ok new

def checkFinalSnapshot (u : Updater M) : Except Error Snapshot := do
  let t ← u.checkFinalTimestamp
  let s ← okOr u.snapshot (.State "no snapshot")
  u.checkExpiry "snapshot" s.metadata.common
  if s.metadata.common.version ≠ t.snapshot.version then
    .error (.Version "snapshot" t.snapshot.version s.metadata.common.version)
  else .ok s.metadata

/-- `snapshot_step`: the new snapshot is stored, and then it must be the current one. -/
def snapshotStep (u : Updater M) (bytes : List UInt8) (isLocal : Bool) :
    Except Error Unit × Updater M :=
  match u.snapshotChecks P bytes isLocal with
  | .error e => (.error e, u)
  | .ok new =>
    let u' : Updater M := { u with snapshot := some ⟨new, bytes⟩ }
    (u'.checkFinalSnapshot.map fun _ => (), u')

def loadLocalSnapshot (u : Updater M) (bytes : List UInt8) : Except Error Unit × Updater M :=
  u.snapshotStep P bytes true

def updateSnapshot (u : Updater M) (bytes : List UInt8) : Except Error Unit × Updater M :=
  u.snapshotStep P bytes false

def snapshotIsFinal (u : Updater M) : Bool := u.checkFinalSnapshot.isOk

/-! ## Targets -/

/-- What the current snapshot says of a role's metadata. -/
def listed (u : Updater M) (role : String) : Except Error MetaFile := do
  let s ← u.checkFinalSnapshot
  okOr (s.files.get s!"{role}.json") (.Malformed s!"the snapshot does not list {role}.json")

/-- `quote`: every byte but ASCII letters, digits and `_.-~` percent-encoded. -/
def quote (name : String) : String :=
  let plain (b : UInt8) : Bool := (48 ≤ b ∧ b ≤ 57) ∨ (65 ≤ b ∧ b ≤ 90) ∨ (97 ≤ b ∧ b ≤ 122) ∨
    b = 95 ∨ b = 46 ∨ b = 45 ∨ b = 126
  let digit (n : ℕ) : Char := "0123456789ABCDEF".toList.getD n '0'
  String.ofList ((utf8 name).flatMap fun b =>
    if plain b then [Char.ofNat b.toNat] else ['%', digit (b.toNat / 16), digit (b.toNat % 16)])

def targetsRequest (u : Updater M) (role : String) : Except Error Request := do
  let m ← u.listed role
  let path := if u.root.metadata.consistent_snapshot then s!"{m.version}.{quote role}.json"
    else s!"{quote role}.json"
  .ok ⟨path, m.length.getD 5000000⟩

/-- The signatures of a role's metadata: by the root's keys for `targets`, else by those that its
delegator gives it. -/
def delegatedSignatures (u : Updater M) (role delegator : String) (env : Envelope) :
    Except Error Unit := do
  if delegator = "root" then
    if role ≠ "targets" then .error (.State s!"{role} is not delegated by the root")
    else u.root.metadata.verify P .targets env
  else
    let parent ← okOr (u.targets.get delegator) (.State s!"{delegator} is not loaded")
    let d ← okOr parent.delegations (.State s!"{delegator} delegates nothing")
    let r ← okOr (d.roles.find? fun r => r.name = role)
      (.State s!"{delegator} does not delegate {role}")
    verifyRole P role d.keys r.keys env

/-- The checks of `update_delegated`. -/
def delegatedChecks (u : Updater M) (role delegator : String) (bytes : List UInt8) :
    Except Error (Targets M) := do
  let m ← u.listed role
  m.check P role bytes
  let env ← envelope P bytes
  let new ← Targets.parse P env.signed
  u.delegatedSignatures P role delegator env
  if new.common.version ≠ m.version then .error (.Version role m.version new.common.version)
  else
    u.checkExpiry role new.common
    .ok new

def updateDelegated (u : Updater M) (role delegator : String) (bytes : List UInt8) :
    Except Error Unit × Updater M :=
  commit u (u.delegatedChecks P role delegator bytes) fun new =>
    { u with targets := u.targets.insert role new }

def updateTargets (u : Updater M) (bytes : List UInt8) : Except Error Unit × Updater M :=
  u.updateDelegated P "targets" "root" bytes

/-! ## Looking up a target -/

/-- The roles that `role` delegates and that cover the path, up to a terminating one, and whether
there is one. -/
def children (path role : String) : List DelegatedRole → List (String × String) × Bool
  | [] => ([], false)
  | r :: rest =>
    if r.covers P path then
      if r.terminating then ([(r.name, role)], true)
      else
        let (cs, terminated) := children path role rest
        ((r.name, role) :: cs, terminated)
    else children path role rest

/-- The top of the stack, less the roles that were visited. -/
def popUnvisited (visited : List String) :
    List (String × String) → Option ((String × String) × List (String × String))
  | [] => none
  | e :: stack => if e.1 ∈ visited then popUnvisited visited stack else some (e, stack)

/-- The loop of `find_target`, with how many more roles it visits: it goes on while no more than
`DELEGATIONS` are visited.  The head of the stack is its top. -/
def walk (u : Updater M) (path : String) :
    ℕ → List String → List (String × String) → Lookup
  | 0, _, _ => .NotFound
  | left + 1, visited, stack =>
    match popUnvisited visited stack with
    | none => .NotFound
    | some ((role, parent), stack) =>
      match u.targets.get role with
      | none => .Load role parent
      | some t =>
        match t.targets.get path with
        | some f => .Found f
        | none =>
          match t.delegations with
          | none => walk u path left (visited ++ [role]) stack
          | some d =>
            let (cs, terminated) := children P path role d.roles
            walk u path left (visited ++ [role])
              (cs ++ if terminated then [] else stack)

def findTarget (u : Updater M) (path : String) : Lookup :=
  u.walk P path (DELEGATIONS + 1) [] [("targets", "root")]

/-! ## Calls -/

/-- What a call returns, less the value, and the state it leaves. -/
def call (u : Updater M) : Call → Except Error Unit × Updater M
  | .updateRoot bytes => u.updateRoot P bytes
  | .loadLocalTimestamp bytes => u.loadLocalTimestamp P bytes
  | .updateTimestamp bytes =>
    let r := u.updateTimestamp P bytes
    (r.1.map fun _ => (), r.2)
  | .loadLocalSnapshot bytes => u.loadLocalSnapshot P bytes
  | .updateSnapshot bytes => u.updateSnapshot P bytes
  | .updateTargets bytes => u.updateTargets P bytes
  | .updateDelegated role delegator bytes => u.updateDelegated P role delegator bytes
  | .findTarget _ => (.ok (), u)

/-- The state after calls, each of which succeeds or fails. -/
def run (u : Updater M) (calls : List Call) : Updater M := after (fun u c => (u.call P c).2) u calls

end Updater

end Lazaret.Tuf
