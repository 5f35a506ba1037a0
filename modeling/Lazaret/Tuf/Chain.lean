import Lazaret.Tuf.Effects

/-!
# The chain of trust

In every state a run of the updater reaches, the root is the end of a chain of roots that starts at
the given one, the timestamp and the snapshot are signed by keys of the root that is trusted now,
and the metadata of every role was accepted when it was stored, against the snapshot and the root
that are trusted now.  What carries it is the order of the stores (`Ordered`).
-/

namespace Lazaret.Tuf

open Updater BTreeMap

variable {M : Type} {P : Prims M}

/-- A root follows another: it is the next version, signed by the keys of both. -/
structure Succeeds (P : Prims M) (old new : Trusted (Root M)) : Prop where
  version : new.metadata.common.version = old.metadata.common.version + 1
  by_old : SignedAs P (Root.parse P) old.metadata.keys old.metadata.root new
  by_new : SignedAs P (Root.parse P) new.metadata.keys new.metadata.root new

/-- What is stored lies over what vouches for it, and the versions and the names are what the
parsers give. -/
structure Ordered (u : Updater M) : Prop where
  version : u.root.metadata.common.version < 2 ^ 64
  timestamp : u.snapshot.isSome = true → u.timestamp.isSome = true
  snapshot : u.targets.isEmpty = false → u.snapshot.isSome = true
  names : ∀ role t, u.targets.get role = some t → ∀ d, t.delegations = some d → NamesOk d.roles
  no_root : u.targets.get "root" = none

variable {u : Updater M}

lemma VouchedBy.role_iff {role delegator : String} {env : Envelope}
    (hu : Ordered u) (h : VouchedBy P u role delegator env) :
    role ≠ "root" ∧ (role = "targets" ↔ delegator = "root") := by
  rcases h with ⟨rfl, rfl, -⟩ | ⟨hroot, parent, d, r, hparent, hd, hr, rfl, -⟩
  · exact ⟨by decide, iff_of_true rfl rfl⟩
  · have hname := (hu.names delegator parent hparent d hd).2 r hr
    refine ⟨fun h => hname (h ▸ by decide), iff_of_false (fun h => hname (h ▸ by decide)) hroot⟩

lemma RootAccepted.succeeds {new : Trusted (Root M)}
    (hu : u.root.metadata.common.version < 2 ^ 64) (h : RootAccepted P u new) :
    Succeeds P u.root new := by
  obtain ⟨env, -, hparse, -⟩ := h.by_new
  have hone := (Root.parse_version hparse).1
  refine ⟨?_, h.by_old, h.by_new⟩
  have hversion := h.version
  by_cases hlast : u.root.metadata.common.version + 1 = 2 ^ 64
  · rw [hlast, Nat.mod_self] at hversion
    omega
  · rw [hversion, Nat.mod_eq_of_lt (by omega)]

lemma isEmpty_insert (m : BTreeMap String (Targets M)) (role : String) (t : Targets M) :
    (m.insert role t).isEmpty = false := by
  have hmem : (role, t) ∈ (m.insert role t).entries :=
    get_eq_some.1 (by rw [get_insert, if_pos rfl])
  rw [BTreeMap.isEmpty]
  cases he : (m.insert role t).entries with
  | nil => rw [he] at hmem; simp at hmem
  | cons a as => rfl

namespace Ordered

theorem effect {u u' : Updater M} {c : Call} {r : Except Error Unit} (hu : Ordered u)
    (h : Effect P u c r u') : Ordered u' := by
  cases h with
  | unchanged => exact hu
  | root new h =>
    obtain ⟨env, -, hparse, -⟩ := h.by_new
    exact { hu with version := (Root.parse_version hparse).2 }
  | timestamp _ new _ h => exact { hu with timestamp := fun _ => rfl }
  | snapshot _ _ new _ h =>
    obtain ⟨t, ht, -⟩ := h.timestamp
    exact { hu with
      timestamp := fun _ => by simp [ht]
      snapshot := fun _ => rfl }
  | targets _ role delegator new _ _ h =>
    obtain ⟨t, s, m, -, hs, -⟩ := h.listed
    obtain ⟨env, -, hparse, hvouched⟩ := h.signed
    exact { hu with
      snapshot := fun _ => by simp [hs]
      names := fun role' t' ht => by
        rcases get_insert_eq_some.1 ht with ⟨-, rfl⟩ | ⟨-, ht⟩
        · exact Targets.parse_names hparse
        · exact hu.names role' t' ht
      no_root := by
        rw [get_insert, if_neg (hvouched.role_iff hu).1.symm]
        exact hu.no_root }

theorem reachable {trusted_root : List UInt8} {now : ℤ} {u : Updater M}
    (h : Updater.new P trusted_root now = .ok u) (calls : List Call) : Ordered (u.run P calls) := by
  refine run_invariant Ordered ?_ (fun v c r v' hv => hv.effect) calls
  obtain ⟨root, ⟨env, -, hparse, -⟩, rfl⟩ := new_eq_ok h
  exact {
    version := (Root.parse_version hparse).2
    timestamp := fun h => by cases h
    snapshot := fun h => by cases h
    names := fun role t ht => by simp at ht
    no_root := rfl }

end Ordered

/-! ## The root, the timestamp and the snapshot -/

/-- The root descends from the first one, and its keys signed the timestamp and the snapshot. -/
structure Anchored (P : Prims M) (first : Trusted (Root M)) (u : Updater M) : Prop where
  root : Relation.ReflTransGen (Succeeds P) first u.root
  timestamp : ∀ t, u.timestamp = some t →
    SignedAs P (Timestamp.parse P) u.root.metadata.keys u.root.metadata.timestamp t
  snapshot : ∀ s, u.snapshot = some s →
    SignedAs P (Snapshot.parse P) u.root.metadata.keys u.root.metadata.snapshot s

theorem Anchored.effect {first : Trusted (Root M)} {u' : Updater M} {c : Call}
    {r : Except Error Unit} (ho : Ordered u) (hu : Anchored P first u) (h : Effect P u c r u') :
    Anchored P first u' := by
  cases h with
  | unchanged => exact hu
  | root new h =>
    -- without a timestamp there is no snapshot either, so nothing is signed by the old keys
    have hno : u.snapshot = none := by
      have hts := ho.timestamp
      rw [h.no_timestamp] at hts
      simpa using hts
    exact {
      root := hu.root.tail (h.succeeds ho.version)
      timestamp := fun t ht => by rw [h.no_timestamp] at ht; cases ht
      snapshot := fun s hs => by rw [hno] at hs; cases hs }
  | timestamp _ new _ h =>
    exact { hu with
      timestamp := fun t ht => by
        cases ht
        exact h.signed }
  | snapshot _ _ new _ h =>
    exact { hu with
      snapshot := fun s hs => by
        cases hs
        exact h.signed }
  | targets _ role delegator new _ _ h => exact { hu with }

variable {trusted_root : List UInt8} {now : ℤ}

theorem Anchored.reachable (h : Updater.new P trusted_root now = .ok u) (calls : List Call) :
    Anchored P u.root (u.run P calls) := by
  have hstart : Ordered u ∧ Anchored P u.root u := by
    refine ⟨Ordered.reachable h [], ?_⟩
    obtain ⟨root, -, rfl⟩ := new_eq_ok h
    exact {
      root := .refl
      timestamp := fun t ht => by cases ht
      snapshot := fun s hs => by cases hs }
  exact (run_invariant (fun v => Ordered v ∧ Anchored P u.root v) hstart
    (fun v c r v' hv he => ⟨hv.1.effect he, Anchored.effect hv.1 hv.2 he⟩) calls).2

/-! ## Targets -/

/-- Once targets are stored, what they were checked against stays. -/
structure Frozen (u v : Updater M) : Prop where
  now : v.now = u.now
  root : u.targets.isEmpty = false → v.root = u.root
  snapshot : u.targets.isEmpty = false → v.snapshot = u.snapshot
  targets : u.targets.isEmpty = false → v.targets.isEmpty = false

lemma Frozen.refl (u : Updater M) : Frozen u u := ⟨rfl, fun _ => rfl, fun _ => rfl, id⟩

lemma Frozen.trans {v w : Updater M} (h : Frozen u v) (h' : Frozen v w) : Frozen u w where
  now := h'.now.trans h.now
  root hu := (h'.root (h.targets hu)).trans (h.root hu)
  snapshot hu := (h'.snapshot (h.targets hu)).trans (h.snapshot hu)
  targets hu := h'.targets (h.targets hu)

theorem Frozen.effect {u' : Updater M} {c : Call} {r : Except Error Unit} (hu : Ordered u)
    (h : Effect P u c r u') : Frozen u u' := by
  cases h with
  | unchanged => exact .refl u
  | root new h =>
    refine ⟨rfl, fun ht => ?_, fun _ => rfl, id⟩
    have hts := hu.timestamp (hu.snapshot ht)
    rw [h.no_timestamp] at hts
    cases hts
  | timestamp _ new _ h => exact ⟨rfl, fun _ => rfl, fun _ => rfl, id⟩
  | snapshot _ _ new _ h =>
    refine ⟨rfl, fun _ => rfl, fun ht => ?_, id⟩
    rw [h.no_targets] at ht
    cases ht
  | targets _ role delegator new _ _ h =>
    exact ⟨rfl, fun _ => rfl, fun _ => rfl, fun _ => isEmpty_insert _ _ _⟩

theorem Frozen.run (h : Updater.new P trusted_root now = .ok u) (pre post : List Call) :
    Frozen (u.run P pre) (u.run P (pre ++ post)) :=
  after_rel Frozen.refl (fun _ _ _ => Frozen.trans) (fun v c hv => hv.effect (call_effect v c))
    (fun v c hv => Frozen.effect hv (call_effect v c)) (Ordered.reachable h []) pre post

/-- When the metadata of a role that is held was stored: the call that stored it, which accepted
it, and it has been held since. -/
structure StoredAt (P : Prims M) (u : Updater M) (calls : List Call) (role : String)
    (t : Targets M) (pre : List Call) (delegator : String) (bytes : List UInt8) : Prop where
  stored : ∃ c post, calls = pre ++ c :: post ∧ GivesTargets bytes role delegator c ∧
    ∀ mid, mid <+: post → (u.run P (pre ++ c :: mid)).targets.get role = some t
  accepted : TargetsAccepted P (u.run P pre) role delegator ⟨t, bytes⟩
  by_root : role = "targets" ↔ delegator = "root"
  /-- It was checked against the root and the snapshot that are trusted at the end. -/
  now : (u.run P pre).now = (u.run P calls).now
  root : (u.run P pre).root = (u.run P calls).root
  snapshot : (u.run P pre).snapshot = (u.run P calls).snapshot

theorem stored_at (h : Updater.new P trusted_root now = .ok u) {calls : List Call} {role : String}
    {t : Targets M} (ht : (u.run P calls).targets.get role = some t) :
    ∃ pre delegator bytes, StoredAt P u calls role t pre delegator bytes := by
  have hstart : ¬ u.targets.get role = some t := by
    obtain ⟨root, -, rfl⟩ := new_eq_ok h
    simp
  obtain ⟨pre, c, post, rfl, hpre, hmid⟩ :=
    exists_last_change (p := fun v : Updater M => v.targets.get role = some t) hstart ht
  have hordered := Ordered.reachable h pre
  have hafter : ((u.run P pre).call P c).2.targets.get role = some t := by
    rw [← run_concat]
    exact hmid [] List.nil_prefix
  -- the call is the one that changed what is held for the role
  have heffect := call_effect (P := P) (u.run P pre) c
  have hrest : ((u.run P pre).call P c).2.run P post = u.run P (pre ++ c :: post) := by
    rw [← run_concat, ← run_append, List.append_assoc, List.singleton_append]
  have hfrozen : Frozen ((u.run P pre).call P c).2 (u.run P (pre ++ c :: post)) := by
    have := Frozen.run h (pre ++ [c]) post
    rwa [run_concat, List.append_assoc, List.singleton_append] at this
  generalize ((u.run P pre).call P c).2 = v at hafter heffect hfrozen
  generalize ((u.run P pre).call P c).1 = r at heffect
  cases heffect with
  | unchanged | root | timestamp | snapshot => exact absurd hafter hpre
  | targets _ role' delegator new hgives _ haccepted =>
    rw [get_insert] at hafter
    split at hafter
    · rename_i hrole
      subst hrole
      cases hafter
      obtain ⟨env, -, -, hvouched⟩ := haccepted.signed
      refine ⟨pre, delegator, new.bytes, ?_⟩
      exact {
        stored := ⟨c, post, rfl, hgives, hmid⟩
        accepted := haccepted
        by_root := (hvouched.role_iff hordered).2
        now := hfrozen.now.symm
        root := (hfrozen.root (isEmpty_insert _ _ _)).symm
        snapshot := (hfrozen.snapshot (isEmpty_insert _ _ _)).symm }
    · exact absurd hafter hpre

/-- In every state that a run reaches the root is the end of a chain of roots from the given one,
and every role's metadata was accepted when it was stored, the timestamp's and the snapshot's by the
root's keys. -/
theorem trust_chain {trusted_root : List UInt8} {now : ℤ} {u : Updater M}
    (h : Updater.new P trusted_root now = .ok u) (calls : List Call) :
    (u.root.bytes = trusted_root ∧
      SignedAs P (Root.parse P) u.root.metadata.keys u.root.metadata.root u.root ∧
        Relation.ReflTransGen (Succeeds P) u.root (u.run P calls).root) ∧
    (∀ t, (u.run P calls).timestamp = some t →
      SignedAs P (Timestamp.parse P) (u.run P calls).root.metadata.keys
        (u.run P calls).root.metadata.timestamp t) ∧
    (∀ s, (u.run P calls).snapshot = some s →
      SignedAs P (Snapshot.parse P) (u.run P calls).root.metadata.keys
        (u.run P calls).root.metadata.snapshot s) ∧
    (∀ role t, (u.run P calls).targets.get role = some t →
      ∃ pre delegator bytes, StoredAt P u calls role t pre delegator bytes) := by
  have hanchored := Anchored.reachable h calls
  obtain ⟨root, hsigned, hu⟩ := new_eq_ok h
  refine ⟨⟨by rw [hu], by rw [hu]; exact hsigned, hanchored.root⟩, hanchored.timestamp,
    hanchored.snapshot, fun role t ht => stored_at h ht⟩

/-! ## A repository in small -/

namespace Sample

open Json (Value)

/-- A key is its text; it signs with its bytes and the length of the message. -/
def sign (key : String) (message : List UInt8) : List UInt8 :=
  utf8 key ++ [UInt8.ofNat message.length]

def num (n : ℕ) : Value := .number ⟨toString n⟩

def signed (kind : String) (version : ℕ) (rest : List (String × Value)) : Value :=
  .object ([("_type", .string kind), ("spec_version", .string "1.0"), ("version", num version),
    ("expires", .string "2030-01-01T00:00:00Z")] ++ rest)

def role (key : String) : List (String × Value) :=
  [("keyids", .array [.string key]), ("threshold", num 1)]

def keysOf (names : List String) : Value :=
  .object (names.map fun k => (k, .object [("keytype", .string "ed25519"),
    ("scheme", .string "ed25519"), ("keyval", .object [("public", .string k)])]))

def doc (key : String) (signed : Value) : Value :=
  let payload := (canonicalJson signed).toOption.getD []
  .object [("signatures", .array [.object [("keyid", .string key),
    ("sig", .string (hex (sign key payload)))]]), ("signed", signed)]

def root : Value :=
  doc "k" (signed "root" 1 [("keys", keysOf ["k"]),
    ("roles", .object (TOP_LEVEL.map fun r => (r, .object (role "k"))))])

def timestamp (version snapshot : ℕ) : Value :=
  doc "k" (signed "timestamp" version
    [("meta", .object [("snapshot.json", .object [("version", num snapshot)])])])

def snapshot (version : ℕ) (files : List String) : Value :=
  doc "k" (signed "snapshot" version
    [("meta", .object (files.map fun f => (f, .object [("version", num 1)])))])

/-- A delegation of the paths with that hash to a role. -/
def delegation (name key hash : String) : Value :=
  .object ([("name", .string name), ("terminating", .bool false),
    ("path_hash_prefixes", .array [.string hash])] ++ role key)

def targets (key : String) (files : List String) (keys : List String) (roles : List Value) :
    Value :=
  doc key (signed "targets" 1
    [("targets", .object (files.map fun f => (f, .object [("length", num 1),
      ("hashes", .object [("sha256", .string "00")])]))),
     ("delegations", .object [("keys", keysOf keys), ("roles", .array roles)])])

def bytes (v : Value) : List UInt8 := (canonicalJson v).toOption.getD []

/-- The documents of a repository, each read from its bytes. -/
def prims (documents : List Value) : Prims String where
  json b := match documents.find? fun v => bytes v = b with
    | some v => .ok v
    | none => .error ⟨0, .Syntax⟩
  material _ _ pub := some (pub, utf8 pub)
  verify key message signature := signature = sign key message
  digest _ data := data
  debug s := s

/-- The second root: the targets are signed by another key. -/
def rotated : Value :=
  doc "k" (signed "root" 2 [("keys", keysOf ["k", "n"]),
    ("roles", .object (TOP_LEVEL.map fun r =>
      (r, .object (role (if r = "targets" then "n" else "k")))))])

def documents : List Value :=
  [root, rotated, timestamp 1 1, snapshot 1 ["targets.json"], targets "n" ["p"] [] []]

def refresh : List Call :=
  [.updateRoot (bytes rotated), .updateTimestamp (bytes (timestamp 1 1)),
    .updateSnapshot (bytes (snapshot 1 ["targets.json"])),
    .updateTargets (bytes (targets "n" ["p"] [] [])), .findTarget "p"]

end Sample

/-- A root that signs itself is followed by one that gives the targets to another key, and the
metadata of the other roles is stored. -/
theorem trust_chain_rotated : ∃ u,
    Updater.new (Sample.prims Sample.documents) (Sample.bytes Sample.root) 0 = .ok u ∧
      let w := u.run (Sample.prims Sample.documents) Sample.refresh
      w.root.metadata.common.version = 2 ∧
      Relation.ReflTransGen (Succeeds (Sample.prims Sample.documents)) u.root w.root ∧
      (∃ t, w.timestamp = some t ∧ SignedAs (Sample.prims Sample.documents)
        (Timestamp.parse (Sample.prims Sample.documents)) w.root.metadata.keys
        w.root.metadata.timestamp t) ∧
      (∃ s, w.snapshot = some s ∧ SignedAs (Sample.prims Sample.documents)
        (Snapshot.parse (Sample.prims Sample.documents)) w.root.metadata.keys
        w.root.metadata.snapshot s) ∧
      ∃ t pre delegator bytes, w.targets.get "targets" = some t ∧
        StoredAt (Sample.prims Sample.documents) u Sample.refresh "targets" t pre
        delegator bytes := by
  have hrun :
    (Updater.new (Sample.prims Sample.documents) (Sample.bytes Sample.root) 0).toOption.any
      (fun u =>
        let w := u.run (Sample.prims Sample.documents) Sample.refresh
        w.root.metadata.common.version = 2 && w.timestamp.isSome && w.snapshot.isSome &&
          (w.targets.get "targets").isSome) = true := by decide +kernel
  cases hu : Updater.new (Sample.prims Sample.documents) (Sample.bytes Sample.root) 0 with
  | error e =>
    rw [hu] at hrun
    cases hrun
  | ok u =>
    obtain ⟨⟨-, -, hroots⟩, htimestamp, hsnapshot, htargets⟩ := trust_chain hu Sample.refresh
    simp only [hu, Except.toOption, Option.any_some, Bool.and_eq_true, decide_eq_true_eq,
      Option.isSome_iff_exists] at hrun
    obtain ⟨⟨⟨hversion, t, ht⟩, s, hs⟩, m, hm⟩ := hrun
    obtain ⟨pre, delegator, bytes, hstored⟩ := htargets "targets" m hm
    exact ⟨u, rfl, hversion, hroots, ⟨t, ht, htimestamp t ht⟩, ⟨s, hs, hsnapshot s hs⟩, m, pre,
      delegator, bytes, hm, hstored⟩

end Lazaret.Tuf
