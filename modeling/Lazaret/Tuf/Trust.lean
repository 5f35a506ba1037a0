import Lazaret.Tuf.Updater
import Mathlib.Data.List.Perm.Subperm

/-!
# What metadata is trusted for

`SignedBy` says that as many different keys of a role as its threshold signed an envelope, which is
what `verify_role` checks (`verifyRole_eq_ok`).  `RootAccepted`, `TimestampAccepted`,
`SnapshotAccepted` and `TargetsAccepted` say what the checks of the updater's calls establish.
-/

namespace Lazaret.Tuf

open List

open Json (Value)

variable {M : Type} {P : Prims M}

/-! ## Signatures -/

/-- A key of the role, with that identity, signed the envelope. -/
def SignedWith (P : Prims M) (keys : BTreeMap String (Key M)) (role : RoleKeys) (env : Envelope)
    (id : List UInt8) : Prop :=
  ∃ keyid ∈ role.keyids, ∃ key sig, keys.get keyid = some key ∧ key.identity = some id ∧
    (env.signatures.find? fun e => e.1 = keyid) = some sig ∧
      key.verify P env.payload sig.2 = true

/-- As many keys of the role as its threshold, no two of the same identity, signed the envelope. -/
def SignedBy (P : Prims M) (keys : BTreeMap String (Key M)) (role : RoleKeys) (env : Envelope) :
    Prop :=
  ∃ ids : List (List UInt8), ids.Nodup ∧ role.threshold ≤ ids.length ∧
    ∀ id ∈ ids, SignedWith P keys role env id

lemma goodKey_eq_some {keys : BTreeMap String (Key M)} {env : Envelope} {keyid : String}
    {id : List UInt8} : goodKey P keys env keyid = some id ↔
      ∃ key sig, keys.get keyid = some key ∧ key.identity = some id ∧
        (env.signatures.find? fun e => e.1 = keyid) = some sig ∧
          key.verify P env.payload sig.2 = true := by
  simp only [goodKey, Option.bind_eq_some_iff, Option.ite_none_right_eq_some]
  constructor
  · rintro ⟨key, hkey, sig, hsig, hv, hid⟩
    exact ⟨key, sig, hkey, hid, hsig, hv⟩
  · rintro ⟨key, sig, hkey, hid, hsig, hv⟩
    exact ⟨key, hkey, sig, hsig, hv, hid⟩

lemma goodKeys_spec (keys : BTreeMap String (Key M)) (env : Envelope) (keyids : List String)
    (good : List (List UInt8)) (hgood : good.Nodup) :
    (goodKeys P keys env keyids good).Nodup ∧
      ∀ id, id ∈ goodKeys P keys env keyids good ↔
        id ∈ good ∨ ∃ keyid ∈ keyids, goodKey P keys env keyid = some id := by
  induction keyids generalizing good with
  | nil => exact ⟨hgood, fun id => by simp [goodKeys]⟩
  | cons keyid rest ih =>
    rw [goodKeys]
    cases hk : goodKey P keys env keyid with
    | none =>
      refine ⟨(ih good hgood).1, fun id => ?_⟩
      rw [listed, (ih good hgood).2 id]
      simp [hk]
    | some id₀ =>
      simp only [listed, any_eq_true, decide_eq_true_iff, exists_eq_right]
      split
      · rename_i hmem
        refine ⟨(ih good hgood).1, fun id => ?_⟩
        rw [(ih good hgood).2 id]
        simp only [exists_mem_cons_iff, hk, Option.some.injEq]
        constructor
        · rintro (h | h)
          · exact .inl h
          · exact .inr (.inr h)
        · rintro (h | rfl | h)
          · exact .inl h
          · exact .inl hmem
          · exact .inr h
      · rename_i hmem
        have hnew : (good ++ [id₀]).Nodup := by
          rw [nodup_append]
          refine ⟨hgood, nodup_singleton _, fun a ha b hb hab => ?_⟩
          rw [mem_singleton] at hb
          exact hmem (hb ▸ hab ▸ ha)
        refine ⟨(ih _ hnew).1, fun id => ?_⟩
        rw [(ih _ hnew).2 id]
        simp only [mem_append, mem_singleton, exists_mem_cons_iff, hk,
          Option.some.injEq, or_assoc, eq_comm]

theorem verifyRole_eq_ok {name : String} {keys : BTreeMap String (Key M)} {role : RoleKeys}
    {env : Envelope} : verifyRole P name keys role env = .ok () ↔ SignedBy P keys role env := by
  obtain ⟨hnodup, hmem⟩ :=
    goodKeys_spec (P := P) keys env role.keyids [] nodup_nil
  have hsigned (id : List UInt8) :
      id ∈ goodKeys P keys env role.keyids [] ↔ SignedWith P keys role env id := by
    rw [hmem]
    simp only [not_mem_nil, false_or, goodKey_eq_some, SignedWith]
  rw [verifyRole]
  split
  · rename_i hlt
    refine iff_of_false (by simp) ?_
    rintro ⟨ids, hids, hlen, hall⟩
    have hsub : ids ⊆ goodKeys P keys env role.keyids [] := fun id hid =>
      (hsigned id).2 (hall id hid)
    have hle := (subperm_of_subset hids hsub).length_le
    omega
  · rename_i hge
    exact iff_of_true rfl ⟨_, hnodup, not_lt.1 hge, fun id hid => (hsigned id).1 hid⟩

instance (keys : BTreeMap String (Key M)) (role : RoleKeys) (env : Envelope) :
    Decidable (SignedBy P keys role env) :=
  decidable_of_iff ((verifyRole P "" keys role env).isOk = true) (by
    have h : verifyRole P "" keys role env = .ok () ↔ SignedBy P keys role env := verifyRole_eq_ok
    rw [← h]
    cases verifyRole P "" keys role env <;> simp [Except.isOk, Except.toBool])

/-! ## What the parsers give -/

variable {v : Value}

lemma integer_eq_ok {name path : String} {min n : ℕ}
    (h : integer v name path min = .ok n) : min ≤ n ∧ n < 2 ^ 64 := by
  unfold integer at h
  split at h
  · split at h
    · rename_i x hx
      split at h
      · rename_i hmin
        cases h
        refine ⟨hmin, ?_⟩
        simp only [Json.Number.asU64, Json.parseU64, Option.ite_none_left_eq_some,
          Option.ite_none_right_eq_some, Option.some.injEq] at hx
        obtain ⟨-, ⟨-, -, hlt⟩, rfl⟩ := hx
        exact hlt
      · cases h
    · cases h
  · cases h
  · cases h

lemma common_version {kind : String} {c : Common} (h : common P v kind = .ok c) :
    1 ≤ c.version ∧ c.version < 2 ^ 64 := by
  unfold common at h
  dsimp only at h
  split at h
  · cases h
  · obtain ⟨t, -, h⟩ := except_bind_eq_ok.1 h
    split at h
    · cases h
    · obtain ⟨spec, -, h⟩ := except_bind_eq_ok.1 h
      split at h
      · cases h
      · split at h
        · cases h
        · obtain ⟨version, hversion, h⟩ := except_bind_eq_ok.1 h
          obtain ⟨expires, -, h⟩ := except_bind_eq_ok.1 h
          cases h
          exact integer_eq_ok hversion

lemma Root.parse_version {r : Root M} (h : Root.parse P v = .ok r) :
    1 ≤ r.common.version ∧ r.common.version < 2 ^ 64 := by
  unfold Root.parse at h
  obtain ⟨c, hc, h⟩ := except_bind_eq_ok.1 h
  obtain ⟨b, -, h⟩ := except_bind_eq_ok.1 h
  obtain ⟨o, -, h⟩ := except_bind_eq_ok.1 h
  obtain ⟨ks, -, h⟩ := except_bind_eq_ok.1 h
  obtain ⟨rs, -, h⟩ := except_bind_eq_ok.1 h
  split at h
  · cases h
  · obtain ⟨r1, -, h⟩ := except_bind_eq_ok.1 h
    obtain ⟨r2, -, h⟩ := except_bind_eq_ok.1 h
    obtain ⟨r3, -, h⟩ := except_bind_eq_ok.1 h
    obtain ⟨r4, -, h⟩ := except_bind_eq_ok.1 h
    cases h
    exact common_version hc

variable {α : Type} {x : Option α}

lemma transposed_eq_some {β : Type} {f : α → Except Error β} {b : β}
    (h : transposed x f = .ok (some b)) : ∃ a, x = some a ∧ f a = .ok b := by
  cases x with
  | none => cases h
  | some a =>
    refine ⟨a, rfl, ?_⟩
    rw [transposed] at h
    cases hf : f a with
    | error e => simp [hf, Except.map] at h
    | ok b' =>
      rw [hf] at h
      cases h
      rfl

/-- The entries read so far have different names, and none has the name of a top-level role. -/
def NamesOk (roles : List DelegatedRole) : Prop :=
  (roles.map DelegatedRole.name).Nodup ∧ ∀ r ∈ roles, r.name ∉ TOP_LEVEL

lemma delegatedRoles_names {path : String} {entries : List (Value × ℕ)}
    {roles roles' : List DelegatedRole} (hroles : NamesOk roles)
    (h : delegatedRoles P path entries roles = .ok roles') : NamesOk roles' := by
  induction entries generalizing roles with
  | nil =>
    cases h
    exact hroles
  | cons e rest ih =>
    obtain ⟨r, i⟩ := e
    rw [delegatedRoles] at h
    split at h
    · cases h
    · obtain ⟨name, -, h⟩ := except_bind_eq_ok.1 h
      split at h
      · cases h
      · rename_i htop
        split at h
        · cases h
        · rename_i hold
          obtain ⟨terminating, -, h⟩ := except_bind_eq_ok.1 h
          obtain ⟨paths, -, h⟩ := except_bind_eq_ok.1 h
          obtain ⟨prefixes, -, h⟩ := except_bind_eq_ok.1 h
          split at h
          · cases h
          · obtain ⟨keys, -, h⟩ := except_bind_eq_ok.1 h
            -- the new entry: its name is none of the names so far
            refine ih ⟨?_, ?_⟩ h
            · rw [map_append, nodup_append]
              refine ⟨hroles.1, nodup_singleton _, ?_⟩
              rintro a ha b hb rfl
              rw [map_singleton, mem_singleton] at hb
              obtain ⟨x, hx, rfl⟩ := mem_map.1 ha
              exact hold (any_eq_true.2 ⟨x, hx, by simpa using hb⟩)
            · intro x hx
              rcases mem_append.1 hx with hx | hx
              · exact hroles.2 x hx
              · rw [mem_singleton.1 hx]
                exact fun hmem => htop (.inr hmem)

lemma Delegations.parse_names {d : Delegations M}
    (h : Delegations.parse P v = .ok d) : NamesOk d.roles := by
  unfold Delegations.parse at h
  dsimp only at h
  split at h
  · cases h
  · split at h
    · cases h
    · obtain ⟨o, -, h⟩ := except_bind_eq_ok.1 h
      obtain ⟨ks, -, h⟩ := except_bind_eq_ok.1 h
      obtain ⟨a, -, h⟩ := except_bind_eq_ok.1 h
      obtain ⟨roles, hroles, h⟩ := except_bind_eq_ok.1 h
      cases h
      exact delegatedRoles_names ⟨by simp, by simp⟩ hroles

lemma Targets.parse_names {t : Targets M} (h : Targets.parse P v = .ok t) :
    ∀ d, t.delegations = some d → NamesOk d.roles := by
  unfold Targets.parse at h
  obtain ⟨c, -, h⟩ := except_bind_eq_ok.1 h
  obtain ⟨o, -, h⟩ := except_bind_eq_ok.1 h
  obtain ⟨files, -, h⟩ := except_bind_eq_ok.1 h
  obtain ⟨ds, hds, h⟩ := except_bind_eq_ok.1 h
  cases h
  rintro d rfl
  obtain ⟨v', -, hv⟩ := transposed_eq_some hds
  exact Delegations.parse_names hv

/-! ## What the checks establish -/

/-- The bytes are an envelope with that metadata, signed by the role's keys. -/
def SignedAs {α : Type} (P : Prims M) (parse : Value → Except Error α)
    (keys : BTreeMap String (Key M)) (role : RoleKeys) (t : Trusted α) : Prop :=
  ∃ env, envelope P t.bytes = .ok env ∧ parse env.signed = .ok t.metadata ∧
    SignedBy P keys role env

instance {α : Type} [DecidableEq α] (parse : Value → Except Error α)
    (keys : BTreeMap String (Key M)) (role : RoleKeys) (t : Trusted α) :
    Decidable (SignedAs P parse keys role t) :=
  match h : envelope P t.bytes with
  | .error _ => isFalse fun ⟨_, henv, _⟩ => by
    rw [h] at henv
    cases henv
  | .ok env => decidable_of_iff (parse env.signed = .ok t.metadata ∧ SignedBy P keys role env)
      ⟨fun hs => ⟨env, h, hs⟩, fun ⟨_, henv, hs⟩ => by
        rw [h] at henv
        cases henv
        exact hs⟩

/-- What a root that is stored went through: it is signed by the trusted root's keys and by its
own, and is the next version. -/
structure RootAccepted (P : Prims M) (u : Updater M) (new : Trusted (Root M)) : Prop where
  no_timestamp : u.timestamp = none
  by_old : SignedAs P (Root.parse P) u.root.metadata.keys u.root.metadata.root new
  version : new.metadata.common.version = (u.root.metadata.common.version + 1) % 2 ^ 64
  by_new : SignedAs P (Root.parse P) new.metadata.keys new.metadata.root new

structure TimestampAccepted (P : Prims M) (u : Updater M) (new : Trusted Timestamp) : Prop where
  no_snapshot : u.snapshot = none
  root_current : u.now < u.root.metadata.common.expires
  signed : SignedAs P (Timestamp.parse P) u.root.metadata.keys u.root.metadata.timestamp new
  newer : ∀ old, u.timestamp = some old →
    old.metadata.common.version < new.metadata.common.version ∧
      old.metadata.snapshot.version ≤ new.metadata.snapshot.version

/-- The bytes have the length and the hashes that are given. -/
structure Matches (P : Prims M) (m : MetaFile) (bytes : List UInt8) : Prop where
  length : ∀ n, m.length = some n → bytes.length = n
  hashes : ∀ hs, m.hashes = some hs → ∀ e ∈ hs, ∃ h, hashAlg e.1 = some h ∧
    hex (P.digest h bytes) = e.2

/-- Every file that the old snapshot lists is listed by the new one, no older. -/
def Keeps (old new : Snapshot) : Prop :=
  ∀ name m, old.files.get name = some m →
    ∃ n, new.files.get name = some n ∧ m.version ≤ n.version

/-- What a snapshot that is stored went through; one that is not a local one has the length and the
hashes that the timestamp gives. -/
structure SnapshotAccepted (P : Prims M) (u : Updater M) (isLocal : Bool)
    (new : Trusted Snapshot) : Prop where
  no_targets : u.targets.isEmpty = true
  timestamp : ∃ t, u.timestamp = some t ∧ u.now < t.metadata.common.expires ∧
    (isLocal = false → Matches P t.metadata.snapshot new.bytes)
  signed : SignedAs P (Snapshot.parse P) u.root.metadata.keys u.root.metadata.snapshot new
  keeps : ∀ old, u.snapshot = some old → Keeps old.metadata new.metadata

/-- The keys that vouch for a role: the root's targets keys for `targets`, else those of the entry
for the role that its delegator holds. -/
def VouchedBy (P : Prims M) (u : Updater M) (role delegator : String) (env : Envelope) : Prop :=
  (delegator = "root" ∧ role = "targets" ∧
      SignedBy P u.root.metadata.keys u.root.metadata.targets env) ∨
    (delegator ≠ "root" ∧ ∃ parent d r, u.targets.get delegator = some parent ∧
      parent.delegations = some d ∧ r ∈ d.roles ∧ r.name = role ∧ SignedBy P d.keys r.keys env)

/-- What the metadata of a role that is stored went through. -/
structure TargetsAccepted (P : Prims M) (u : Updater M) (role delegator : String)
    (new : Trusted (Targets M)) : Prop where
  /-- The stored snapshot is the current one, and lists the role with that version. -/
  listed : ∃ t s m, u.timestamp = some t ∧ u.snapshot = some s ∧
    u.now < t.metadata.common.expires ∧ u.now < s.metadata.common.expires ∧
      s.metadata.common.version = t.metadata.snapshot.version ∧
        s.metadata.files.get s!"{role}.json" = some m ∧
          new.metadata.common.version = m.version ∧ Matches P m new.bytes
  current : u.now < new.metadata.common.expires
  signed : ∃ env, envelope P new.bytes = .ok env ∧ Targets.parse P env.signed = .ok new.metadata ∧
    VouchedBy P u role delegator env

lemma okOr_eq_ok {e : Error} {a : α} : okOr x e = .ok a ↔ x = some a := by
  cases x <;> simp [okOr]

lemma checkSome_eq_ok {f : α → Except Error Unit} {v : Unit} :
    checkSome x f = .ok v ↔ ∀ a, x = some a → f a = .ok () := by
  cases x <;> simp [checkSome]

variable {data : List UInt8} {what : String}

lemma checkLength_eq_ok {n : ℕ} {v : Unit} : checkLength what data n = .ok v ↔ data.length = n := by
  simp only [checkLength]
  split <;> simp_all

lemma checkHashes_eq_ok {hs : List (String × String)}
    {v : Unit} : checkHashes P what data hs = .ok v ↔
      ∀ e ∈ hs, ∃ h, hashAlg e.1 = some h ∧ hex (P.digest h data) = e.2 := by
  induction hs with
  | nil => simp [checkHashes]
  | cons e rest ih =>
    obtain ⟨alg, want⟩ := e
    rw [checkHashes, forall_mem_cons]
    cases halg : hashAlg alg with
    | none => simp
    | some h =>
      dsimp only
      split
      · rename_i hne
        simp [hne]
      · rename_i heq
        rw [ih, iff_and_self]
        exact fun _ => ⟨h, rfl, not_not.1 heq⟩

lemma MetaFile.check_eq_ok {m : MetaFile} {v : Unit} :
    m.check P what data = .ok v ↔ Matches P m data := by
  rw [MetaFile.check, except_bind_eq_ok]
  simp only [checkSome_eq_ok, checkLength_eq_ok, checkHashes_eq_ok]
  constructor
  · rintro ⟨-, hl, hh⟩
    exact ⟨hl, hh⟩
  · rintro ⟨hl, hh⟩
    exact ⟨(), hl, hh⟩

namespace Updater

variable {v : Unit} {role : String} {u : Updater M}

lemma checkExpiry_eq_ok {c : Common} : u.checkExpiry role c = .ok v ↔ u.now < c.expires := by
  simp only [checkExpiry]
  split <;> simp_all

lemma checkFinalTimestamp_eq_ok {t : Timestamp} : u.checkFinalTimestamp = .ok t ↔
      ∃ x, u.timestamp = some x ∧ u.now < x.metadata.common.expires ∧ x.metadata = t := by
  simp only [checkFinalTimestamp, except_bind_eq_ok, okOr_eq_ok, checkExpiry_eq_ok, Except.ok.injEq,
    exists_and_left, exists_const]

lemma checkFinalSnapshot_eq_ok {s : Snapshot} :
    u.checkFinalSnapshot = .ok s ↔ ∃ t x, u.timestamp = some t ∧ u.snapshot = some x ∧
      u.now < t.metadata.common.expires ∧ u.now < x.metadata.common.expires ∧
        x.metadata.common.version = t.metadata.snapshot.version ∧ x.metadata = s := by
  simp only [checkFinalSnapshot, except_bind_eq_ok, checkFinalTimestamp_eq_ok, okOr_eq_ok,
    checkExpiry_eq_ok]
  constructor
  · rintro ⟨_, ⟨t, ht, htnow, rfl⟩, x, hx, -, hxnow, h⟩
    split at h
    · cases h
    · rename_i hv
      cases h
      exact ⟨t, x, ht, hx, htnow, hxnow, not_not.1 hv, rfl⟩
  · rintro ⟨t, x, ht, hx, htnow, hxnow, hv, rfl⟩
    refine ⟨_, ⟨t, ht, htnow, rfl⟩, x, hx, (), hxnow, ?_⟩
    rw [if_neg (not_not.2 hv)]

variable {bytes : List UInt8}

theorem rootChecks_accepted {new : Root M}
    (h : u.rootChecks P bytes = .ok new) : RootAccepted P u ⟨new, bytes⟩ := by
  unfold rootChecks at h
  split at h
  · cases h
  · rename_i hts
    obtain ⟨env, henv, h⟩ := except_bind_eq_ok.1 h
    obtain ⟨root, hroot, h⟩ := except_bind_eq_ok.1 h
    obtain ⟨_, hold, h⟩ := except_bind_eq_ok.1 h
    dsimp only at h
    split at h
    · cases h
    · rename_i hversion
      obtain ⟨_, hnew, h⟩ := except_bind_eq_ok.1 h
      cases h
      exact {
        no_timestamp := by simpa using hts
        by_old := ⟨env, henv, hroot, verifyRole_eq_ok.1 hold⟩
        version := not_not.1 hversion
        by_new := ⟨env, henv, hroot, verifyRole_eq_ok.1 hnew⟩ }

/-- The checks of `timestamp_step` that succeed: the timestamp is newer than the trusted one, and is
to be stored, or has its version. -/
theorem timestampChecks_cases {checked : Option Timestamp}
    (h : u.timestampChecks P bytes = .ok checked) :
    u.snapshot = none ∧ u.now < u.root.metadata.common.expires ∧
      ∃ new, SignedAs P (Timestamp.parse P) u.root.metadata.keys u.root.metadata.timestamp
          ⟨new, bytes⟩ ∧
        ((checked = some new ∧ ∀ old, u.timestamp = some old →
            old.metadata.common.version < new.common.version ∧
              old.metadata.snapshot.version ≤ new.snapshot.version) ∨
          checked = none ∧ ∃ old, u.timestamp = some old ∧
            new.common.version = old.metadata.common.version) := by
  unfold timestampChecks at h
  split at h
  · cases h
  · rename_i hs
    obtain ⟨_, hexp, h⟩ := except_bind_eq_ok.1 h
    obtain ⟨env, henv, h⟩ := except_bind_eq_ok.1 h
    obtain ⟨t, ht, h⟩ := except_bind_eq_ok.1 h
    obtain ⟨_, hsig, h⟩ := except_bind_eq_ok.1 h
    refine ⟨by simpa using hs, checkExpiry_eq_ok.1 hexp, t,
      ⟨env, henv, ht, verifyRole_eq_ok.1 hsig⟩, ?_⟩
    cases hold : u.timestamp with
    | none =>
      rw [hold] at h
      cases h
      exact .inl ⟨rfl, by simp⟩
    | some old =>
      rw [hold] at h
      dsimp only at h
      split at h
      · cases h
      · rename_i hlt
        split at h
        · rename_i heq
          cases h
          exact .inr ⟨rfl, old, rfl, heq⟩
        · rename_i hne
          split at h
          · cases h
          · rename_i hsnap
            cases h
            refine .inl ⟨rfl, fun old' ho => ?_⟩
            cases ho
            exact ⟨by omega, by omega⟩

theorem timestampChecks_accepted {new : Timestamp}
    (h : u.timestampChecks P bytes = .ok (some new)) : TimestampAccepted P u ⟨new, bytes⟩ := by
  obtain ⟨hno, hnow, new', hsigned, hcases⟩ := timestampChecks_cases h
  rcases hcases with ⟨hnew, hnewer⟩ | ⟨hnone, -⟩
  · cases hnew
    exact ⟨hno, hnow, hsigned, hnewer⟩
  · cases hnone

theorem timestampChecks_of_accepted {new : Trusted Timestamp} (h : TimestampAccepted P u new) :
    u.timestampChecks P new.bytes = .ok (some new.metadata) := by
  obtain ⟨hno, hnow, ⟨env, henv, hparse, hsigned⟩, hnewer⟩ := h
  have hexp : u.checkExpiry "root" u.root.metadata.common = .ok () := checkExpiry_eq_ok.2 hnow
  have hsig : u.root.metadata.verify P .timestamp env = .ok () := verifyRole_eq_ok.2 hsigned
  have hsnap : ¬ u.snapshot.isSome = true := by simp [hno]
  rw [timestampChecks, if_neg hsnap, hexp, henv]
  simp only [bind, Except.bind, hparse, hsig]
  cases hold : u.timestamp with
  | none => rfl
  | some old =>
    obtain ⟨hlt, hle⟩ := hnewer old hold
    dsimp only
    rw [if_neg (lt_asymm hlt), if_neg (ne_of_gt hlt), if_neg (not_lt.2 hle)]

variable {new : Snapshot}

lemma noRollback_eq_ok {files : List (String × MetaFile)} (h : noRollback new files = .ok v) :
    ∀ e ∈ files, ∃ n, new.files.get e.1 = some n ∧ e.2.version ≤ n.version := by
  induction files with
  | nil => simp
  | cons e rest ih =>
    obtain ⟨name, m⟩ := e
    rw [noRollback] at h
    cases hn : new.files.get name with
    | none => simp [hn] at h
    | some n =>
      rw [hn] at h
      dsimp only at h
      split at h
      · cases h
      · rename_i hge
        exact forall_mem_cons.2 ⟨⟨n, hn, not_lt.1 hge⟩, ih h⟩

theorem snapshotChecks_accepted {isLocal : Bool} (h : u.snapshotChecks P bytes isLocal = .ok new) :
    SnapshotAccepted P u isLocal ⟨new, bytes⟩ := by
  unfold snapshotChecks at h
  split at h
  · cases h
  · rename_i htargets
    obtain ⟨t, ht, h⟩ := except_bind_eq_ok.1 h
    obtain ⟨_, hmatch, h⟩ := except_bind_eq_ok.1 h
    obtain ⟨env, henv, h⟩ := except_bind_eq_ok.1 h
    obtain ⟨s, hs, h⟩ := except_bind_eq_ok.1 h
    obtain ⟨_, hsig, h⟩ := except_bind_eq_ok.1 h
    obtain ⟨_, hkeep, h⟩ := except_bind_eq_ok.1 h
    cases h
    obtain ⟨x, hx, hnow, rfl⟩ := checkFinalTimestamp_eq_ok.1 ht
    exact {
      no_targets := by simpa using htargets
      timestamp := ⟨x, hx, hnow, fun hremote => by
        subst hremote
        exact MetaFile.check_eq_ok.1 (checkSome_eq_ok.1 hmatch _ rfl)⟩
      signed := ⟨env, henv, hs, verifyRole_eq_ok.1 hsig⟩
      keeps := fun old hold name m hm =>
        noRollback_eq_ok (checkSome_eq_ok.1 hkeep old hold) (name, m) (BTreeMap.get_eq_some.1 hm) }

lemma noRollback_of_keeps {files : List (String × MetaFile)}
    (h : ∀ e ∈ files, ∃ n, new.files.get e.1 = some n ∧ e.2.version ≤ n.version) :
    noRollback new files = .ok () := by
  induction files with
  | nil => rfl
  | cons e rest ih =>
    obtain ⟨⟨n, hn, hle⟩, hrest⟩ := forall_mem_cons.1 h
    rw [noRollback, hn]
    dsimp only
    rw [if_neg (not_lt.2 hle)]
    exact ih hrest

theorem snapshotChecks_of_accepted {isLocal : Bool} {new : Trusted Snapshot}
    (h : SnapshotAccepted P u isLocal new) :
    u.snapshotChecks P new.bytes isLocal = .ok new.metadata := by
  obtain ⟨htargets, ⟨t, ht, hnow, hmatch⟩, ⟨env, henv, hparse, hsigned⟩, hkeeps⟩ := h
  have hfinal : u.checkFinalTimestamp = .ok t.metadata :=
    checkFinalTimestamp_eq_ok.2 ⟨t, ht, hnow, rfl⟩
  have hcheck : checkSome (if isLocal = true then none else some t.metadata.snapshot)
      (fun m => m.check P "snapshot" new.bytes) = .ok () := by
    cases isLocal with
    | true => rfl
    | false => exact MetaFile.check_eq_ok.2 (hmatch rfl)
  have hsig : u.root.metadata.verify P .snapshot env = .ok () := verifyRole_eq_ok.2 hsigned
  have hkeep : checkSome u.snapshot
      (fun old => noRollback new.metadata old.metadata.files.entries) = .ok () :=
    checkSome_eq_ok.2 fun old hold => noRollback_of_keeps fun e he =>
      hkeeps old hold e.1 e.2 (BTreeMap.get_eq_some.2 he)
  rw [snapshotChecks, if_neg (not_not.2 htargets), hfinal]
  simp only [bind, Except.bind, hcheck, henv, hparse, hsig, hkeep]

lemma delegatedSignatures_vouched {delegator : String} {env : Envelope}
    (h : u.delegatedSignatures P role delegator env = .ok v) :
    VouchedBy P u role delegator env := by
  unfold delegatedSignatures at h
  split at h
  · rename_i hroot
    split at h
    · cases h
    · rename_i htargets
      exact .inl ⟨hroot, not_not.1 htargets, verifyRole_eq_ok.1 h⟩
  · rename_i hroot
    obtain ⟨parent, hparent, h⟩ := except_bind_eq_ok.1 h
    obtain ⟨d, hd, h⟩ := except_bind_eq_ok.1 h
    obtain ⟨r, hr, h⟩ := except_bind_eq_ok.1 h
    have hfound := okOr_eq_ok.1 hr
    exact .inr ⟨hroot, parent, d, r, okOr_eq_ok.1 hparent, okOr_eq_ok.1 hd,
      mem_of_find?_eq_some hfound, by simpa using List.find?_some hfound,
      verifyRole_eq_ok.1 h⟩

theorem delegatedChecks_accepted {delegator : String}
    {new : Targets M} (h : u.delegatedChecks P role delegator bytes = .ok new) :
    TargetsAccepted P u role delegator ⟨new, bytes⟩ := by
  unfold delegatedChecks at h
  obtain ⟨m, hm, h⟩ := except_bind_eq_ok.1 h
  obtain ⟨_, hcheck, h⟩ := except_bind_eq_ok.1 h
  obtain ⟨env, henv, h⟩ := except_bind_eq_ok.1 h
  obtain ⟨t, ht, h⟩ := except_bind_eq_ok.1 h
  obtain ⟨_, hsig, h⟩ := except_bind_eq_ok.1 h
  split at h
  · cases h
  · rename_i hversion
    obtain ⟨_, hexp, h⟩ := except_bind_eq_ok.1 h
    cases h
    obtain ⟨s, hs, hget⟩ := except_bind_eq_ok.1 hm
    obtain ⟨x, y, hx, hy, hxnow, hynow, hxy, rfl⟩ := checkFinalSnapshot_eq_ok.1 hs
    exact {
      listed := ⟨x, y, m, hx, hy, hxnow, hynow, hxy, okOr_eq_ok.1 hget, not_not.1 hversion,
        MetaFile.check_eq_ok.1 hcheck⟩
      current := checkExpiry_eq_ok.1 hexp
      signed := ⟨env, henv, ht, delegatedSignatures_vouched hsig⟩ }

end Updater

end Lazaret.Tuf
