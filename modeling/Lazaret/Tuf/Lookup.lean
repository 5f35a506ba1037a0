import Lazaret.Lib.Run
import Lazaret.Tuf.Chain

/-!
# What vouches for a target that is found

`find_target` follows delegations from role to role, but the updater holds the metadata of a role
under its name only: it was signed by the keys of the delegator it was loaded for, which need not be
the one that the lookup comes from.  A found target is at the end of a chain of delegations that
cover its path, and the keys of each signed the role below it in every run whose loads agree
(`Agreed`).
-/

namespace Lazaret.Tuf

open Updater List BTreeMap

variable {M : Type} {P : Prims M}

/-- The delegations of a role: the keys of its metadata, and the entry. -/
def Targets.edges (t : Targets M) : List (BTreeMap String (Key M) × DelegatedRole) :=
  match t.delegations with
  | none => []
  | some d => d.roles.map fun r => (d.keys, r)

variable {t : Targets M}

lemma Targets.mem_edges {d : Delegations M} (hd : t.delegations = some d)
    {r : DelegatedRole} (hr : r ∈ d.roles) : (d.keys, r) ∈ t.edges := by
  rw [edges, hd]
  exact mem_map_of_mem hr

/-! ## The walk -/

/-- A role that the lookup of a path can come to: `targets`, or one that such a role, held,
delegates by an entry that covers the path. -/
inductive Reached (P : Prims M) (u : Updater M) (path : String) : String → Prop
  | targets : Reached P u path "targets"
  | delegated {parent : String} {t : Targets M} {k : BTreeMap String (Key M) × DelegatedRole}
      (hparent : Reached P u path parent) (ht : u.targets.get parent = some t) (hk : k ∈ t.edges)
      (hcovers : k.2.covers P path = true) : Reached P u path k.2.name

variable {role path : String}

lemma mem_children {roles : List DelegatedRole} {e : String × String}
    (h : e ∈ (children P path role roles).1) :
    ∃ r ∈ roles, r.covers P path = true ∧ e = (r.name, role) := by
  induction roles with
  | nil => simp [children] at h
  | cons r rest ih =>
    rw [children] at h
    by_cases hcovers : r.covers P path = true
    · rw [if_pos hcovers] at h
      by_cases hterminating : r.terminating = true
      · rw [if_pos hterminating] at h
        exact ⟨r, by simp, hcovers, by simpa using h⟩
      · rw [if_neg hterminating] at h
        rcases mem_cons.1 h with rfl | h
        · exact ⟨r, by simp, hcovers, rfl⟩
        · obtain ⟨r', hr', hrest⟩ := ih h
          exact ⟨r', mem_cons_of_mem r hr', hrest⟩
    · rw [if_neg hcovers] at h
      obtain ⟨r', hr', hrest⟩ := ih h
      exact ⟨r', mem_cons_of_mem r hr', hrest⟩

lemma popUnvisited_mem {visited : List String} {stack stack' : List (String × String)}
    {e : String × String} (h : popUnvisited visited stack = some (e, stack')) :
    e ∈ stack ∧ ∀ x ∈ stack', x ∈ stack := by
  induction stack with
  | nil => cases h
  | cons x stack ih =>
    rw [popUnvisited] at h
    split at h
    · obtain ⟨hmem, hrest⟩ := ih h
      exact ⟨mem_cons_of_mem x hmem, fun y hy => mem_cons_of_mem x (hrest y hy)⟩
    · cases h
      exact ⟨mem_cons_self, fun y hy => mem_cons_of_mem _ hy⟩

variable {u : Updater M}

lemma walk_reached {left : ℕ} {visited : List String}
    {stack : List (String × String)} {f : TargetFile}
    (hstack : ∀ e ∈ stack, Reached P u path e.1)
    (h : u.walk P path left visited stack = .Found f) :
    ∃ role t, Reached P u path role ∧ u.targets.get role = some t ∧
      t.targets.get path = some f := by
  induction left generalizing visited stack with
  | zero => cases h
  | succ left ih =>
    rw [walk] at h
    split at h
    · cases h
    · rename_i role parent stack' hpop
      obtain ⟨htop, hrest⟩ := popUnvisited_mem hpop
      have hrole : Reached P u path role := hstack _ htop
      have hstack' : ∀ e ∈ stack', Reached P u path e.1 := fun e he => hstack e (hrest e he)
      cases ht : u.targets.get role with
      | none => simp [ht] at h
      | some t =>
        rw [ht] at h
        dsimp only at h
        cases hfile : t.targets.get path with
        | some f' =>
          rw [hfile] at h
          cases h
          exact ⟨role, t, hrole, ht, hfile⟩
        | none =>
          rw [hfile] at h
          dsimp only at h
          cases hd : t.delegations with
          | none =>
            rw [hd] at h
            exact ih hstack' h
          | some d =>
            rw [hd] at h
            refine ih (fun e he => ?_) h
            rcases mem_append.1 he with he | he
            · obtain ⟨r, hr, hcovers, rfl⟩ := mem_children he
              exact .delegated hrole ht (Targets.mem_edges hd hr) hcovers
            · split at he
              · cases he
              · exact hstack' e he

theorem found_reached {f : TargetFile}
    (h : u.findTarget P path = .Found f) : ∃ role t, Reached P u path role ∧
      u.targets.get role = some t ∧ t.targets.get path = some f :=
  walk_reached (by simpa using Reached.targets) h

/-! ## The envelopes that are held -/

/-- An updater, with the envelope that the metadata of each role it holds came in. -/
structure Held (M : Type) where
  updater : Updater M
  envelopes : String → Option Envelope

/-- The role, its delegator and the bytes that a call hands over. -/
def Call.handed : Call → Option (String × String × List UInt8)
  | .updateTargets bytes => some ("targets", "root", bytes)
  | .updateDelegated role delegator bytes => some (role, delegator, bytes)
  | _ => none

variable {c : Call} {delegator : String}

lemma handed_of_gives {bytes : List UInt8}
    (h : GivesTargets bytes role delegator c) : c.handed = some (role, delegator, bytes) := by
  cases h <;> rfl

lemma gives_of_handed {bytes : List UInt8}
    (h : c.handed = some (role, delegator, bytes)) : GivesTargets bytes role delegator c := by
  cases c <;> cases h
  · exact .targets
  · exact .delegated role delegator

namespace Held

def start (u : Updater M) : Held M := ⟨u, fun _ => none⟩

variable (P) in
/-- A call of the updater; the envelope is noted when the metadata of a role is stored. -/
def call (w : Held M) (c : Call) : Held M where
  updater := (w.updater.call P c).2
  envelopes :=
    match c.handed, (w.updater.call P c).1 with
    | some (role, _, bytes), .ok () => Function.update w.envelopes role (envelope P bytes).toOption
    | _, _ => w.envelopes

def run (P : Prims M) (w : Held M) (calls : List Call) : Held M := after (call P) w calls

end Held

/-- The loads agree: metadata that a call stores for a role is signed by the keys of every other
role held that delegates it, and what is held of the roles that it delegates is signed by the keys
that it gives them. -/
def Agreed (P : Prims M) (w : Held M) (c : Call) : Prop :=
  ∀ h ∈ c.handed, ∀ new ∈ (w.updater.delegatedChecks P h.1 h.2.1 h.2.2).toOption,
    ∀ env ∈ (envelope P h.2.2).toOption,
      (∀ e ∈ w.updater.targets.entries, e.1 ≠ h.1 → ∀ k ∈ e.2.edges, k.2.name = h.1 →
        SignedBy P k.1 k.2.keys env) ∧
      ∀ k ∈ new.edges, ∀ env' ∈ Function.update w.envelopes h.1 (some env) k.2.name,
        SignedBy P k.1 k.2.keys env'

instance (w : Held M) (c : Call) : Decidable (Agreed P w c) := by
  unfold Agreed
  infer_instance

/-- The metadata held of a role, and the envelope it came in. -/
structure Holds (P : Prims M) (w : Held M) (role : String) (t : Targets M) (env : Envelope) :
    Prop where
  held : w.updater.targets.get role = some t
  envelope : w.envelopes role = some env
  parsed : Targets.parse P env.signed = .ok t

/-- Every role is held with its envelope, the root's keys signed `targets`, and the keys of every
delegation signed what is held of the role. -/
structure Vouching (P : Prims M) (w : Held M) : Prop where
  ordered : Ordered w.updater
  held : ∀ role t, w.updater.targets.get role = some t → ∃ env, Holds P w role t env
  only : ∀ role env, w.envelopes role = some env → ∃ t, w.updater.targets.get role = some t
  root : ∀ env, w.envelopes "targets" = some env →
    SignedBy P w.updater.root.metadata.keys w.updater.root.metadata.targets env
  edges : ∀ p t, w.updater.targets.get p = some t → ∀ k ∈ t.edges, ∀ env,
    w.envelopes k.2.name = some env → SignedBy P k.1 k.2.keys env

variable {w : Held M}

lemma Vouching.of_targets (hw : Vouching P w) {u' : Updater M} (ho : Ordered u')
    (htargets : u'.targets = w.updater.targets)
    (hroot : u'.root = w.updater.root ∨ w.updater.targets.isEmpty = true) :
    Vouching P ⟨u', w.envelopes⟩ where
  ordered := ho
  held role t ht := by
    obtain ⟨env, henv⟩ := hw.held role t (htargets ▸ ht)
    exact ⟨env, ⟨ht, henv.envelope, henv.parsed⟩⟩
  only role env henv := by
    obtain ⟨t, ht⟩ := hw.only role env henv
    exact ⟨t, htargets ▸ ht⟩
  root env henv := by
    rcases hroot with hroot | hempty
    · rw [show (⟨u', w.envelopes⟩ : Held M).updater.root = w.updater.root from hroot]
      exact hw.root env henv
    · -- nothing is held, so there is no envelope
      obtain ⟨t, ht⟩ := hw.only _ _ henv
      have hmem : ("targets", t) ∈ w.updater.targets.entries := get_eq_some.1 ht
      rw [BTreeMap.isEmpty, List.isEmpty_iff] at hempty
      rw [hempty] at hmem
      simp at hmem
  edges p t ht := hw.edges p t (htargets ▸ ht)

lemma Vouching.insert (hw : Vouching P w) {new : Trusted (Targets M)} {env : Envelope}
    (ho : Ordered { w.updater with targets := w.updater.targets.insert role new.metadata })
    (hparse : Targets.parse P env.signed = .ok new.metadata)
    (hvouched : VouchedBy P w.updater role delegator env)
    (hothers : ∀ e ∈ w.updater.targets.entries, e.1 ≠ role → ∀ k ∈ e.2.edges, k.2.name = role →
      SignedBy P k.1 k.2.keys env)
    (hown : ∀ k ∈ new.metadata.edges, ∀ env' ∈ Function.update w.envelopes role (some env) k.2.name,
      SignedBy P k.1 k.2.keys env') :
    Vouching P ⟨{ w.updater with targets := w.updater.targets.insert role new.metadata },
      Function.update w.envelopes role (some env)⟩ where
  ordered := ho
  held role' t ht := by
    rcases get_insert_eq_some.1 ht with ⟨rfl, rfl⟩ | ⟨hrole, ht⟩
    · exact ⟨env, by dsimp only; rw [get_insert, if_pos rfl], by simp, hparse⟩
    · obtain ⟨env', henv'⟩ := hw.held role' t ht
      refine ⟨env', ?_, ?_, henv'.parsed⟩
      · dsimp only
        rw [get_insert, if_neg hrole]
        exact ht
      · dsimp only
        rw [Function.update_of_ne hrole]
        exact henv'.envelope
  only role' env' henv' := by
    dsimp only at henv' ⊢
    rw [get_insert]
    split
    · exact ⟨_, rfl⟩
    · rename_i hrole
      rw [Function.update_of_ne hrole] at henv'
      exact hw.only role' env' henv'
  root env' henv' := by
    dsimp only at henv' ⊢
    by_cases hrole : role = "targets"
    · subst hrole
      rw [Function.update_self, Option.some.injEq] at henv'
      subst henv'
      have hdelegator := (hvouched.role_iff hw.ordered).2.1 rfl
      rcases hvouched with ⟨-, -, hsigned⟩ | ⟨hne, -⟩
      · exact hsigned
      · exact absurd hdelegator hne
    · rw [Function.update_of_ne (Ne.symm hrole)] at henv'
      exact hw.root env' henv'
  edges p t ht k hk env' henv' := by
    dsimp only at henv'
    rcases get_insert_eq_some.1 ht with ⟨-, rfl⟩ | ⟨hp, ht⟩
    · -- the delegations of what was stored
      exact hown k hk env' henv'
    · by_cases hrole : k.2.name = role
      · rw [hrole, Function.update_self, Option.some.injEq] at henv'
        subst henv'
        exact hothers (p, t) (get_eq_some.1 ht) hp k hk hrole
      · rw [Function.update_of_ne hrole] at henv'
        exact hw.edges p t ht k hk env' henv'

theorem Vouching.call (hw : Vouching P w) (hagreed : Agreed P w c) : Vouching P (w.call P c) := by
  have heffect := call_effect (P := P) w.updater c
  have hordered := hw.ordered.effect heffect
  rw [Held.call]
  generalize (w.updater.call P c).2 = u' at heffect hordered
  generalize (w.updater.call P c).1 = r at heffect
  cases heffect with
  | unchanged _ _ hr =>
    cases hhanded : c.handed with
    | none => exact hw
    | some h =>
      obtain ⟨e, rfl⟩ := hr _ _ _ (gives_of_handed hhanded)
      exact hw
  | root new h =>
    refine hw.of_targets hordered rfl (.inr ?_)
    -- a root is stored before the timestamp, so before any targets
    by_contra hsome
    have hts := hw.ordered.timestamp (hw.ordered.snapshot (by simpa using hsome))
    rw [h.no_timestamp] at hts
    cases hts
  | timestamp _ _ hc | snapshot _ _ _ hc =>
    have hhanded : c.handed = none := by cases hc <;> rfl
    rw [hhanded]
    exact hw.of_targets hordered rfl (.inl rfl)
  | targets _ role delegator new hgives hchecks haccepted =>
    obtain ⟨env, henv, hparse, hvouched⟩ := haccepted.signed
    have hhanded := handed_of_gives hgives
    obtain ⟨hothers, hown⟩ := hagreed _ hhanded new.metadata (by simp [hchecks, Except.toOption])
      env (by simp [henv, Except.toOption])
    rw [hhanded]
    dsimp only
    rw [henv]
    exact hw.insert hordered hparse hvouched hothers hown

variable {trusted_root : List UInt8} {now : ℤ} {calls : List Call}

theorem Vouching.run (h : Updater.new P trusted_root now = .ok u)
    (hrun : Run (fun w c => some (Held.call P w c)) (Agreed P) (Held.start u) calls w) :
    Vouching P w := by
  refine hrun.invariant (fun v c v' hv hagreed hstep => ?_) ?_
  · rw [Option.some.injEq] at hstep
    exact hstep ▸ hv.call hagreed
  · have ho := Ordered.reachable h []
    obtain ⟨root, -, rfl⟩ := new_eq_ok h
    exact {
      ordered := ho
      held := fun role t ht => by simp [Held.start] at ht
      only := fun role env henv => by cases henv
      root := fun env henv => by cases henv
      edges := fun p t ht => by simp [Held.start] at ht }

/-! ## Found targets -/

/-- A role at the end of a chain of delegations that cover the path: the root's targets keys signed
what is held of `targets`, and the keys of each delegation what is held of the role it names. -/
inductive Vouched (P : Prims M) (w : Held M) (path : String) : String → Targets M → Prop
  | targets {t : Targets M} {env : Envelope} (ht : Holds P w "targets" t env)
      (hsigned : SignedBy P w.updater.root.metadata.keys w.updater.root.metadata.targets env) :
      Vouched P w path "targets" t
  | delegated {parent : String} {t t' : Targets M} {env : Envelope}
      {k : BTreeMap String (Key M) × DelegatedRole} (hparent : Vouched P w path parent t)
      (hk : k ∈ t.edges) (hcovers : k.2.covers P path = true) (ht' : Holds P w k.2.name t' env)
      (hsigned : SignedBy P k.1 k.2.keys env) : Vouched P w path k.2.name t'

lemma Vouching.reached (hw : Vouching P w)
    (h : Reached P w.updater path role) (ht : w.updater.targets.get role = some t) :
    Vouched P w path role t := by
  induction h generalizing t with
  | targets =>
    obtain ⟨env, henv⟩ := hw.held _ t ht
    exact .targets henv (hw.root env henv.envelope)
  | delegated _ hparent hk hcovers ih =>
    obtain ⟨env, henv⟩ := hw.held _ t ht
    exact .delegated (ih hparent) hk hcovers henv (hw.edges _ _ hparent _ hk env henv.envelope)

/-- In a run whose loads agree, a target that is found is the entry of a role that is vouched for
along the delegations that lead to it. -/
theorem found_vouched {trusted_root : List UInt8} {now : ℤ} {u : Updater M}
    (h : Updater.new P trusted_root now = .ok u) {calls : List Call} {w : Held M}
    (hrun : Run (fun w c => some (Held.call P w c)) (Agreed P) (Held.start u) calls w)
    {path : String} {f : TargetFile} (hfound : w.updater.findTarget P path = .Found f) :
    ∃ role t, Vouched P w path role t ∧ t.targets.get path = some f := by
  obtain ⟨role, t, hreached, ht, hf⟩ := found_reached hfound
  exact ⟨role, t, (Vouching.run h hrun).reached hreached ht, hf⟩

/-- Whether a run from a root has loads that agree and finds a target. -/
def findsAgreed (P : Prims M) (trusted_root : List UInt8) (now : ℤ) (calls : List Call)
    (path : String) : Bool :=
  match Updater.new P trusted_root now with
  | .error _ => false
  | .ok u =>
    match Run.exec (fun w c => some (Held.call P w c)) (Agreed P) (Held.start u) calls with
    | none => false
    | some w =>
      match w.updater.findTarget P path with
      | .Found _ => true
      | _ => false

lemma findsAgreed_spec (h : findsAgreed P trusted_root now calls path = true) :
    ∃ u w f, Updater.new P trusted_root now = .ok u ∧
      Run (fun w c => some (Held.call P w c)) (Agreed P) (Held.start u) calls w ∧
        w.updater.findTarget P path = .Found f := by
  unfold findsAgreed at h
  split at h
  · cases h
  · rename_i u hu
    split at h
    · cases h
    · rename_i w hw
      split at h
      · rename_i f hf
        exact ⟨u, w, f, hu, Run.of_exec hw, hf⟩
      · cases h

/-- Whether a target is found, and no delegation that covers its path is to a role that has the
path and that the keys of the delegation signed. -/
def findsUnvouched (P : Prims M) (w : Held M) (path : String) : Bool :=
  (match w.updater.findTarget P path with
    | .Found _ => true
    | _ => false) &&
  w.updater.targets.entries.all fun e => (e.2.targets.get path).isNone ||
    e.1 ≠ "targets" && w.updater.targets.entries.all fun p => p.2.edges.all fun k =>
      k.2.name ≠ e.1 || !k.2.covers P path || (w.envelopes e.1).all fun env =>
        !decide (SignedBy P k.1 k.2.keys env)

lemma Vouched.held (h : Vouched P w path role t) : w.updater.targets.get role = some t := by
  cases h with
  | targets ht _ => exact ht.held
  | delegated _ _ _ ht' _ => exact ht'.held

lemma findsUnvouched_spec (h : findsUnvouched P w path = true) :
    ∃ f, w.updater.findTarget P path = .Found f ∧
      ¬ ∃ role t, Vouched P w path role t ∧ t.targets.get path = some f := by
  rw [findsUnvouched, Bool.and_eq_true] at h
  obtain ⟨hfound, hall⟩ := h
  rw [all_eq_true] at hall
  split at hfound
  · rename_i f hf
    refine ⟨f, hf, ?_⟩
    rintro ⟨role, t, hvouched, hfile⟩
    have hrole := hall (role, t) (get_eq_some.1 hvouched.held)
    simp only [hfile, Option.isNone_some, Bool.false_or, Bool.and_eq_true, all_eq_true] at hrole
    cases hvouched with
    | targets => simp at hrole
    | delegated hparent hk hcovers ht' hsigned =>
      have hedge := hrole.2 _ (get_eq_some.1 hparent.held) _ hk
      simp [hcovers, ht'.envelope, hsigned] at hedge
  · cases hfound

namespace Sample

open Json (Value)

/-- The targets of a repository: `x` speaks for the path `p` and `a` for `q`. -/
def top : Value :=
  targets "k" [] ["a", "b"] [delegation "x" "b" "70", delegation "a" "a" "71"]

/-- The role `a` delegates `x` too, with a key of its own, for the path `q`. -/
def a : Value := targets "a" [] ["c"] [delegation "x" "c" "71"]

def x (signer : String) : Value := targets signer ["p"] [] []

/-- The files that the repository's snapshot lists. -/
def files : Value := snapshot 1 ["targets.json", "a.json", "x.json"]

/-- The repository, with `x` signed by a key. -/
def repository (signer : String) : Prims String :=
  prims [root, timestamp 1 1, files, top, a, x signer]

def loadTop : List Call :=
  [.updateTimestamp (bytes (timestamp 1 1)), .updateSnapshot (bytes files),
    .updateTargets (bytes top)]

/-- The calls of a lookup of `q`, which loads `x` for `a`. -/
def crossed : List Call :=
  loadTop ++ [.updateDelegated "a" "targets" (bytes a), .updateDelegated "x" "a" (bytes (x "c"))]

/-- The calls of a lookup of `p`, which loads `x` for `targets`. -/
def straight : List Call := loadTop ++ [.updateDelegated "x" "targets" (bytes (x "b"))]

end Sample

open Sample in
/-- A lookup of `p` that loads `x` for `targets`. -/
theorem found_vouched_straight : ∃ w f,
    w.updater.findTarget (repository "b") "p" = .Found f ∧
      ∃ role t, Vouched (repository "b") w "p" role t ∧ t.targets.get "p" = some f := by
  have hok : findsAgreed (repository "b") (bytes root) 0 straight "p" = true := by decide +kernel
  obtain ⟨u, w, f, hu, hrun, hfound⟩ := findsAgreed_spec hok
  exact ⟨w, f, hfound, found_vouched hu hrun hfound⟩

/-- Whether calls from a root find a target that no chain of delegations vouches for. -/
def crosses (P : Prims M) (trusted_root : List UInt8) (now : ℤ) (calls : List Call)
    (path : String) : Bool :=
  match Updater.new P trusted_root now with
  | .error _ => false
  | .ok u => findsUnvouched P ((Held.start u).run P calls) path

lemma crosses_spec (h : crosses P trusted_root now calls path = true) :
    ∃ u f, Updater.new P trusted_root now = .ok u ∧
      ((Held.start u).run P calls).updater.findTarget P path = .Found f ∧
        ¬ ∃ role t, Vouched P ((Held.start u).run P calls) path role t ∧
          t.targets.get path = some f := by
  unfold crosses at h
  split at h
  · cases h
  · rename_i u hu
    obtain ⟨f, hf, hno⟩ := findsUnvouched_spec h
    exact ⟨u, f, hu, hf, hno⟩

open Sample in
/-- A role is found through a delegation whose keys did not sign it: `x` was loaded for `a`, with
the key that `a` gives it, and is found through `targets`, which gives it another key. -/
theorem crossed_delegation : ¬ ∀ (trusted_root : List UInt8) (now : ℤ) (u : Updater String)
    (calls : List Call) (path : String) (f : TargetFile),
      Updater.new (repository "c") trusted_root now = .ok u →
      ((Held.start u).run (repository "c") calls).updater.findTarget (repository "c") path =
        .Found f →
      ∃ role t, Vouched (repository "c") ((Held.start u).run (repository "c") calls) path role t ∧
        t.targets.get path = some f := by
  intro hclaim
  have hok : crosses (repository "c") (bytes root) 0 crossed "p" = true := by decide +kernel
  obtain ⟨u, f, hu, hf, hno⟩ := crosses_spec hok
  exact hno (hclaim _ _ u crossed "p" f hu hf)

end Lazaret.Tuf
