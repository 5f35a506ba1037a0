import Lazaret.Lib.Loop
import Lazaret.Lib.Preorder
import Lazaret.Tuf.Refresh

/-!
# The delegation walk, and fetching a target

The walk that the specification describes is recursive: a role's own entry for the path, else its
delegations that cover the path, each with its whole subtree before the next, up to a terminating
one (`delegationSearch`).  The loop of `find_target` finds the same.  `fetch_target` loads the
role that the walk stops at and walks again, which then gets further (`visits_lt`).
-/

namespace Lazaret.Tuf

open Updater List

variable {M : Type} (P : Prims M)

/-! ## The walk by recursion -/

/-- The delegations of a role that cover the path, in order: the role and its delegator, and whether
the delegation terminates. -/
def covering (path role : String) (t : Targets M) : List ((String × String) × Bool) :=
  match t.delegations with
  | none => []
  | some d => (d.roles.filter fun r => r.covers P path).map fun r => ((r.name, role), r.terminating)

/-- What the walk sees at a role: it has to be loaded, it has an entry for the path, or the
delegations that cover the path are next. -/
def delegationSearch (u : Updater M) (path : String) : Search (String × String) String Lookup where
  node := Prod.fst
  look := fun (role, delegator) =>
    match u.targets.get role with
    | none => .inl (.Load role delegator)
    | some t =>
      match t.targets.get path with
      | some f => .inl (.Found f)
      | none => .inr (covering P path role t)

/-- The preorder depth-first search of the delegations, from the top-level targets. -/
def preorder (u : Updater M) (path : String) : Lookup :=
  ((delegationSearch P u path).find (DELEGATIONS + 1) [(("targets", "root"), false)]).getD .NotFound

variable {P}

lemma children_eq_upToCut (path role : String) (roles : List DelegatedRole) :
    children P path role roles =
      Search.upToCut ((roles.filter fun r => r.covers P path).map
        fun r => ((r.name, role), r.terminating)) := by
  induction roles with
  | nil => rfl
  | cons r rest ih =>
    rw [children, filter_cons]
    by_cases hcovers : r.covers P path = true
    · rw [if_pos hcovers, if_pos hcovers, map_cons, ih]
      cases r.terminating <;> rfl
    · rw [if_neg hcovers, if_neg hcovers, ih]

lemma popUnvisited_eq (u : Updater M) (path : String) (visited : List String)
    (stack : List (String × String)) :
    (delegationSearch P u path).popUnvisited visited stack = popUnvisited visited stack := by
  induction stack with
  | nil => rfl
  | cons e stack ih =>
    rw [popUnvisited, Search.popUnvisited, ih]
    rfl

lemma walk_eq (u : Updater M) (path : String) (left : ℕ) (visited : List String)
    (stack : List (String × String)) :
    u.walk P path left visited stack =
      ((delegationSearch P u path).walk left visited stack).1.getD .NotFound := by
  induction left generalizing visited stack with
  | zero => rfl
  | succ left ih =>
    rw [walk, Search.walk, popUnvisited_eq]
    cases popUnvisited visited stack with
    | none => rfl
    | some top =>
      obtain ⟨⟨role, delegator⟩, stack'⟩ := top
      dsimp only [delegationSearch]
      cases hrole : u.targets.get role with
      | none => rfl
      | some t =>
        dsimp only
        cases hfile : t.targets.get path with
        | some f => rfl
        | none =>
          dsimp only
          rw [covering]
          cases hd : t.delegations with
          | none => exact ih _ _
          | some d =>
            dsimp only
            rw [ih, children_eq_upToCut]
            rfl

theorem findTarget_eq_preorder (u : Updater M) (path : String) :
    u.findTarget P path = preorder P u path := by
  rw [findTarget, walk_eq, preorder, ← Search.walk_eq_find]
  rfl

/-! ## Fetching a target -/

variable (P) {σ τ : Type}

/-- Where `fetch_target` is: the updater, what is left of the fetching function, and the calls of
`update_delegated` it made. -/
structure Fetching (M σ : Type) where
  updater : Updater M
  state : σ
  calls : List Call

/-- One turn of the loop of `fetch_target`: look the path up, and load what is missing. -/
def fetchTurn (path : String) (metadata : Fetch σ) (w : Fetching M σ) :
    Fetching M σ ⊕ Except Error TargetFile × Fetching M σ :=
  match w.updater.findTarget P path with
  | .Found f => .inr (.ok f, w)
  | .NotFound => .inr (.error (.NotFound path), w)
  | .Load role delegator =>
    match w.updater.targetsRequest role with
    | .error e => .inr (.error e, w)
    | .ok req =>
      match required metadata w.state req with
      | (.error e, s) => .inr (.error e, { w with state := s })
      | (.ok data, s) =>
        let r := w.updater.updateDelegated P role delegator data
        let w' : Fetching M σ :=
          ⟨r.2, s, w.calls ++ [.updateDelegated role delegator data]⟩
        match r.1 with
        | .error e => .inr (.error e, w')
        | .ok () => .inl w'

/-- The roles that the walk visits, and how many they are. -/
def visits (u : Updater M) (path : String) : ℕ :=
  ((delegationSearch P u path).walk (DELEGATIONS + 1) [] [("targets", "root")]).2.length

def mayLoad (path : String) (u : Updater M) : ℕ :=
  match u.findTarget P path with
  | .Load _ _ => DELEGATIONS + 1 - visits P u path
  | _ => 0

variable {P}

variable {role delegator : String} {u : Updater M} {path : String}

lemma walk_of_load (h : u.findTarget P path = .Load role delegator) :
    ((delegationSearch P u path).walk (DELEGATIONS + 1) [] [("targets", "root")]).1 =
      some (.Load role delegator) := by
  rw [findTarget, walk_eq] at h
  cases hwalk : ((delegationSearch P u path).walk (DELEGATIONS + 1) [] [("targets", "root")]).1 with
  | none => rw [hwalk] at h; cases h
  | some l => rw [hwalk, Option.getD_some] at h; rw [h]

lemma visits_lt_of_load
    (h : u.findTarget P path = .Load role delegator) : visits P u path < DELEGATIONS + 1 := by
  have hlt := Search.length_walk_lt (walk_of_load h)
  rwa [length_nil, zero_add] at hlt

lemma targets_of_load {u' : Updater M} {data : List UInt8}
    (h : u.updateDelegated P role delegator data = (.ok (), u')) :
    ∃ new, ∀ name, u'.targets.get name = if name = role then some new else u.targets.get name := by
  rw [updateDelegated] at h
  cases hchecks : u.delegatedChecks P role delegator data with
  | error e =>
    rw [hchecks] at h
    cases h
  | ok new =>
    rw [hchecks] at h
    cases h
    exact ⟨new, fun name => BTreeMap.get_insert _ _ _ _⟩

lemma look_load {e : String × String}
    (h : (delegationSearch P u path).look e = .inl (.Load role delegator)) :
    e = (role, delegator) ∧ u.targets.get role = none := by
  obtain ⟨role', delegator'⟩ := e
  dsimp only [delegationSearch] at h
  cases hrole : u.targets.get role' with
  | none =>
    rw [hrole] at h
    cases h
    exact ⟨rfl, hrole⟩
  | some t =>
    rw [hrole] at h
    dsimp only at h
    split at h <;> cases h

lemma visits_lt {u' : Updater M} {data : List UInt8}
    (h : u.findTarget P path = .Load role delegator)
    (hload : u.updateDelegated P role delegator data = (.ok (), u')) {role' delegator' : String}
    (h' : u'.findTarget P path = .Load role' delegator') : visits P u path < visits P u' path := by
  obtain ⟨new, hnew⟩ := targets_of_load hload
  have hwalk := walk_of_load h
  have hmissing : u.targets.get role = none := by
    obtain ⟨e, he⟩ := Search.exists_look_of_walk hwalk
    exact (look_load he).2
  have hagree : ∀ e, (delegationSearch P u path).node e ≠ role →
      (delegationSearch P u' path).look e = (delegationSearch P u path).look e := by
    rintro ⟨name, parent⟩ hne
    dsimp only [delegationSearch] at hne ⊢
    rw [hnew, if_neg hne]
  have hends : ∀ e, (delegationSearch P u path).look e = .inl (.Load role delegator) →
      (delegationSearch P u path).node e = role :=
    fun e he => congrArg Prod.fst (look_load he).1
  have hstops : ∀ e, (delegationSearch P u path).node e = role →
      ∃ l, (delegationSearch P u path).look e = .inl l := by
    rintro ⟨name, parent⟩ rfl
    refine ⟨.Load name parent, ?_⟩
    dsimp only [delegationSearch] at hmissing ⊢
    rw [hmissing]
  have hnode : (delegationSearch P u' path).node = (delegationSearch P u path).node := rfl
  rcases Search.walk_progress hnode hagree hends hstops hwalk with
    ⟨⟨name, parent⟩, l, he, hlook, hstop⟩ | hlt
  · -- the walk does not end at a role that is loaded but with its entry, and this one loads
    rw [walk_of_load h', Option.some.injEq] at hstop
    subst hstop
    obtain ⟨heq, hnone⟩ := look_load hlook
    cases heq
    rw [hnew, if_pos (show role' = role from he)] at hnone
    cases hnone
  · exact hlt

variable {metadata : Fetch σ} {w w' : Fetching M σ}

lemma fetchTurn_next (h : fetchTurn P path metadata w = .inl w') :
    ∃ role delegator data, w.updater.findTarget P path = .Load role delegator ∧
      w.updater.updateDelegated P role delegator data = (.ok (), w'.updater) ∧
      w'.calls = w.calls ++ [.updateDelegated role delegator data] := by
  rw [fetchTurn] at h
  split at h
  · cases h
  · cases h
  · rename_i role delegator hfind
    split at h
    · cases h
    · split at h
      · cases h
      · rename_i data s hdata
        dsimp only at h
        split at h
        · cases h
        · rename_i hok
          cases h
          exact ⟨role, delegator, data, hfind, Prod.ext hok rfl, rfl⟩

lemma fetchTurn_done
    {r : Except Error TargetFile} (h : fetchTurn P path metadata w = .inr (r, w')) :
    w'.calls = w.calls ∨ (∃ role delegator, w.updater.findTarget P path = .Load role delegator) ∧
      w'.calls.length = w.calls.length + 1 := by
  rw [fetchTurn] at h
  split at h
  · cases h
    exact .inl rfl
  · cases h
    exact .inl rfl
  · rename_i role delegator hfind
    split at h
    · cases h
      exact .inl rfl
    · split at h
      · cases h
        exact .inl rfl
      · dsimp only at h
        split at h
        · cases h
          exact .inr ⟨⟨role, delegator, hfind⟩, length_append⟩
        · cases h

lemma mayLoad_pos (h : u.findTarget P path = .Load role delegator) :
    mayLoad P path u = DELEGATIONS + 1 - visits P u path ∧ 0 < mayLoad P path u := by
  have hmay : mayLoad P path u = DELEGATIONS + 1 - visits P u path := by
    rw [mayLoad, h]
  have hlt := visits_lt_of_load h
  exact ⟨hmay, by omega⟩

lemma mayLoad_le (path : String) (u : Updater M) : mayLoad P path u ≤ DELEGATIONS + 1 := by
  rw [mayLoad]
  split
  · exact Nat.sub_le _ _
  · exact Nat.zero_le _

lemma mayLoad_lt (h : fetchTurn P path metadata w = .inl w') :
    mayLoad P path w'.updater < mayLoad P path w.updater := by
  obtain ⟨role, delegator, data, hfind, hload, -⟩ := fetchTurn_next h
  obtain ⟨hmay, hpos⟩ := mayLoad_pos hfind
  cases hfind' : w'.updater.findTarget P path with
  | Load role' delegator' =>
    have hlt := visits_lt hfind hload hfind'
    obtain ⟨hmay', hpos'⟩ := mayLoad_pos hfind'
    omega
  | Found | NotFound =>
    rw [mayLoad, hfind']
    exact hpos

variable (P)

/-- The loop of `fetch_target`: each turn that goes on gets the walk further. -/
def fetchLoop (path : String) (metadata : Fetch σ) :
    Loop (Fetching M σ) (Except Error TargetFile × Fetching M σ) where
  turn := fetchTurn P path metadata
  measure w := mayLoad P path w.updater
  progress := fun _ _ h => mayLoad_lt h

/-- `target_request`: the first of the hashes is in the name with consistent snapshots, and there
has to be one. -/
def Updater.targetRequest (u : Updater M) (target : TargetFile) : Outcome Error Request :=
  if u.root.metadata.consistent_snapshot then do
    let first ← Outcome.orFault target.hashes.head?
    let name := (target.path.toList.reverse.takeWhile (· ≠ '/')).reverse
    let dir := target.path.toList.take (target.path.length - name.length)
    pure ⟨String.ofList dir ++ first.2 ++ "." ++ String.ofList name, target.length⟩
  else pure ⟨target.path, target.length⟩

/-- What `fetch_target` does with the entry it found. -/
def fetchFound (u : Updater M) (target : Fetch τ) (t : τ) (info : TargetFile) :
    Outcome Error (TargetFile × List UInt8) := do
  let req ← u.targetRequest info
  let data ← match (required target t req).1 with
    | .ok data => pure data
    | .error e => .err e
  match info.verify P data with
  | .ok () => pure (info, data)
  | .error e => .err e

/-- `fetch_target`: what it returns, and where its loop ended. -/
def fetchTarget (u : Updater M) (path : String) (metadata : Fetch σ) (s : σ) (target : Fetch τ)
    (t : τ) : Outcome Error (TargetFile × List UInt8) × Fetching M σ :=
  match (fetchLoop P path metadata).run ⟨u, s, []⟩ with
  | (.error e, w) => (.err e, w)
  | (.ok info, w) => (fetchFound P w.updater target t info, w)

variable {P}

lemma calls_le (path : String) (metadata : Fetch σ) (u : Updater M) (s : σ) :
    ((fetchLoop P path metadata).run ⟨u, s, []⟩).2.calls.length ≤ DELEGATIONS + 1 := by
  refine Loop.rule (l := fetchLoop P path metadata)
    (fun w => w.calls.length + mayLoad P path w.updater ≤ DELEGATIONS + 1)
    (fun r => r.2.calls.length ≤ DELEGATIONS + 1) ?_ ?_ ?_
  · intro w w' hinv hturn
    obtain ⟨role, delegator, data, -, -, hcalls⟩ := fetchTurn_next hturn
    have hlt := mayLoad_lt hturn
    rw [hcalls, length_append, length_singleton]
    omega
  · rintro w ⟨r, w'⟩ hinv hturn
    dsimp only
    rcases fetchTurn_done hturn with hcalls | ⟨⟨role, delegator, hfind⟩, hcalls⟩
    · rw [hcalls]
      omega
    · have hpos := (mayLoad_pos hfind).2
      omega
  · rw [length_nil, zero_add]
    exact mayLoad_le path u

/-- **The delegation walk is the specification's.**  `find_target` returns what the recursive
preorder search returns, and `fetch_target` loads at most one role more than that search may visit
besides the top-level one. -/
theorem find_target_preorder :
    (∀ (u : Updater M) (path : String), u.findTarget P path = preorder P u path) ∧
      ∀ (σ τ : Type) (u : Updater M) (path : String) (metadata : Fetch σ) (s : σ) (target : Fetch τ)
        (t : τ), (fetchTarget P u path metadata s target t).2.calls.length ≤ DELEGATIONS + 1 := by
  refine ⟨findTarget_eq_preorder, fun σ τ u path metadata s target t => ?_⟩
  have hle := calls_le (P := P) path metadata u s
  rw [fetchTarget]
  split
  · rename_i e w hrun
    rwa [hrun] at hle
  · rename_i info w hrun
    rwa [hrun] at hle

end Lazaret.Tuf
