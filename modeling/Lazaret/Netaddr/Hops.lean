import Lazaret.Lib.Outcome
import Lazaret.Netaddr.Classes

/-!
# The hops of a fetch

A fetch is held to a `Hops`: a hop to a configured host is made and its class kept, any other is
judged by the address it connects to against the configured host reached last.  The kept class is a
state that hops change while they are made; `proxy_eq_grant` says what it is at any time, and from
it where a hop can lead (`redirect_stays_outside`).
-/

namespace Lazaret.Netaddr

open Option

/-- `Hops`: which hosts are configured, what messages call them, and the class of the one reached
last. -/
structure Hops where
  configured : Text → ℕ → Bool
  origin : String
  proxy : Option Address

/-- `__init__`. -/
def Hops.new (configured : Text → ℕ → Bool) (origin : String) : Hops := ⟨configured, origin, none⟩

variable (py : Python)

/-- `learn`: the configured host was reached at these addresses. -/
def Hops.learn (h : Hops) (ips : List Text) : Hops :=
  { h with proxy := leastGranting (ips.map fun ip => classify py (beforeZone ip)) }

/-- `learn_relayed`: the configured host was reached through an outbound proxy. -/
def Hops.learnRelayed (h : Hops) (host : Text) : Hops :=
  match py.ipAddress host with
  | none => { h with proxy := some RELAYED }
  | some _ => { h with proxy := some (classify py (beforeZone host)) }

/-- `judge`: the message of the error unless a hop may connect to `ip`. -/
def Hops.judge (h : Hops) (host ip : Text) : Except String Unit :=
  let hop := classify py (beforeZone ip)
  if allowed hop h.proxy then .ok ()
  else .error (refusal hop (beforeZone ip) h.proxy host h.origin)

/-- An `http.client` connection: where it goes, and the host of the tunnel through it if there is
one. -/
structure Conn where
  host : Text
  port : ℕ
  tunnel : Option (Text × ℕ)

/-- `HopTarget`: the host and port a connection is for. -/
structure HopTarget where
  relayed : Bool
  host : Text
  port : ℕ
  configured : Bool

/-- `HopTarget.__init__`; `forward`: the host and port of a request to a forward proxy. -/
def Hops.target (h : Hops) (conn : Conn) (forward : Option (Text × ℕ)) : HopTarget :=
  let place : Text × ℕ := (conn.tunnel.or forward).getD (conn.host, conn.port)
  let host := py.lower (stripBrackets place.1)
  ⟨conn.tunnel.isSome ∨ forward.isSome, host, place.2, h.configured host place.2⟩

/-- Every address is judged, up to the first that is refused. -/
def judgeAll (h : Hops) (host : Text) (ips : List Text) : Except String Unit :=
  ips.forM fun ip => h.judge py host ip

/-- `before`: `found` is what the lookup of the connection's address gave, `here` the addresses of
the host as they are looked up here. -/
def HopTarget.before (t : HopTarget) (h : Hops) (found here : List Text) : Except String Hops :=
  if t.relayed then
    if t.configured then .ok (h.learnRelayed py t.host)
    else if here = [] then
      .error ("redirect to " ++ String.ofList t.host ++
        " refused: it is reached through a proxy, " ++
        "and its address could not be looked up here to be judged")
    else (judgeAll py h t.host here).map fun _ => h
  else if t.configured then .ok h
  else (judgeAll py h t.host found).map fun _ => h

def HopTarget.after (t : HopTarget) (h : Hops) (peer : Text) : Except String Hops :=
  if t.relayed then .ok h
  else if t.configured then .ok (h.learn py [peer])
  else (h.judge py t.host peer).map fun _ => h

/-- What becomes of a socket that is connected: a deadline may stop the call, or its attempt. -/
inductive Watched
  | kept
  | failed
  | stopped

inductive Attempt
  | failed
  | stopped
  | connected (peer : Text) (watched : Watched)

/-- What a call ends in: a connection to a peer, a refusal, or another exception. -/
inductive Opened
  | handed (peer : Text)
  | refused (message : String)
  | failed
deriving DecidableEq

/-- The loop of `open_socket`. -/
def tryAll (t : HopTarget) (attempt : ℕ → Attempt) : List Text → ℕ → Hops → Opened × Hops
  | [], _, h => (.failed, h)
  | _ :: rest, i, h =>
    match attempt i with
    | .failed => tryAll t attempt rest (i + 1) h
    | .stopped => (.failed, h)
    | .connected peer watched =>
      match t.after py h peer with
      | .error message => (.refused message, h)
      | .ok h =>
        match watched with
        | .kept => (.handed peer, h)
        | .failed => tryAll t attempt rest (i + 1) h
        | .stopped => (.failed, h)

/-- What the world answers while a connection is opened: the lookup of its address (none: it fails,
or there is no time for it), the lookup of the host here, and each attempt. -/
structure Answers where
  found : Option (List Text)
  here : List Text
  attempt : ℕ → Attempt

def openSocket (t : HopTarget) (answers : Answers) (h : Hops) : Opened × Hops :=
  match answers.found with
  | none => (.failed, h)
  | some found =>
    match t.before py h found answers.here with
    | .error message => (.refused message, h)
    | .ok h => tryAll py t answers.attempt found 0 h

/-- `reused`: a kept connection; `peer` is none when it has none any more. -/
def reused (t : HopTarget) (peer : Option Text) (here : List Text) (h : Hops) : Opened × Hops :=
  if t.relayed then
    match t.before py h [] here with
    | .error message => (.refused message, h)
    | .ok h => (.handed (peer.getD []), h)
  else
    match peer with
    | none => (.failed, h)
    | some peer =>
      match t.after py h peer with
      | .error message => (.refused message, h)
      | .ok h => (.handed peer, h)

/-- A hop: a connection that is opened, or a kept one. -/
inductive Hop
  | opened (conn : Conn) (forward : Option (Text × ℕ)) (answers : Answers)
  | kept (conn : Conn) (peer : Option Text) (here : List Text)

def Hop.target (hop : Hop) (h : Hops) : HopTarget :=
  match hop with
  | .opened conn forward _ => h.target py conn forward
  | .kept conn _ _ => h.target py conn none

/-- The addresses of the host that were looked up here. -/
def Hop.here : Hop → List Text
  | .opened _ _ answers => answers.here
  | .kept _ _ here => here

def Hop.make (hop : Hop) (h : Hops) : Opened × Hops :=
  match hop with
  | .opened _ _ answers => openSocket py (hop.target py h) answers h
  | .kept _ peer here => reused py (hop.target py h) peer here h

/-! ## Fetches -/

/-- A configured host that was reached: at an address, or through an outbound proxy. -/
inductive Visit
  | direct (peer : Text)
  | relayed (host : Text)

/-- What a configured host grants: the class of the address it was reached at; through an outbound
proxy that of a public one, unless it is written as an address. -/
def Visit.grant : Visit → Address
  | .direct peer => classify py peer
  | .relayed host =>
    match py.ipAddress host with
    | none => RELAYED
    | some _ => classify py host

/-- The visit that a connection makes, if it is one to a configured host. -/
def HopTarget.visit (t : HopTarget) (peer : Text) : List Visit :=
  if t.configured then [if t.relayed then .relayed t.host else .direct peer] else []

/-- A fetch so far: the configured hosts that its connections reached.  A kept connection that is
not used is followed by another hop; a connection that cannot be opened ends the fetch. -/
inductive Fetch (start : Hops) : Hops → List Visit → Prop
  | start : Fetch start start []
  | hop {h h' : Hops} {visits : List Visit} {peer : Text} (hop : Hop)
      (hfetch : Fetch start h visits) (hmake : hop.make py h = (.handed peer, h')) :
      Fetch start h' (visits ++ (hop.target py h).visit peer)
  | unused {h h' : Hops} {visits : List Visit} {o : Opened} (conn : Conn) (peer : Option Text)
      (here : List Text) (hfetch : Fetch start h visits)
      (hmake : (Hop.kept conn peer here).make py h = (o, h')) (hunused : ∀ p, o ≠ .handed p) :
      Fetch start h' visits

/-- Where a hop off the configured hosts may lead after some visits. -/
def MayLead (visits : List Visit) (ip : Text) : Prop :=
  let rank := (classify py ip).rank
  let granted (r : ℕ) : Prop := ∃ v, visits.getLast? = some v ∧ (v.grant py).rank = r
  rank = PUBLIC ∨ (rank = PRIVATE ∧ (granted PRIVATE ∨ granted LOOPBACK)) ∨
    (rank = LOOPBACK ∧ granted LOOPBACK)

/-! ## What a hop can do -/

variable {py} {t : HopTarget} {h h' : Hops} {visits : List Visit} {peer ip : Text}

lemma classify_beforeZone (ip : Text) : classify py (beforeZone ip) = classify py ip := by
  rw [classify, classify, beforeZone, beforeZone, List.takeWhile_idem]

lemma learn_proxy (peer : Text) :
    (h.learn py [peer]).proxy = some ((Visit.direct peer).grant py) := by
  rw [Hops.learn, Visit.grant, ← classify_beforeZone peer]
  rfl

lemma learnRelayed_proxy (host : Text) :
    (h.learnRelayed py host).proxy = some ((Visit.relayed host).grant py) := by
  rw [Hops.learnRelayed, Visit.grant]
  cases py.ipAddress host with
  | none => rfl
  | some ip => rw [classify_beforeZone]

lemma after_after {first : Text} (h1 : t.after py h first = .ok h') :
    t.after py h' peer = t.after py h peer := by
  rw [HopTarget.after] at h1
  rw [HopTarget.after, HopTarget.after]
  split_ifs at h1 ⊢ with hrelayed hconfigured
  · cases h1
    rfl
  · cases h1
    rfl
  · cases hjudge : h.judge py t.host first with
    | error e =>
      rw [hjudge] at h1
      cases h1
    | ok u =>
      rw [hjudge] at h1
      cases h1
      rfl

lemma tryAll_handed {attempt : ℕ → Attempt} {found : List Text} {i : ℕ}
    (hmade : tryAll py t attempt found i h = (.handed peer, h')) : t.after py h peer = .ok h' := by
  induction found generalizing i h with
  | nil => cases hmade
  | cons place rest ih =>
    rw [tryAll] at hmade
    split at hmade
    · exact ih hmade
    · cases hmade
    · rename_i first watched hattempt
      split at hmade
      · cases hmade
      · rename_i h1 hafter
        split at hmade
        · cases hmade
          exact hafter
        · exact (after_after hafter).symm.trans (ih hmade)
        · cases hmade

lemma make_handed {hop : Hop} (hmade : hop.make py h = (.handed peer, h')) :
    ∃ found h1, (hop.target py h).before py h found hop.here = .ok h1 ∧
      (hop.target py h).after py h1 peer = .ok h' := by
  cases hop with
  | opened conn forward answers =>
    simp only [Hop.make, openSocket] at hmade
    split at hmade
    · cases hmade
    · rename_i found hfound
      split at hmade
      · cases hmade
      · rename_i h1 hbefore
        exact ⟨found, h1, hbefore, tryAll_handed hmade⟩
  | kept conn kept here =>
    simp only [Hop.make, reused] at hmade
    split_ifs at hmade with hrelayed
    · split at hmade
      · cases hmade
      · rename_i h1 hbefore
        cases hmade
        refine ⟨[], h', hbefore, ?_⟩
        rw [HopTarget.after, if_pos hrelayed]
    · split at hmade
      · cases hmade
      · rename_i kept'
        split at hmade
        · cases hmade
        · rename_i h1 hafter
          cases hmade
          refine ⟨[], h, ?_, hafter⟩
          rw [HopTarget.before, if_neg hrelayed]
          split_ifs
          · rfl
          · rfl

lemma make_unused {conn : Conn} {kept : Option Text} {here : List Text} {o : Opened}
    (hmade : (Hop.kept conn kept here).make py h = (o, h')) (hunused : ∀ p, o ≠ .handed p) :
    h' = h := by
  simp only [Hop.make, reused] at hmade
  split_ifs at hmade
  · split at hmade
    · cases hmade
      rfl
    · cases hmade
      exact absurd rfl (hunused _)
  · split at hmade
    · cases hmade
      rfl
    · split at hmade
      · cases hmade
        rfl
      · cases hmade
        exact absurd rfl (hunused _)

lemma visit_of_configured {found here : List Text} {h1 : Hops} (hconfigured : t.configured = true)
    (hbefore : t.before py h found here = .ok h1) (hafter : t.after py h1 peer = .ok h') :
    ∃ v, t.visit peer = [v] ∧ h'.proxy = some (v.grant py) := by
  rw [HopTarget.before] at hbefore
  rw [HopTarget.after] at hafter
  rw [HopTarget.visit, if_pos hconfigured]
  split_ifs at hbefore hafter ⊢ with hrelayed
  · cases hbefore
    cases hafter
    exact ⟨_, rfl, learnRelayed_proxy t.host⟩
  · cases hbefore
    cases hafter
    exact ⟨_, rfl, learn_proxy peer⟩

lemma judgeAll_ok {host : Text} {ips : List Text} {u : Unit}
    (hok : judgeAll py h host ips = .ok u) :
    ∀ ip ∈ ips, h.judge py host ip = .ok () := fun ip hip => except_forM_eq_ok.1 hok ip hip

lemma judged_of_other {found here : List Text} {h1 : Hops} (hconfigured : t.configured = false)
    (hbefore : t.before py h found here = .ok h1) (hafter : t.after py h1 peer = .ok h') :
    h' = h ∧ (t.relayed = false → h.judge py t.host peer = .ok ()) ∧
      (t.relayed = true → here ≠ [] ∧ ∀ ip ∈ here, h.judge py t.host ip = .ok ()) := by
  have hno : ¬ t.configured = true := by simp [hconfigured]
  rw [HopTarget.before, if_neg hno, if_neg hno] at hbefore
  rw [HopTarget.after, if_neg hno] at hafter
  split_ifs at hbefore hafter with hrelayed hempty
  · cases hjudge : judgeAll py h t.host here with
    | error e =>
      rw [hjudge] at hbefore
      cases hbefore
    | ok u =>
      rw [hjudge] at hbefore
      cases hbefore
      cases hafter
      exact ⟨rfl, fun hdirect => absurd hrelayed (by simp [hdirect]),
        fun _ => ⟨hempty, judgeAll_ok hjudge⟩⟩
  · cases hall : judgeAll py h t.host found with
    | error e =>
      rw [hall] at hbefore
      cases hbefore
    | ok u =>
      rw [hall] at hbefore
      cases hbefore
      cases hjudge : h.judge py t.host peer with
      | error e =>
        rw [hjudge] at hafter
        cases hafter
      | ok u =>
        rw [hjudge] at hafter
        cases hafter
        exact ⟨rfl, fun _ => rfl, fun hyes => absurd hyes hrelayed⟩

/-! ## Every fetch -/

theorem proxy_eq_grant {start : Hops} (hnew : start.proxy = none)
    (hfetch : Fetch py start h visits) : h.proxy = visits.getLast?.map (Visit.grant py) := by
  induction hfetch with
  | start => exact hnew
  | @hop h h' visits peer hop hfetch hmake ih =>
    obtain ⟨found, h1, hbefore, hafter⟩ := make_handed hmake
    cases hconfigured : (hop.target py h).configured with
    | true =>
      obtain ⟨v, hvisit, hproxy⟩ := visit_of_configured hconfigured hbefore hafter
      rw [hvisit, List.getLast?_concat, hproxy]
      rfl
    | false =>
      obtain ⟨rfl, -, -⟩ := judged_of_other hconfigured hbefore hafter
      rw [HopTarget.visit, hconfigured, if_neg (by decide), List.append_nil]
      exact ih
  | unused conn kept here hfetch hmake hunused ih =>
    rw [make_unused hmake hunused]
    exact ih

lemma mayLead_of_judge {host : Text} (hproxy : h.proxy = visits.getLast?.map (Visit.grant py))
    (hjudge : h.judge py host ip = .ok ()) : MayLead py visits ip := by
  rw [Hops.judge] at hjudge
  split_ifs at hjudge with hallowed
  · rw [classify_beforeZone, hproxy, allowed] at hallowed
    rw [MayLead]
    cases hlast : visits.getLast? with
    | none =>
      rw [hlast] at hallowed
      dsimp only [map_none, getD_none] at hallowed
      split_ifs at hallowed with hpublic hprivate
      · exact .inl hpublic
      · exact absurd (of_decide_eq_true hallowed) (by decide)
      · exact absurd (of_decide_eq_true hallowed) (by decide)
    | some v =>
      rw [hlast] at hallowed
      dsimp only [map_some, getD_some] at hallowed
      have hgranted : ∀ r, (v.grant py).rank = r →
          ∃ w, some v = some w ∧ (w.grant py).rank = r := fun r hr => ⟨v, rfl, hr⟩
      split_ifs at hallowed with hpublic hprivate hloopback
      · exact .inl hpublic
      · rw [decide_eq_true_iff] at hallowed
        exact .inr (.inl ⟨hprivate, hallowed.symm.imp (hgranted _) (hgranted _)⟩)
      · rw [decide_eq_true_iff] at hallowed
        exact .inr (.inr ⟨hloopback, hgranted _ hallowed⟩)

/-- A redirect cannot reach inside: past the configured hosts that were visited, only addresses that
may be reached after them are connected to, and no IPv6 address that carries an IPv4 one is classed
above it, but for `::1`. -/
theorem redirect_stays_outside (py : Python) :
    (∀ (configured : Text → ℕ → Bool) (origin : String) (h h' : Hops) (visits : List Visit)
      (hop : Hop) (peer : Text), Fetch py (.new configured origin) h visits →
      hop.make py h = (.handed peer, h') → (hop.target py h).configured = false →
        ((hop.target py h).relayed = false → MayLead py visits peer) ∧
        ((hop.target py h).relayed = true →
          hop.here ≠ [] ∧ ∀ ip ∈ hop.here, MayLead py visits ip)) ∧
    (∀ host, py.ipAddress host = none → ∀ hop,
      allowed hop (some ((Visit.relayed host).grant py)) = true ↔ hop.rank = PUBLIC) ∧
    ∀ (a : Fin (2 ^ 32)) (value : Fin (2 ^ 128)), Carries a value → (value : ℕ) ≠ 1 →
      (classify6 py value).rank ≤ (classify4 py a).rank := by
  refine ⟨?_, ?_, fun a value hcarries hown => carried_not_above hcarries hown⟩
  · intro configured origin h h' visits hop peer hfetch hmake hconfigured
    have hproxy := proxy_eq_grant rfl hfetch
    obtain ⟨found, h1, hbefore, hafter⟩ := make_handed hmake
    obtain ⟨-, hdirect, hrelayed⟩ := judged_of_other hconfigured hbefore hafter
    refine ⟨fun hr => mayLead_of_judge hproxy (hdirect hr),
      fun hr => ⟨(hrelayed hr).1, fun ip hip => ?_⟩⟩
    exact mayLead_of_judge hproxy ((hrelayed hr).2 ip hip)
  · intro host hhost hop
    rw [Visit.grant, hhost, allowed]
    dsimp only [map_some, getD_some]
    split_ifs with hpublic hprivate hloopback
    · exact ⟨fun _ => hpublic, fun _ => rfl⟩
    · exact ⟨fun h => absurd (of_decide_eq_true h) (by decide), fun h => absurd h hpublic⟩
    · exact ⟨fun h => absurd (of_decide_eq_true h) (by decide), fun h => absurd h hpublic⟩
    · exact ⟨fun h => absurd h (by decide), fun h => absurd h hpublic⟩

/-- `::1` is the compatible form of `0.0.0.1`, and is IPv6's own loopback. -/
theorem compatible_one_is_above :
    ¬ ∀ (py : Python) (a : Fin (2 ^ 32)) (value : Fin (2 ^ 128)), Carries a value →
      (classify6 py value).rank ≤ (classify4 py a).rank := by
  intro h
  have hone := h ⟨fun _ => none, fun _ => false, id⟩ 1 1 (.compatible rfl)
  revert hone
  decide

end Lazaret.Netaddr
