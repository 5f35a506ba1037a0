import Lazaret.Lib.Best
import Lazaret.Lib.Outcome
import Lazaret.Sca.Bundle

/-!
# Inventories

What becomes of a vulnerable dependency between the inventory and the verdict: `dedup` keeps one
entry for each loose name and version, `matchInventory` reports the best verdict of each advisory
and dependency (`scanner/sca.py`).  An entry is kept exactly if it stands first for its key
(`mem_dedup`); `reported_iff_stoodFor` says when an advisory of an entry's own package is reported
for it, in a scan that returns (`scan_returns_iff`).
-/

namespace Lazaret.Sca

open List

variable (U : Unicode)

/-- An entry of an inventory: its version is empty where none is known, and `declared` tells that
only a manifest declares it. -/
structure Dependency where
  ecosystem : Ecosystem
  name : Text
  version : Text
  place : Text
  declared : Bool
deriving DecidableEq

/-! ## One entry for each name and version -/

def looseName (d : Dependency) : Ecosystem × Text :=
  (d.ecosystem, normalizePkg U d.name (some d.ecosystem))

/-- What a version counts as: its key, or its text where it has none. -/
inductive VersionPart
  | text (t : Text)
  | key (k : VersionKey)
deriving DecidableEq

def versionPart (d : Dependency) : Except KeyError VersionPart :=
  if d.version = [] then .ok (.text [])
  else (versionKey U d.version (some d.ecosystem)).map fun same =>
    match same with
    | none => .text d.version
    | some k => .key k

abbrev DependencyKey := (Ecosystem × Text) × VersionPart

/-- The key of an entry: its loose name, and what its version counts as. -/
def keyOfDependency (d : Dependency) : Except KeyError DependencyKey :=
  (versionPart U d).map fun v => (looseName U d, v)

/-- `known`: the loose names that a version is known of. -/
def known (inventory : List Dependency) : List (Ecosystem × Text) :=
  (inventory.filter fun d => d.version ≠ []).map (looseName U)

/-- Whether an entry that a manifest declares without a version is passed over: one is known from
elsewhere. -/
def passedOver (inventory : List Dependency) (d : Dependency) : Bool :=
  d.version = [] ∧ d.declared ∧ looseName U d ∈ known U inventory

def dedupLoop (inventory : List Dependency) :
    List Dependency → List DependencyKey →
      Except KeyError (List Dependency)
  | [], _ => .ok []
  | d :: rest, seen => do
    let key ← keyOfDependency U d
    if key ∈ seen ∨ passedOver U inventory d then dedupLoop inventory rest seen
    else (dedupLoop inventory rest (key :: seen)).map fun out => d :: out

def dedup (inventory : List Dependency) : Except KeyError (List Dependency) :=
  dedupLoop U inventory inventory []

/-! ## Matching -/

/-- The verdict kept of an advisory for a dependency, with the package entry that gave it. -/
structure Finding where
  verdict : Verdict
  adv : Advisory
  pkg : PackageEntry
  dep : Dependency
deriving DecidableEq

abbrev FindingKey := Text × Ecosystem × Text × Text

/-- `(adv["cve"], e, normalize_pkg(name, e), str(version))` -/
def findingKey (adv : Advisory) (d : Dependency) : FindingKey :=
  (adv.cve, d.ecosystem, normalizePkg U d.name (some d.ecosystem), d.version)

/-- The verdict of one package entry on one dependency. -/
def judge (b : CveBundle) (inventory : List Dependency) :
    Except KeyError (List (FindingKey × Finding)) :=
  (inventory.flatMap fun d =>
    (b.advisoriesFor U d.name (some d.ecosystem)).map fun p => (d, p)).mapM fun (d, p) =>
      (entryVerdict U d.version (some d.ecosystem) p.2.ranges).map fun v =>
        (findingKey U p.1 d, ⟨v, p.1, p.2, d⟩)

/-- `match_inventory`: what is affected, and what is unknown. -/
def matchInventory (inventory : List Dependency) (b : CveBundle) :
    Except KeyError (List Finding × List Finding) :=
  (judge U b inventory).map fun l =>
    let kept := (Best.best (fun r => r.verdict.rank) l).map Prod.snd
    (kept.filter fun r => r.verdict = .affected, kept.filter fun r => r.verdict = .unknown)

/-! ## What is kept -/

/-- The first entry of the inventory with its loose name and version, of those not passed over. -/
def Stands (inventory : List Dependency) (z : Dependency) : Prop :=
  ∃ before after, inventory = before ++ z :: after ∧ passedOver U inventory z = false ∧
    ∀ y ∈ before, passedOver U inventory y = false → keyOfDependency U y ≠ keyOfDependency U z

variable {U}

lemma dedupLoop_cons {inventory rest out : List Dependency} {d : Dependency}
    {seen : List DependencyKey}
    (h : dedupLoop U inventory (d :: rest) seen = .ok out) :
    ∃ key, keyOfDependency U d = .ok key ∧
      ((key ∈ seen ∨ passedOver U inventory d = true) ∧ dedupLoop U inventory rest seen = .ok out ∨
       (key ∉ seen ∧ passedOver U inventory d = false) ∧
        ∃ out', dedupLoop U inventory rest (key :: seen) = .ok out' ∧ out = d :: out') := by
  rw [dedupLoop] at h
  obtain ⟨key, hkey, h⟩ := except_bind_eq_ok.1 h
  refine ⟨key, hkey, ?_⟩
  split at h
  · rename_i hskip
    exact .inl ⟨hskip, h⟩
  · rename_i hkeep
    push Not at hkeep
    obtain ⟨out', hout, rfl⟩ := except_map_eq_ok.1 h
    exact .inr ⟨⟨hkeep.1, by simpa using hkeep.2⟩, out', hout, rfl⟩

lemma mem_dedupLoop {inventory l out : List Dependency}
    {seen : List DependencyKey}
    (h : dedupLoop U inventory l seen = .ok out) (z : Dependency) :
    z ∈ out ↔ ∃ before after, l = before ++ z :: after ∧ passedOver U inventory z = false ∧
      (∀ key ∈ seen, keyOfDependency U z ≠ .ok key) ∧
      ∀ y ∈ before, passedOver U inventory y = false →
        keyOfDependency U y ≠ keyOfDependency U z := by
  induction l generalizing seen out with
  | nil =>
    rw [dedupLoop] at h
    cases h
    simp
  | cons d rest ih =>
    obtain ⟨key, hkey, ⟨hskip, h⟩ | ⟨⟨hnew, hpass⟩, out', hout, rfl⟩⟩ := dedupLoop_cons h
    · rw [ih h]
      constructor
      · rintro ⟨before, after, rfl, hz, hseen, hbefore⟩
        refine ⟨d :: before, after, rfl, hz, hseen, ?_⟩
        rintro y hy hy' heq
        obtain rfl | hy := mem_cons.1 hy
        · obtain hin | hover := hskip
          · exact hseen key hin (heq ▸ hkey)
          · rw [hy'] at hover
            cases hover
        · exact hbefore y hy hy' heq
      · rintro ⟨before, after, heq, hz, hseen, hbefore⟩
        cases before with
        | nil =>
          obtain ⟨rfl, rfl⟩ := cons.inj heq
          obtain hin | hover := hskip
          · exact absurd hkey (hseen key hin)
          · rw [hz] at hover
            cases hover
        | cons y before =>
          obtain ⟨rfl, rfl⟩ := cons.inj heq
          exact ⟨before, after, rfl, hz, hseen, fun w hw => hbefore w (mem_cons_of_mem _ hw)⟩
    · rw [mem_cons, ih hout]
      constructor
      · rintro (rfl | ⟨before, after, rfl, hz, hseen, hbefore⟩)
        · refine ⟨[], rest, rfl, hpass, fun k hk heq => ?_, by simp⟩
          rw [hkey] at heq
          cases heq
          exact hnew hk
        · refine ⟨d :: before, after, rfl, hz, fun k hk => hseen k (mem_cons_of_mem _ hk), ?_⟩
          intro y hy hy' heq
          obtain rfl | hy := mem_cons.1 hy
          · exact hseen key mem_cons_self (heq ▸ hkey)
          · exact hbefore y hy hy' heq
      · rintro ⟨before, after, heq, hz, hseen, hbefore⟩
        cases before with
        | nil =>
          obtain ⟨rfl, rfl⟩ := cons.inj heq
          exact .inl rfl
        | cons y before =>
          obtain ⟨rfl, rfl⟩ := cons.inj heq
          refine .inr ⟨before, after, rfl, hz, fun k hk hz' => ?_,
            fun w hw => hbefore w (mem_cons_of_mem _ hw)⟩
          obtain rfl | hk := mem_cons.1 hk
          · exact hbefore d mem_cons_self hpass (hkey.trans hz'.symm)
          · exact hseen k hk hz'

theorem mem_dedup {inventory out : List Dependency} (h : dedup U inventory = .ok out)
    (z : Dependency) : z ∈ out ↔ Stands U inventory z := by
  rw [mem_dedupLoop h z]
  simp [Stands]

lemma dedupLoop_unique {inventory l out : List Dependency} {seen : List DependencyKey}
    (h : dedupLoop U inventory l seen = .ok out) {y z : Dependency} (hy : y ∈ out) (hz : z ∈ out)
    (hkey : keyOfDependency U y = keyOfDependency U z) : y = z := by
  induction l generalizing seen out with
  | nil =>
    rw [dedupLoop] at h
    cases h
    cases hy
  | cons d rest ih =>
    obtain ⟨key, hd, ⟨-, h⟩ | ⟨-, out', hout, rfl⟩⟩ := dedupLoop_cons h
    · exact ih h hy hz
    · have hother : ∀ w ∈ out', keyOfDependency U w ≠ .ok key := fun w hw => by
        obtain ⟨-, -, -, -, hseen, -⟩ := (mem_dedupLoop hout w).1 hw
        exact hseen key mem_cons_self
      obtain hyd | hyrest := mem_cons.1 hy
      · obtain hzd | hzrest := mem_cons.1 hz
        · rw [hyd, hzd]
        · exact absurd (hkey.symm.trans (hyd ▸ hd)) (hother z hzrest)
      · obtain hzd | hzrest := mem_cons.1 hz
        · exact absurd (hkey.trans (hzd ▸ hd)) (hother y hyrest)
        · exact ih hout hyrest hzrest

lemma dedupLoop_returns_iff {inventory l : List Dependency} {seen : List DependencyKey} :
    (∃ out, dedupLoop U inventory l seen = .ok out) ↔ ∀ d ∈ l, ∃ k, versionPart U d = .ok k := by
  induction l generalizing seen with
  | nil => exact iff_of_true ⟨_, rfl⟩ (by simp)
  | cons d rest ih =>
    rw [forall_mem_cons]
    constructor
    · rintro ⟨out, h⟩
      obtain ⟨key, hkey, h⟩ := dedupLoop_cons h
      obtain ⟨k, hk, -⟩ := except_map_eq_ok.1 hkey
      refine ⟨⟨k, hk⟩, ?_⟩
      obtain ⟨-, h⟩ | ⟨-, out', h, -⟩ := h
      · exact ih.1 ⟨out, h⟩
      · exact ih.1 ⟨out', h⟩
    · rintro ⟨⟨k, hk⟩, hrest⟩
      have hkey : keyOfDependency U d = .ok (looseName U d, k) := except_map_eq_ok.2 ⟨k, hk, rfl⟩
      rw [dedupLoop, hkey, except_ok_bind]
      split
      · exact ih.2 hrest
      · obtain ⟨out, hout⟩ := ih.2 hrest
        exact ⟨d :: out, except_map_eq_ok.2 ⟨out, hout, rfl⟩⟩

/-! ## What is reported -/

/-- Two entries of one package: of one ecosystem, with the same exact name. -/
def SamePackage (U : Unicode) (a b : Dependency) : Prop :=
  a.ecosystem = b.ecosystem ∧
    exactNameKey U a.name (some a.ecosystem) = exactNameKey U b.name (some b.ecosystem)

/-- Two entries whose versions are equal: the same text, or texts of one key. -/
def SameVersion (U : Unicode) (a b : Dependency) : Prop := versionPart U a = versionPart U b

/-- Whether a package entry is exact and of the entry's own package. -/
def NamesExactly (U : Unicode) (pkg : PackageEntry) (d : Dependency) : Prop :=
  pkg.exact = true ∧ pkg.ecosystem = some d.ecosystem ∧
    exactNameKey U pkg.name (some d.ecosystem) = exactNameKey U d.name (some d.ecosystem)

/-- An advisory is reported at least at that verdict for an entry's package at an equal version. -/
def Reported (U : Unicode) (result : List Finding × List Finding) (cve : Text) (d : Dependency)
    (v : Verdict) : Prop :=
  ∃ r ∈ (if v = .affected then result.1 else result.1 ++ result.2),
    r.adv.cve = cve ∧ SamePackage U r.dep d ∧ SameVersion U r.dep d

/-- An entry that a manifest declares without a version, with a version of its own package in the
inventory. -/
def Resolved (U : Unicode) (inventory : List Dependency) (d : Dependency) : Prop :=
  d.version = [] ∧ d.declared = true ∧ ∃ y ∈ inventory, y.version ≠ [] ∧ SamePackage U y d

/-- An entry of the same package and version is the first of the inventory with its loose name and
version, and an advisory of that id has an entry that names it and judges its version no less. -/
def StoodFor (U : Unicode) (advisories : List Advisory) (inventory : List Dependency) (cve : Text)
    (d : Dependency) (v : Verdict) : Prop :=
  ∃ z, Stands U inventory z ∧ SamePackage U z d ∧ SameVersion U z d ∧
    ∃ p ∈ pairsOf advisories, p.1.cve = cve ∧ names U z.name (some z.ecosystem) p.2 = true ∧
      ∃ v', entryVerdict U z.version (some z.ecosystem) p.2.ranges = .ok v' ∧ v.rank ≤ v'.rank

lemma matchInventory_eq_ok {inventory : List Dependency} {b : CveBundle}
    {result : List Finding × List Finding} (h : matchInventory U inventory b = .ok result) :
    ∃ l, judge U b inventory = .ok l ∧ ∀ r : Finding,
      (r ∈ result.1 ↔ r.verdict = .affected ∧
        ∃ k, (k, r) ∈ Best.best (fun r : Finding => r.verdict.rank) l) ∧
      (r ∈ result.2 ↔ r.verdict = .unknown ∧
        ∃ k, (k, r) ∈ Best.best (fun r : Finding => r.verdict.rank) l) := by
  obtain ⟨l, hl, rfl⟩ := except_map_eq_ok.1 h
  refine ⟨l, hl, fun r => ?_⟩
  simp [mem_filter, and_comm]

lemma mem_judge {advisories : List Advisory} {inventory : List Dependency}
    {l : List (FindingKey × Finding)}
    (h : judge U (CveBundle.ofAdvisories U advisories) inventory = .ok l)
    (e : FindingKey × Finding) :
    e ∈ l ↔ e.2.dep ∈ inventory ∧ (e.2.adv, e.2.pkg) ∈ pairsOf advisories ∧
      names U e.2.dep.name (some e.2.dep.ecosystem) e.2.pkg = true ∧
      entryVerdict U e.2.dep.version (some e.2.dep.ecosystem) e.2.pkg.ranges = .ok e.2.verdict ∧
      e.1 = findingKey U e.2.adv e.2.dep := by
  rw [mem_of_except_mapM h]
  constructor
  · rintro ⟨⟨d, p⟩, hmem, heq⟩
    obtain ⟨v, hv, rfl⟩ := except_map_eq_ok.1 heq
    obtain ⟨d', hd, hp⟩ := mem_flatMap.1 hmem
    obtain ⟨p', hp, heq'⟩ := mem_map.1 hp
    cases heq'
    rw [advisoriesFor_eq, mem_filter] at hp
    exact ⟨hd, hp.1, hp.2, hv, rfl⟩
  · rintro ⟨hd, hp, hnames, hv, hkey⟩
    refine ⟨(e.2.dep, (e.2.adv, e.2.pkg)), ?_, ?_⟩
    · refine mem_flatMap.2 ⟨e.2.dep, hd, mem_map.2 ⟨(e.2.adv, e.2.pkg), ?_, rfl⟩⟩
      rw [advisoriesFor_eq, mem_filter]
      exact ⟨hp, hnames⟩
    · refine except_map_eq_ok.2 ⟨e.2.verdict, hv, ?_⟩
      rw [← hkey]

lemma eq_of_findingKey {inventory out : List Dependency} (h : dedup U inventory = .ok out)
    {y z : Dependency} (hy : y ∈ out) (hz : z ∈ out) {a b : Advisory}
    (hkey : findingKey U a y = findingKey U b z) : y = z := by
  simp only [findingKey, Prod.mk.injEq] at hkey
  obtain ⟨-, heco, hname, hversion⟩ := hkey
  apply dedupLoop_unique h hy hz
  unfold keyOfDependency versionPart looseName
  rw [heco, hversion, ← heco, hname, heco]

/-- No `KeyError` ends the scan: each version of the inventory can be read, and no comparison of an
entry that stands raises before the verdict of a package entry that names it is known. -/
structure Scans (U : Unicode) (advisories : List Advisory) (inventory : List Dependency) :
    Prop where
  versions : ∀ d ∈ inventory, ∃ k, versionPart U d = .ok k
  verdicts : ∀ z, Stands U inventory z → ∀ p ∈ pairsOf advisories,
    names U z.name (some z.ecosystem) p.2 = true →
      Compares U z.version (some z.ecosystem) (p.2.ranges.getD [])

lemma entryVerdict_getD_returns_iff {version : Text} {ecosystem : Option Ecosystem}
    {ranges : Option (List Range)} : (∃ x, entryVerdict U version ecosystem ranges = .ok x) ↔
      Compares U version ecosystem (ranges.getD []) := by
  cases ranges with
  | some rs => exact entryVerdict_returns_iff
  | none =>
    refine iff_of_true ⟨.unknown, ?_⟩ (.inr (.inr (by simp)))
    unfold entryVerdict
    simp

lemma scan_returns_iff {advisories : List Advisory} {inventory : List Dependency} :
    (∃ out result, dedup U inventory = .ok out ∧
      matchInventory U out (CveBundle.ofAdvisories U advisories) = .ok result) ↔
        Scans U advisories inventory := by
  constructor
  · rintro ⟨out, result, hdedup, hmatch⟩
    refine ⟨dedupLoop_returns_iff.1 ⟨out, hdedup⟩, fun z hz p hp hnames => ?_⟩
    obtain ⟨l, hl, -⟩ := except_map_eq_ok.1 hmatch
    have hoffered : (z, p) ∈ out.flatMap fun d =>
        ((CveBundle.ofAdvisories U advisories).advisoriesFor U d.name (some d.ecosystem)).map
          fun p => (d, p) := by
      refine mem_flatMap.2 ⟨z, (mem_dedup hdedup z).2 hz, mem_map_of_mem ?_⟩
      rw [advisoriesFor_eq]
      exact mem_filter.2 ⟨hp, hnames⟩
    obtain ⟨_, hy⟩ := exists_of_except_mapM hl hoffered
    obtain ⟨x, hx, -⟩ := except_map_eq_ok.1 hy
    exact entryVerdict_getD_returns_iff.1 ⟨x, hx⟩
  · rintro ⟨hversions, hverdicts⟩
    obtain ⟨out, hdedup⟩ : ∃ out, dedupLoop U inventory inventory [] = .ok out :=
      dedupLoop_returns_iff.2 hversions
    have hjudge : ∃ l, judge U (CveBundle.ofAdvisories U advisories) out = .ok l := by
      refine except_mapM_returns fun q hq => ?_
      obtain ⟨z, hz, hq⟩ := mem_flatMap.1 hq
      obtain ⟨p, hp, rfl⟩ := mem_map.1 hq
      rw [advisoriesFor_eq, mem_filter] at hp
      obtain ⟨x, hx⟩ := entryVerdict_getD_returns_iff.2
        (hverdicts z ((mem_dedup hdedup z).1 hz) p hp.1 hp.2)
      exact ⟨_, except_map_eq_ok.2 ⟨x, hx, rfl⟩⟩
    obtain ⟨l, hl⟩ := hjudge
    exact ⟨out, _, hdedup, except_map_eq_ok.2 ⟨l, hl, rfl⟩⟩

section Reported

variable {advisories : List Advisory} {inventory out : List Dependency}
  {result : List Finding × List Finding}

/-- An advisory is reported for an entry's package exactly where something stands for the entry that
it judges no less. -/
lemma reported_iff_stoodFor (hdedup : dedup U inventory = .ok out)
    (hmatch : matchInventory U out (CveBundle.ofAdvisories U advisories) = .ok result)
    (cve : Text) (d : Dependency) {v : Verdict} (hv : v ≠ .clear) :
    Reported U result cve d v ↔ StoodFor U advisories inventory cve d v := by
  obtain ⟨l, hl, hresult⟩ := matchInventory_eq_ok hmatch
  constructor
  · rintro ⟨r, hr, hcve, hpkg, hversion⟩
    obtain ⟨hrank, k, hk⟩ : v.rank ≤ r.verdict.rank ∧
        ∃ k, (k, r) ∈ Best.best (fun r : Finding => r.verdict.rank) l := by
      split at hr
      · rename_i haff
        obtain ⟨h1, h2⟩ := ((hresult r).1).1 hr
        exact ⟨by rw [haff, h1], h2⟩
      · rename_i haff
        have hunknown : v = .unknown := by
          cases v with
          | clear => exact absurd rfl hv
          | unknown => rfl
          | affected => exact absurd rfl haff
        obtain hr | hr := mem_append.1 hr
        · obtain ⟨h1, h2⟩ := ((hresult r).1).1 hr
          exact ⟨by rw [hunknown, h1]; exact Nat.le_succ 1, h2⟩
        · obtain ⟨h1, h2⟩ := ((hresult r).2).1 hr
          exact ⟨by rw [hunknown, h1], h2⟩
    obtain ⟨hdep, hpair, hnames, hverdict, -⟩ := (mem_judge hl _).1 (Best.mem_best hk)
    exact ⟨r.dep, (mem_dedup hdedup _).1 hdep, hpkg, hversion, (r.adv, r.pkg), hpair, hcve, hnames,
      r.verdict, hverdict, hrank⟩
  · rintro ⟨z, hz, hpkg, hversion, p, hp, hcve, hnames, v', hv', hrank⟩
    have hzout := (mem_dedup hdedup z).2 hz
    have hoffered : (findingKey U p.1 z, (⟨v', p.1, p.2, z⟩ : Finding)) ∈ l :=
      (mem_judge hl _).2 ⟨hzout, hp, hnames, hv', rfl⟩
    obtain ⟨r, hr, hle⟩ : ∃ r, (findingKey U p.1 z, r) ∈
        Best.best (fun r : Finding => r.verdict.rank) l ∧ v'.rank ≤ r.verdict.rank :=
      Best.exists_best hoffered
    obtain ⟨hdep, hpair, -, -, hkey⟩ := (mem_judge hl _).1 (Best.mem_best hr)
    have hrdep : z = r.dep := eq_of_findingKey hdedup hzout hdep hkey
    have hrcve : p.1.cve = r.adv.cve := congrArg Prod.fst hkey
    have hstrong : v.rank ≤ r.verdict.rank := hrank.trans hle
    refine ⟨r, ?_, hrcve ▸ hcve, hrdep ▸ hpkg, hrdep ▸ hversion⟩
    have hkept : ∃ k, (k, r) ∈ Best.best (fun r : Finding => r.verdict.rank) l := ⟨_, hr⟩
    cases hrv : r.verdict with
    | clear =>
      rw [hrv] at hstrong
      cases v with
      | clear => exact absurd rfl hv
      | unknown | affected => exact absurd hstrong (by decide)
    | unknown =>
      rw [hrv] at hstrong
      have hne : v ≠ .affected := by
        rintro rfl
        exact absurd hstrong (by decide)
      rw [if_neg hne]
      exact mem_append_right _ (((hresult r).2).2 ⟨hrv, hkept⟩)
    | affected =>
      have hin := ((hresult r).1).2 ⟨hrv, hkept⟩
      split
      · exact hin
      · exact mem_append_left _ hin

/-- A vulnerable entry of the inventory, named exactly by an entry of an advisory, is reported, or
stands for no version and a version stands for it, exactly where no comparison raises and something
stands for it. -/
theorem vulnerable_not_lost_iff (advisories : List Advisory) (inventory : List Dependency) :
    ∀ d ∈ inventory, ∀ p ∈ pairsOf advisories, NamesExactly U p.2 d → ∀ v,
      entryVerdict U d.version (some d.ecosystem) p.2.ranges = .ok v → v ≠ .clear →
      ((∃ out result, dedup U inventory = .ok out ∧
          matchInventory U out (CveBundle.ofAdvisories U advisories) = .ok result ∧
          (Reported U result p.1.cve d v ∨ Resolved U inventory d)) ↔
        Scans U advisories inventory ∧
          (StoodFor U advisories inventory p.1.cve d v ∨ Resolved U inventory d)) := by
  intro d _ p _ _ v _ hv
  rw [← scan_returns_iff]
  constructor
  · rintro ⟨out, result, hdedup, hmatch, h⟩
    exact ⟨⟨out, result, hdedup, hmatch⟩,
      h.imp_left (reported_iff_stoodFor hdedup hmatch p.1.cve d hv).1⟩
  · rintro ⟨⟨out, result, hdedup, hmatch⟩, h⟩
    exact ⟨out, result, hdedup, hmatch,
      h.imp_left (reported_iff_stoodFor hdedup hmatch p.1.cve d hv).2⟩

end Reported

/-! ## Two packages of one loose name -/

/-- An advisory of the npm package `JSONStream`, of every version. -/
def jsonStreamAdvisory : Advisory where
  cve := "CVE-2026-0001".toList
  title := none
  severity := none
  cvss := none
  epss := none
  epssPercentile := none
  knownExploited := false
  malicious := true
  ransomware := false
  dueDate := none
  published := none
  cwes := []
  refs := []
  sources := []
  packages := [⟨"JSONStream".toList, some .npm, some [⟨none, none, none, none⟩], true, none⟩]

def locked (name version : String) : Dependency :=
  ⟨.npm, name.toList, version.toList, "package-lock.json".toList, false⟩

/-- A lock with the package `jsonstream` before `JSONStream`, at one version. -/
def jsonStreamLock : List Dependency := [locked "jsonstream" "1.0.0", locked "JSONStream" "1.0.0"]

/-- The entry of the package that the advisory names is lost. -/
theorem vulnerable_is_lost :
    ¬ ∀ (U : Unicode) (advisories : List Advisory) (inventory : List Dependency),
      ∀ d ∈ inventory, ∀ p ∈ pairsOf advisories, NamesExactly U p.2 d → ∀ v,
        entryVerdict U d.version (some d.ecosystem) p.2.ranges = .ok v → v ≠ .clear →
        ∃ out result, dedup U inventory = .ok out ∧
          matchInventory U out (CveBundle.ofAdvisories U advisories) = .ok result ∧
          (Reported U result p.1.cve d v ∨ Resolved U inventory d) := by
  intro h
  obtain ⟨out, result, hdedup, hmatch, hlost⟩ := h ascii [jsonStreamAdvisory] jsonStreamLock
    (locked "JSONStream" "1.0.0") (by decide)
    (jsonStreamAdvisory, ⟨"JSONStream".toList, some .npm, some [⟨none, none, none, none⟩], true,
      none⟩) (by decide) ⟨rfl, rfl, rfl⟩ .affected (by decide) (by decide)
  have hkept : dedup ascii jsonStreamLock = .ok [locked "jsonstream" "1.0.0"] := by decide
  cases hkept.symm.trans hdedup
  have hnothing : matchInventory ascii [locked "jsonstream" "1.0.0"]
      (CveBundle.ofAdvisories ascii [jsonStreamAdvisory]) = .ok ([], []) := by decide
  cases hnothing.symm.trans hmatch
  obtain ⟨r, hr, -⟩ | ⟨hversion, -⟩ := hlost
  · simp at hr
  · exact absurd hversion (by decide)

/-- With `JSONStream` first, its entry stands. -/
theorem vulnerable_not_lost_iff_first :
    (∃ out result, dedup ascii jsonStreamLock.reverse = .ok out ∧
        matchInventory ascii out (CveBundle.ofAdvisories ascii [jsonStreamAdvisory]) = .ok result ∧
        (Reported ascii result "CVE-2026-0001".toList (locked "JSONStream" "1.0.0") .affected ∨
          Resolved ascii jsonStreamLock.reverse (locked "JSONStream" "1.0.0"))) ↔
      Scans ascii [jsonStreamAdvisory] jsonStreamLock.reverse ∧
        (StoodFor ascii [jsonStreamAdvisory] jsonStreamLock.reverse "CVE-2026-0001".toList
            (locked "JSONStream" "1.0.0") .affected ∨
          Resolved ascii jsonStreamLock.reverse (locked "JSONStream" "1.0.0")) :=
  vulnerable_not_lost_iff [jsonStreamAdvisory] jsonStreamLock.reverse
    (locked "JSONStream" "1.0.0") (by decide)
    (jsonStreamAdvisory, ⟨"JSONStream".toList, some .npm, some [⟨none, none, none, none⟩], true,
      none⟩) (by decide) ⟨rfl, rfl, rfl⟩ .affected (by decide) (by decide)

end Lazaret.Sca
