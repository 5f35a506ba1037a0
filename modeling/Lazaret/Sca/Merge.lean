import Lazaret.Lib.Outcome
import Lazaret.Sca.Osv
import Mathlib.Order.MinMax

/-!
# Merging records

Whether the advisory of a group of OSV records says of a version at least what each `affected`
entry of a member says alone.  The ranges of a package are put together (`mem_ranges_iff`), so what
ranges gave is kept; an entry that has none means unknown, and that is lost beside ranges that the
version is outside of, and a bound that one member brings may raise `KeyError` before the range of
another is reached (`merge_keeps_verdict_iff`).
-/

namespace Lazaret.Sca

open List

variable {U : Unicode}

/-! ## Groups -/

theorem mem_groupRecords {records : List Record} {m : Record} :
    (∃ g ∈ groupRecords records, m ∈ g) ↔ m ∈ records := by
  have hrooted : ∀ (l : List Record) (parent : Parents),
      (∃ e ∈ rooted l parent, m ∈ e.2.2) ↔ m ∈ l := by
    intro l
    induction l with
    | nil => simp [rooted]
    | cons rec rest ih =>
      intro parent
      rw [rooted, exists_mem_cons_iff, ih, mem_singleton, mem_cons]
  unfold groupRecords
  rw [← hrooted records _]
  constructor
  · rintro ⟨g, hg, hm⟩
    obtain ⟨e, he, rfl⟩ := mem_map.1 hg
    obtain ⟨e', he', -, h⟩ := (Grouping.mem_gather he m).1 hm
    exact ⟨e', he', h⟩
  · rintro ⟨e', he', h⟩
    obtain ⟨e, he, hk⟩ := (Grouping.exists_gather (k := e'.1) _).2 ⟨e', he', rfl⟩
    exact ⟨e.2.2, mem_map_of_mem he, (Grouping.mem_gather he m).2 ⟨e', he', hk.symm, h⟩⟩

/-! ## The ranges of a package -/

/-- The entries of a record that name a package, given by its key. -/
def entriesOf (U : Unicode) (raw : Json) (key : Ecosystem × Text) : List Json :=
  (affectedEntries raw).filter fun aff => (named U aff).map (packageKey U) = some key

def keyOf (U : Unicode) (p : Ecosystem × Text × List Range) : Ecosystem × Text :=
  packageKey U (p.1, p.2.1)

lemma mem_entriesOf {raw aff : Json} {key : Ecosystem × Text} :
    aff ∈ entriesOf U raw key ↔
      aff ∈ affectedEntries raw ∧ ∃ p, named U aff = some p ∧ packageKey U p = key := by
  rw [entriesOf, mem_filter, decide_eq_true_eq, Option.map_eq_some_iff]

lemma readAffected_eq_some {aff : Json} {e : (Ecosystem × Text) × Text × List Range} :
    readAffected U aff = .ok (some e) ↔
      ∃ eco, named U aff = some (eco, e.2.1) ∧ e.1 = packageKey U (eco, e.2.1) ∧
        affectedRanges U aff eco = .ok e.2.2 := by
  rw [readAffected]
  cases hn : named U aff with
  | none => simp
  | some p =>
    show (affectedRanges U aff p.1).map _ = _ ↔ _
    rw [except_map_eq_ok]
    constructor
    · rintro ⟨rs, hrs, h⟩
      cases h
      exact ⟨p.1, rfl, rfl, hrs⟩
    · rintro ⟨eco, h, hk, hrs⟩
      cases h
      exact ⟨e.2.2, hrs, by rw [← hk]⟩

lemma osvRecord_eq_some {raw : Json} {m : Record} (h : osvRecord U raw = .ok (some m)) :
    ∃ read, (affectedEntries raw).mapM (readAffected U) = .ok read ∧
      m.packages = (Grouping.gather (read.filterMap id)).map
        fun e => (e.1.1, e.2.1, e.2.2.eraseDups) := by
  unfold osvRecord at h
  split at h
  · cases h
  · split at h
    · cases h
    · split at h
      · cases h
      · obtain ⟨read, hread, h⟩ := except_bind_eq_ok.1 h
        refine ⟨read, hread, ?_⟩
        dsimp only at h
        split at h
        · cases h
        · cases h
          rfl

lemma exists_read_of_mem {affs : List Json}
    {read : List (Option ((Ecosystem × Text) × Text × List Range))}
    (hread : affs.mapM (readAffected U) = .ok read) {e : (Ecosystem × Text) × Text × List Range}
    (he : e ∈ Grouping.gather (read.filterMap id)) :
    ∃ aff eco, aff ∈ affs ∧ named U aff = some (eco, e.2.1) ∧ e.1 = packageKey U (eco, e.2.1) ∧
      ∃ rs, affectedRanges U aff eco = .ok rs := by
  obtain ⟨e', he', hk, hl⟩ := Grouping.label_gather he
  rw [mem_filterMap] at he'
  obtain ⟨_, hmem, rfl⟩ := he'
  obtain ⟨aff, haff, hread'⟩ := (mem_of_except_mapM hread _).1 hmem
  obtain ⟨eco, hn, hk', hrs⟩ := readAffected_eq_some.1 hread'
  exact ⟨aff, eco, haff, hl ▸ hn, hl ▸ hk ▸ hk', e'.2.2, hrs⟩

section Record

variable {raw : Json} {m : Record} (h : osvRecord U raw = .ok (some m))

include h

lemma exists_ranges {key : Ecosystem × Text} {aff : Json} (haff : aff ∈ entriesOf U raw key) :
    ∃ rs, affectedRanges U aff key.1 = .ok rs := by
  obtain ⟨read, hread, -⟩ := osvRecord_eq_some h
  obtain ⟨hmem, p, hn, rfl⟩ := mem_entriesOf.1 haff
  obtain ⟨y, hy⟩ := exists_of_except_mapM hread hmem
  rw [readAffected, hn] at hy
  obtain ⟨rs, hrs, -⟩ := except_map_eq_ok.1 hy
  exact ⟨rs, hrs⟩

lemma mem_packages {p : Ecosystem × Text × List Range} (hp : p ∈ m.packages) (r : Range) :
    r ∈ p.2.2 ↔ ∃ aff ∈ entriesOf U raw (keyOf U p), ∃ rs,
      affectedRanges U aff p.1 = .ok rs ∧ r ∈ rs := by
  obtain ⟨read, hread, hm⟩ := osvRecord_eq_some h
  rw [hm] at hp
  obtain ⟨e, he, rfl⟩ := mem_map.1 hp
  have hkey : keyOf U (e.1.1, e.2.1, e.2.2.eraseDups) = e.1 := by
    obtain ⟨-, eco, -, -, hk, -⟩ := exists_read_of_mem hread he
    rw [keyOf, hk]
    rfl
  rw [hkey]
  show r ∈ e.2.2.eraseDups ↔ _
  rw [mem_eraseDups, Grouping.mem_gather he]
  constructor
  · rintro ⟨e', he', hk, hr⟩
    rw [mem_filterMap] at he'
    obtain ⟨_, hmem, rfl⟩ := he'
    obtain ⟨aff, haff, hread'⟩ := (mem_of_except_mapM hread _).1 hmem
    obtain ⟨eco, hn, hk', hrs⟩ := readAffected_eq_some.1 hread'
    have heco : eco = e.1.1 := by
      rw [← hk, hk']
      rfl
    exact ⟨aff, mem_entriesOf.2 ⟨haff, _, hn, hk' ▸ hk⟩, e'.2.2, heco ▸ hrs, hr⟩
  · rintro ⟨aff, haff, rs, hrs, hr⟩
    obtain ⟨hmem, ⟨eco, name⟩, hn, hk⟩ := mem_entriesOf.1 haff
    have heco : e.1.1 = eco := by
      rw [← hk]
      rfl
    refine ⟨(e.1, name, rs), mem_filterMap.2 ⟨some (e.1, name, rs), ?_, rfl⟩, rfl, hr⟩
    rw [mem_of_except_mapM hread]
    exact ⟨aff, hmem, readAffected_eq_some.2 ⟨eco, hn, hk.symm, heco ▸ hrs⟩⟩

lemma exists_package {key : Ecosystem × Text} :
    (∃ p ∈ m.packages, keyOf U p = key) ↔ ∃ aff, aff ∈ entriesOf U raw key := by
  obtain ⟨read, hread, hm⟩ := osvRecord_eq_some h
  constructor
  · rintro ⟨p, hp, rfl⟩
    rw [hm] at hp
    obtain ⟨e, he, rfl⟩ := mem_map.1 hp
    obtain ⟨aff, eco, haff, hn, hk, -⟩ := exists_read_of_mem hread he
    refine ⟨aff, mem_entriesOf.2 ⟨haff, _, hn, ?_⟩⟩
    rw [keyOf, hk]
    rfl
  · rintro ⟨aff, haff⟩
    obtain ⟨hmem, p, hn, rfl⟩ := mem_entriesOf.1 haff
    obtain ⟨rs, hrs⟩ := exists_ranges h haff
    have hseen : (packageKey U p, p.2, rs) ∈ read.filterMap id := by
      refine mem_filterMap.2 ⟨some (packageKey U p, p.2, rs), ?_, rfl⟩
      rw [mem_of_except_mapM hread]
      exact ⟨aff, hmem, readAffected_eq_some.2 ⟨p.1, hn, rfl, hrs⟩⟩
    obtain ⟨e, he, hk⟩ := (Grouping.exists_gather (k := packageKey U p) _).2 ⟨_, hseen, rfl⟩
    refine ⟨(e.1.1, e.2.1, e.2.2.eraseDups), hm ▸ mem_map_of_mem he, ?_⟩
    obtain ⟨aff', eco, -, -, hk', -⟩ := exists_read_of_mem hread he
    rw [← hk, keyOf, hk']
    rfl

end Record

/-- What is asked of the entries of an advisory: a package entry for the package of that key. -/
def Package.Is (U : Unicode) (pkg : Package) (key : Ecosystem × Text) : Prop :=
  packageKey U (pkg.ecosystem, pkg.name) = key

/-- The ranges that the records of a group give a package, in the order of their ids. -/
def offered (U : Unicode) (group : List Record) (key : Ecosystem × Text) : List Range :=
  (group.insertionSort fun a b => rankLe (idRank U a.id) (idRank U b.id)).flatMap fun m =>
    (m.packages.filter fun p => keyOf U p = key).flatMap fun p => p.2.2

lemma ranges_eq {group : List Record} {pkg : Package} (hpkg : pkg ∈ advisory U group)
    {key : Ecosystem × Text} (hkey : pkg.Is U key) : pkg.ranges =
      (offered U group key).eraseDups := by
  unfold advisory at hpkg
  obtain ⟨e, he, rfl⟩ := mem_map.1 hpkg
  rw [mem_insertionSort] at he
  have hself : packageKey U (e.1.1, e.2.1) = e.1 := by
    obtain ⟨e', he', hk, hl⟩ := Grouping.label_gather he
    obtain ⟨m, -, hm⟩ := mem_flatMap.1 he'
    obtain ⟨p, -, rfl⟩ := mem_map.1 hm
    rw [← hk, ← hl]
    rfl
  rw [Package.Is, hself] at hkey
  subst hkey
  show e.2.2.eraseDups = _
  rw [Grouping.gather_eq he, offered, filter_flatMap, flatMap_assoc]
  refine congrArg eraseDups (congrArg (flatMap · _) (funext fun m => ?_))
  rw [filter_map, flatMap_map]
  rfl

lemma mem_offered {group : List Record} {key : Ecosystem × Text} {r : Range} :
    r ∈ offered U group key ↔ ∃ m ∈ group, ∃ p ∈ m.packages, keyOf U p = key ∧ r ∈ p.2.2 := by
  simp only [offered, mem_flatMap, mem_insertionSort, mem_filter, decide_eq_true_eq, and_assoc]

lemma exists_mem_advisory {group : List Record} {m : Record} (hm : m ∈ group)
    {p : Ecosystem × Text × List Range} (hp : p ∈ m.packages) :
    ∃ pkg ∈ advisory U group, pkg.Is U (keyOf U p) := by
  have hmem : (keyOf U p, p.2.1, p.2.2) ∈
      ((group.insertionSort fun a b => rankLe (idRank U a.id) (idRank U b.id)).flatMap
        fun m => m.packages.map fun p => (keyOf U p, p.2.1, p.2.2)) :=
    mem_flatMap.2 ⟨m, (mem_insertionSort _).2 hm, mem_map_of_mem hp⟩
  obtain ⟨e, he, hk⟩ := (Grouping.exists_gather (k := keyOf U p) _).2 ⟨_, hmem, rfl⟩
  refine ⟨⟨e.2.1, e.1.1, e.2.2.eraseDups⟩, ?_, ?_⟩
  · exact mem_map.2 ⟨e, (mem_insertionSort _).2 he, rfl⟩
  · obtain ⟨e', he', hk', hl⟩ := Grouping.label_gather he
    obtain ⟨m', -, hm'⟩ := mem_flatMap.1 he'
    obtain ⟨p', -, rfl⟩ := mem_map.1 hm'
    rw [Package.Is, ← hk, ← hk', ← hl]
    rfl

/-! ## The merged verdict -/

lemma find?_eraseDups {α : Type*} [BEq α] [LawfulBEq α] (p : α → Bool) (l : List α) :
    l.eraseDups.find? p = l.find? p := by
  induction l using reverseRecOn with
  | nil => rfl
  | append_singleton l a ih =>
    rw [eraseDups_append, find?_append, find?_append, ih]
    by_cases ha : a ∈ l
    · have hremoved : [a].removeAll l = [] := by simp [removeAll, ha]
      rw [hremoved]
      cases hf : l.find? p with
      | none => simp [find?_eq_none.1 hf a ha]
      | some b => rfl
    · have hkept : [a].removeAll l = [a] := by simp [removeAll, ha]
      rw [hkept]
      rfl

/-- A range that some entry of a member of the group gives the package, from the records read. -/
def Gives (U : Unicode) (raws : List Json) (group : List Record) (key : Ecosystem × Text)
    (r : Range) : Prop :=
  ∃ raw ∈ raws, ∃ m ∈ group, osvRecord U raw = .ok (some m) ∧
    ∃ aff ∈ entriesOf U raw key, ∃ rs, affectedRanges U aff key.1 = .ok rs ∧ r ∈ rs

/-- That the merge keeps what an entry without a usable range means: where the member has one, the
version is known and the group has ranges for the package, one of these does not put the version
outside. -/
def KeepsUnknown (U : Unicode) (raws : List Json) (group : List Record) (raw : Json)
    (key : Ecosystem × Text) (version : Text) : Prop :=
  (∃ aff ∈ entriesOf U raw key, affectedRanges U aff key.1 = .ok []) → version ≠ [] →
    (∃ r, Gives U raws group key r) →
    ∃ r, Gives U raws group key r ∧
      versionInRange U version r (some key.1) ≠ .ok (some false)

lemma compares_eraseDups {version : Text} {ecosystem : Option Ecosystem} (rs : List Range) :
    Compares U version ecosystem rs.eraseDups ↔ Compares U version ecosystem rs := by
  simp only [Compares, mem_eraseDups, find?_eraseDups]

section Merge

variable {raws : List Json} {read : List (Option Record)} {group : List Record}

lemma mem_ranges_iff (hread : raws.mapM (osvRecord U) = .ok read)
    (hgroup : group ∈ groupRecords (read.filterMap id)) {pkg : Package}
    (hpkg : pkg ∈ advisory U group) {key : Ecosystem × Text} (hkey : pkg.Is U key) (r : Range) :
    r ∈ pkg.ranges ↔ Gives U raws group key r := by
  rw [ranges_eq hpkg hkey, mem_eraseDups, mem_offered]
  constructor
  · rintro ⟨m, hm, p, hp, rfl, hr⟩
    have hmem : m ∈ read.filterMap id := mem_groupRecords.1 ⟨group, hgroup, hm⟩
    obtain ⟨_, hsome, rfl⟩ := mem_filterMap.1 hmem
    obtain ⟨raw, hraw, hrec⟩ := (mem_of_except_mapM hread _).1 hsome
    obtain ⟨aff, haff, rs, hrs, hr⟩ := (mem_packages hrec hp r).1 hr
    exact ⟨raw, hraw, m, hm, hrec, aff, haff, rs, hrs, hr⟩
  · rintro ⟨raw, -, m, hm, hrec, aff, haff, rs, hrs, hr⟩
    obtain ⟨p, hp, rfl⟩ := (exists_package hrec).2 ⟨aff, haff⟩
    exact ⟨m, hm, p, hp, rfl, (mem_packages hrec hp r).2 ⟨aff, haff, rs, hrs, hr⟩⟩

/-- The merged entry gives a verdict, no less than each of the member's own entries gives, exactly
where no comparison raises before the verdict is known and the merge keeps what an entry without a
usable range means. -/
theorem merge_keeps_verdict_iff (hread : raws.mapM (osvRecord U) = .ok read)
    (hgroup : group ∈ groupRecords (read.filterMap id)) {raw : Json} {m : Record}
    (hraw : raw ∈ raws) (hrec : osvRecord U raw = .ok (some m)) (hm : m ∈ group)
    {key : Ecosystem × Text} (hnamed : ∃ aff, aff ∈ entriesOf U raw key) (version : Text) :
    (∃ pkg ∈ advisory U group, pkg.Is U key) ∧
    ∀ pkg ∈ advisory U group, pkg.Is U key →
      ((∃ x, entryVerdict U version (some key.1) (some pkg.ranges) = .ok x ∧
          ∀ aff ∈ entriesOf U raw key, ∀ rs y, affectedRanges U aff key.1 = .ok rs →
            entryVerdict U version (some key.1) (some rs) = .ok y → y.rank ≤ x.rank) ↔
        Compares U version (some key.1) (offered U group key) ∧
          KeepsUnknown U raws group raw key version) := by
  constructor
  · obtain ⟨p, hp, hk⟩ := (exists_package hrec).2 hnamed
    exact hk ▸ exists_mem_advisory hm hp
  · intro pkg hpkg hkey
    have hranges := mem_ranges_iff hread hgroup hpkg hkey
    have hreturns : (∃ x, entryVerdict U version (some key.1) (some pkg.ranges) = .ok x) ↔
        Compares U version (some key.1) (offered U group key) := by
      rw [entryVerdict_returns_iff, ranges_eq hpkg hkey, compares_eraseDups]
    constructor
    · rintro ⟨x, hx, h⟩
      refine ⟨hreturns.1 ⟨x, hx⟩, ?_⟩
      rintro ⟨aff, haff, hnil⟩ hv ⟨r, hr⟩
      by_contra hout
      push Not at hout
      have hclear : entryVerdict U version (some key.1) (some pkg.ranges) = .ok .clear := by
        refine entryVerdict_clear_iff.2 ⟨hv, ?_, fun r' hr' => hout r' ((hranges r').1 hr')⟩
        exact ne_nil_of_mem ((hranges r).2 hr)
      rw [hx] at hclear
      cases hclear
      exact absurd (h aff haff [] .unknown hnil entryVerdict_nil) (by decide)
    · rintro ⟨hcompares, hkeeps⟩
      obtain ⟨x, hx⟩ := hreturns.2 hcompares
      refine ⟨x, hx, fun aff haff rs y hrs hy => ?_⟩
      have hsub : ∀ r ∈ rs, r ∈ pkg.ranges := fun r hr =>
        (hranges r).2 ⟨raw, hraw, m, hm, hrec, aff, haff, rs, hrs, hr⟩
      by_cases hne : rs = []
      · subst hne
        rw [entryVerdict_nil] at hy
        cases hy
        cases x with
        | clear =>
          obtain ⟨hv, hsome, hout⟩ := entryVerdict_clear_iff.1 hx
          obtain ⟨r, hr⟩ := exists_mem_of_ne_nil _ hsome
          obtain ⟨r', hr', hin⟩ := hkeeps ⟨aff, haff, hrs⟩ hv ⟨r, (hranges r).1 hr⟩
          exact absurd (hout r' ((hranges r').2 hr')) hin
        | unknown => exact le_refl _
        | affected => exact Nat.le_succ 1
      · exact entryVerdict_mono hne hsub hy hx

end Merge

/-! ## A record with two entries for one package -/

def Json.str (s : String) : Json := .text s.toList

def Json.obj (members : List (String × Json)) : Json :=
  .dict (members.map fun m => (m.1.toList, m.2))

def leftPad : Json := .obj [("ecosystem", .str "npm"), ("name", .str "left-pad")]

def leftPadUnranged : Json := .obj [("package", leftPad)]

def leftPadFixed : Json :=
  .obj [("package", leftPad), ("ranges", .list [.obj [("type", .str "SEMVER"),
    ("events", .list [.obj [("introduced", .str "0")], .obj [("fixed", .str "1.0.0")]])]])]

def leftPadRecord : Json :=
  .obj [("id", .str "GHSA-0001"), ("affected", .list [leftPadFixed, leftPadUnranged])]

def leftPadRead : Record :=
  ⟨"GHSA-0001".toList, [], [(.npm, "left-pad".toList,
    [⟨none, none, some (.text "1.0.0".toList), some false⟩])]⟩

def leftPadPackage : Package :=
  ⟨"left-pad".toList, .npm, [⟨none, none, some (.text "1.0.0".toList), some false⟩]⟩

lemma osvRecord_leftPad : osvRecord ascii leftPadRecord = .ok (some leftPadRead) := by
  decide

lemma mapM_leftPad : [leftPadRecord].mapM (osvRecord ascii) = .ok [some leftPadRead] := by
  rw [except_mapM_eq_ok]
  exact .cons osvRecord_leftPad .nil

lemma group_leftPad : [leftPadRead] ∈ groupRecords ([some leftPadRead].filterMap id) := by
  decide

lemma leftPadUnranged_mem :
    leftPadUnranged ∈ entriesOf ascii leftPadRecord (.npm, "left-pad".toList) := by
  rw [mem_entriesOf]
  refine ⟨?_, (.npm, "left-pad".toList), by decide, by decide⟩
  show leftPadUnranged ∈ [leftPadFixed, leftPadUnranged]
  simp

/-- An entry without a usable range, unknown alone, is clear once it is merged. -/
theorem merge_clears_unknown :
    ¬ ∀ (U : Unicode) (raws : List Json) (read : List (Option Record)) (group : List Record)
      (raw : Json) (m : Record) (key : Ecosystem × Text) (version : Text),
      raws.mapM (osvRecord U) = .ok read → group ∈ groupRecords (read.filterMap id) →
      raw ∈ raws → osvRecord U raw = .ok (some m) → m ∈ group →
      ∀ pkg ∈ advisory U group, pkg.Is U key →
        ∃ x, entryVerdict U version (some key.1) (some pkg.ranges) = .ok x ∧
          ∀ aff ∈ entriesOf U raw key, ∀ rs y, affectedRanges U aff key.1 = .ok rs →
            entryVerdict U version (some key.1) (some rs) = .ok y → y.rank ≤ x.rank := by
  intro h
  obtain ⟨x, hx, hle⟩ := h ascii [leftPadRecord] [some leftPadRead] [leftPadRead] leftPadRecord
    leftPadRead (.npm, "left-pad".toList) "2.0.0".toList mapM_leftPad group_leftPad (by simp)
    osvRecord_leftPad (by simp) leftPadPackage (by decide) (show packageKey _ _ = _ by decide)
  have hclear : entryVerdict ascii "2.0.0".toList (some .npm) (some leftPadPackage.ranges) =
      .ok .clear := by decide
  cases hclear.symm.trans hx
  exact absurd (hle leftPadUnranged leftPadUnranged_mem [] .unknown (by decide) (by decide))
    (by decide)

/-- The record merged: its entry for the package against 0.5.0. -/
theorem merge_keeps_verdict_iff_leftPad :
    (∃ pkg ∈ advisory ascii [leftPadRead], pkg.Is ascii (.npm, "left-pad".toList)) ∧
    ∀ pkg ∈ advisory ascii [leftPadRead], pkg.Is ascii (.npm, "left-pad".toList) →
      ((∃ x, entryVerdict ascii "0.5.0".toList (some .npm) (some pkg.ranges) = .ok x ∧
          ∀ aff ∈ entriesOf ascii leftPadRecord (.npm, "left-pad".toList), ∀ rs y,
            affectedRanges ascii aff .npm = .ok rs →
            entryVerdict ascii "0.5.0".toList (some .npm) (some rs) = .ok y → y.rank ≤ x.rank) ↔
        Compares ascii "0.5.0".toList (some .npm)
            (offered ascii [leftPadRead] (.npm, "left-pad".toList)) ∧
          KeepsUnknown ascii [leftPadRecord] [leftPadRead] leftPadRecord
            (.npm, "left-pad".toList) "0.5.0".toList) :=
  merge_keeps_verdict_iff mapM_leftPad group_leftPad (by simp) osvRecord_leftPad (by simp)
    ⟨leftPadUnranged, leftPadUnranged_mem⟩ "0.5.0".toList

end Lazaret.Sca
