import Lazaret.Lib.Outcome
import Lazaret.Sca.Osv
import Lazaret.Sca.VersionGrammar

/-!
# The order of versions

The keys of a scheme are in an order (`Pep440.cmp` and `Semver.cmp` are transitive), but the scheme
is chosen for each two versions.  Versions that one scheme orders (`Orders`) are in its order, so
that ranges are convex; that of pypi is PEP 440's on what PEP 440 reads, and that of the other
ecosystems SemVer's on what SemVer reads (`version_order`).
-/

namespace Lazaret.Sca

open Std List Option

section Comparisons

variable {α β : Type*} {c d : α → α → Ordering}

lemma transCmp_on (f : β → α) (h : TransCmp c) : TransCmp fun a b => c (f a) (f b) where
  eq_swap := h.eq_swap
  isLE_trans := h.isLE_trans

lemma transCmp_then (hc : TransCmp c) (hd : TransCmp d) :
    TransCmp fun a b => (c a b).then (d a b) :=
  inferInstanceAs (TransCmp (compareLex c d))

lemma compareList_eq (c : α → α → Ordering) : compareList c = List.compareLex c := by
  funext as bs
  induction as generalizing bs with
  | nil => cases bs <;> rfl
  | cons a as ih =>
    cases bs with
    | nil => rfl
    | cons b bs => rw [compareList, ih, List.compareLex_cons_cons]

lemma transCmp_compareList (h : TransCmp c) : TransCmp (compareList c) := by
  rw [compareList_eq]
  infer_instance

lemma transCmp_slot (h : TransCmp c) : TransCmp (Slot.cmp c) where
  eq_swap {a b} := by
    cases a <;> cases b <;> first | rfl | exact h.eq_swap
  isLE_trans {a b c} hab hbc := by
    cases a <;> cases b <;> cases c <;> first | rfl | contradiction | exact h.isLE_trans hab hbc

end Comparisons

lemma transCmp_nat : TransCmp (compare : ℕ → ℕ → Ordering) := inferInstance

lemma transCmp_part (numbersFirst : Bool) : TransCmp (Part.cmp numbersFirst) where
  eq_swap {a b} := by
    have hwords := transCmp_compareList (transCmp_on Char.toNat transCmp_nat)
    cases a <;> cases b <;> cases numbersFirst <;>
      first | rfl | exact transCmp_nat.eq_swap | exact hwords.eq_swap
  isLE_trans {a b c} hab hbc := by
    have hwords := transCmp_compareList (transCmp_on Char.toNat transCmp_nat)
    cases a <;> cases b <;> cases c <;> cases numbersFirst <;>
      first
      | rfl
      | contradiction
      | exact transCmp_nat.isLE_trans hab hbc
      | exact hwords.isLE_trans hab hbc

instance Pep440.transCmp : TransCmp Pep440.cmp :=
  transCmp_then (transCmp_on Pep440.epoch transCmp_nat) <|
  transCmp_then (transCmp_on Pep440.release (transCmp_compareList transCmp_nat)) <|
  transCmp_then (transCmp_on Pep440.pre <| transCmp_slot <|
    transCmp_then (transCmp_on Prod.fst transCmp_nat) (transCmp_on Prod.snd transCmp_nat)) <|
  transCmp_then (transCmp_on Pep440.post (transCmp_slot transCmp_nat)) <|
  transCmp_then (transCmp_on Pep440.dev (transCmp_slot transCmp_nat)) <|
  transCmp_on Pep440.loc (transCmp_slot (transCmp_compareList (transCmp_part false)))

/-- What a SemVer version without a pre-release has in its place sorts last. -/
def Semver.slot (k : Semver) : Slot (List Part) := k.pre.elim .pos .at

lemma Semver.cmp_eq (a b : Semver) : a.cmp b = (compareList compare a.release b.release).then
    (Slot.cmp (compareList (Part.cmp true)) a.slot b.slot) := by
  rcases a with ⟨_, _ | _⟩ <;> rcases b with ⟨_, _ | _⟩ <;> rfl

instance Semver.transCmp : TransCmp Semver.cmp := by
  have h := transCmp_then (transCmp_on Semver.release (transCmp_compareList transCmp_nat))
    (transCmp_on Semver.slot (transCmp_slot (transCmp_compareList (transCmp_part true))))
  convert h using 3 with a b
  exact Semver.cmp_eq a b

instance : TransCmp VersionKey.cmp where
  eq_swap {a b} := by
    cases a <;> cases b <;> first
      | rfl
      | exact Pep440.transCmp.eq_swap
      | exact Semver.transCmp.eq_swap
  isLE_trans {a b c} hab hbc := by
    cases a <;> cases b <;> cases c <;> first
      | rfl
      | contradiction
      | exact Pep440.transCmp.isLE_trans hab hbc
      | exact Semver.transCmp.isLE_trans hab hbc

variable {U : Unicode} {s : Scheme} {ecosystem : Ecosystem} {a b v : Text}

/-! ## Comparing two versions -/

def VersionKey.public : VersionKey → VersionKey
  | .pep440 k => .pep440 { k with loc := .neg }
  | .semver k => .semver k

lemma compare_eq {ka kb : VersionKey} (ha : s.key U a = .ok (some ka))
    (hb : s.key U b = .ok (some kb)) (il : Bool) :
    s.compare U a b il = .ok (some ((if il then ka.public else ka).cmp kb)) := by
  cases s with
  | pep440 =>
    obtain ⟨x, hx, hxa⟩ := except_map_eq_ok.1 ha
    obtain ⟨y, hy, hyb⟩ := except_map_eq_ok.1 hb
    obtain ⟨x, rfl, rfl⟩ := map_eq_some_iff.1 hxa
    obtain ⟨y, rfl, rfl⟩ := map_eq_some_iff.1 hyb
    have hlabel : pep440Key U a il = .ok (some (if il then { x with loc := .neg } else x)) := by
      cases il with
      | false => exact hx
      | true =>
        unfold pep440Key at hx ⊢
        split at hx
        · cases hx
        rename_i hlen
        rw [if_neg hlen]
        cases hm : pep440Match U a with
        | none =>
          rw [hm] at hx
          cases hx
        | some m =>
          rw [hm] at hx
          obtain ⟨pre, hpre, hx⟩ := except_bind_eq_ok.1 hx
          dsimp only
          rw [hpre]
          cases hx
          cases m.loc <;> rfl
    simp only [Scheme.compare, hy, hlabel]
    cases il <;> rfl
  | semver =>
    obtain ⟨x, hx, rfl⟩ := map_eq_some_iff.1 (Except.ok.inj ha)
    obtain ⟨y, hy, rfl⟩ := map_eq_some_iff.1 (Except.ok.inj hb)
    simp only [Scheme.compare, hx, hy]
    cases il <;> rfl

lemma compare_of_key (h : ∀ k, s.key U b ≠ .ok (some k)) (il : Bool) :
    s.compare U a b il = (s.key U b).map fun _ => none := by
  cases s with
  | pep440 =>
    unfold Scheme.key at h ⊢
    unfold Scheme.compare
    rcases hb : pep440Key U b false with e | _ | k
    · rfl
    · rfl
    · exact absurd (by rw [hb]; rfl) (h (.pep440 k))
  | semver =>
    unfold Scheme.key at h ⊢
    unfold Scheme.compare
    cases hb : semverKey U b with
    | none => rfl
    | some k => exact absurd (by rw [hb]; rfl) (h (.semver k))

lemma compare_eq_some {o : Ordering} : s.compare U a b false = .ok (some o) ↔
    ∃ ka kb, s.key U a = .ok (some ka) ∧ s.key U b = .ok (some kb) ∧ ka.cmp kb = o := by
  constructor
  · intro h
    by_cases hb : ∃ kb, s.key U b = .ok (some kb)
    · obtain ⟨kb, hb⟩ := hb
      have ha : ∃ ka, s.key U a = .ok (some ka) := by
        cases s with
        | pep440 =>
          obtain ⟨o', -, h⟩ := except_bind_eq_ok.1 h
          cases o' with
          | none => cases h
          | some y =>
            obtain ⟨x, hx, h⟩ := except_map_eq_ok.1 h
            obtain ⟨x, rfl, -⟩ := map_eq_some_iff.1 h
            exact ⟨.pep440 x, by rw [Scheme.key, hx]; rfl⟩
        | semver =>
          obtain ⟨y, -, h⟩ := bind_eq_some_iff.1 (Except.ok.inj h)
          obtain ⟨x, hx, -⟩ := bind_eq_some_iff.1 h
          exact ⟨.semver x, by rw [Scheme.key, hx]; rfl⟩
      obtain ⟨ka, ha⟩ := ha
      rw [compare_eq ha hb] at h
      exact ⟨ka, kb, ha, hb, some.inj (Except.ok.inj h)⟩
    · rw [compare_of_key (not_exists.1 hb)] at h
      obtain ⟨_, -, h⟩ := except_map_eq_ok.1 h
      cases h
  · rintro ⟨ka, kb, ha, hb, rfl⟩
    exact compare_eq ha hb false

lemma compare_swap {o : Ordering} (h : s.compare U a b false = .ok (some o)) :
    s.compare U b a false = .ok (some o.swap) := by
  obtain ⟨ka, kb, ha, hb, rfl⟩ := compare_eq_some.1 h
  exact compare_eq_some.2 ⟨kb, ka, hb, ha, OrientedCmp.eq_swap⟩

lemma schemes_eq (ecosystem : Ecosystem) (vs : List Text) :
    schemes (some ecosystem) vs = schemes (some ecosystem) [] := by
  cases ecosystem <;> rfl

lemma cmpKeys_swap {o o' : Ordering} (h : cmpKeys U a b (some ecosystem) false = .ok (some o))
    (h' : cmpKeys U b a (some ecosystem) false = .ok (some o')) : o' = o.swap := by
  rw [cmpKeys, schemes_eq] at h h'
  generalize schemes (some ecosystem) [] = L at h h'
  induction L with
  | nil => cases h
  | cons p rest ih =>
    obtain ⟨c, hc, h⟩ := except_bind_eq_ok.1 h
    obtain ⟨c', hc', h'⟩ := except_bind_eq_ok.1 h'
    cases c with
    | some x =>
      cases h
      cases hc'.symm.trans (compare_swap hc)
      cases h'
      rfl
    | none =>
      cases c' with
      | none => exact ih h h'
      | some y => cases hc.symm.trans (compare_swap hc')

/-! ## Versions that one scheme orders -/

/-- One scheme orders some versions: it reads each, and each two are compared as it compares. -/
structure Orders (U : Unicode) (s : Scheme) (ecosystem : Ecosystem) (vs : List Text) : Prop where
  reads : ∀ a ∈ vs, ∃ k, s.key U a = .ok (some k)
  compares : ∀ a ∈ vs, ∀ b ∈ vs, ∀ il, cmpKeys U a b (some ecosystem) il = s.compare U a b il

def AtMost (U : Unicode) (ecosystem : Ecosystem) (a b : Text) : Prop :=
  ∃ o, cmpKeys U a b (some ecosystem) false = .ok (some o) ∧ o.isLE

/-- A bound of a range is none, or one of some versions. -/
def BoundIn (vs : List Text) (b : Bound) : Prop :=
  unbounded b ∨ ∃ t ∈ vs, b = .text t ∨ b = .number t

lemma public_mono {ka kb : VersionKey} (hle : (ka.cmp kb).isLE) (il : Bool) :
    ((if il then ka.public else ka).cmp (if il then kb.public else kb)).isLE := by
  cases il with
  | false => exact hle
  | true =>
    cases ka <;> cases kb
    · simp only [VersionKey.public, VersionKey.cmp, Pep440.cmp, Ordering.isLE_then_iff_and] at hle ⊢
      simp only [if_true, Slot.cmp, Ordering.isLE_then_iff_and, Ordering.isLE_eq]
      tauto
    · rfl
    · cases hle
    · exact hle

lemma outside_mono {x y t : VersionKey} (hle : (x.cmp y).isLE) (inclusive : Bool) :
    (outside true inclusive (x.cmp t) = false → outside true inclusive (y.cmp t) = false) ∧
    (outside false inclusive (y.cmp t) = false → outside false inclusive (x.cmp t) = false) := by
  have hlt : y.cmp t = .lt → x.cmp t = .lt := TransCmp.lt_of_isLE_of_lt hle
  have hgt : x.cmp t = .gt → y.cmp t = .gt :=
    TransCmp.gt_of_isGE_of_gt (OrientedCmp.isGE_iff_isLE.2 hle)
  generalize x.cmp t = c at *
  generalize y.cmp t = d at *
  cases c <;> cases d <;> simp_all [outside]

lemma versionKey_of_cmpKeys {o : Ordering}
    (h : cmpKeys U a a (some ecosystem) false = .ok (some o)) :
    ∃ k, versionKey U a (some ecosystem) = .ok (some k) := by
  rw [cmpKeys, schemes_eq] at h
  rw [versionKey, schemes_eq]
  generalize schemes (some ecosystem) [] = L at h ⊢
  induction L with
  | nil => cases h
  | cons p rest ih =>
    obtain ⟨c, hc, h⟩ := except_bind_eq_ok.1 h
    rw [firstScheme]
    cases c with
    | some x =>
      obtain ⟨ka, -, ha, -⟩ := compare_eq_some.1 hc
      exact ⟨ka, by rw [ha]; rfl⟩
    | none =>
      rcases hk : p.key U a with e | _ | k
      · cases hc.symm.trans ((compare_of_key (by rw [hk]; nofun) false).trans (congrArg _ hk))
      · exact ih h
      · cases hc.symm.trans (compare_eq hk hk false)

lemma versionInRange_iff {r : Range} : versionInRange U a r (some ecosystem) = .ok (some true) ↔
    (∃ k, versionKey U a (some ecosystem) = .ok (some k)) ∧
    withinBound U a (some ecosystem) r.low true (r.fromInclusive ≠ some false) = .ok (some true) ∧
    withinBound U a (some ecosystem) r.high false (r.toInclusive ≠ some false) =
      .ok (some true) := by
  unfold versionInRange
  rcases versionKey U a (some ecosystem) with e | _ | k
  · exact ⟨nofun, fun hin => nomatch hin.1.choose_spec⟩
  · exact ⟨nofun, fun hin => nomatch hin.1.choose_spec⟩
  · rcases withinBound U a (some ecosystem) r.low true _ with e | _ | _ | _
    · exact ⟨nofun, fun hin => nomatch hin.2.1⟩
    · exact ⟨nofun, fun hin => nomatch hin.2.1⟩
    · exact ⟨nofun, fun hin => nomatch hin.2.1⟩
    · exact ⟨fun hhigh => ⟨⟨k, rfl⟩, rfl, hhigh⟩, fun hin => hin.2.2⟩

section Ordered

variable {vs : List Text} (h : Orders U s ecosystem vs)

include h

lemma Orders.cmpKeys_eq {ka kb : VersionKey} (ha : a ∈ vs) (hb : b ∈ vs)
    (hka : s.key U a = .ok (some ka)) (hkb : s.key U b = .ok (some kb)) (il : Bool) :
    cmpKeys U a b (some ecosystem) il = .ok (some ((if il then ka.public else ka).cmp kb)) := by
  rw [h.compares a ha b hb, compare_eq hka hkb]

lemma Orders.atMost_iff {ka kb : VersionKey} (ha : a ∈ vs) (hb : b ∈ vs)
    (hka : s.key U a = .ok (some ka)) (hkb : s.key U b = .ok (some kb)) :
    AtMost U ecosystem a b ↔ (ka.cmp kb).isLE := by
  rw [AtMost, h.cmpKeys_eq ha hb hka hkb]
  simp

lemma Orders.trans {c : Text} (ha : a ∈ vs) (hb : b ∈ vs) (hc : c ∈ vs)
    (hab : AtMost U ecosystem a b) (hbc : AtMost U ecosystem b c) : AtMost U ecosystem a c := by
  obtain ⟨ka, hka⟩ := h.reads a ha
  obtain ⟨kb, hkb⟩ := h.reads b hb
  obtain ⟨kc, hkc⟩ := h.reads c hc
  rw [h.atMost_iff ha hb hka hkb] at hab
  rw [h.atMost_iff hb hc hkb hkc] at hbc
  exact (h.atMost_iff ha hc hka hkc).2 (TransCmp.isLE_trans hab hbc)

lemma Orders.withinBound_eq {bound : Bound} (hb : BoundIn vs bound) (isLow inclusive : Bool) :
    (∀ a, withinBound U a (some ecosystem) bound isLow inclusive = .ok (some true)) ∨
    ∃ (il : Bool) (kt : VersionKey), ∀ a ∈ vs, ∀ ka, s.key U a = .ok (some ka) →
      withinBound U a (some ecosystem) bound isLow inclusive =
        .ok (some (!outside isLow inclusive ((if il then ka.public else ka).cmp kt))) := by
  by_cases hu : unbounded bound
  · exact .inl fun a => withinBound_of_unbounded U hu
  · obtain ⟨t, ht, hor⟩ := hb.resolve_left hu
    obtain ⟨kt, hkt⟩ := h.reads t ht
    refine .inr ⟨!('+' ∈ t), kt, fun a ha ka hka => ?_⟩
    rcases hor with rfl | rfl
    · rw [withinBound, if_neg hu, h.cmpKeys_eq ha ht hka hkt]
      rfl
    · rw [withinBound, if_neg hu, h.cmpKeys_eq ha ht hka hkt]
      rfl

lemma Orders.convex {c : Text} (ha : a ∈ vs) (hb : b ∈ vs) (hc : c ∈ vs)
    (hab : AtMost U ecosystem a b) (hbc : AtMost U ecosystem b c) {r : Range}
    (hlow : BoundIn vs r.low) (hhigh : BoundIn vs r.high)
    (hina : versionInRange U a r (some ecosystem) = .ok (some true))
    (hinc : versionInRange U c r (some ecosystem) = .ok (some true)) :
    versionInRange U b r (some ecosystem) = .ok (some true) := by
  obtain ⟨ka, hka⟩ := h.reads a ha
  obtain ⟨kb, hkb⟩ := h.reads b hb
  obtain ⟨kc, hkc⟩ := h.reads c hc
  rw [h.atMost_iff ha hb hka hkb] at hab
  rw [h.atMost_iff hb hc hkb hkc] at hbc
  rw [versionInRange_iff] at hina hinc ⊢
  refine ⟨versionKey_of_cmpKeys (h.cmpKeys_eq hb hb hkb hkb false), ?_, ?_⟩
  · rcases h.withinBound_eq hlow true (r.fromInclusive ≠ some false) with hall | ⟨il, kt, hkt⟩
    · exact hall b
    · have hout := hina.2.1
      rw [hkt a ha ka hka, Except.ok.injEq, some.injEq, Bool.not_eq_true'] at hout
      rw [hkt b hb kb hkb, (outside_mono (public_mono hab il) _).1 hout]
      rfl
  · rcases h.withinBound_eq hhigh false (r.toInclusive ≠ some false) with hall | ⟨il, kt, hkt⟩
    · exact hall b
    · have hout := hinc.2.2
      rw [hkt c hc kc hkc, Except.ok.injEq, some.injEq, Bool.not_eq_true'] at hout
      rw [hkt b hb kb hkb, (outside_mono (public_mono hbc il) _).2 hout]
      rfl

end Ordered

/-! ## The two specifications -/

/-- Two releases: a number that is missing is zero. -/
def compareRelease : List ℕ → List ℕ → Ordering
  | [], [] => .eq
  | [], b :: bs => (compare 0 b).then (compareRelease [] bs)
  | a :: as, [] => (compare a 0).then (compareRelease as [])
  | a :: as, b :: bs => (compare a b).then (compareRelease as bs)

/-- The suffixes of a version in turn, each with its number: `.dev`, `a`, `b`, `rc`, none,
`.post`. -/
def suffixes (v : Version440) : List (ℕ × ℕ) :=
  (v.pre.map fun p => (p.1.val + 1, p.2)).toList ++ (v.post.map fun n => (5, n)).toList ++
    (v.dev.map fun n => (0, n)).toList ++ [(4, 0)]

/-- Local labels: none comes first, and a number after a word. -/
def compareLabels : Option (List Part) → Option (List Part) → Ordering
  | none, none => .eq
  | none, some _ => .lt
  | some _, none => .gt
  | some p, some q => compareList (Part.cmp false) p q

/-- PEP 440's order: the epoch, the release, the suffixes, and the local label, if any, last. -/
def pep440Order (a b : Version440) : Ordering :=
  (compare a.epoch b.epoch).then <|
  (compareRelease a.release b.release).then <|
  (compareList (fun x y => (compare x.1 y.1).then (compare x.2 y.2)) (suffixes a)
    (suffixes b)).then <|
  compareLabels a.loc b.loc

/-- SemVer's precedence, of the numbers and the pre-release: build metadata is ignored. -/
def precedence (a b : VersionSemver) : Ordering :=
  (compareRelease a.release b.release).then <|
  match a.pre, b.pre with
  | none, none => .eq
  | none, some _ => .gt
  | some _, none => .lt
  | some p, some q => compareList (Part.cmp true) p q

lemma rdropWhile_cons {α : Type*} (p : α → Bool) (a : α) (l : List α) :
    (a :: l).rdropWhile p = if l.rdropWhile p = [] ∧ p a then [] else a :: l.rdropWhile p := by
  unfold List.rdropWhile
  rw [reverse_cons, dropWhile_append]
  cases h : l.reverse.dropWhile p <;> cases hp : p a <;> simp [hp]

lemma compareList_rdropWhile (as bs : List ℕ) :
    compareList compare (as.rdropWhile (· = 0)) (bs.rdropWhile (· = 0)) = compareRelease as bs := by
  have hlt : ∀ n, compare 0 (n + 1) = .lt := fun n => compare_eq_lt.2 n.succ_pos
  have hgt : ∀ n, compare (n + 1) 0 = .gt := fun n => compare_eq_gt.2 n.succ_pos
  fun_induction compareRelease as bs with
  | case1 => rfl
  | case2 b bs ih =>
    rw [rdropWhile_cons]
    rcases b with _ | b <;> cases h : bs.rdropWhile (· = 0) <;> simp_all [compareList]
  | case3 a as ih =>
    rw [rdropWhile_cons]
    rcases a with _ | a <;> cases h : as.rdropWhile (· = 0) <;> simp_all [compareList]
  | case4 a as b bs ih =>
    rw [rdropWhile_cons, rdropWhile_cons]
    rcases a with _ | a <;> rcases b with _ | b <;> cases h : as.rdropWhile (· = 0) <;>
      cases h' : bs.rdropWhile (· = 0) <;> simp_all [compareList]

lemma compareList_release {as bs : List ℕ} (ha : as ≠ []) (hb : bs ≠ []) :
    compareList compare (release as) (release bs) = compareRelease as bs := by
  cases as with
  | nil => exact absurd rfl ha
  | cons a as =>
    cases bs with
    | nil => exact absurd rfl hb
    | cons b bs => rw [release, release, compareList, compareList_rdropWhile, compareRelease]

def Version440.key (v : Version440) : Pep440 where
  epoch := v.epoch
  release := Sca.release v.release
  pre := match v.pre, v.post, v.dev with
    | none, none, some _ => .neg
    | none, _, _ => .pos
    | some p, _, _ => .at (p.1.val, p.2)
  post := v.post.elim .neg .at
  dev := v.dev.elim .pos .at
  loc := v.loc.elim .neg .at

lemma compareList_suffixes (m n : Version440) :
    ((m.key.pre.cmp (fun x y => (compare x.1 y.1).then (compare x.2 y.2)) n.key.pre).then <|
      (m.key.post.cmp compare n.key.post).then <| m.key.dev.cmp compare n.key.dev) =
    compareList (fun x y => (compare x.1 y.1).then (compare x.2 y.2)) (suffixes m)
    (suffixes n) := by
  have hrank : ∀ r : Fin 3, r.val + 1 < 4 ∧ ¬ 4 < r.val + 1 ∧ r.val + 1 < 5 ∧ ¬ 5 < r.val + 1 := by
    decide
  obtain ⟨_, _, pre, post, dev, _⟩ := m
  obtain ⟨_, _, pre', post', dev', _⟩ := n
  rcases pre with _ | p <;> rcases post with _ | p <;> rcases dev with _ | p <;>
    rcases pre' with _ | p <;> rcases post' with _ | p <;> rcases dev' with _ | p <;>
    simp [Version440.key, suffixes, Slot.cmp, compareList, Nat.compare_eq_ite_lt, hrank]

lemma Version440.cmp_key {m n : Version440} (hm : m.release ≠ []) (hn : n.release ≠ []) :
    m.key.cmp n.key = pep440Order m n := by
  have hloc : m.key.loc.cmp (compareList (Part.cmp false)) n.key.loc =
    compareLabels m.loc n.loc := by
    rcases m with ⟨_, _, _, _, _, _ | _⟩ <;> rcases n with ⟨_, _, _, _, _, _ | _⟩ <;> rfl
  rw [Pep440.cmp, pep440Order, ← compareList_suffixes, ← compareList_release hm hn, hloc,
    Ordering.then_assoc, Ordering.then_assoc]
  rfl

lemma Spelling440.Ok.key_eq {s : Spelling440} (h : s.Ok U) (hU : U.Lawful)
    (hshort : s.text.length ≤ MAX_VERSION_LEN) :
    Scheme.pep440.key U s.text = .ok (some (.pep440 s.version.key)) := by
  have hletter : ∀ w ∈ alphas ++ betas ++ candidates,
    w ∈ labels ∧ preOrder w = .ok (rank w).val := by
    decide
  have hpre : (s.found.pre.mapM fun p => (preOrder (U.lower p.1)).map fun o => (o, p.2)) =
      .ok (s.version.pre.map fun p => (p.1.val, p.2)) := by
    rw [found, version]
    cases hpre : s.pre with
    | none => rfl
    | some l =>
      have hword := (h.pre l hpre).1.word
      have hlower := hU.lower l.word fun c hc => (letter_spec <|
        (letters_of_sought (preWords, labels) (by decide) _ (hletter _ hword).1).2.2 _
          (mem_map_of_mem hc)).2.2.2.2.2
      show Except.map _ (Except.map _ (preOrder (U.lower l.word))) = _
      rw [hlower, (hletter _ hword).2]
      rfl
  have hloc : s.found.loc.map (fun ps => ps.map (part U.lower)) = s.version.loc := by
    rw [found, version]
    cases hloc : s.loc with
    | none => rfl
    | some l =>
      obtain ⟨hfirst, hrest⟩ := h.loc l hloc
      refine congrArg some (map_congr_left fun t ht => ?_)
      have halnum : ∀ c ∈ t, isAlnum c := by
        rcases mem_cons.1 ht with rfl | ht
        · exact hfirst.2
        · obtain ⟨p, hp, rfl⟩ := mem_map.1 ht
          exact (hrest p hp).2.2
      rw [part, part, hU.lower t fun c hc => toNat_lt_of_isAlnum (halnum c hc)]
  rw [Scheme.key, pep440Key, if_neg hshort.not_gt, h.pep440Match_text hU]
  dsimp only
  rw [hpre, Version440.key, ← hloc]
  obtain ⟨_, _, _, _, pre, post, dev, loc, _⟩ := s
  rcases pre with _ | p <;> rcases post with _ | p <;> rcases dev with _ | p <;>
    rcases loc with _ | p <;> rfl

lemma SpellingSemver.Ok.compare_eq {s t : SpellingSemver} (h : s.Ok U) (h' : t.Ok U) (hU : U.Lawful)
    (hs : s.text.length ≤ MAX_VERSION_LEN) (ht : t.text.length ≤ MAX_VERSION_LEN) :
    Scheme.semver.compare U s.text t.text false = .ok (some (precedence s.version t.version)) := by
  have hne : ∀ {s : SpellingSemver}, s.Ok U → s.version.release ≠ [] := fun h => by
    rw [version]
    exact mt map_eq_nil_iff.1 h.release
  unfold Scheme.compare semverKey
  rw [if_neg hs.not_gt, if_neg ht.not_gt, h.semverMatch_text hU, h'.semverMatch_text hU, precedence,
    ← compareList_release (hne h) (hne h'), version, version]
  rcases s.pre with _ | _ <;> rcases t.pre with _ | _ <;> rfl

lemma cmpKeys_first {rest : List Scheme} (hs : schemes (some ecosystem) [] = s :: rest)
    {o : Ordering} {il : Bool} (h : s.compare U a b il = .ok (some o)) :
    cmpKeys U a b (some ecosystem) il = .ok (some o) := by
  rw [cmpKeys, schemes_eq, hs, firstScheme, h]
  rfl

/-- Either way two versions compare as opposites; those that one scheme orders are in its order, and
ranges convex; and the order of pypi is PEP 440's, that of the other ecosystems SemVer's. -/
theorem version_order (U : Unicode) (ecosystem : Ecosystem) :
    (∀ a b o o', cmpKeys U a b (some ecosystem) false = .ok (some o) →
      cmpKeys U b a (some ecosystem) false = .ok (some o') → o' = o.swap) ∧
    (∀ s rest vs, schemes (some ecosystem) [] = s :: rest →
      (∀ a ∈ vs, ∃ k, s.key U a = .ok (some k)) → Orders U s ecosystem vs) ∧
    (∀ s vs, Orders U s ecosystem vs → ∀ a ∈ vs, ∀ b ∈ vs, ∀ c ∈ vs,
      AtMost U ecosystem a b → AtMost U ecosystem b c → AtMost U ecosystem a c ∧
      ∀ r : Range, BoundIn vs r.low → BoundIn vs r.high →
        versionInRange U a r (some ecosystem) = .ok (some true) →
        versionInRange U c r (some ecosystem) = .ok (some true) →
        versionInRange U b r (some ecosystem) = .ok (some true)) ∧
    (U.Lawful → ∀ s t : Spelling440, s.Ok U → t.Ok U → s.text.length ≤ MAX_VERSION_LEN →
      t.text.length ≤ MAX_VERSION_LEN →
      cmpKeys U s.text t.text (some .pypi) false = .ok (some (pep440Order s.version t.version))) ∧
    (ecosystem ≠ .pypi → U.Lawful → ∀ s t : SpellingSemver, s.Ok U → t.Ok U →
      s.text.length ≤ MAX_VERSION_LEN → t.text.length ≤ MAX_VERSION_LEN →
      cmpKeys U s.text t.text (some ecosystem) false =
        .ok (some (precedence s.version t.version))) := by
  refine ⟨fun a b o o' => cmpKeys_swap, fun s rest vs hs hreads => ⟨hreads, ?_⟩, ?_, ?_, ?_⟩
  · intro a ha b hb il
    obtain ⟨ka, hka⟩ := hreads a ha
    obtain ⟨kb, hkb⟩ := hreads b hb
    rw [cmpKeys_first hs (compare_eq hka hkb il), compare_eq hka hkb]
  · intro s vs h a ha b hb c hc hab hbc
    exact ⟨h.trans ha hb hc hab hbc, fun r => h.convex ha hb hc hab hbc⟩
  · intro hU s t hs ht hslen htlen
    have hne : ∀ {s : Spelling440}, s.Ok U → s.version.release ≠ [] := fun h =>
      mt map_eq_nil_iff.1 h.release
    exact cmpKeys_first rfl (compare_eq_some.2
      ⟨_, _, hs.key_eq hU hslen, ht.key_eq hU htlen, Version440.cmp_key (hne hs) (hne ht)⟩)
  · intro hne hU s t hs ht hslen htlen
    cases ecosystem with
    | pypi => exact absurd rfl hne
    | npm | go | crates => exact cmpKeys_first rfl (hs.compare_eq ht hU hslen htlen)

lemma ascii_lawful : ascii.Lawful where
  isSpace c hc := by
    simp only [ascii, decide_eq_true_eq] at hc
    exact forall_of_ascii (P := fun c => (9 ≤ c.toNat ∧ c.toNat ≤ 13) ∨
      (28 ≤ c.toNat ∧ c.toNat ≤ 32) →
      ¬ ('!' ≤ caseless c ∧ caseless c ≤ '~')) (by decide) (by omega) hc
  lower _ _ := rfl

attribute [local instance] forallText forallHead

/-- A development release of a post-release of a release candidate. -/
def wholeSpelling : Spelling440 where
  left := [' ']
  v := some 'V'
  epoch := some ['0']
  release := [['1'], ['0']]
  pre := some ⟨some '.', "RC".toList, some '_', ['3']⟩
  post := some (.dash ['1'])
  dev := some ⟨none, "dev".toList, none, []⟩
  loc := some ("Ab".toList, [('-', ['2'])])
  right := []

lemma wholeSpelling_ok : wholeSpelling.Ok ascii where
  left := by decide
  v := by decide
  epoch := by rintro _ ⟨⟩; exact ⟨by decide, by decide⟩
  release := by decide
  numbers := by
    have hall : ∀ t ∈ wholeSpelling.release, t ≠ [] ∧ ∀ c ∈ t, isDigit c := by decide
    exact hall
  pre := by rintro _ ⟨⟩; exact ⟨⟨by decide, by decide, by decide, by decide⟩, nofun⟩
  post := by rintro _ ⟨⟩; exact ⟨by decide, by decide⟩
  dev := by rintro _ ⟨⟩; exact ⟨by decide, by decide, by decide, by decide⟩
  loc := by
    rintro _ ⟨⟩
    have hall : ∀ p ∈ [('-', ['2'])], isSeparator p.1 ∧ p.2 ≠ [] ∧ ∀ c ∈ p.2, isAlnum c := by decide
    exact ⟨⟨by decide, by decide⟩, hall⟩
  right := by decide

theorem version_order_whole :
    cmpKeys ascii " V0!1.0.RC_3-1dev+Ab-2".toList " V0!1.0.RC_3-1dev+Ab-2".toList
    (some .pypi) false =
      .ok (some (pep440Order wholeSpelling.version wholeSpelling.version)) := by
  have htext : wholeSpelling.text = " V0!1.0.RC_3-1dev+Ab-2".toList := by decide
  rw [← htext]
  exact (version_order ascii .npm).2.2.2.1 ascii_lawful wholeSpelling wholeSpelling
    wholeSpelling_ok wholeSpelling_ok (by decide) (by decide)

/-- In pypi, 1.0 is below 1.0-1, which PEP 440 reads as a post-release; 1.0-1 is below 1.0-x.y, and
that below 1.0, as only SemVer reads them all. -/
theorem pypi_order_cycles :
    ¬ ∀ a b c, AtMost ascii .pypi a b → AtMost ascii .pypi b c →
      (∃ o, cmpKeys ascii a c (some .pypi) false = .ok (some o)) → AtMost ascii .pypi a c := by
  intro h
  obtain ⟨o, ho, hle⟩ := h "1.0".toList "1.0-1".toList "1.0-x.y".toList ⟨.lt, by decide, by decide⟩
    ⟨.lt, by decide, by decide⟩ ⟨.gt, by decide⟩
  have hgt : cmpKeys ascii "1.0".toList "1.0-x.y".toList (some .pypi) false = .ok (some .gt) := by
    decide
  cases ho.symm.trans hgt
  cases hle

end Lazaret.Sca
