import Lazaret.Sca.Version

/-!
# The verdict of one entry

Whether a version lies in an affected range, and what one package entry of an advisory says of one
dependency (`version_in_range`, `_all_versions` and `_entry_verdict` of `scanner/sca.py`).
`entryVerdict_mono`: more ranges never weaken a verdict that ranges gave; `entryVerdict_clear_iff`:
a version is clear of an entry that has ranges, and of which each says that it is outside.
-/

namespace Lazaret.Sca

open List Option

variable (U : Unicode)

/-! ## Ranges -/

/-- A bound of a range, as a bundle may hold it: a number is kept as its `str`. -/
inductive Bound
  | null
  | text (t : Text)
  | number (str : Text)
  | other
deriving DecidableEq

/-- An affected range: the four members that are read of it, each there or not.  Of a mark of
inclusion only whether it is `False` is ever asked (`some false`). -/
structure Range where
  fromVersion : Option Bound
  fromInclusive : Option Bool
  toVersion : Option Bound
  toInclusive : Option Bool
deriving DecidableEq

def unbounded (b : Bound) : Bool := b = .null ∨ b = .text [] ∨ b = .text ['*']

/-- The lower bound, `*` where none is written. -/
def Range.low (r : Range) : Bound := r.fromVersion.getD (.text ['*'])

/-- The upper bound, `*` where none is written. -/
def Range.high (r : Range) : Bound := r.toVersion.getD (.text ['*'])

def allVersions (r : Range) : Bool := unbounded r.low && unbounded r.high

/-- Whether a comparison with a bound puts a version outside. -/
def outside (isLow inclusive : Bool) (c : Ordering) : Bool :=
  match isLow, c with
  | true, .lt => true
  | false, .gt => true
  | _, .eq => !inclusive
  | _, _ => false

/-- Whether a version is on the right side of a bound; none when it cannot be decided.  A bound
without a local label ignores the version's. -/
def withinBound (version : Text) (ecosystem : Option Ecosystem) (bound : Bound)
    (isLow inclusive : Bool) : Except KeyError (Option Bool) :=
  if unbounded bound then .ok (some true)
  else
    match bound with
    | .text b | .number b =>
      (cmpKeys U version b ecosystem (!('+' ∈ b))).map
        (Option.map fun c => !outside isLow inclusive c)
    | _ => .ok none

/-- `version_in_range`: whether a version is inside an affected range, or none when it cannot be
decided. -/
def versionInRange (version : Text) (r : Range) (ecosystem : Option Ecosystem) :
    Except KeyError (Option Bool) := do
  match ← versionKey U version ecosystem with
  | none => .ok none
  | some _ =>
    match ← withinBound U version ecosystem r.low true (r.fromInclusive ≠ some false) with
    | some true =>
      withinBound U version ecosystem r.high false (r.toInclusive ≠ some false)
    | d => .ok d

@[simp] lemma withinBound_of_unbounded {version : Text} {ecosystem : Option Ecosystem}
    {bound : Bound} {isLow inclusive : Bool} (h : unbounded bound) :
    withinBound U version ecosystem bound isLow inclusive = .ok (some true) := by
  unfold withinBound
  rw [if_pos h]

lemma versionInRange_of_allVersions {version : Text} {r : Range} {ecosystem : Option Ecosystem}
    (h : allVersions r) : versionInRange U version r ecosystem ≠ .ok (some false) := by
  obtain ⟨hlow, hhigh⟩ : unbounded r.low = true ∧ unbounded r.high = true := by
    simpa [allVersions] using h
  unfold versionInRange
  rw [withinBound_of_unbounded U hlow, withinBound_of_unbounded U hhigh]
  intro heq
  cases hk : versionKey U version ecosystem with
  | error e =>
    rw [hk] at heq
    cases heq
  | ok k =>
    rw [hk] at heq
    cases k with
    | none => cases heq
    | some k => cases heq

/-! ## Verdicts -/

/-- What is known of one dependency against one entry. -/
inductive Verdict
  | clear
  | unknown
  | affected
deriving DecidableEq

/-- `_CLEAR, _UNKNOWN, _AFFECTED = 0, 1, 2` -/
def Verdict.rank : Verdict → ℕ
  | .clear => 0
  | .unknown => 1
  | .affected => 2

/-- The loop over the ranges: the first that has the version decides; `undecided` tells whether one
before could not be compared. -/
def weigh (version : Text) (ecosystem : Option Ecosystem) :
    List Range → Bool → Except KeyError Verdict
  | [], undecided => .ok (if undecided then .unknown else .clear)
  | r :: rest, undecided => do
    match ← versionInRange U version r ecosystem with
    | some true => .ok .affected
    | some false => weigh version ecosystem rest undecided
    | none => weigh version ecosystem rest true

/-- `_entry_verdict`: what a package entry says of a version (empty where none is known); its ranges
are none where they are malformed. -/
def entryVerdict (version : Text) (ecosystem : Option Ecosystem) (ranges : Option (List Range)) :
    Except KeyError Verdict :=
  if (ranges.getD []).any allVersions then .ok .affected
  else if version = [] then .ok .unknown
  else
    match ranges with
    | none => .ok .unknown
    | some [] => .ok .unknown
    | some rs => weigh U version ecosystem rs false

/-- Whether the loop ends at a range: the comparison raises there, or it has the version. -/
def stops (version : Text) (ecosystem : Option Ecosystem) (r : Range) : Bool :=
  match versionInRange U version r ecosystem with
  | .error _ | .ok (some true) => true
  | .ok _ => false

/-- No comparison raises before the verdict is known: some range has every version, or the version
is not known, or the first range where the loop ends, if there is one, has it. -/
def Compares (version : Text) (ecosystem : Option Ecosystem) (rs : List Range) : Prop :=
  (∃ r ∈ rs, allVersions r) ∨ version = [] ∨ ∀ r, rs.find? (stops U version ecosystem) = some r →
    versionInRange U version r ecosystem = .ok (some true)

section Weigh

variable {U} {version : Text} {ecosystem : Option Ecosystem}

variable {rs : List Range} {undecided : Bool}

lemma weigh_eq_affected {x : Verdict} {r : Range}
    (hx : weigh U version ecosystem rs undecided = .ok x) (hr : r ∈ rs)
    (hin : versionInRange U version r ecosystem = .ok (some true)) : x = .affected := by
  induction rs generalizing undecided with
  | nil => cases hr
  | cons s rest ih =>
    rw [weigh] at hx
    cases hs : versionInRange U version s ecosystem with
    | error e =>
      rw [hs] at hx
      cases hx
    | ok d =>
      rw [hs] at hx
      obtain rfl | hrest := mem_cons.1 hr
      · rw [hin] at hs
        cases hs
        cases hx
        rfl
      · cases d with
        | none => exact ih hx hrest
        | some b =>
          cases b with
          | false => exact ih hx hrest
          | true =>
            cases hx
            rfl

lemma weigh_eq_clear_iff : weigh U version ecosystem rs undecided = .ok .clear ↔
      undecided = false ∧ ∀ r ∈ rs, versionInRange U version r ecosystem = .ok (some false) := by
  induction rs generalizing undecided with
  | nil => cases undecided <;> simp [weigh]
  | cons s rest ih =>
    rw [weigh, forall_mem_cons]
    cases hs : versionInRange U version s ecosystem with
    | error e =>
      constructor
      · intro h
        cases h
      · rintro ⟨-, h, -⟩
        cases h
    | ok d =>
      cases d with
      | none =>
        constructor
        · intro h
          exact absurd (ih.1 h).1 (by simp)
        · rintro ⟨-, h, -⟩
          cases h
      | some b =>
        cases b with
        | false =>
          constructor
          · intro h
            exact ⟨(ih.1 h).1, rfl, (ih.1 h).2⟩
          · rintro ⟨hu, -, h⟩
            exact ih.2 ⟨hu, h⟩
        | true =>
          constructor
          · intro h
            cases h
          · rintro ⟨-, h, -⟩
            cases h

lemma exists_of_weigh_eq_affected (h : weigh U version ecosystem rs undecided = .ok .affected) :
    ∃ r ∈ rs, versionInRange U version r ecosystem = .ok (some true) := by
  induction rs generalizing undecided with
  | nil => cases undecided <;> simp [weigh] at h
  | cons s rest ih =>
    rw [weigh] at h
    cases hs : versionInRange U version s ecosystem with
    | error e =>
      rw [hs] at h
      cases h
    | ok d =>
      rw [hs] at h
      cases d with
      | none =>
        obtain ⟨r, hr, hin⟩ := ih h
        exact ⟨r, mem_cons_of_mem _ hr, hin⟩
      | some b =>
        cases b with
        | false =>
          obtain ⟨r, hr, hin⟩ := ih h
          exact ⟨r, mem_cons_of_mem _ hr, hin⟩
        | true => exact ⟨s, mem_cons_self, hs⟩

lemma weigh_returns_iff : (∃ x, weigh U version ecosystem rs undecided = .ok x) ↔
      ∀ r, rs.find? (stops U version ecosystem) = some r →
        versionInRange U version r ecosystem = .ok (some true) := by
  induction rs generalizing undecided with
  | nil => simp [weigh]
  | cons s rest ih =>
    rw [weigh, find?_cons, stops]
    cases hs : versionInRange U version s ecosystem with
    | error e =>
      constructor
      · rintro ⟨x, h⟩
        cases h
      · intro h
        have hin := h s rfl
        rw [hs] at hin
        cases hin
    | ok d =>
      cases d with
      | none => exact ih
      | some b =>
        cases b with
        | false => exact ih
        | true =>
          refine iff_of_true ⟨.affected, rfl⟩ fun r hr => ?_
          cases hr
          exact hs

end Weigh

section Entry

variable {U} {version : Text} {ecosystem : Option Ecosystem}

@[simp] lemma entryVerdict_nil :
    entryVerdict U version ecosystem (some []) = .ok .unknown := by
  unfold entryVerdict
  simp

variable {rs : List Range}

/-- A version is clear of an entry only where it is known, the entry has ranges, and each of them
says that it is outside. -/
lemma entryVerdict_clear_iff : entryVerdict U version ecosystem (some rs) = .ok .clear ↔
      version ≠ [] ∧ rs ≠ [] ∧
        ∀ r ∈ rs, versionInRange U version r ecosystem = .ok (some false) := by
  unfold entryVerdict
  by_cases hall : (rs.any allVersions) = true
  · obtain ⟨r, hr, h⟩ := any_eq_true.1 hall
    simp only [getD_some, hall, if_true]
    constructor
    · intro heq
      cases heq
    · rintro ⟨-, -, hout⟩
      exact absurd (hout r hr) (versionInRange_of_allVersions U h)
  · simp only [getD_some, hall]
    by_cases hv : version = []
    · simp [hv]
    · cases rs with
      | nil => simp [hv]
      | cons r rest =>
        simp only [hv, if_false, Bool.false_eq_true]
        rw [weigh_eq_clear_iff]
        simp [hv]

lemma entryVerdict_eq_affected {x : Verdict} {r : Range} (hr : r ∈ rs)
    (hx : entryVerdict U version ecosystem (some rs) = .ok x)
    (hin : allVersions r ∨
      version ≠ [] ∧ versionInRange U version r ecosystem = .ok (some true)) :
    x = .affected := by
  unfold entryVerdict at hx
  by_cases hall : (rs.any allVersions) = true
  · simp only [getD_some, hall, if_true] at hx
    cases hx
    rfl
  · obtain h | ⟨hv, hin⟩ := hin
    · exact absurd (any_eq_true.2 ⟨r, hr, h⟩) hall
    · simp only [getD_some, hall, hv, if_false, Bool.false_eq_true] at hx
      cases rs with
      | nil => cases hr
      | cons s rest => exact weigh_eq_affected hx hr hin

lemma exists_of_entryVerdict_affected
    (h : entryVerdict U version ecosystem (some rs) = .ok .affected) :
    ∃ r ∈ rs, allVersions r ∨
      version ≠ [] ∧ versionInRange U version r ecosystem = .ok (some true) := by
  unfold entryVerdict at h
  by_cases hall : (rs.any allVersions) = true
  · obtain ⟨r, hr, hr'⟩ := any_eq_true.1 hall
    exact ⟨r, hr, Or.inl hr'⟩
  · by_cases hv : version = []
    · simp [hall, hv] at h
    · simp only [getD_some, hall, hv, if_false, Bool.false_eq_true] at h
      cases rs with
      | nil => cases h
      | cons s rest =>
        obtain ⟨r, hr, hin⟩ := exists_of_weigh_eq_affected h
        exact ⟨r, hr, Or.inr ⟨hv, hin⟩⟩

theorem entryVerdict_mono {rs' : List Range} {x y : Verdict} (hne : rs ≠ [])
    (hsub : ∀ r ∈ rs, r ∈ rs') (hy : entryVerdict U version ecosystem (some rs) = .ok y)
    (hx : entryVerdict U version ecosystem (some rs') = .ok x) : y.rank ≤ x.rank := by
  cases y with
  | clear => exact Nat.zero_le _
  | affected =>
    obtain ⟨r, hr, hin⟩ := exists_of_entryVerdict_affected hy
    rw [entryVerdict_eq_affected (hsub r hr) hx hin]
  | unknown =>
    cases x with
    | clear =>
      obtain ⟨hv, -, hout⟩ := entryVerdict_clear_iff.1 hx
      have hclear := entryVerdict_clear_iff.2 ⟨hv, hne, fun r hr => hout r (hsub r hr)⟩
      rw [hy] at hclear
      cases hclear
    | unknown => exact le_refl _
    | affected => exact Nat.le_succ 1

lemma entryVerdict_returns_iff :
    (∃ x, entryVerdict U version ecosystem (some rs) = .ok x) ↔
    Compares U version ecosystem rs := by
  unfold entryVerdict Compares
  by_cases hall : (rs.any allVersions) = true
  · simp only [getD_some, hall, if_true]
    exact iff_of_true ⟨_, rfl⟩ (.inl (any_eq_true.1 hall))
  · have hnone : ¬ ∃ r ∈ rs, allVersions r = true := fun h => hall (any_eq_true.2 h)
    simp only [getD_some, hall, hnone, if_false, false_or, Bool.false_eq_true]
    by_cases hv : version = []
    · simp [hv]
    · simp only [hv, if_false, false_or]
      cases rs with
      | nil => simp
      | cons r rest => exact weigh_returns_iff

end Entry

end Lazaret.Sca
