import Lazaret.Lib.Backtracking
import Lazaret.X509.Search

/-!
# What the search explores

`Completion` says, without an order and without a budget, how a path can be continued to an anchor:
each intermediate at most once, and no more of them than are left.  Every call of the search
explores the completions of its path (`search_explored`).
-/

namespace Lazaret.X509

open List

variable {P : Prims} {R : Reader} {q : Query R}

/-! ## Completions -/

/-- The anchor ends the path: it verifies the last certificate, and the path passes. -/
def EndsIn (P : Prims) (q : Query R) (above : List Certificate) (a : Certificate × Option ℤ)
    (p : List Certificate) : Prop :=
  verifySignedBy P (q.top above) a.1 = .ok () ∧
    checkAnchor P q (above ++ [a.1]) a.1 a.2 = .ok () ∧ p = above ++ [a.1]

/-- The paths that a path can be continued to: an anchor of its last certificate ends it, or an
intermediate that is not in it yet goes on. -/
inductive Completion (P : Prims) (q : Query R) :
    ℕ → List Certificate → List Bool → List Certificate → Prop
  | anchor {left : ℕ} {above : List Certificate} {used : List Bool} {p : List Certificate}
      {a : Certificate × Option ℤ} (ha : a ∈ q.store.anchorsFor (q.top above).issuerKey)
      (hends : EndsIn P q above a p) : Completion P q left above used p
  | step {left : ℕ} {above : List Certificate} {used : List Bool} {p : List Certificate} {i : ℕ}
      {ic : Certificate} (hi : q.inters[i]? = some ic) (hused : used[i]? = some false)
      (hkey : ic.subjectKey = (q.top above).issuerKey) (hself : ic.isSelfIssued = false)
      (hsigned : verifySignedBy P (q.top above) ic = .ok ())
      (hrest : Completion P q left (above ++ [ic]) (used.set i true) p) :
      Completion P q (left + 1) above used p

/-- The search as the library sees it: it costs the candidates tried, keeps the path and the array
of what is in it, and never checks more signatures than the budget. -/
def searchView : View Search (List Certificate × List Bool) (List Certificate) where
  cost := Search.attempts
  budget := MAX_PATH_ATTEMPTS
  kept := fun s => (s.above, s.used)
  result := Search.above
  inv := fun s => s.checks ≤ s.attempts ∧ s.checks ≤ MAX_PATH_ATTEMPTS

/-! ## The state of the search -/

section State

variable (s : Search) (c : Certificate) (e : Error) (what : String) (i : ℕ) (b : Bool)

@[simp] lemma setErr_above : (s.setErr e).above = s.above := rfl
@[simp] lemma push_above : (s.push c).above = s.above ++ [c] := rfl
@[simp] lemma push_used : (s.push c).used = s.used := rfl
@[simp] lemma pop_above : s.pop.above = s.above.dropLast := rfl
@[simp] lemma pop_used : s.pop.used = s.used := rfl
@[simp] lemma mark_above : (s.mark i b).above = s.above := rfl
@[simp] lemma mark_used : (s.mark i b).used = s.used.set i b := rfl

end State

variable {F : List Certificate → Prop} {s' : Search}

lemma explored_failed {s : Search} (habove : s'.above = s.above)
    (hused : s'.used = s.used) (hattempts : s'.attempts = s.attempts)
    (hchecks : s'.checks = s.checks) (hno : ∀ p, ¬ F p) : Explored searchView F s s' false where
  cost_le := hattempts.ge
  inv := by simp only [searchView, hattempts, hchecks, imp_self]
  found := fun h => by cases h
  kept := fun _ => by simp only [searchView, habove, hused]
  exhausted := fun _ _ => hno

lemma explored_of_attempt {s : Search} {b : Bool} (hle : ¬ MAX_PATH_ATTEMPTS < s.attempt.attempts)
    (h : Explored searchView F s.attempt.check s' b) : Explored searchView F s s' b := by
  have hattempts : s.attempts + 1 ≤ MAX_PATH_ATTEMPTS := not_lt.1 hle
  have hkept : searchView.kept s.attempt.check = searchView.kept s := rfl
  refine .after (Nat.le_succ _) (fun hinv => ?_) hkept h
  have hchecks : s.checks ≤ s.attempts := hinv.1
  exact ⟨Nat.succ_le_succ hchecks, (Nat.succ_le_succ hchecks).trans hattempts⟩

lemma explored_gaveUp (F : List Certificate → Prop) {s : Search}
    (hlt : MAX_PATH_ATTEMPTS < s.attempt.attempts) :
    Explored searchView F s s.attempt false :=
  .gave_up (Nat.le_succ _) (fun hinv => ⟨hinv.1.trans (Nat.le_succ _), hinv.2⟩) rfl hlt

/-! ## Anchors -/

lemma tryAnchor_explored (s : Search) (a : Certificate × Option ℤ) :
    Explored searchView (EndsIn P q s.above a) s (tryAnchor P q (q.top s.above) a.1 a.2 s).2
      (tryAnchor P q (q.top s.above) a.1 a.2 s).1 := by
  rw [tryAnchor]
  cases hsigned : verifySignedBy P (q.top s.above) a.1 with
  | error e =>
    refine explored_failed rfl rfl rfl rfl fun p hp => ?_
    rw [EndsIn, hsigned] at hp
    exact absurd hp.1 (by simp)
  | ok u =>
    dsimp only
    rw [push_above]
    cases hcheck : checkAnchor P q (s.above ++ [a.1]) a.1 a.2 with
    | error e =>
      refine explored_failed (by simp) rfl rfl rfl fun p hp => ?_
      rw [EndsIn, hcheck] at hp
      exact absurd hp.2.1 (by simp)
    | ok u' =>
      exact
        { cost_le := le_rfl
          inv := id
          found := fun _ => ⟨hsigned, hcheck, rfl⟩
          kept := fun h => by cases h
          exhausted := fun h => by cases h }

lemma tryAnchors_explored (anchors : List (Certificate × Option ℤ)) (s : Search) (n : ℕ) :
    Explored searchView (fun p => ∃ a ∈ anchors, EndsIn P q s.above a p) s
        (tryAnchors P q (q.top s.above) anchors s n).2.1
        (decide ((tryAnchors P q (q.top s.above) anchors s n).1 = .found)) ∧
      ((tryAnchors P q (q.top s.above) anchors s n).1 = .gaveUp →
        MAX_PATH_ATTEMPTS < (tryAnchors P q (q.top s.above) anchors s n).2.1.attempts) := by
  induction anchors generalizing s n with
  | nil =>
    refine ⟨(Explored.nothing searchView s).congr fun p => by simp, fun h => by cases h⟩
  | cons a rest ih =>
    obtain ⟨root, t⟩ := a
    rw [tryAnchors]
    dsimp only
    split_ifs with hlt hfound
    · exact ⟨explored_gaveUp _ hlt, fun _ => hlt⟩
    · have hone := tryAnchor_explored (P := P) (q := q) s.attempt.check (root, t)
      have habove : s.attempt.check.above = s.above := rfl
      rw [habove, hfound] at hone
      exact ⟨explored_of_attempt hlt
        (hone.found_imp fun p hp => ⟨_, mem_cons_self, hp⟩), fun h => by cases h⟩
    · have hone := tryAnchor_explored (P := P) (q := q) s.attempt.check (root, t)
      have habove : s.attempt.check.above = s.above := rfl
      rw [habove, Bool.eq_false_iff.2 hfound] at hone
      have hkept : (tryAnchor P q (q.top s.above) root t s.attempt.check).2.above = s.above :=
        congrArg Prod.fst (hone.kept rfl)
      have hrest := ih (tryAnchor P q (q.top s.above) root t s.attempt.check).2 (n + 1)
      rw [hkept] at hrest
      refine ⟨explored_of_attempt hlt ((hone.or_else hrest.1).congr fun p => ?_), hrest.2⟩
      simp only [exists_mem_cons_iff]

/-! ## Intermediates -/

/-- The path goes on with the intermediate at an index. -/
def GoesOn (P : Prims) (q : Query R) (left : ℕ) (above : List Certificate) (used : List Bool)
    (i : ℕ) (ic : Certificate) (p : List Certificate) : Prop :=
  used[i]? = some false ∧ ic.subjectKey = (q.top above).issuerKey ∧ ic.isSelfIssued = false ∧
    verifySignedBy P (q.top above) ic = .ok () ∧
      Completion P q left (above ++ [ic]) (used.set i true) p

lemma set_of_getElem? {xs : List Bool} {i : ℕ} {b : Bool} (h : xs[i]? = some b) :
    xs.set i b = xs := by
  obtain ⟨hi, rfl⟩ := List.getElem?_eq_some_iff.1 h
  exact set_getElem_self hi

/-- A call of the search explores the completions of its path. -/
def Explores (P : Prims) (q : Query R) (left : ℕ) (f : Search → Bool × Search) : Prop :=
  ∀ s, Explored searchView (Completion P q left s.above s.used) s (f s).2 (f s).1

variable {left : ℕ} {deeper : Search → Bool × Search}

lemma tryIntermediate_explored
    (hdeeper : Explores P q left deeper) (s : Search) {i : ℕ} {ic : Certificate}
    (hcand : isCandidate (q.top s.above) s i ic = true) :
    Explored searchView (GoesOn P q left s.above s.used i ic) s
      (tryIntermediate P deeper (q.top s.above) i ic s).2
      (tryIntermediate P deeper (q.top s.above) i ic s).1 := by
  rw [isCandidate, decide_eq_true_iff] at hcand
  obtain ⟨hused, hkey, hself⟩ := hcand
  rw [tryIntermediate]
  cases hsigned : verifySignedBy P (q.top s.above) ic with
  | error e =>
    refine explored_failed rfl rfl rfl rfl fun p hp => ?_
    rw [GoesOn, hsigned] at hp
    exact absurd hp.2.2.2.1 (by simp)
  | ok u =>
    have hgoes (p : List Certificate) : Completion P q left (s.above ++ [ic])
        (s.used.set i true) p ↔ GoesOn P q left s.above s.used i ic p := by
      simp only [GoesOn, hused, hkey, hself, hsigned, true_and]
    have hrest := hdeeper ((s.mark i true).push ic)
    dsimp only
    cases hfound : (deeper ((s.mark i true).push ic)).1 with
    | true =>
      rw [hfound] at hrest
      rw [if_pos rfl, hfound]
      exact
        { cost_le := hrest.cost_le
          inv := hrest.inv
          found := fun hb => (hgoes _).1 (hrest.found hb)
          kept := fun hb => by cases hb
          exhausted := fun hb => by cases hb }
    | false =>
      rw [hfound] at hrest
      rw [if_neg (by simp)]
      have hkept := hrest.kept rfl
      simp only [searchView, Prod.mk.injEq, push_above, mark_above, push_used, mark_used]
        at hkept
      exact
        { cost_le := hrest.cost_le
          inv := hrest.inv
          found := fun hb => by cases hb
          kept := fun _ => by
            -- the intermediate is taken off the path, and its entry is what it was
            simp only [searchView, mark_above, pop_above, mark_used, pop_used, hkept.1,
              hkept.2, dropLast_concat, set_set, Prod.mk.injEq, true_and]
            exact set_of_getElem? hused
          exhausted := fun hb hle p hp => hrest.exhausted hb hle p ((hgoes p).2 hp) }

lemma exists_getElem?_cons {α : Type*} {Q : ℕ → α → Prop} {a : α} {xs : List α} :
    (∃ j x, (a :: xs)[j]? = some x ∧ Q j x) ↔ Q 0 a ∨ ∃ j x, xs[j]? = some x ∧ Q (j + 1) x := by
  constructor
  · rintro ⟨_ | j, x, hx, hQ⟩
    · rw [getElem?_cons_zero, Option.some.injEq] at hx
      exact .inl (hx ▸ hQ)
    · exact .inr ⟨j, x, hx, hQ⟩
  · rintro (hQ | ⟨j, x, hx, hQ⟩)
    · exact ⟨0, a, rfl, hQ⟩
    · exact ⟨j + 1, x, hx, hQ⟩

/-- The path goes on with one of some intermediates, the first of which has the index `i`. -/
def GoesOnFrom (P : Prims) (q : Query R) (left : ℕ) (above : List Certificate) (used : List Bool)
    (i : ℕ) (rest : List Certificate) (p : List Certificate) : Prop :=
  ∃ j ic, rest[j]? = some ic ∧ GoesOn P q left above used (i + j) ic p

variable {p above : List Certificate} {used : List Bool}

lemma goesOnFrom_cons {i : ℕ} {rest : List Certificate}
    {ic : Certificate} : GoesOnFrom P q left above used i (ic :: rest) p ↔
      GoesOn P q left above used i ic p ∨ GoesOnFrom P q left above used (i + 1) rest p := by
  rw [GoesOnFrom, exists_getElem?_cons]
  simp only [GoesOnFrom, add_zero, add_comm 1, add_assoc]

lemma tryIntermediates_explored
    (hdeeper : Explores P q left deeper) (rest : List Certificate) (i : ℕ) (s : Search) (n : ℕ) :
    Explored searchView (GoesOnFrom P q left s.above s.used i rest) s
        (tryIntermediates P deeper (q.top s.above) i rest s n).2.1
        (decide ((tryIntermediates P deeper (q.top s.above) i rest s n).1 = .found)) ∧
      ((tryIntermediates P deeper (q.top s.above) i rest s n).1 = .gaveUp →
        MAX_PATH_ATTEMPTS <
          (tryIntermediates P deeper (q.top s.above) i rest s n).2.1.attempts) := by
  induction rest generalizing i s n with
  | nil =>
    refine ⟨(Explored.nothing searchView s).congr fun p => ?_, fun h => by cases h⟩
    simp [GoesOnFrom]
  | cons ic rest ih =>
    rw [tryIntermediates]
    split_ifs with hcand
    · dsimp only
      have hone := tryIntermediate_explored hdeeper s.attempt.check
        (show isCandidate (q.top s.above) s.attempt.check i ic = true from hcand)
      have habove : s.attempt.check.above = s.above := rfl
      have hused : s.attempt.check.used = s.used := rfl
      rw [habove, hused] at hone
      split_ifs with hlt hfound
      · exact ⟨explored_gaveUp _ hlt, fun _ => hlt⟩
      · rw [hfound] at hone
        exact ⟨explored_of_attempt hlt
          (hone.found_imp fun p hp => goesOnFrom_cons.2 (.inl hp)), fun h => by cases h⟩
      · rw [Bool.eq_false_iff.2 hfound] at hone
        have hkept := hone.kept rfl
        simp only [searchView, Prod.mk.injEq, habove, hused] at hkept
        have hrest := ih (i + 1)
          (tryIntermediate P deeper (q.top s.above) i ic s.attempt.check).2 (n + 1)
        rw [hkept.1, hkept.2] at hrest
        exact ⟨explored_of_attempt hlt
          ((hone.or_else hrest.1).congr fun p => goesOnFrom_cons.symm), hrest.2⟩
    · refine ⟨(ih (i + 1) s n).1.congr fun p => ?_, (ih (i + 1) s n).2⟩
      rw [goesOnFrom_cons, or_iff_right]
      rintro ⟨hused, hkey, hself, -⟩
      exact hcand (decide_eq_true ⟨hused, hkey, hself⟩)

/-! ## The search -/

lemma completion_iff : Completion P q (left + 1) above used p ↔
      (∃ a ∈ q.store.anchorsFor (q.top above).issuerKey, EndsIn P q above a p) ∨
        GoesOnFrom P q left above used 0 q.inters p := by
  constructor
  · rintro (⟨ha, hends⟩ | ⟨hi, hused, hkey, hself, hsigned, hrest⟩)
    · exact .inl ⟨_, ha, hends⟩
    · exact .inr ⟨_, _, hi, by rw [zero_add]; exact ⟨hused, hkey, hself, hsigned, hrest⟩⟩
  · rintro (⟨a, ha, hends⟩ | ⟨j, ic, hj, hgoes⟩)
    · exact .anchor ha hends
    · rw [zero_add] at hgoes
      exact .step hj hgoes.1 hgoes.2.1 hgoes.2.2.1 hgoes.2.2.2.1 hgoes.2.2.2.2

lemma completion_zero_iff : Completion P q 0 above used p ↔
      ∃ a ∈ q.store.anchorsFor (q.top above).issuerKey, EndsIn P q above a p := by
  constructor
  · rintro ⟨ha, hends⟩
    exact ⟨_, ha, hends⟩
  · rintro ⟨a, ha, hends⟩
    exact .anchor ha hends

lemma explored_message {s : Search} {what : String} {b : Bool}
    (h : Explored searchView F s s' b) : Explored searchView F s (s'.keepEnd what) b where
  cost_le := h.cost_le
  inv := h.inv
  found := h.found
  kept := h.kept
  exhausted := h.exhausted

lemma afterAnchors_none (s : Search) (cur : Certificate) (n : ℕ) :
    Explored searchView (fun _ => False) s (afterAnchors P q none cur s n).2
      (afterAnchors P q none cur s n).1 :=
  explored_message (.nothing searchView s)

lemma afterAnchors_some (hdeeper : Explores P q left deeper) (s : Search) (n : ℕ) :
    Explored searchView (GoesOnFrom P q left s.above s.used 0 q.inters) s
      (afterAnchors P q (some deeper) (q.top s.above) s n).2
      (afterAnchors P q (some deeper) (q.top s.above) s n).1 := by
  obtain ⟨hexp, hgave⟩ := tryIntermediates_explored hdeeper q.inters 0 s n
  rw [afterAnchors]
  generalize tryIntermediates P deeper (q.top s.above) 0 q.inters s n = r at hexp hgave
  obtain ⟨ending, s', n'⟩ := r
  cases ending with
  | found => exact hexp
  | gaveUp => exact hexp
  | done =>
    dsimp only
    split_ifs
    · exact explored_message hexp
    · exact hexp

lemma searchFrom_explored {G : List Certificate → Prop} {deeper : Option (Search → Bool × Search)}
    (s : Search)
    (hafter : ∀ s' n, s'.above = s.above → s'.used = s.used →
      Explored searchView G s' (afterAnchors P q deeper (q.top s.above) s' n).2
        (afterAnchors P q deeper (q.top s.above) s' n).1) :
    Explored searchView
      (fun p => (∃ a ∈ q.store.anchorsFor (q.top s.above).issuerKey, EndsIn P q s.above a p) ∨ G p)
      s (searchFrom P q deeper s).2 (searchFrom P q deeper s).1 := by
  obtain ⟨hexp, hgave⟩ := tryAnchors_explored (P := P) (q := q)
    (q.store.anchorsFor (q.top s.above).issuerKey) s 0
  rw [searchFrom]
  generalize tryAnchors P q (q.top s.above) (q.store.anchorsFor (q.top s.above).issuerKey) s 0 = r
    at hexp hgave
  obtain ⟨ending, s', n⟩ := r
  cases ending with
  | found => exact hexp.found_imp fun p hp => .inl hp
  | gaveUp => exact .gave_up hexp.cost_le hexp.inv (hexp.kept rfl) (hgave rfl)
  | done =>
    have hkept := hexp.kept rfl
    simp only [searchView, Prod.mk.injEq] at hkept
    exact hexp.or_else (hafter s' n hkept.1 hkept.2)

theorem search_explored (left : ℕ) : Explores P q left (search P q left) := by
  induction left with
  | zero =>
    intro s
    refine (searchFrom_explored s fun s' n _ _ => afterAnchors_none s' _ n).congr fun p => ?_
    rw [completion_zero_iff, or_false]
  | succ left ih =>
    intro s
    refine (searchFrom_explored s fun s' n habove hused => ?_).congr fun p =>
      completion_iff.symm
    have h := afterAnchors_some ih s' n
    rwa [habove, hused] at h

end Lazaret.X509
