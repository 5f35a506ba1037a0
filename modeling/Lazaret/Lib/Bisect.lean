import Mathlib.Order.Lattice

/-!
# Bisection

A search by halving, in a table that is read at a position and compared there.  In a table in strict
order it finds every key that is in the table (`bisect_eq_some`), and in any table what it finds is
the key (`eq_of_bisect`).
-/

namespace Lazaret.Bisect

variable {κ : Type*} [LinearOrder κ]

/-- The loop, between two positions; the fuel bounds how far these are apart. -/
def search (table : ℕ → κ) (key : κ) : ℕ → ℕ → ℕ → Option ℕ
  | 0, _, _ => none
  | fuel + 1, lo, hi =>
    if lo < hi then
      let mid := (lo + hi) / 2
      if table mid < key then search table key fuel (mid + 1) hi
      else if key < table mid then search table key fuel lo mid
      else some mid
    else none

/-- The position of a key among the first `n`. -/
def bisect (table : ℕ → κ) (key : κ) (n : ℕ) : Option ℕ := search table key n 0 n

variable {table : ℕ → κ} {key : κ}

lemma eq_of_search {fuel lo hi i : ℕ} (h : search table key fuel lo hi = some i) :
    table i = key ∧ lo ≤ i ∧ i < hi := by
  induction fuel generalizing lo hi with
  | zero => cases h
  | succ fuel ih =>
    rw [search] at h
    split at h
    · rename_i hlt
      dsimp only at h
      split at h
      · obtain ⟨heq, hlow, hhigh⟩ := ih h
        exact ⟨heq, by omega, hhigh⟩
      · split at h
        · obtain ⟨heq, hlow, hhigh⟩ := ih h
          exact ⟨heq, hlow, by omega⟩
        · rename_i hle hge
          cases h
          refine ⟨le_antisymm (not_lt.1 hge) (not_lt.1 hle), ?_, ?_⟩ <;> omega
    · cases h

theorem eq_of_bisect {n i : ℕ} (h : bisect table key n = some i) : table i = key ∧ i < n := by
  obtain ⟨heq, -, hlt⟩ := eq_of_search h
  exact ⟨heq, hlt⟩

-- The key stays between the two positions, which come closer with every turn.
lemma search_eq_some {n fuel lo hi i : ℕ} (hsorted : ∀ a b, a < b → b < n → table a < table b)
    (hi_le : hi ≤ n) (hfuel : hi - lo ≤ fuel) (hlo : lo ≤ i) (hlt : i < hi) (hkey : table i = key) :
    search table key fuel lo hi = some i := by
  induction fuel generalizing lo hi with
  | zero => omega
  | succ fuel ih =>
    rw [search, if_pos (by omega)]
    dsimp only
    obtain hmid | hmid | hmid := Nat.lt_trichotomy ((lo + hi) / 2) i
    · have hless : table ((lo + hi) / 2) < key := hkey ▸ hsorted _ _ hmid (by omega)
      rw [if_pos hless]
      exact ih hi_le (by omega) (by omega) hlt
    · rw [hmid, hkey, if_neg (lt_irrefl key), if_neg (lt_irrefl key)]
    · have hmore : key < table ((lo + hi) / 2) := hkey ▸ hsorted _ _ hmid (by omega)
      rw [if_neg (lt_asymm hmore), if_pos hmore]
      exact ih (by omega) (by omega) hlo hmid

theorem bisect_eq_some {n i : ℕ} (hsorted : ∀ a b, a < b → b < n → table a < table b) :
    bisect table key n = some i ↔ i < n ∧ table i = key := by
  constructor
  · intro h
    exact (eq_of_bisect h).symm
  · rintro ⟨hlt, hkey⟩
    exact search_eq_some hsorted (Nat.le_refl n) (by omega) (Nat.zero_le i) hlt hkey

end Lazaret.Bisect
