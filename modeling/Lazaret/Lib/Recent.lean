import Mathlib.Data.List.Basic

/-!
# Caches of what was read last

A cache in front of a reading that may fail: what is in it is moved to its end when it is asked for,
what is read is put at its end, and the oldest go when there are too many.  As long as it holds only
what the reading gives (`Sound`), a lookup is the reading itself (`get_eq`) and leaves it so
(`sound_get`).
-/

namespace Lazaret.Recent

open List

variable {κ α ε : Type*} [DecidableEq κ]

def find (cache : List (κ × α)) (key : κ) : Option α :=
  (cache.find? fun e => e.1 = key).map Prod.snd

/-- `move_to_end` -/
def touch (cache : List (κ × α)) (key : κ) : List (κ × α) :=
  cache.filter (fun e => e.1 ≠ key) ++ cache.filter fun e => e.1 = key

/-- Put at the end; then the oldest go while there are more than the limit. -/
def remember (limit : ℕ) (cache : List (κ × α)) (key : κ) (value : α) : List (κ × α) :=
  (cache ++ [(key, value)]).drop (cache.length + 1 - limit)

/-- A lookup through the cache: what is read is remembered where `keep` says so. -/
def get (read : κ → Except ε α) (keep : κ → Bool) (limit : ℕ) (cache : List (κ × α)) (key : κ) :
    Except ε α × List (κ × α) :=
  match find cache key with
  | some value => (.ok value, touch cache key)
  | none =>
    match read key with
    | .error e => (.error e, cache)
    | .ok value => (.ok value, if keep key then remember limit cache key value else cache)

def Sound (read : κ → Except ε α) (cache : List (κ × α)) : Prop :=
  ∀ e ∈ cache, read e.1 = .ok e.2

variable {read : κ → Except ε α} {keep : κ → Bool} {limit : ℕ} {cache : List (κ × α)}

omit [DecidableEq κ] in
lemma sound_nil : Sound read [] := fun e he => by cases he

lemma read_of_find {key : κ} {value : α} (h : Sound read cache)
    (hfind : find cache key = some value) : read key = .ok value := by
  obtain ⟨e, he, rfl⟩ := Option.map_eq_some_iff.1 hfind
  have hkey : e.1 = key := by simpa using List.find?_some he
  rw [← hkey]
  exact h e (mem_of_find?_eq_some he)

theorem get_eq (h : Sound read cache) (key : κ) : (get read keep limit cache key).1 = read key := by
  rw [get]
  split
  · rename_i value hfind
    exact (read_of_find h hfind).symm
  · split <;> simp_all

theorem sound_get (h : Sound read cache) (key : κ) :
    Sound read (get read keep limit cache key).2 := by
  rw [get]
  split
  · intro e he
    rw [touch, mem_append] at he
    obtain he | he := he
    · exact h e (mem_filter.1 he).1
    · exact h e (mem_filter.1 he).1
  · split
    · exact h
    · rename_i value hread
      dsimp only
      split
      · intro e he
        have hmem := mem_of_mem_drop he
        rw [mem_append, mem_singleton] at hmem
        obtain hmem | rfl := hmem
        · exact h e hmem
        · exact hread
      · exact h

/-! ## Loops -/

variable {σ β : Type*}

/-- A loop of calls that share caches, up to the first that fails. -/
def overAll (f : σ → β → Except ε α × σ) : List β → σ → Except ε (List α) × σ
  | [], s => (.ok [], s)
  | x :: xs, s =>
    match f s x with
    | (.error e, s) => (.error e, s)
    | (.ok y, s) =>
      match overAll f xs s with
      | (.error e, s) => (.error e, s)
      | (.ok ys, s) => (.ok (y :: ys), s)

omit [DecidableEq κ] in
theorem overAll_spec {ε α β σ : Type _} {f : σ → β → Except ε α × σ} {good : σ → Prop}
    {g : β → Except ε α} (hf : ∀ s x, good s → (f s x).1 = g x ∧ good (f s x).2) (xs : List β)
    {s : σ} (hs : good s) : (overAll f xs s).1 = xs.mapM g ∧ good (overAll f xs s).2 := by
  induction xs generalizing s with
  | nil => exact ⟨rfl, hs⟩
  | cons x xs ih =>
    obtain ⟨hx, hgood⟩ := hf s x hs
    rw [overAll, mapM_cons, ← hx]
    cases hfx : f s x with
    | mk r s' =>
      rw [hfx] at hgood
      cases r with
      | error e => exact ⟨rfl, hgood⟩
      | ok y =>
        obtain ⟨hrest, hgood'⟩ := ih hgood
        dsimp only
        rw [← hrest]
        cases hxs : overAll f xs s' with
        | mk r' s'' =>
          rw [hxs] at hgood'
          cases r' with
          | error | ok => exact ⟨rfl, hgood'⟩

end Lazaret.Recent
