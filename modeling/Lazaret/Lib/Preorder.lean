import Mathlib.Data.List.Basic
import Mathlib.Order.Nat

/-!
# Depth-first searches with a stack

A search goes through the items of a graph in preorder, each node at most once and no more nodes
than its budget.  At a node it finds something, which ends it, or goes on with the items below, in
order; an item that cuts ends the search when what is below it has been gone through.  The recursion
`Search.explore` and the loop with a stack `Search.walk` find the same (`Search.walk_eq_explore`).
-/

namespace Lazaret

open List

/-- What a search goes through: the node an item is for, and what is found there or the items below,
each with whether it cuts. -/
structure Search (ι ν ρ : Type*) where
  node : ι → ν
  look : ι → ρ ⊕ List (ι × Bool)

namespace Search

variable {ι ν ρ : Type*} [DecidableEq ν] (s : Search ι ν ρ)

/-! ### By recursion -/

mutual

/-- The search of an item and all that is below it: what the search ended with, or, when it goes on,
the nodes it has visited. -/
def visit (budget : ℕ) (e : ι) (visited : List ν) :
    Option ρ ⊕ {w : List ν // visited.length ≤ w.length} :=
  if s.node e ∈ visited then .inr ⟨visited, Nat.le_refl _⟩
  else if _hleft : budget ≤ visited.length then .inl none
  else match s.look e with
    | .inl r => .inl (some r)
    | .inr below =>
      match explore budget below (visited ++ [s.node e]) with
      | .inl o => .inl o
      | .inr w => .inr ⟨w.1, Nat.le_trans (by simp) w.2⟩
termination_by (budget - visited.length, 0)
decreasing_by
  rw [Prod.lex_def, List.length_append, List.length_singleton]
  exact Or.inl (by omega)

/-- The search of items in order, each with all that is below it before the next one. -/
def explore (budget : ℕ) (items : List (ι × Bool)) (visited : List ν) :
    Option ρ ⊕ {w : List ν // visited.length ≤ w.length} :=
  match items with
  | [] => .inr ⟨visited, Nat.le_refl _⟩
  | (e, cuts) :: rest =>
    match visit budget e visited with
    | .inl o => .inl o
    | .inr w =>
      if cuts then .inl none
      else match explore budget rest w.1 with
        | .inl o => .inl o
        | .inr x => .inr ⟨x.1, Nat.le_trans w.2 x.2⟩
termination_by (budget - visited.length, items.length + 1)
decreasing_by
  · rw [Prod.lex_def]
    exact Or.inr ⟨rfl, Nat.succ_pos _⟩
  · have _ := w.2
    rw [Prod.lex_def, List.length_cons]
    dsimp only
    omega

end

def find (budget : ℕ) (items : List (ι × Bool)) : Option ρ :=
  match s.explore budget items [] with
  | .inl o => o
  | .inr _ => none

/-! ### With a stack -/

/-- The items up to the first that cuts, and whether there is one. -/
def upToCut : List (ι × Bool) → List ι × Bool
  | [] => ([], false)
  | (e, true) :: _ => ([e], true)
  | (e, false) :: rest => (e :: (upToCut rest).1, (upToCut rest).2)

/-- The top of the stack, less the nodes that were visited. -/
def popUnvisited (visited : List ν) : List ι → Option (ι × List ι)
  | [] => none
  | e :: stack => if s.node e ∈ visited then popUnvisited visited stack else some (e, stack)

/-- The items below a node come on top of the stack, which one that cuts empties first. -/
def push (items : List (ι × Bool)) (stack : List ι) : List ι :=
  (upToCut items).1 ++ if (upToCut items).2 then [] else stack

/-- The loop, with how many more nodes it visits: what it found, and the nodes it visited. -/
def walk : ℕ → List ν → List ι → Option ρ × List ν
  | 0, visited, _ => (none, visited)
  | left + 1, visited, stack =>
    match s.popUnvisited visited stack with
    | none => (none, visited)
    | some (e, stack) =>
      match s.look e with
      | .inl r => (some r, visited)
      | .inr below => walk left (visited ++ [s.node e]) (push below stack)

variable {s}

lemma push_cons (e : ι) (cuts : Bool) (rest : List (ι × Bool)) (stack : List ι) :
    push ((e, cuts) :: rest) stack = e :: if cuts then [] else push rest stack := by
  cases cuts <;> rfl

variable {visited : List ν} {left : ℕ}

lemma walk_visited {e : ι} (h : s.node e ∈ visited)
    (stack : List ι) : s.walk left visited (e :: stack) = s.walk left visited stack := by
  cases left with
  | zero => rfl
  | succ left => rw [walk, walk, popUnvisited, if_pos h]

lemma walk_unvisited {e : ι} (h : s.node e ∉ visited) (left : ℕ)
    (stack : List ι) : s.walk (left + 1) visited (e :: stack) =
      match s.look e with
      | .inl r => (some r, visited)
      | .inr below => s.walk left (visited ++ [s.node e]) (push below stack) := by
  rw [walk, popUnvisited, if_neg h]

lemma walk_nil (left : ℕ) (visited : List ν) : s.walk left visited [] = (none, visited) := by
  cases left <;> rfl

/-- What a part of the search came to, and what the loop finds with the rest of the stack when the
search goes on. -/
def goOn (s : Search ι ν ρ) (budget : ℕ) (stack : List ι) {visited : List ν} :
    Option ρ ⊕ {w : List ν // visited.length ≤ w.length} → Option ρ
  | .inl o => o
  | .inr w => (s.walk (budget - w.1.length) w.1 stack).1

/-- What the loop finds with an item on top of its stack is what the recursion finds there, and when
that goes on, what the loop finds with the rest. -/
lemma walk_visit {budget : ℕ}
    (ih : ∀ items (w : List ν) (stack : List ι), budget - w.length < budget - visited.length →
      (s.walk (budget - w.length) w (push items stack)).1 =
        goOn s budget stack (s.explore budget items w)) (e : ι) (stack : List ι) :
    (s.walk (budget - visited.length) visited (e :: stack)).1 =
      goOn s budget stack (s.visit budget e visited) := by
  rw [visit]
  by_cases hmem : s.node e ∈ visited
  · rw [if_pos hmem, walk_visited hmem]
    rfl
  rw [if_neg hmem]
  by_cases hleft : budget ≤ visited.length
  · rw [dif_pos hleft, Nat.sub_eq_zero_of_le hleft]
    rfl
  rw [dif_neg hleft]
  have hsucc : budget - visited.length = (budget - (visited ++ [s.node e]).length) + 1 := by
    rw [length_append, length_singleton]
    omega
  rw [hsucc, walk_unvisited hmem]
  cases s.look e with
  | inl r => rfl
  | inr below =>
    dsimp only
    rw [ih below _ stack (by omega)]
    cases s.explore budget below (visited ++ [s.node e]) <;> rfl

lemma walk_push (budget : ℕ) (items : List (ι × Bool)) (visited : List ν) (stack : List ι) :
    (s.walk (budget - visited.length) visited (push items stack)).1 =
      goOn s budget stack (s.explore budget items visited) := by
  suffices h : ∀ n items (visited : List ν) (stack : List ι), budget - visited.length < n →
      (s.walk (budget - visited.length) visited (push items stack)).1 =
        goOn s budget stack (s.explore budget items visited) from
    h _ items visited stack (Nat.lt_succ_self _)
  intro n
  induction n with
  | zero => exact fun _ _ _ hn => absurd hn (Nat.not_lt_zero _)
  | succ n ihn =>
    intro items
    induction items with
    | nil =>
      intro visited stack _
      rw [explore]
      rfl
    | cons x rest ihr =>
      intro visited stack hn
      obtain ⟨e, cuts⟩ := x
      have hdeeper : ∀ items (w : List ν) (stack : List ι),
          budget - w.length < budget - visited.length →
          (s.walk (budget - w.length) w (push items stack)).1 =
            goOn s budget stack (s.explore budget items w) :=
        fun items w stack hw => ihn items w stack (by omega)
      rw [push_cons, walk_visit hdeeper, explore]
      cases s.visit budget e visited with
      | inl o => rfl
      | inr w =>
        dsimp only [goOn]
        cases cuts with
        | true => rw [if_pos rfl, if_pos rfl, walk_nil]
        | false =>
          rw [if_neg (by simp), if_neg (by simp), ihr w.1 stack (by omega)]
          cases s.explore budget rest w.1 <;> rfl

theorem walk_eq_find (s : Search ι ν ρ) (budget : ℕ) (items : List (ι × Bool)) :
    (s.walk budget [] (push items [])).1 = s.find budget items := by
  have h := walk_push (s := s) budget items [] []
  rw [length_nil, Nat.sub_zero] at h
  rw [h, find]
  cases s.explore budget items [] with
  | inl o => rfl
  | inr w =>
    dsimp only [goOn]
    rw [walk_nil]

/-! ### What a search visits -/

lemma length_walk_le (left : ℕ) (visited : List ν) (stack : List ι) :
    visited.length ≤ (s.walk left visited stack).2.length ∧
      (s.walk left visited stack).2.length ≤ visited.length + left := by
  induction left generalizing visited stack with
  | zero => exact ⟨le_refl _, le_refl _⟩
  | succ left ih =>
    rw [walk]
    split
    · exact ⟨Nat.le_refl _, Nat.le_add_right _ _⟩
    · rename_i e stack' hpop
      split
      · exact ⟨Nat.le_refl _, Nat.le_add_right _ _⟩
      · rename_i below hlook
        have h := ih (visited ++ [s.node e]) (push below stack')
        rw [length_append, length_singleton] at h
        omega

variable {stack : List ι} {r : ρ}

lemma length_walk_lt (h : (s.walk left visited stack).1 = some r) :
    (s.walk left visited stack).2.length < visited.length + left := by
  induction left generalizing visited stack with
  | zero => cases h
  | succ left ih =>
    rw [walk] at h ⊢
    cases hpop : s.popUnvisited visited stack with
    | none =>
      rw [hpop] at h
      cases h
    | some top =>
      obtain ⟨e, stack'⟩ := top
      rw [hpop] at h
      dsimp only at h ⊢
      cases hlook : s.look e with
      | inl r' =>
        dsimp only
        omega
      | inr below =>
        rw [hlook] at h
        have hlt := ih h
        rw [length_append, length_singleton] at hlt
        dsimp only
        omega

lemma exists_look_of_walk
    (h : (s.walk left visited stack).1 = some r) : ∃ e, s.look e = .inl r := by
  induction left generalizing visited stack with
  | zero => cases h
  | succ left ih =>
    rw [walk] at h
    split at h
    · cases h
    · rename_i e stack' hpop
      cases hlook : s.look e with
      | inl r' =>
        rw [hlook] at h
        cases h
        exact ⟨e, hlook⟩
      | inr below =>
        rw [hlook] at h
        exact ih h

/-- **A search gets further.**  Where a search ended at a node and only that node is changed, the
search either ends there again or visits more nodes. -/
theorem walk_progress {s s' : Search ι ν ρ} (hnode : s'.node = s.node) {k : ν}
    (hagree : ∀ e, s.node e ≠ k → s'.look e = s.look e)
    (hends : ∀ e, s.look e = .inl r → s.node e = k)
    (hk : ∀ e, s.node e = k → ∃ r', s.look e = .inl r')
    (h : (s.walk left visited stack).1 = some r) :
    (∃ e r', s.node e = k ∧ s'.look e = .inl r' ∧ (s'.walk left visited stack).1 = some r') ∨
      (s.walk left visited stack).2.length < (s'.walk left visited stack).2.length := by
  have hpop : ∀ (visited : List ν) (stack : List ι),
      s'.popUnvisited visited stack = s.popUnvisited visited stack := by
    intro visited stack
    induction stack with
    | nil => rfl
    | cons e stack ih => rw [popUnvisited, popUnvisited, hnode, ih]
  induction left generalizing visited stack with
  | zero => cases h
  | succ left ih =>
    rw [walk] at h
    rw [walk, walk, hpop]
    cases htop : s.popUnvisited visited stack with
    | none =>
      rw [htop] at h
      cases h
    | some top =>
      obtain ⟨e, stack'⟩ := top
      rw [htop] at h
      dsimp only at h ⊢
      by_cases he : s.node e = k
      · -- the search ended here, and it may go on now
        obtain ⟨r', hr'⟩ := hk e he
        rw [hr']
        cases hlook : s'.look e with
        | inl r'' => exact Or.inl ⟨e, r'', he, hlook, rfl⟩
        | inr below =>
          refine Or.inr ?_
          have hle := (length_walk_le (s := s') left (visited ++ [s'.node e])
            (push below stack')).1
          rw [length_append, length_singleton] at hle
          exact hle
      · rw [hagree e he]
        cases hlook : s.look e with
        | inl r' =>
          rw [hlook] at h
          cases h
          exact absurd (hends e hlook) he
        | inr below =>
          rw [hlook] at h
          rw [hnode]
          exact ih h

end Search

end Lazaret
