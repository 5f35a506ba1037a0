import Mathlib.Data.String.Basic

/-!
# Path patterns

`path_matches` (`tuf.rs`): a target's path and a pattern have the same number of segments, and each
segment matches its pattern as `fnmatch` matches it.
-/

namespace Lazaret.Tuf

inductive Pat
  | char (c : Char)
  | any
  | star
  | set (negated : Bool) (items : List (Char × Char))
deriving DecidableEq

/-- The members of a set: ranges, and single characters. -/
def setItems : List Char → List (Char × Char)
  | a :: '-' :: b :: rest =>
    -- a range with its ends the wrong way round is empty
    if a ≤ b then (a, b) :: setItems rest else setItems rest
  | a :: rest => (a, a) :: setItems rest
  | [] => []

/-- What stands before the `]` that closes a set, and what comes after it: a `]` that comes first,
or after a `!` that comes first, is a member. -/
def closing (cs : List Char) : Option (List Char × List Char) :=
  let bang := if cs.head? = some '!' then 1 else 0
  let first := if (cs.drop bang).head? = some ']' then bang + 1 else bang
  let n := first + ((cs.drop first).takeWhile (· ≠ ']')).length
  if n < cs.length then some (cs.take n, cs.drop (n + 1)) else none

lemma closing_length {cs body rest : List Char} (h : closing cs = some (body, rest)) :
    rest.length < cs.length := by
  simp only [closing, Option.ite_none_right_eq_some, Option.some.injEq, Prod.mk.injEq] at h
  obtain ⟨hn, -, rfl⟩ := h
  rw [List.length_drop]
  omega

/-- `compile`: the elements of a pattern; `afterStar` tells whether the last one is a star. -/
def compile (p : List Char) (afterStar : Bool) : List Pat :=
  match p with
  | [] => []
  | '*' :: rest => if afterStar then compile rest true else .star :: compile rest true
  | '?' :: rest => .any :: compile rest false
  | '[' :: rest =>
    match _h : closing rest with
    | none => .char '[' :: compile rest false
    | some (body, after) =>
      (if body.head? = some '!' then .set true (setItems body.tail)
        else .set false (setItems body)) :: compile after false
  | c :: rest => .char c :: compile rest false
termination_by p.length
decreasing_by
  all_goals simp only [List.length_cons]
  all_goals first
    | omega
    | exact Nat.lt_succ_of_lt (closing_length _h)

/-- Whether an element that is no star matches a character. -/
def Pat.one (p : Pat) (c : Char) : Bool :=
  match p with
  | .char x => x = c
  | .any => true
  | .set negated items => (items.any fun i => i.1 ≤ c ∧ c ≤ i.2) ≠ negated
  | .star => false

/-- The two-pointer match with one point to go back to, the last star: `pat` is what is left of the
pattern, `base` the text from that star on (all of it before the first one) and `k` how much of it
is matched; `star` is the pattern after the star. -/
def matchLoop (star : Option (List Pat)) (base : List Char) (k : ℕ) (pat : List Pat) : Bool :=
  match _h : base[k]? with
  | none => pat.all (· = .star)
  | some c =>
    match pat with
    | .star :: pat' => matchLoop (some pat') (base.drop k) 0 pat'
    | [] =>
      match star with
      | some sp => matchLoop (some sp) base.tail 0 sp
      | none => false
    | p :: pat' =>
      if p.one c then matchLoop star base (k + 1) pat'
      else match star with
        | some sp => matchLoop (some sp) base.tail 0 sp
        | none => false
termination_by (base.length + (if star.isSome then 0 else 1), pat.length)
decreasing_by
  all_goals have hk : k < base.length := (List.getElem?_eq_some_iff.1 _h).1
  · simp only [Prod.lex_def, List.length_drop, List.length_cons, Option.isSome_some, if_true]
    split <;> omega
  · simp only [Prod.lex_def, List.length_tail, Option.isSome_some, if_true]
    omega
  · exact Prod.Lex.right _ (Nat.lt_succ_self _)
  · simp only [Prod.lex_def, List.length_tail, Option.isSome_some, if_true]
    omega

/-- `fnmatch`: `*`, `?`, `[...]` and `[!...]`, case-sensitive. -/
def fnmatch (text pattern : List Char) : Bool := matchLoop none text 0 (compile pattern false)

/-- `path_matches`: the same number of segments, each matching its pattern. -/
def pathMatches (target pattern : String) : Bool :=
  let t := target.toList.splitOn '/'
  let p := pattern.toList.splitOn '/'
  t.length = p.length ∧ (t.zip p).all fun e => fnmatch e.1 e.2

end Lazaret.Tuf
