import Lazaret.Lib.Merkle

/-!
# Audit paths and consistency proofs

The two kinds of proofs of a Merkle tree (RFC 6962), by recursion over its shape.  `auditPath` lists
the hashes that lead from a leaf to the root, `subproof` those that show that a tree is the start of
a longer one, from the leaf up.  Under an injective node hash, what climbs to the hash of a tree is
its own proof (`pathRoot_eq_mth_iff`, `climbBoth_eq_mth_iff`).
-/

namespace Lazaret.Merkle

open List Option

variable {α : Type*}

lemma splitPoint_pos (n : ℕ) : 0 < splitPoint n := Nat.two_pow_pos _

lemma le_splitPoint_mul_two {n : ℕ} (h : 2 ≤ n) : n ≤ 2 * splitPoint n := by
  have := Nat.lt_pow_succ_log_self (b := 2) (by omega) (n - 1)
  rw [splitPoint]
  rw [Nat.succ_eq_add_one, pow_succ] at this
  omega

lemma exists_splitPoint {n : ℕ} (h : 2 ≤ n) :
    ∃ l, splitPoint n = 2 ^ l ∧ 2 ^ l < n ∧ n ≤ 2 ^ (l + 1) := by
  refine ⟨Nat.log 2 (n - 1), rfl, splitPoint_lt h, ?_⟩
  rw [pow_succ, mul_comm]
  exact le_splitPoint_mul_two h

/-! ### Proofs -/

/-- `PATH(m, D[n])`: the hashes beside the way from leaf `m` to the root. -/
def auditPath (node : α → α → α) (empty : α) (m : ℕ) (xs : List α) : List α :=
  if 2 ≤ xs.length then
    if m < splitPoint xs.length then
      auditPath node empty m (xs.take (splitPoint xs.length)) ++
        [mth node empty (xs.drop (splitPoint xs.length))]
    else
      auditPath node empty (m - splitPoint xs.length) (xs.drop (splitPoint xs.length)) ++
        [mth node empty (xs.take (splitPoint xs.length))]
  else []
termination_by xs.length
decreasing_by
  · have := splitPoint_lt (n := xs.length) (by omega)
    rw [List.length_take]
    omega
  · have := splitPoint_pos xs.length
    rw [List.length_drop]
    omega

/-- `SUBPROOF(m, D[n], b)`: the hashes that show that the tree of the first `m` leaves is the start
of the tree; `b`: its own hash is known. -/
def subproof (node : α → α → α) (empty : α) (m : ℕ) (xs : List α) (b : Bool) : List α :=
  if m < xs.length ∧ 2 ≤ xs.length then
    if m ≤ splitPoint xs.length then
      subproof node empty m (xs.take (splitPoint xs.length)) b ++
        [mth node empty (xs.drop (splitPoint xs.length))]
    else
      subproof node empty (m - splitPoint xs.length) (xs.drop (splitPoint xs.length)) false ++
        [mth node empty (xs.take (splitPoint xs.length))]
  else if b then [] else [mth node empty xs]
termination_by xs.length
decreasing_by
  · have := splitPoint_lt (n := xs.length) (by omega)
    rw [List.length_take]
    omega
  · have := splitPoint_pos xs.length
    rw [List.length_drop]
    omega

/-- The root that an audit path leads to, from leaf `m` of a tree of `n` leaves; none when it is too
short or too long. -/
def pathRoot (node : α → α → α) (m n : ℕ) (leaf : α) (proof : List α) : Option α :=
  if 2 ≤ n then
    proof.getLast?.bind fun top =>
      if m < splitPoint n then
        (pathRoot node m (splitPoint n) leaf proof.dropLast).map fun r => node r top
      else
        (pathRoot node (m - splitPoint n) (n - splitPoint n) leaf proof.dropLast).map fun r =>
          node top r
  else if proof = [] then some leaf else none
termination_by n
decreasing_by
  · exact splitPoint_lt (by omega)
  · have := splitPoint_pos n
    omega

/-! ### Sides -/

/-- On which side the hashes of an audit path go: whether on the left. -/
def pathSides (m n : ℕ) : List Bool :=
  if 2 ≤ n then
    if m < splitPoint n then pathSides m (splitPoint n) ++ [false]
    else pathSides (m - splitPoint n) (n - splitPoint n) ++ [true]
  else []
termination_by n
decreasing_by
  · exact splitPoint_lt (by omega)
  · have := splitPoint_pos n
    omega

/-- On which side the hashes of a consistency proof go, but for the first one, which is that of a
subtree of both trees. -/
def subproofSides (m n : ℕ) : List Bool :=
  if m < n ∧ 2 ≤ n then
    if m ≤ splitPoint n then subproofSides m (splitPoint n) ++ [false]
    else subproofSides (m - splitPoint n) (n - splitPoint n) ++ [true]
  else []
termination_by n
decreasing_by
  · exact splitPoint_lt (by omega)
  · have := splitPoint_pos n
    omega

def beside (node : α → α → α) (left : Bool) (p r : α) : α := if left then node p r else node r p

/-- The way up, with a hash put beside at every step. -/
def climb (node : α → α → α) : List Bool → List α → α → α
  | side :: sides, p :: ps, r => climb node sides ps (beside node side p r)
  | _, _, r => r

/-- The hashes of the older and of the newer tree: what is on the left is in both. -/
def climbBoth (node : α → α → α) : List Bool → List α → α × α → α × α
  | side :: sides, p :: ps, r =>
    climbBoth node sides ps (if side then node p r.1 else r.1, beside node side p r.2)
  | _, _, r => r

variable {node : α → α → α} {empty : α}

variable {ps : List α} {sides : List Bool}

lemma exists_concat_of_length {side : Bool}
    (h : ps.length = (sides ++ [side]).length) : ∃ qs p, ps = qs ++ [p] := by
  rcases eq_nil_or_concat' ps with rfl | ⟨qs, p, rfl⟩
  · simp at h
  · exact ⟨qs, p, rfl⟩

lemma climb_concat (h : ps.length = sides.length) (side : Bool) (p r : α) :
    climb node (sides ++ [side]) (ps ++ [p]) r = beside node side p (climb node sides ps r) := by
  induction sides generalizing ps r with
  | nil =>
    rw [eq_nil_of_length_eq_zero h]
    rfl
  | cons s sides ih =>
    cases ps with
    | nil => cases h
    | cons q ps => exact ih (Nat.succ.inj h) _

lemma climbBoth_concat (h : ps.length = sides.length) (side : Bool) (p : α) (r : α × α) :
    climbBoth node (sides ++ [side]) (ps ++ [p]) r =
      (if side then node p (climbBoth node sides ps r).1 else (climbBoth node sides ps r).1,
        beside node side p (climbBoth node sides ps r).2) := by
  induction sides generalizing ps r with
  | nil =>
    rw [eq_nil_of_length_eq_zero h]
    rfl
  | cons s sides ih =>
    cases ps with
    | nil => cases h
    | cons q ps => exact ih (Nat.succ.inj h) _

lemma pathRoot_eq (m n : ℕ) (leaf : α) (proof : List α) :
    pathRoot node m n leaf proof =
      if proof.length = (pathSides m n).length then some (climb node (pathSides m n) proof leaf)
      else none := by
  induction n using Nat.strong_induction_on generalizing m proof with
  | _ n ih =>
    rw [pathRoot, pathSides]
    by_cases hn : 2 ≤ n
    · have hlt := splitPoint_lt hn
      have hpos := splitPoint_pos n
      rw [if_pos hn, if_pos hn]
      rcases eq_nil_or_concat' proof with rfl | ⟨ps, p, rfl⟩
      · split_ifs with hm hlen hlen
        · simp at hlen
        · rfl
        · simp at hlen
        · rfl
      · rw [getLast?_concat, dropLast_concat, bind_some]
        split_ifs with hm hlen hlen
        · rw [length_append, length_append] at hlen
          have hlen' := add_right_cancel hlen
          rw [ih _ hlt, if_pos hlen', map_some, climb_concat hlen', beside]
          rfl
        · rw [length_append, length_append] at hlen
          rw [ih _ hlt, if_neg fun h => hlen (congrArg (· + 1) h)]
          rfl
        · rw [length_append, length_append] at hlen
          have hlen' := add_right_cancel hlen
          rw [ih _ (by omega), if_pos hlen', map_some, climb_concat hlen', beside, if_pos rfl]
        · rw [length_append, length_append] at hlen
          rw [ih _ (by omega), if_neg fun h => hlen (congrArg (· + 1) h)]
          rfl
    · rw [if_neg hn, if_neg hn]
      by_cases hproof : proof = []
      · subst hproof
        rfl
      · rw [if_neg hproof, if_neg]
        simpa using hproof

/-! ### Proofs of a tree that is known -/

variable {xs : List α}

lemma mth_splitPoint (h : 2 ≤ xs.length) :
    mth node empty xs = node (mth node empty (xs.take (splitPoint xs.length)))
      (mth node empty (xs.drop (splitPoint xs.length))) := by
  obtain ⟨l, hl, h1, h2⟩ := exists_splitPoint h
  rw [hl]
  exact mth_split h1 h2

/-- Under an injective node hash, what leads from a leaf to the hash of a tree is the tree's leaf
with its audit path. -/
lemma pathRoot_eq_mth_iff (hinj : Function.Injective2 node) {m : ℕ} {xs : List α} {leaf : α}
    {proof : List α} (hm : m < xs.length) :
    pathRoot node m xs.length leaf proof = some (mth node empty xs) ↔
      xs[m]? = some leaf ∧ proof = auditPath node empty m xs := by
  induction hn : xs.length using Nat.strong_induction_on generalizing m xs proof with
  | _ n ih =>
    subst hn
    rw [pathRoot, auditPath]
    by_cases hn : 2 ≤ xs.length
    · have hlt := splitPoint_lt hn
      have hpos := splitPoint_pos xs.length
      rw [if_pos hn, if_pos hn, mth_splitPoint hn]
      rcases eq_nil_or_concat' proof with rfl | ⟨ps, p, rfl⟩
      · split_ifs <;> simp
      · rw [getLast?_concat, dropLast_concat, bind_some]
        set k := splitPoint xs.length with hk
        have htake : (xs.take k).length = k := length_take_of_le hlt.le
        have hdrop : (xs.drop k).length = xs.length - k := length_drop
        by_cases hmk : m < k
        · have hleft := @ih k hlt m (xs.take k) ps (by omega) htake
          rw [getElem?_take_of_lt hmk] at hleft
          rw [if_pos hmk, if_pos hmk, map_eq_some_iff]
          constructor
          · rintro ⟨r, hr, heq⟩
            obtain ⟨rfl, rfl⟩ := hinj heq
            obtain ⟨hleaf, rfl⟩ := hleft.1 hr
            exact ⟨hleaf, rfl⟩
          · rintro ⟨hleaf, hp⟩
            obtain ⟨rfl, hlast⟩ := append_inj' hp rfl
            cases hlast
            exact ⟨_, hleft.2 ⟨hleaf, rfl⟩, rfl⟩
        · have hright := @ih (xs.length - k) (by omega) (m - k) (xs.drop k) ps (by omega) hdrop
          rw [getElem?_drop, Nat.add_sub_cancel' (Nat.not_lt.1 hmk)] at hright
          rw [if_neg hmk, if_neg hmk, map_eq_some_iff]
          constructor
          · rintro ⟨r, hr, heq⟩
            obtain ⟨rfl, rfl⟩ := hinj heq
            obtain ⟨hleaf, rfl⟩ := hright.1 hr
            exact ⟨hleaf, rfl⟩
          · rintro ⟨hleaf, hp⟩
            obtain ⟨rfl, hlast⟩ := append_inj' hp rfl
            cases hlast
            exact ⟨_, hright.2 ⟨hleaf, rfl⟩, rfl⟩
    · rw [if_neg hn, if_neg hn]
      match xs, hm, hn with
      | [a], hm, _ =>
        have hzero : m = 0 := by simpa using hm
        subst hzero
        split_ifs with hproof <;> simp [hproof, eq_comm]
      | _ :: _ :: _, _, hn => exact absurd (by simp) hn

variable (empty) in
/-- With as many hashes as there are sides, what climbs to the hash of the newer tree is the whole
consistency proof, and then the other hash is that of the older tree. -/
lemma climbBoth_eq_mth_iff (hinj : Function.Injective2 node) {m : ℕ} {xs : List α} (seed : α)
    {ps : List α} (hm : 1 ≤ m) (hmn : m ≤ xs.length)
    (hps : ps.length = (subproofSides m xs.length).length) :
    ((climbBoth node (subproofSides m xs.length) ps (seed, seed)).2 = mth node empty xs ↔
      seed :: ps = subproof node empty m xs false) ∧
    (seed :: ps = subproof node empty m xs false →
      (climbBoth node (subproofSides m xs.length) ps (seed, seed)).1 =
        mth node empty (xs.take m)) := by
  induction hn : xs.length using Nat.strong_induction_on generalizing m xs ps with
  | _ n ih =>
    subst hn
    rw [subproofSides] at hps ⊢
    rw [subproof]
    by_cases hlt : m < xs.length ∧ 2 ≤ xs.length
    · obtain ⟨l, hl, hk1, hk2⟩ := exists_splitPoint hlt.2
      have htake : (xs.take (2 ^ l)).length = 2 ^ l := length_take_of_le hk1.le
      have hdrop : (xs.drop (2 ^ l)).length = xs.length - 2 ^ l := length_drop
      rw [if_pos hlt, hl] at hps ⊢
      rw [if_pos hlt]
      by_cases hmk : m ≤ 2 ^ l
      · rw [if_pos hmk] at hps ⊢
        rw [if_pos hmk, mth_split hk1 hk2]
        obtain ⟨qs, p, rfl⟩ := exists_concat_of_length hps
        have hqs : qs.length = (subproofSides m (2 ^ l)).length := by simpa using hps
        rw [climbBoth_concat hqs, if_neg (by decide), beside, if_neg (by decide)]
        obtain ⟨hnew, hold⟩ := @ih (2 ^ l) hk1 m (xs.take (2 ^ l)) qs hm (by omega) (by rwa [htake])
          htake
        rw [← cons_append]
        constructor
        · constructor
          · intro heq
            obtain ⟨hleft, rfl⟩ := hinj heq
            rw [hnew.1 hleft]
          · intro heq
            obtain ⟨hseed, hlast⟩ := append_inj' heq rfl
            cases hlast
            rw [hnew.2 hseed]
        · intro heq
          rw [hold (append_inj' heq rfl).1, take_take, min_eq_left hmk]
      · rw [if_neg hmk] at hps ⊢
        rw [if_neg hmk, mth_split hk1 hk2]
        obtain ⟨qs, p, rfl⟩ := exists_concat_of_length hps
        have hqs : qs.length = (subproofSides (m - 2 ^ l) (xs.length - 2 ^ l)).length := by
          simpa using hps
        rw [climbBoth_concat hqs, if_pos rfl, beside, if_pos rfl]
        obtain ⟨hnew, hold⟩ := @ih (xs.length - 2 ^ l) (by omega) (m - 2 ^ l) (xs.drop (2 ^ l)) qs
          (by omega) (by omega) (by rwa [hdrop]) hdrop
        rw [← cons_append]
        constructor
        · constructor
          · intro heq
            obtain ⟨rfl, hright⟩ := hinj heq
            rw [hnew.1 hright]
          · intro heq
            obtain ⟨hseed, hlast⟩ := append_inj' heq rfl
            cases hlast
            rw [hnew.2 hseed]
        · intro heq
          obtain ⟨hseed, hlast⟩ := append_inj' heq rfl
          cases hlast
          -- the older tree is split at the same place as the newer one
          have hlen : (xs.take m).length = m := length_take_of_le hmn
          have hsplit : mth node empty (xs.take m) = _ := mth_split (l := l) (by omega) (by omega)
          rw [hold hseed, hsplit, take_take, min_eq_left (not_le.1 hmk).le, drop_take]
    · have hall : m = xs.length := by omega
      rw [if_neg hlt] at hps ⊢
      rw [if_neg hlt, if_neg (by decide), hall, take_length, eq_nil_of_length_eq_zero hps]
      show (seed = _ ↔ _) ∧ (_ → seed = _)
      constructor
      · constructor
        · intro heq
          rw [← heq]
        · intro heq
          exact (cons.inj heq).1
      · intro heq
        exact (cons.inj heq).1

variable {m : ℕ}

lemma subproof_of_lt {b : Bool} (h : m < xs.length ∧ 2 ≤ xs.length) : subproof node empty m xs b =
      if m ≤ splitPoint xs.length then
        subproof node empty m (xs.take (splitPoint xs.length)) b ++
          [mth node empty (xs.drop (splitPoint xs.length))]
      else
        subproof node empty (m - splitPoint xs.length) (xs.drop (splitPoint xs.length)) false ++
          [mth node empty (xs.take (splitPoint xs.length))] := by
  rw [subproof, if_pos h]

lemma subproof_of_not_lt {b : Bool} (h : ¬(m < xs.length ∧ 2 ≤ xs.length)) :
    subproof node empty m xs b = if b then [] else [mth node empty xs] := by
  rw [subproof, if_neg h]

/-- The consistency proof of a tree whose own hash is known leaves it out when the tree is a
complete part of the longer one, and is the same otherwise. -/
lemma subproof_of_pow {l : ℕ} (hl : 2 ^ l ≤ xs.length) : subproof node empty (2 ^ l) xs false =
      mth node empty (xs.take (2 ^ l)) :: subproof node empty (2 ^ l) xs true := by
  induction hn : xs.length using Nat.strong_induction_on generalizing xs with
  | _ n ih =>
    subst hn
    by_cases hlt : 2 ^ l < xs.length ∧ 2 ≤ xs.length
    · obtain ⟨k, hk, hk1, hk2⟩ := exists_splitPoint hlt.2
      have hle : 2 ^ l ≤ 2 ^ k := by
        have hlog : l < k + 1 := (Nat.pow_lt_pow_iff_right (by decide)).1 (hlt.1.trans_le hk2)
        exact Nat.pow_le_pow_right (by decide) (by omega)
      have htake : (xs.take (2 ^ k)).length = 2 ^ k := length_take_of_le hk1.le
      rw [subproof_of_lt hlt, subproof_of_lt hlt, hk, if_pos hle, if_pos hle,
        ih (2 ^ k) hk1 (by rwa [htake]) htake, take_take, min_eq_left hle]
      rfl
    · have hall : 2 ^ l = xs.length := by
        have := Nat.two_pow_pos l
        omega
      rw [subproof_of_not_lt hlt, subproof_of_not_lt hlt, hall, take_length]
      rfl

lemma subproof_of_not_pow (hm : 1 ≤ m) (hmn : m < xs.length) (hpow : ∀ l, m ≠ 2 ^ l) :
    subproof node empty m xs false = subproof node empty m xs true := by
  induction hn : xs.length using Nat.strong_induction_on generalizing xs with
  | _ n ih =>
    subst hn
    have hlt : m < xs.length ∧ 2 ≤ xs.length := ⟨hmn, by omega⟩
    obtain ⟨k, hk, hk1, hk2⟩ := exists_splitPoint hlt.2
    have htake : (xs.take (2 ^ k)).length = 2 ^ k := length_take_of_le hk1.le
    rw [subproof_of_lt hlt, subproof_of_lt hlt, hk]
    by_cases hmk : m ≤ 2 ^ k
    · have hne := hpow k
      rw [if_pos hmk, if_pos hmk, ih (2 ^ k) hk1 (by omega) htake]
    · rw [if_neg hmk, if_neg hmk]

lemma length_subproof :
    (subproof node empty m xs false).length = (subproofSides m xs.length).length + 1 := by
  induction hn : xs.length using Nat.strong_induction_on generalizing m xs with
  | _ n ih =>
    subst hn
    rw [subproof, subproofSides]
    by_cases hlt : m < xs.length ∧ 2 ≤ xs.length
    · have hk1 := splitPoint_lt hlt.2
      have hpos := splitPoint_pos xs.length
      rw [if_pos hlt, if_pos hlt]
      split_ifs
      · rw [length_append, length_append, ih _ hk1 (length_take_of_le hk1.le)]
        rfl
      · rw [length_append, length_append, ih _ (by omega) length_drop]
        rfl
    · rw [if_neg hlt, if_neg hlt]
      rfl

lemma length_auditPath : (auditPath node empty m xs).length = (pathSides m xs.length).length := by
  induction hn : xs.length using Nat.strong_induction_on generalizing m xs with
  | _ n ih =>
    subst hn
    rw [auditPath, pathSides]
    by_cases hlt : 2 ≤ xs.length
    · have hk1 := splitPoint_lt hlt
      have hpos := splitPoint_pos xs.length
      rw [if_pos hlt, if_pos hlt]
      split_ifs
      · rw [length_append, length_append, ih _ hk1 (length_take_of_le hk1.le)]
        rfl
      · rw [length_append, length_append, ih _ (by omega) length_drop]
        rfl
    · rw [if_neg hlt, if_neg hlt]
      rfl

/-! ### Proofs of any tree -/

lemma climb_inj (hinj : Function.Injective2 node) {sides : List Bool} {ps qs : List α} {r t : α}
    (hps : ps.length = sides.length) (hqs : qs.length = sides.length)
    (h : climb node sides ps r = climb node sides qs t) : r = t ∧ ps = qs := by
  induction sides generalizing ps qs r t with
  | nil =>
    obtain rfl := eq_nil_of_length_eq_zero hps
    obtain rfl := eq_nil_of_length_eq_zero hqs
    exact ⟨h, rfl⟩
  | cons side sides ih =>
    obtain ⟨p, ps, rfl⟩ := exists_cons_of_length_eq_add_one hps
    obtain ⟨q, qs, rfl⟩ := exists_cons_of_length_eq_add_one hqs
    obtain ⟨hbeside, rfl⟩ := ih (Nat.succ.inj hps) (Nat.succ.inj hqs) h
    cases side with
    | true =>
      obtain ⟨rfl, rfl⟩ := hinj hbeside
      exact ⟨rfl, rfl⟩
    | false =>
      obtain ⟨rfl, rfl⟩ := hinj hbeside
      exact ⟨rfl, rfl⟩

lemma climbBoth_snd (sides : List Bool) (ps : List α) (r : α × α) :
    (climbBoth node sides ps r).2 = climb node sides ps r.2 := by
  fun_induction climbBoth node sides ps r with
  | case1 side sides p ps r ih => exact ih
  | case2 sides ps r h => rw [climb]; exact h

/-- The older hash that a consistency proof climbs to has the leaves of the newer one: what climbs
to it from a leaf is the start of a way from that leaf to the newer one, with the hashes of the
proof. -/
lemma exists_climb_of_climbBoth (hinj : Function.Injective2 node) {m n i : ℕ} (hi : i < m)
    (hmn : m ≤ n) {seed leaf : α} {qs ps : List α}
    (hqs : qs.length = (subproofSides m n).length) (hps : ps.length = (pathSides i m).length)
    (hold : climb node (pathSides i m) ps leaf =
      (climbBoth node (subproofSides m n) qs (seed, seed)).1) :
    ∃ ts, ts.length = (pathSides i n).length ∧ climb node (pathSides i n) ts leaf =
      (climbBoth node (subproofSides m n) qs (seed, seed)).2 := by
  induction n using Nat.strong_induction_on generalizing m i qs ps with
  | _ n ih =>
    rcases hmn.eq_or_lt with rfl | hlt
    · rw [subproofSides, if_neg fun h => lt_irrefl _ h.1] at hold ⊢
      exact ⟨ps, hps, hold⟩
    · obtain ⟨l, hl, h1, h2⟩ := exists_splitPoint (by omega : 2 ≤ n)
      rw [subproofSides, if_pos ⟨hlt, by omega⟩, hl] at hqs hold ⊢
      rw [pathSides, if_pos (by omega), hl]
      by_cases hm : m ≤ 2 ^ l
      · -- the older tree is in the left part
        rw [if_pos hm] at hqs hold ⊢
        rw [if_pos (by omega)]
        obtain ⟨qs, q, rfl⟩ := exists_concat_of_length hqs
        have hqs : qs.length = (subproofSides m (2 ^ l)).length := by simpa using hqs
        rw [climbBoth_concat hqs] at hold ⊢
        obtain ⟨ts, hts, hclimb⟩ := ih _ h1 hi hm hqs hps hold
        exact ⟨ts ++ [q], by simp [hts], by rw [climb_concat hts, hclimb]⟩
      · -- the left part is in both trees
        rw [if_neg hm] at hqs hold ⊢
        obtain ⟨qs, q, rfl⟩ := exists_concat_of_length hqs
        have hqs : qs.length = (subproofSides (m - 2 ^ l) (n - 2 ^ l)).length := by simpa using hqs
        rw [climbBoth_concat hqs, if_pos rfl] at hold ⊢
        rw [pathSides, if_pos (by omega), splitPoint_eq (by omega) (by omega : m ≤ 2 ^ (l + 1))]
          at hps hold
        by_cases hil : i < 2 ^ l
        · rw [if_pos hil] at hps hold ⊢
          obtain ⟨ps, p, rfl⟩ := exists_concat_of_length hps
          have hps : ps.length = (pathSides i (2 ^ l)).length := by simpa using hps
          rw [climb_concat hps] at hold
          obtain ⟨hleft, -⟩ := hinj hold
          refine ⟨ps ++
            [(climbBoth node (subproofSides (m - 2 ^ l) (n - 2 ^ l)) qs (seed, seed)).2],
            by simp [hps], ?_⟩
          rw [climb_concat hps, hleft]
          rfl
        · rw [if_neg hil] at hps hold ⊢
          obtain ⟨ps, p, rfl⟩ := exists_concat_of_length hps
          have hps : ps.length = (pathSides (i - 2 ^ l) (m - 2 ^ l)).length := by simpa using hps
          rw [climb_concat hps] at hold
          obtain ⟨-, hright⟩ := hinj hold
          obtain ⟨ts, hts, hclimb⟩ := ih _ (by omega) (by omega) (by omega) hqs hps hright
          exact ⟨ts ++ [q], by simp [hts], by rw [climb_concat hts, hclimb]⟩

end Lazaret.Merkle
