import Lazaret.Lib.MerkleProofs
import Lazaret.Tlog.Authentication

/-!
# Inclusion and consistency proofs

`verify_inclusion` and `verify_consistency` walk up the tree by the bits of two numbers, the place
of the node and that of the last node on its level.  The sides on which such a walk puts the hashes
of a proof (`walkSides`) are those of the recursion over the shape of the tree (`walkSides_eq`,
`walkSides_dropOnes`), whatever the sizes.
-/

namespace Lazaret.Tlog

open Merkle List Outcome

variable {β : Type}

/-! ### The checks -/

def evenOut (f s : ℕ) : ℕ × ℕ := if f % 2 = 0 ∧ f ≠ 0 then evenOut (f / 2) (s / 2) else (f, s)
termination_by f
decreasing_by omega

/-- Whether the next hash of the proof goes on the left: the node is a right one, or the last
one. -/
def goesLeft (f s : ℕ) : Bool := f % 2 = 1 ∨ f = s

/-- The place of the node after the next hash, and that of the last one beside it. -/
def nextUp (f s : ℕ) : ℕ × ℕ :=
  if goesLeft f s then
    let (f, s) := if f % 2 = 0 then evenOut f s else (f, s)
    (f / 2, s / 2)
  else (f / 2, s / 2)

/-- The loop of `verify_inclusion`. -/
def inclusionLoop (H : Hashing β) :
    List (Hash β) → ℕ → ℕ → Hash β → Outcome (Error β) (ℕ × Hash β)
  | [], _, s, r => .ok (s, r)
  | p :: ps, f, s, r =>
    if s = 0 then .err .BadProof
    else if goesLeft f s then
      inclusionLoop H ps (nextUp f s).1 (nextUp f s).2 (H.nodeHash p r)
    else inclusionLoop H ps (nextUp f s).1 (nextUp f s).2 (H.nodeHash r p)

/-- Checks that `leaf` is leaf number `index` of a tree. -/
def verifyInclusion [DecidableEq β] (H : Hashing β) (proof : List (Hash β)) (size : ℕ)
    (root : Hash β) (index : ℕ) (leaf : Hash β) : Outcome (Error β) Unit := do
  if size > MAX_TREE_SIZE then .err (.Invalid "tree is too large")
  else if index ≥ size then .err (.Invalid "leaf index is not inside the tree")
  else
    let (s, r) ← inclusionLoop H proof index (size - 1) leaf
    if s ≠ 0 ∨ r ≠ root then .err .BadProof else .ok ()

/-- The loop of `verify_consistency`. -/
def consistencyLoop (H : Hashing β) :
    List (Hash β) → ℕ → ℕ → Hash β → Hash β → Outcome (Error β) (ℕ × Hash β × Hash β)
  | [], _, s, fr, sr => .ok (s, fr, sr)
  | c :: cs, f, s, fr, sr =>
    if s = 0 then .err .BadProof
    else if goesLeft f s then
      consistencyLoop H cs (nextUp f s).1 (nextUp f s).2 (H.nodeHash c fr) (H.nodeHash c sr)
    else consistencyLoop H cs (nextUp f s).1 (nextUp f s).2 fr (H.nodeHash sr c)

/-- Past the levels where the older tree is complete. -/
def dropOnes (f s : ℕ) : ℕ × ℕ := if f % 2 = 1 then dropOnes (f / 2) (s / 2) else (f, s)
termination_by f
decreasing_by omega

def isPowerOfTwo (n : ℕ) : Bool := n = 2 ^ Nat.log 2 n

def verifyConsistency [DecidableEq β] (H : Hashing β) (proof : List (Hash β)) (old_size : ℕ)
    (old_root : Hash β) (new_size : ℕ) (new_root : Hash β) : Outcome (Error β) Unit :=
  if old_size = 0 ∨ old_size > new_size ∨ new_size > MAX_TREE_SIZE then
    .err (.Invalid "consistency needs 1 <= old size <= new size <= the largest tree")
  else if old_size = new_size then
    if proof = [] ∧ old_root = new_root then .ok () else .err .BadProof
  else
    -- the root of a complete older tree starts the proof, which does not repeat it
    match (if isPowerOfTwo old_size then [old_root] else []) ++ proof with
    | [] => .err .BadProof
    | first :: rest => do
      let (f, s) := dropOnes (old_size - 1) (new_size - 1)
      let (s, fr, sr) ← consistencyLoop H rest f s first first
      if s ≠ 0 ∨ fr ≠ old_root ∨ sr ≠ new_root then .err .BadProof else .ok ()

/-! ### Walking by the bits -/

lemma evenOut_le (f s : ℕ) : (evenOut f s).2 ≤ s := by
  induction f using Nat.strong_induction_on generalizing s with
  | _ f ih =>
    rw [evenOut]
    split_ifs with h
    · exact (ih (f / 2) (by omega) (s / 2)).trans (Nat.div_le_self _ _)
    · exact le_rfl

lemma nextUp_lt {f s : ℕ} (hs : s ≠ 0) : (nextUp f s).2 < s := by
  have hle := evenOut_le f s
  rw [nextUp]
  split_ifs
  · show (evenOut f s).2 / 2 < s
    omega
  · show s / 2 < s
    omega
  · show s / 2 < s
    omega

def walkSides (f s : ℕ) : List Bool :=
  if s = 0 then [] else goesLeft f s :: walkSides (nextUp f s).1 (nextUp f s).2
termination_by s
decreasing_by exact nextUp_lt ‹_›

lemma walkSides_zero (f : ℕ) : walkSides f 0 = [] := by rw [walkSides, if_pos rfl]

lemma walkSides_of_pos {f s : ℕ} (hs : s ≠ 0) :
    walkSides f s = goesLeft f s :: walkSides (nextUp f s).1 (nextUp f s).2 := by
  rw [walkSides, if_neg hs]

lemma nextUp_of_ne {f s : ℕ} (h : f ≠ s ∨ f % 2 = 1) : nextUp f s = (f / 2, s / 2) := by
  rw [nextUp]
  by_cases hodd : f % 2 = 1
  · rw [if_neg (by omega : ¬f % 2 = 0), ite_self]
  · rw [if_neg]
    have hne : f ≠ s := h.resolve_right hodd
    simp [goesLeft, hodd, hne]

lemma walkSides_double {f : ℕ} (hf : f ≠ 0) : walkSides (2 * f) (2 * f) = walkSides f f := by
  have hself : ∀ g : ℕ, goesLeft g g = true := fun g => by simp [goesLeft]
  have hup : nextUp (2 * f) (2 * f) = nextUp f f := by
    rw [nextUp, nextUp, hself, hself, if_pos rfl, if_pos rfl, if_pos (by omega), evenOut,
      if_pos ⟨by omega, by omega⟩, Nat.mul_div_cancel_left f (by decide)]
    by_cases heven : f % 2 = 0
    · rw [if_pos heven]
    · rw [if_neg heven, evenOut, if_neg (fun h => heven h.1)]
  rw [walkSides_of_pos (by omega), walkSides_of_pos hf, hself, hself, hup]

lemma walkSides_left {l f s : ℕ} (hf : f < 2 ^ l) (hs1 : 2 ^ l ≤ s) (hs2 : s < 2 ^ (l + 1)) :
    walkSides f s = walkSides f (2 ^ l - 1) ++ [false] := by
  induction l generalizing f s with
  | zero =>
    have hf0 : f = 0 := by simpa using hf
    have hs : s = 1 := by
      rw [pow_zero] at hs1
      rw [zero_add, pow_one] at hs2
      omega
    subst hf0 hs
    rw [walkSides_of_pos (by decide), nextUp_of_ne (by decide)]
    show goesLeft 0 1 :: walkSides 0 0 = walkSides 0 0 ++ [false]
    rw [walkSides_zero]
    rfl
  | succ l ih =>
    have hpos := Nat.two_pow_pos l
    have hside : goesLeft f s = goesLeft f (2 ^ (l + 1) - 1) := by
      rw [goesLeft, goesLeft, decide_eq_decide]
      omega
    have hhalf : (2 ^ (l + 1) - 1) / 2 = 2 ^ l - 1 := by omega
    rw [walkSides_of_pos (by omega), walkSides_of_pos (s := 2 ^ (l + 1) - 1) (by omega), hside,
      nextUp_of_ne (by omega), nextUp_of_ne (by omega), hhalf]
    dsimp only
    rw [ih (by omega) (by omega) (by omega)]
    rfl

lemma walkSides_right {l f s : ℕ} (hfs : f ≤ s) (hs : s < 2 ^ l) :
    walkSides (f + 2 ^ l) (s + 2 ^ l) = walkSides f s ++ [true] := by
  induction l generalizing f s with
  | zero =>
    have hs0 : s = 0 := by simpa using hs
    have hf0 : f = 0 := by omega
    subst hs0 hf0
    rw [walkSides_of_pos (by decide), nextUp_of_ne (by decide)]
    show goesLeft 1 1 :: walkSides 0 0 = walkSides 0 0 ++ [true]
    rw [walkSides_zero]
    rfl
  | succ l ih =>
    have hpos := Nat.two_pow_pos l
    by_cases hlast : f = s ∧ f % 2 = 0
    · -- the last node, and a left one: neither walk takes a hash here
      obtain ⟨rfl, heven⟩ := hlast
      have hdouble : f + 2 ^ (l + 1) = 2 * (f / 2 + 2 ^ l) := by omega
      rw [hdouble, walkSides_double (by omega), ih le_rfl (by omega)]
      by_cases hf : f = 0
      · rw [hf, Nat.zero_div]
      · have hf' : f = 2 * (f / 2) := by omega
        conv_rhs => rw [hf', walkSides_double (by omega)]
    · have hside : goesLeft (f + 2 ^ (l + 1)) (s + 2 ^ (l + 1)) = goesLeft f s := by
        rw [goesLeft, goesLeft, decide_eq_decide]
        omega
      have hs0 : s ≠ 0 := by omega
      rw [walkSides_of_pos (by omega), walkSides_of_pos hs0, hside, nextUp_of_ne (by omega),
        nextUp_of_ne (by omega)]
      dsimp only
      have hf2 : (f + 2 ^ (l + 1)) / 2 = f / 2 + 2 ^ l := by omega
      have hs2 : (s + 2 ^ (l + 1)) / 2 = s / 2 + 2 ^ l := by omega
      rw [hf2, hs2, ih (by omega) (by omega)]
      rfl

lemma walkSides_eq {m n : ℕ} (h : m < n) : walkSides m (n - 1) = pathSides m n := by
  induction n using Nat.strong_induction_on generalizing m with
  | _ n ih =>
    rw [pathSides]
    by_cases hn : 2 ≤ n
    · obtain ⟨l, hl, h1, h2⟩ := exists_splitPoint hn
      rw [if_pos hn, hl]
      by_cases hm : m < 2 ^ l
      · rw [if_pos hm, walkSides_left hm (by omega) (by omega), ih _ h1 hm]
      · have hpow : 2 ^ (l + 1) = 2 * 2 ^ l := by rw [pow_succ, mul_comm]
        have hm' : m = m - 2 ^ l + 2 ^ l := by omega
        have hn' : n - 1 = n - 2 ^ l - 1 + 2 ^ l := by omega
        rw [if_neg hm, hn', hm', walkSides_right (by omega) (by omega), ih _ (by omega) (by omega),
          ← hm']
    · have hn1 : n = 1 := by omega
      rw [if_neg hn, hn1]
      exact walkSides_zero m

lemma dropOnes_odd {f : ℕ} (s : ℕ) (h : f % 2 = 1) : dropOnes f s = dropOnes (f / 2) (s / 2) := by
  rw [dropOnes, if_pos h]

lemma dropOnes_even {f : ℕ} (s : ℕ) (h : f % 2 = 0) : dropOnes f s = (f, s) := by
  rw [dropOnes, if_neg (by omega)]

/-- The walk of a consistency proof: from the largest complete tree that ends where the older one
does. -/
def walkBoth (f s : ℕ) : List Bool := walkSides (dropOnes f s).1 (dropOnes f s).2

lemma walkBoth_odd {f : ℕ} (s : ℕ) (h : f % 2 = 1) : walkBoth f s = walkBoth (f / 2) (s / 2) := by
  rw [walkBoth, dropOnes_odd s h, walkBoth]

lemma walkBoth_even {f : ℕ} (s : ℕ) (h : f % 2 = 0) : walkBoth f s = walkSides f s := by
  rw [walkBoth, dropOnes_even s h]

lemma walkBoth_left {l f s : ℕ} (hf : f + 1 < 2 ^ l) (hs1 : 2 ^ l ≤ s) (hs2 : s < 2 ^ (l + 1)) :
    walkBoth f s = walkBoth f (2 ^ l - 1) ++ [false] := by
  induction l generalizing f s with
  | zero =>
    rw [pow_zero] at hf
    omega
  | succ l ih =>
    rcases Nat.mod_two_eq_zero_or_one f with heven | hodd
    · rw [walkBoth_even s heven, walkBoth_even _ heven, walkSides_left (by omega) hs1 hs2]
    · have hhalf : (2 ^ (l + 1) - 1) / 2 = 2 ^ l - 1 := by omega
      rw [walkBoth_odd s hodd, walkBoth_odd _ hodd, hhalf, ih (by omega) (by omega) (by omega)]

lemma walkBoth_whole {l s : ℕ} (hs1 : 2 ^ l ≤ s) (hs2 : s < 2 ^ (l + 1)) :
    walkBoth (2 ^ l - 1) s = [false] := by
  induction l generalizing s with
  | zero =>
    have hs : s = 1 := by
      rw [pow_zero] at hs1
      rw [zero_add, pow_one] at hs2
      omega
    subst hs
    rw [walkBoth_even _ (by decide), walkSides_of_pos (by decide), nextUp_of_ne (by decide)]
    show goesLeft 0 1 :: walkSides 0 0 = [false]
    rw [walkSides_zero]
    rfl
  | succ l ih =>
    have hpos := Nat.two_pow_pos l
    have hhalf : (2 ^ (l + 1) - 1) / 2 = 2 ^ l - 1 := by omega
    rw [walkBoth_odd s (by omega), hhalf, ih (by omega) (by omega)]

lemma walkBoth_right {l f s : ℕ} (hfs : f < s) (hs : s < 2 ^ l) :
    walkBoth (f + 2 ^ l) (s + 2 ^ l) = walkBoth f s ++ [true] := by
  induction l generalizing f s with
  | zero =>
    rw [pow_zero] at hs
    omega
  | succ l ih =>
    rcases Nat.mod_two_eq_zero_or_one f with heven | hodd
    · rw [walkBoth_even _ (by omega), walkBoth_even s heven, walkSides_right hfs.le hs]
    · have hf2 : (f + 2 ^ (l + 1)) / 2 = f / 2 + 2 ^ l := by omega
      have hs2 : (s + 2 ^ (l + 1)) / 2 = s / 2 + 2 ^ l := by omega
      rw [walkBoth_odd _ (by omega), walkBoth_odd s hodd, hf2, hs2, ih (by omega) (by omega)]

lemma walkBoth_eq {m n : ℕ} (hm : 1 ≤ m) (hmn : m < n) :
    walkBoth (m - 1) (n - 1) = subproofSides m n := by
  induction n using Nat.strong_induction_on generalizing m with
  | _ n ih =>
    obtain ⟨l, hl, h1, h2⟩ := exists_splitPoint (by omega : 2 ≤ n)
    have hpos := Nat.two_pow_pos l
    rw [subproofSides, if_pos ⟨hmn, by omega⟩, hl]
    rcases lt_trichotomy m (2 ^ l) with hlt | heq | hgt
    · have hleft : walkBoth (m - 1) (n - 1) = _ :=
        walkBoth_left (l := l) (by omega) (by omega) (by omega)
      rw [if_pos hlt.le, hleft, ih _ h1 hm hlt]
    · rw [if_pos heq.le, heq, walkBoth_whole (by omega) (by omega), subproofSides,
        if_neg fun h => lt_irrefl _ h.1]
      rfl
    · have hm' : m - 1 = m - 2 ^ l - 1 + 2 ^ l := by omega
      have hn' : n - 1 = n - 2 ^ l - 1 + 2 ^ l := by omega
      rw [if_neg (by omega), hm', hn', walkBoth_right (by omega) (by omega),
        ih _ (by omega) (by omega) (by omega)]

/-! ### The checks are exact -/

variable {H : Hashing β}

lemma inclusionLoop_eq_ok {ps : List (Hash β)} {f s : ℕ} {r x : Hash β} :
    inclusionLoop H ps f s r = .ok (0, x) ↔
      ps.length = (walkSides f s).length ∧ Merkle.climb H.nodeHash (walkSides f s) ps r = x := by
  induction ps generalizing f s r with
  | nil =>
    rw [inclusionLoop]
    by_cases hs : s = 0
    · subst hs
      rw [walkSides_zero]
      show Outcome.ok (0, r) = Outcome.ok (0, x) ↔ 0 = 0 ∧ r = x
      simp
    · rw [walkSides_of_pos hs]
      simp [hs]
  | cons p ps ih =>
    rw [inclusionLoop]
    by_cases hs : s = 0
    · subst hs
      rw [walkSides_zero, if_pos rfl]
      simp
    · rw [walkSides_of_pos hs, if_neg hs, length_cons, length_cons,
        add_right_cancel_iff, Merkle.climb, beside]
      split_ifs with hside
      · exact ih
      · exact ih

lemma consistencyLoop_eq_ok {cs : List (Hash β)} {f s : ℕ} {fr sr x y : Hash β} :
    consistencyLoop H cs f s fr sr = .ok (0, x, y) ↔
      cs.length = (walkSides f s).length ∧
        climbBoth H.nodeHash (walkSides f s) cs (fr, sr) = (x, y) := by
  induction cs generalizing f s fr sr with
  | nil =>
    rw [consistencyLoop]
    by_cases hs : s = 0
    · subst hs
      rw [walkSides_zero]
      show Outcome.ok (0, fr, sr) = Outcome.ok (0, x, y) ↔ 0 = 0 ∧ (fr, sr) = (x, y)
      simp
    · rw [walkSides_of_pos hs]
      simp [hs]
  | cons c cs ih =>
    rw [consistencyLoop]
    by_cases hs : s = 0
    · subst hs
      rw [walkSides_zero, if_pos rfl]
      simp
    · rw [walkSides_of_pos hs, if_neg hs, length_cons, length_cons,
        add_right_cancel_iff, climbBoth, beside]
      split_ifs with hside
      · exact ih
      · exact ih

lemma verifyInclusion_eq_ok [DecidableEq β] {proof : List (Hash β)} {size index : ℕ}
    {root leaf : Hash β} (hsize : size ≤ MAX_TREE_SIZE) (hindex : index < size) :
    verifyInclusion H proof size root index leaf = .ok () ↔
      pathRoot H.nodeHash index size leaf proof = some root := by
  have hloop := @inclusionLoop_eq_ok β H proof index (size - 1) leaf root
  rw [walkSides_eq hindex] at hloop
  rw [verifyInclusion, if_neg (by omega), if_neg (by omega), bind_eq_ok, pathRoot_eq]
  constructor
  · rintro ⟨⟨s, r⟩, hr, hend⟩
    dsimp only at hend
    split_ifs at hend with hne
    obtain ⟨rfl, rfl⟩ : s = 0 ∧ r = root := by
      rw [not_or, not_not, not_not] at hne
      exact hne
    obtain ⟨hlen, hclimb⟩ := hloop.1 hr
    rw [if_pos hlen, hclimb]
  · intro h
    split_ifs at h with hlen
    refine ⟨(0, root), hloop.2 ⟨hlen, Option.some.inj h⟩, ?_⟩
    simp

/-- A proof is accepted if and only if it is as long as the audit path of the leaf and leads to the
root by the recursion over the shape of the tree. -/
theorem inclusion_exact [DecidableEq β] (H : Hashing β) (size index : ℕ)
    (hsize : size ≤ MAX_TREE_SIZE) (hindex : index < size) (leaf root : Hash β)
    (proof : List (Hash β)) (L : List (Hash β)) (hL : L.length = size) :
    (verifyInclusion H proof size root index leaf = .ok () ↔
      proof.length = (auditPath H.nodeHash H.EMPTY_ROOT index L).length ∧
        pathRoot H.nodeHash index size leaf proof = some root) ∧
    (Function.Injective2 H.nodeHash → root = trueRoot H L →
      (verifyInclusion H proof size root index leaf = .ok () ↔
        L[index]? = some leaf ∧ proof = auditPath H.nodeHash H.EMPTY_ROOT index L)) := by
  subst hL
  constructor
  · rw [verifyInclusion_eq_ok hsize hindex, length_auditPath, pathRoot_eq]
    split_ifs with hlen
    · exact ⟨fun h => ⟨hlen, h⟩, fun h => h.2⟩
    · exact ⟨fun h => absurd h (by simp), fun h => absurd h.1 hlen⟩
  · rintro hinj rfl
    rw [verifyInclusion_eq_ok hsize hindex]
    exact pathRoot_eq_mth_iff hinj hindex

theorem inclusion_exact_five :
    verifyInclusion pairing (auditPath pairing.nodeHash pairing.EMPTY_ROOT 4 fiveLeaves) 5
        (trueRoot pairing fiveLeaves) 4 (flatHash 5) = .ok () ∧
      verifyInclusion pairing [flatHash 4] 5 (trueRoot pairing fiveLeaves) 4 (flatHash 5) ≠
        .ok () := by
  have hexact := fun proof => (inclusion_exact pairing 5 4 (by decide) (by decide) (flatHash 5)
    (trueRoot pairing fiveLeaves) proof fiveLeaves rfl).2 pairing_injective rfl
  constructor
  · exact (hexact _).2 ⟨rfl, rfl⟩
  · intro h
    have hpath := ((hexact _).1 h).2
    revert hpath
    with_unfolding_all decide

lemma isPowerOfTwo_iff {n : ℕ} : isPowerOfTwo n = true ↔ ∃ l, n = 2 ^ l := by
  rw [isPowerOfTwo, decide_eq_true_iff]
  constructor
  · intro h
    exact ⟨Nat.log 2 n, h⟩
  · rintro ⟨l, rfl⟩
    rw [Nat.log_pow (by decide)]

lemma consistency_rest_eq_ok [DecidableEq β] (hinj : Function.Injective2 H.nodeHash)
    {L : List (Hash β)} {old_size : ℕ} (h1 : 1 ≤ old_size) (hlt : old_size < L.length)
    {old_root first : Hash β} {rest : List (Hash β)} :
    consistencyLoop H rest (dropOnes (old_size - 1) (L.length - 1)).1
        (dropOnes (old_size - 1) (L.length - 1)).2 first first = .ok (0, old_root, trueRoot H L) ↔
      first :: rest = subproof H.nodeHash H.EMPTY_ROOT old_size L false ∧
        old_root = trueRoot H (L.take old_size) := by
  have hwalk : walkSides (dropOnes (old_size - 1) (L.length - 1)).1
      (dropOnes (old_size - 1) (L.length - 1)).2 = subproofSides old_size L.length :=
    walkBoth_eq h1 hlt
  rw [consistencyLoop_eq_ok, hwalk]
  constructor
  · rintro ⟨hlen, hboth⟩
    obtain ⟨hnew, hold⟩ := climbBoth_eq_mth_iff H.EMPTY_ROOT hinj first h1 hlt.le hlen
    rw [hboth] at hnew hold
    exact ⟨hnew.1 rfl, hold (hnew.1 rfl)⟩
  · rintro ⟨hproof, rfl⟩
    have hlen : rest.length = (subproofSides old_size L.length).length := by
      have := congrArg List.length hproof
      rwa [length_subproof, length_cons, add_right_cancel_iff] at this
    obtain ⟨hnew, hold⟩ := climbBoth_eq_mth_iff H.EMPTY_ROOT hinj first h1 hlt.le hlen
    exact ⟨hlen, Prod.ext (hold hproof) (hnew.2 hproof)⟩

lemma roots_eq_ok [DecidableEq β] {o : Outcome (Error β) (ℕ × Hash β × Hash β)} {x y : Hash β} :
    (o >>= fun (r : ℕ × Hash β × Hash β) =>
      if r.1 ≠ 0 ∨ r.2.1 ≠ x ∨ r.2.2 ≠ y then Outcome.err Error.BadProof else Outcome.ok ()) =
        .ok () ↔ o = .ok (0, x, y) := by
  rw [bind_eq_ok]
  constructor
  · rintro ⟨⟨s, fr, sr⟩, hr, hend⟩
    split_ifs at hend with hne
    rw [not_or, not_or, not_not, not_not, not_not] at hne
    obtain ⟨rfl, rfl, rfl⟩ := hne
    exact hr
  · intro h
    refine ⟨_, h, ?_⟩
    simp

/-- Consistency checking is exact: for the root of a known tree, a proof is accepted if and only if
the older root is that of the tree's first leaves and the proof is the consistency proof of them. -/
theorem consistency_exact [DecidableEq β] (H : Hashing β) (hinj : Function.Injective2 H.nodeHash)
    (L : List (Hash β)) (old_size : ℕ) (h1 : 1 ≤ old_size) (hle : old_size ≤ L.length)
    (hsize : L.length ≤ MAX_TREE_SIZE) (old_root : Hash β) (proof : List (Hash β)) :
    (verifyConsistency H proof old_size old_root L.length (trueRoot H L) = .ok () ↔
      old_root = trueRoot H (L.take old_size) ∧
        proof = subproof H.nodeHash H.EMPTY_ROOT old_size L true) ∧
    (old_size = L.length → subproof H.nodeHash H.EMPTY_ROOT old_size L true = []) := by
  have hempty : old_size = L.length → subproof H.nodeHash H.EMPTY_ROOT old_size L true = [] := by
    intro heq
    rw [subproof_of_not_lt (fun h => absurd h.1 (by omega))]
    rfl
  refine ⟨?_, hempty⟩
  rw [verifyConsistency, if_neg (by omega)]
  by_cases heq : old_size = L.length
  · rw [if_pos heq, hempty heq, heq, take_length]
    split_ifs with h
    · exact ⟨fun _ => h.symm, fun _ => rfl⟩
    · exact ⟨fun hend => absurd hend (by simp), fun hboth => absurd hboth.symm h⟩
  · have hlt : old_size < L.length := by omega
    rw [if_neg heq]
    by_cases hpow : isPowerOfTwo old_size = true
    · obtain ⟨l, rfl⟩ := isPowerOfTwo_iff.1 hpow
      rw [if_pos hpow]
      show (_ >>= _) = _ ↔ _
      rw [roots_eq_ok, consistency_rest_eq_ok hinj h1 hlt, subproof_of_pow hle, List.cons.injEq]
      exact ⟨fun h => h.1, fun h => ⟨h, h.1⟩⟩
    · have hne : ∀ l, old_size ≠ 2 ^ l := fun l hl => hpow (isPowerOfTwo_iff.2 ⟨l, hl⟩)
      have hsub : subproof H.nodeHash H.EMPTY_ROOT old_size L false = _ :=
        subproof_of_not_pow h1 hlt hne
      rw [if_neg hpow, nil_append, ← hsub]
      cases proof with
      | nil =>
        refine ⟨fun h => absurd h (by simp), fun h => ?_⟩
        have := congrArg List.length h.2
        rw [length_subproof] at this
        cases this
      | cons first rest =>
        show (_ >>= _) = _ ↔ _
        rw [roots_eq_ok, consistency_rest_eq_ok hinj h1 hlt]
        exact and_comm

theorem consistency_exact_five :
    verifyConsistency pairing (subproof pairing.nodeHash pairing.EMPTY_ROOT 3 fiveLeaves true) 3
        (trueRoot pairing (fiveLeaves.take 3)) 5 (trueRoot pairing fiveLeaves) = .ok () ∧
      verifyConsistency pairing (subproof pairing.nodeHash pairing.EMPTY_ROOT 4 fiveLeaves true) 4
        (flatHash 7) 5 (trueRoot pairing fiveLeaves) ≠ .ok () := by
  constructor
  · exact ((consistency_exact pairing pairing_injective fiveLeaves 3 (by decide) (by decide)
      (by decide) _ _).1).2 ⟨rfl, rfl⟩
  · intro h
    have hroot :=
      (((consistency_exact pairing pairing_injective fiveLeaves 4 (by decide) (by decide)
        (by decide) _ _).1).1 h).1
    revert hroot
    with_unfolding_all decide

/-! ### A log that only grows -/

section Growth

variable [DecidableEq β] {h h' : ℕ × Hash β} {index : ℕ} {leaf leaf' : Hash β}
  {proof proof' : List (Hash β)}

lemma verifyInclusion_iff : verifyInclusion H proof h.1 h.2 index leaf = .ok () ↔
    (h.1 ≤ MAX_TREE_SIZE ∧ index < h.1) ∧ proof.length = (pathSides index h.1).length ∧
      Merkle.climb H.nodeHash (pathSides index h.1) proof leaf = h.2 := by
  constructor
  · intro hin
    have hinside : h.1 ≤ MAX_TREE_SIZE ∧ index < h.1 := by
      rw [verifyInclusion] at hin
      split_ifs at hin with hsize hindex
      exact ⟨not_lt.1 hsize, not_le.1 hindex⟩
    rw [verifyInclusion_eq_ok hinside.1 hinside.2, pathRoot_eq] at hin
    split_ifs at hin with hlen
    exact ⟨hinside, hlen, Option.some.inj hin⟩
  · rintro ⟨hinside, hlen, hclimb⟩
    rw [verifyInclusion_eq_ok hinside.1 hinside.2, pathRoot_eq, if_pos hlen, hclimb]

lemma climb_of_consistency {m : ℕ} {x : Hash β}
    (hcons : verifyConsistency H proof m x h.1 h.2 = .ok ()) :
    (m, x) = h ∧ proof = [] ∨ (m < h.1 ∧ h.1 ≤ MAX_TREE_SIZE) ∧ ∃ first rest,
      (if isPowerOfTwo m then [x] else []) ++ proof = first :: rest ∧
      rest.length = (subproofSides m h.1).length ∧
      climbBoth H.nodeHash (subproofSides m h.1) rest (first, first) = (x, h.2) := by
  rw [verifyConsistency] at hcons
  split at hcons
  · cases hcons
  next hout =>
    split at hcons
    next heq =>
      split_ifs at hcons with hsame
      exact .inl ⟨Prod.ext heq hsame.2, hsame.1⟩
    next hne =>
      split at hcons
      · cases hcons
      next first rest hstart =>
        have hclimb := consistencyLoop_eq_ok.1 (roots_eq_ok.1 hcons)
        have hwalk : walkSides (dropOnes (m - 1) (h.1 - 1)).1 (dropOnes (m - 1) (h.1 - 1)).2 =
          subproofSides m h.1 := walkBoth_eq (by omega) (by omega)
        rw [hwalk] at hclimb
        exact .inr ⟨by omega, first, rest, hstart, hclimb⟩

lemma inclusion_unique (hinj : Function.Injective2 H.nodeHash)
    (hin : verifyInclusion H proof h.1 h.2 index leaf = .ok ())
    (hin' : verifyInclusion H proof' h.1 h.2 index leaf' = .ok ()) :
    leaf = leaf' ∧ proof = proof' := by
  obtain ⟨-, hlen, hclimb⟩ := verifyInclusion_iff.1 hin
  obtain ⟨-, hlen', hclimb'⟩ := verifyInclusion_iff.1 hin'
  exact climb_inj hinj hlen hlen' (hclimb.trans hclimb'.symm)

/-- A tree head stands for one log, whoever made it: at most one leaf is accepted at each place,
with one proof, and at most one root of each older tree, with one proof. -/
theorem proofs_unique (H : Hashing β) (hinj : Function.Injective2 H.nodeHash) (h : ℕ × Hash β) :
    (∀ index leaf leaf' proof proof', verifyInclusion H proof h.1 h.2 index leaf = .ok () →
      verifyInclusion H proof' h.1 h.2 index leaf' = .ok () → leaf = leaf' ∧ proof = proof') ∧
    ∀ m x x' proof proof', verifyConsistency H proof m x h.1 h.2 = .ok () →
      verifyConsistency H proof' m x' h.1 h.2 = .ok () → x = x' ∧ proof = proof' := by
  refine ⟨fun index leaf leaf' proof proof' => inclusion_unique hinj, ?_⟩
  intro m x x' proof proof' hcons hcons'
  rcases climb_of_consistency hcons with ⟨rfl, rfl⟩ | ⟨hlt, first, rest, hstart, hlen, hboth⟩
  · rcases climb_of_consistency hcons' with ⟨heq, rfl⟩ | ⟨hlt, -⟩
    · exact ⟨(congrArg Prod.snd heq).symm, rfl⟩
    · exact absurd hlt.1 (lt_irrefl _)
  · rcases climb_of_consistency hcons' with ⟨rfl, -⟩ | ⟨-, first', rest', hstart', hlen', hboth'⟩
    · exact absurd hlt.1 (lt_irrefl _)
    · have htop := congrArg Prod.snd hboth
      have htop' := congrArg Prod.snd hboth'
      rw [climbBoth_snd] at htop htop'
      obtain ⟨rfl, rfl⟩ := climb_inj hinj hlen hlen' (htop.trans htop'.symm)
      obtain rfl := congrArg Prod.fst (hboth.symm.trans hboth')
      exact ⟨rfl, append_cancel_left (hstart.trans hstart'.symm)⟩

theorem proofs_unique_five :
    verifyInclusion pairing [] 5 (trueRoot pairing fiveLeaves) 4 (flatHash 5) ≠ .ok () := by
  have hin : verifyInclusion pairing (auditPath pairing.nodeHash pairing.EMPTY_ROOT 4 fiveLeaves) 5
      (trueRoot pairing fiveLeaves) 4 (flatHash 5) = .ok () := by with_unfolding_all decide
  intro h
  have hproof := ((proofs_unique pairing pairing_injective
    (5, trueRoot pairing fiveLeaves)).1 4 _ _ _ _ h hin).2
  revert hproof
  with_unfolding_all decide

/-- Some consistency proof from one tree head, a size and a root, to another is accepted. -/
def Extends (H : Hashing β) (h h' : ℕ × Hash β) : Prop :=
  ∃ proof, verifyConsistency H proof h.1 h.2 h'.1 h'.2 = .ok ()

lemma Extends.included (hinj : Function.Injective2 H.nodeHash) (hext : Extends H h h')
    (hin : verifyInclusion H proof h.1 h.2 index leaf = .ok ()) :
    ∃ proof, verifyInclusion H proof h'.1 h'.2 index leaf = .ok () := by
  obtain ⟨_, hcons⟩ := hext
  rcases climb_of_consistency hcons with ⟨rfl, -⟩ | ⟨hlt, first, rest, -, hrest, hboth⟩
  · exact ⟨proof, hin⟩
  · obtain ⟨hinside, hlen, hclimb⟩ := verifyInclusion_iff.1 hin
    obtain ⟨ts, hts, hnew⟩ := exists_climb_of_climbBoth hinj hinside.2 hlt.1.le hrest hlen
      (hclimb.trans (congrArg Prod.fst hboth).symm)
    exact ⟨ts, verifyInclusion_iff.2
      ⟨⟨hlt.2, hinside.2.trans hlt.1⟩, hts, hnew.trans (congrArg Prod.snd hboth)⟩⟩

/-- What was included stays included: over any number of heads a leaf that was accepted under the
first is accepted at its place under the last, and no other leaf is. -/
theorem included_of_extends (hinj : Function.Injective2 H.nodeHash)
    (hext : Relation.ReflTransGen (Extends H) h h')
    (hin : verifyInclusion H proof h.1 h.2 index leaf = .ok ()) :
    (∃ proof, verifyInclusion H proof h'.1 h'.2 index leaf = .ok ()) ∧
      ∀ leaf' proof, verifyInclusion H proof h'.1 h'.2 index leaf' = .ok () → leaf' = leaf := by
  have hlast : ∃ proof, verifyInclusion H proof h'.1 h'.2 index leaf = .ok () := by
    induction hext with
    | refl => exact ⟨proof, hin⟩
    | tail _ hstep ih =>
      obtain ⟨proof, hin⟩ := ih
      exact hstep.included hinj hin
  refine ⟨hlast, fun leaf' proof hin' => ?_⟩
  obtain ⟨_, hin⟩ := hlast
  exact (inclusion_unique hinj hin' hin).1

theorem included_of_extends_five :
    verifyInclusion pairing [flatHash 1, flatHash 3] 5 (trueRoot pairing fiveLeaves) 1 (flatHash 4)
      ≠ .ok () := by
  have hext : Extends pairing (3, trueRoot pairing (fiveLeaves.take 3))
      (5, trueRoot pairing fiveLeaves) :=
    ⟨subproof pairing.nodeHash pairing.EMPTY_ROOT 3 fiveLeaves true, by with_unfolding_all decide⟩
  have hin : verifyInclusion pairing [flatHash 1, flatHash 3] 3
      (trueRoot pairing (fiveLeaves.take 3)) 1 (flatHash 2) = .ok () := by with_unfolding_all decide
  exact fun h => absurd ((included_of_extends pairing_injective (.single hext) hin).2 _ _ h)
    (by with_unfolding_all decide)

end Growth

end Lazaret.Tlog
