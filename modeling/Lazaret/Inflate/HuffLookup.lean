import Lazaret.Inflate.HuffBuild

/-!
# What the Huffman tables find

`Huff::lookup` and `Huff::slow` over the tables of a code: both find the code that begins the valid
bits, ask for more bits where a code is longer than them, and find bits bad where no code can be
longer (`Finds`).
-/

namespace Lazaret.Inflate

open List Outcome CanonicalCode

open CanonicalCode (Has used first before rank code codeword bits value kraft)

variable {lens : List ℕ} {w : List Bool}

/-! ## What there is to find -/

inductive Finds (lens : List ℕ) (w : List Bool) : Lookup → Prop
  | found {s l : ℕ} : Has lens s l → codeword lens s l <+: w → Finds lens w (.Found s l)
  | more {s l : ℕ} : (∀ s l, Has lens s l → ¬ codeword lens s l <+: w) → Has lens s l →
      w.length < l → Finds lens w .More
  | bad : (∀ s l, Has lens s l → ¬ codeword lens s l <+: w) → (∀ s l, Has lens s l → l ≤ w.length) →
      Finds lens w .Bad

lemma length_codeword (s l : ℕ) : (codeword lens s l).length = l := length_word l _

variable {s L l : ℕ}

lemma eq_of_codeword_prefix {s' l' : ℕ} (hused : used lens L ≤ 2 ^ L) (h : Has lens s l)
    (h' : Has lens s' l') (hl : l ≤ L) (hl' : l' ≤ L) (hpre : codeword lens s l <+: w)
    (hpre' : codeword lens s' l' <+: w) : s = s' ∧ l = l' := by
  obtain ⟨hlen, hvalue⟩ := (codeword_prefix_iff h hl hused w).1 hpre
  obtain ⟨hlen', hvalue'⟩ := (codeword_prefix_iff h' hl' hused w).1 hpre'
  exact eq_of_prefix h h' hlen hlen' hvalue hvalue'

variable {r : Lookup}

lemma Finds.unique (hused : used lens L ≤ 2 ^ L) (hL : ∀ s l, Has lens s l → l ≤ L)
    {r' : Lookup} (h : Finds lens w r) (h' : Finds lens w r') : r = r' := by
  cases h with
  | found hs hpre =>
    cases h' with
    | found hs' hpre' =>
      obtain ⟨rfl, rfl⟩ :=
        eq_of_codeword_prefix hused hs hs' (hL _ _ hs) (hL _ _ hs') hpre hpre'
      rfl
    | more hnone | bad hnone => exact absurd hpre (hnone _ _ hs)
  | more hnone hlong hlt =>
    cases h' with
    | found hs' hpre' => exact absurd hpre' (hnone _ _ hs')
    | more => rfl
    | bad _ hall => exact absurd (hall _ _ hlong) (not_le.2 hlt)
  | bad hnone hall =>
    cases h' with
    | found hs' hpre' => exact absurd hpre' (hnone _ _ hs')
    | more _ hlong hlt => exact absurd (hall _ _ hlong) (not_le.2 hlt)
    | bad => rfl

lemma Finds.found_iff (hused : used lens L ≤ 2 ^ L)
    (hL : ∀ s l, Has lens s l → l ≤ L) (h : Finds lens w r) (s l : ℕ) :
    r = .Found s l ↔ Has lens s l ∧ codeword lens s l <+: w := by
  constructor
  · rintro rfl
    cases h with
    | found hs hpre => exact ⟨hs, hpre⟩
  · rintro ⟨hs, hpre⟩
    exact h.unique hused hL (.found hs hpre)

lemma Finds.bad_iff (h : Finds lens w r) :
    r = .Bad ↔ ∀ s l, Has lens s l → l ≤ w.length ∧ ¬ codeword lens s l <+: w := by
  constructor
  · rintro rfl s l hs
    cases h with
    | bad hnone hall => exact ⟨hall s l hs, hnone s l hs⟩
  · intro hall
    cases h with
    | found hs hpre => exact absurd hpre (hall _ _ hs).2
    | more _ hlong hlt => exact absurd (hall _ _ hlong).1 (not_le.2 hlt)
    | bad => rfl

lemma Finds.more_iff (h : Finds lens w r) :
    r = .More ↔ (∀ s l, Has lens s l → ¬ codeword lens s l <+: w) ∧
      ∃ s l, Has lens s l ∧ w.length < l := by
  constructor
  · rintro rfl
    cases h with
    | more hnone hlong hlt => exact ⟨hnone, _, _, hlong, hlt⟩
  · rintro ⟨hnone, s, l, hs, hlt⟩
    cases h with
    | found hs' hpre => exact absurd hpre (hnone _ _ hs')
    | more => rfl
    | bad _ hall => exact absurd (hall s l hs) (not_le.2 hlt)

lemma Finds.not_prefix (h : Finds lens w .Bad) (hs : Has lens s l) :
    ¬ codeword lens s l <+: w ∧ ¬ w <+: codeword lens s l := by
  cases h with
  | bad hnone hall =>
    refine ⟨hnone s l hs, fun hpre => hnone s l hs ?_⟩
    have hlen : w.length = (codeword lens s l).length := by
      have := hpre.length_le
      rw [length_codeword] at this ⊢
      exact le_antisymm this (hall s l hs)
    exact hpre.eq_of_length hlen ▸ prefix_refl _

/-! ## The longest code -/

lemma find_spec (p : ℕ → Bool) (n : ℕ) :
    (((range' 1 n).reverse.find? p).getD 0 ≤ n) ∧
      (∀ l, 0 < l → l ≤ n → p l = true → l ≤ ((range' 1 n).reverse.find? p).getD 0) ∧
        (((range' 1 n).reverse.find? p).getD 0 ≠ 0 →
          p (((range' 1 n).reverse.find? p).getD 0) = true) := by
  induction n with
  | zero => exact ⟨le_rfl, fun l hl hl0 => absurd hl (by omega), fun h => absurd rfl h⟩
  | succ n ih =>
    rw [List.range'_1_concat, reverse_append, reverse_singleton, singleton_append,
      List.find?_cons, add_comm 1 n]
    cases hp : p (n + 1) with
    | true => exact ⟨le_rfl, fun l _ hl _ => hl, fun _ => hp⟩
    | false =>
      obtain ⟨hle, hall, his⟩ := ih
      refine ⟨Nat.le_succ_of_le hle, fun l hpos hl hpl => hall l hpos ?_ hpl, his⟩
      refine Nat.le_of_lt_succ (lt_of_le_of_ne hl ?_)
      rintro rfl
      rw [hp] at hpl
      cases hpl

lemma longest_spec (hlens : ∀ l ∈ lens, l < 16) :
    longest (counts lens) ≤ 15 ∧ (∀ s l, Has lens s l → l ≤ longest (counts lens)) ∧
      (longest (counts lens) ≠ 0 → ∃ s, Has lens s (longest (counts lens))) := by
  have hcount : ∀ l, l ≤ 15 → counts lens (Fin.ofNat 16 l) = CanonicalCode.count lens l := by
    intro l hl
    rw [counts, Fin.val_ofNat, Nat.mod_eq_of_lt (by omega)]
  obtain ⟨hle, hall, his⟩ := find_spec (fun l => counts lens (Fin.ofNat 16 l) ≠ 0) 15
  refine ⟨hle, ?_, ?_⟩
  · intro s l hs
    have hl : l ≤ 15 := Nat.le_of_lt_succ (hlens l hs.mem)
    refine hall l (pos_of_ne_zero hs.2) hl (decide_eq_true ?_)
    rw [hcount l hl]
    have := hs.rank_lt
    omega
  · intro hne
    have hpos := of_decide_eq_true (his hne)
    rw [hcount _ hle] at hpos
    obtain ⟨s, hs, -⟩ := exists_rank (pos_of_ne_zero hpos)
    exact ⟨s, hs⟩

/-! ## A bit at a time -/

lemma not_prefix_of_used_le {k : ℕ} (hk : k ≤ w.length) (h : used lens k ≤ value (w.take k))
    (hused : used lens L ≤ 2 ^ L) (hs : Has lens s l) (hL : l ≤ L) (hl : l ≤ k) :
    ¬ codeword lens s l <+: w := by
  intro hpre
  obtain ⟨-, hvalue⟩ := (codeword_prefix_iff hs hL hused w).1 hpre
  obtain ⟨j, rfl⟩ := Nat.exists_eq_add_of_le hl
  have hhigh := (value_take_le (w := w) (l := l) (k := j) hk).2
  have hle := calc (value (w.take l) + 1) * 2 ^ j ≤ used lens l * 2 ^ j :=
        Nat.mul_le_mul_right _ (hvalue ▸ hs.code_lt_used)
    _ ≤ used lens (l + j) := used_mul_le l j
  omega

variable {h : Huff}

lemma slowFrom_spec (hh : Holds lens h) (hlens : ∀ l ∈ lens, l < 16)
    (hused : used lens 15 ≤ 2 ^ 15) (buf : BitVec 64) (cnt : ℕ) {m k : ℕ}
    (hm : k + m = longest (counts lens)) (hk : k ≤ cnt)
    (hpast : used lens k ≤ value (bits buf.toNat k)) :
    ∃ r, slowFrom h buf cnt (range' (k + 1) m) (2 * value (bits buf.toNat k))
        (first lens (k + 1)) (before lens (k + 1)) = .ok r ∧
      Finds lens (bits buf.toNat cnt) r := by
  obtain ⟨hmax, hall, hlongest⟩ := longest_spec hlens
  have hL : ∀ s l, Has lens s l → l ≤ 15 := fun s l hs => (hall s l hs).trans hmax
  -- none of the codes so far begins the valid bits
  have hnone : ∀ {j}, j ≤ cnt → used lens j ≤ value (bits buf.toNat j) → ∀ s l, Has lens s l →
      l ≤ j → ¬ codeword lens s l <+: bits buf.toNat cnt := by
    intro j hj hpast s l hs hl
    refine not_prefix_of_used_le (k := j) ?_ ?_ hused hs (hL s l hs) hl
    · rw [length_bits]
      exact hj
    · rw [take_bits hj]
      exact hpast
  induction m generalizing k with
  | zero =>
    refine ⟨.Bad, rfl, .bad (fun s l hs => hnone hk hpast s l hs ((hall s l hs).trans hm.ge)) ?_⟩
    intro s l hs
    rw [length_bits]
    exact (hall s l hs).trans (hm.ge.trans hk)
  | succ m ih =>
    rw [List.range'_succ, slowFrom]
    by_cases hcnt : k + 1 > cnt
    · rw [if_pos hcnt]
      obtain ⟨s, hs⟩ := hlongest (by omega)
      obtain rfl : k = cnt := by omega
      refine ⟨.More, rfl, .more ?_ hs ?_⟩
      · intro s l hs hpre
        have hl := hpre.length_le
        rw [length_codeword, length_bits] at hl
        exact hnone le_rfl hpast s l hs hl hpre
      · rw [length_bits]
        omega
    · have hcode : 2 * value (bits buf.toNat k) ||| (buf >>> (k + 1 - 1) &&& 1).toNat =
          value (bits buf.toNat (k + 1)) := by
        have hbit : (buf >>> k &&& 1).toNat = (buf.toNat.testBit k).toNat := by
          rw [BitVec.toNat_and, BitVec.toNat_ushiftRight, Nat.testBit_eq_decide_div_mod_eq,
            Nat.shiftRight_eq_div_pow]
          show _ &&& 1 = _
          rw [Nat.and_one_is_mod]
          rcases Nat.mod_two_eq_zero_or_one (buf.toNat / 2 ^ k) with h0 | h1
          · rw [h0]; rfl
          · rw [h1]; rfl
        have hlt : (buf.toNat.testBit k).toNat < 2 ^ 1 := Bool.toNat_lt _
        have hor := Nat.two_pow_add_eq_or_of_lt hlt (value (bits buf.toNat k))
        rw [pow_one] at hor
        rw [Nat.add_sub_cancel, hbit, bits_succ, value_append_singleton, hor]
      rw [if_neg hcnt, hcode, hh.count, get_counts (by omega), ok_bind]
      dsimp only
      have hstep : first lens (k + 1) ≤ value (bits buf.toNat (k + 1)) := by
        rw [bits_succ, value_append_singleton, first]
        have : first lens k + CanonicalCode.count lens k ≤ value (bits buf.toNat k) := hpast
        omega
      split
      next hfound =>
        have hless : value (bits buf.toNat (k + 1)) - first lens (k + 1) <
            CanonicalCode.count lens (k + 1) := by
          omega
        obtain ⟨s, hs, hrank⟩ := exists_rank hless
        rw [if_neg (by omega), show ((before lens (k + 1) : ℤ) + (value (bits buf.toNat (k + 1)) -
          first lens (k + 1))).toNat = before lens (k + 1) + rank lens s (k + 1) by omega,
          hh.symbol s (k + 1) hs, ok_bind]
        refine ⟨_, rfl, .found hs ?_⟩
        rw [codeword_prefix_iff hs (hL _ _ hs) hused, length_bits,
          take_bits (by omega), code, hrank]
        omega
      next hnot =>
        have hpast' : used lens (k + 1) ≤ value (bits buf.toNat (k + 1)) := by
          rw [used]
          omega
        have hrest := ih (by omega) (by omega) hpast'
        rw [Nat.shiftLeft_eq, Nat.shiftLeft_eq, pow_one, Nat.mul_comm _ 2]
        exact hrest

lemma slow_spec (hh : Holds lens h) (hlens : ∀ l ∈ lens, l < 16)
    (hused : used lens 15 ≤ 2 ^ 15) (buf : BitVec 64) (cnt : ℕ) :
    ∃ r, slow h buf cnt = .ok r ∧ Finds lens (bits buf.toNat cnt) r := by
  rw [slow, hh.longest]
  exact slowFrom_spec hh hlens hused buf cnt (Nat.zero_add _) (Nat.zero_le _) le_rfl

/-! ## With the table -/

lemma lookup_spec (hh : Holds lens h) (hlen : lens.length ≤ 288)
    (hlens : ∀ l ∈ lens, l < 16) (hused : used lens 15 ≤ 2 ^ 15) (buf : BitVec 64) (cnt : ℕ) :
    ∃ r, lookup h buf cnt = .ok r ∧ Finds lens (bits buf.toNat cnt) r := by
  have hindex : (buf &&& (1 <<< FAST_BITS - 1)).toNat = buf.toNat % 2 ^ FAST_BITS := by
    rw [BitVec.toNat_and]
    exact Nat.and_two_pow_sub_one_eq_mod _ FAST_BITS
  have hlt : buf.toNat % 2 ^ FAST_BITS < 1024 := Nat.mod_lt _ (by decide)
  -- the index has the first bits of the buffer
  have hbits : ∀ l, l ≤ FAST_BITS → bits (buf.toNat % 2 ^ FAST_BITS) l = bits buf.toNat l := by
    intro l hl
    refine bits_congr fun i hi => ?_
    rw [Nat.testBit_mod_two_pow, decide_eq_true (by omega), Bool.true_and]
  rw [lookup, hindex, get_of_lt hlt, ok_bind]
  dsimp only
  by_cases hshort : ∃ s l, Has lens s l ∧ l ≤ FAST_BITS ∧ bits buf.toNat l = codeword lens s l
  · obtain ⟨s, l, hs, hl, hcode⟩ := hshort
    have hs512 : s < 2 ^ 9 := by
      have := hs.lt
      omega
    rw [hh.found ⟨_, hlt⟩ s l hs hl ((hbits l hl).trans hcode)]
    have hlen9 : (l <<< 9 ||| s) >>> 9 = l := by
      rw [Nat.shiftRight_or_distrib, Nat.shiftLeft_shiftRight, Nat.shiftRight_eq_zero s 9 hs512,
        Nat.or_zero]
    have hsym : (l <<< 9 ||| s) &&& 0x1ff = s := by
      rw [← Nat.shiftLeft_add_eq_or_of_lt hs512, Nat.shiftLeft_eq]
      show _ &&& (2 ^ 9 - 1) = s
      rw [Nat.and_two_pow_sub_one_eq_mod, Nat.mul_add_mod_self_right, Nat.mod_eq_of_lt hs512]
    rw [hlen9, hsym, if_pos hs.2]
    refine ⟨_, rfl, ?_⟩
    by_cases hcnt : l ≤ cnt
    · rw [if_pos hcnt]
      refine .found hs ?_
      rw [← hcode, ← take_bits hcnt]
      exact take_prefix l _
    · -- a code that begins the valid bits would begin the longer one
      rw [if_neg hcnt]
      have hwhole : bits buf.toNat cnt <+: bits buf.toNat l := by
        rw [← take_bits (n := buf.toNat) (show cnt ≤ l by omega)]
        exact take_prefix _ _
      refine .more ?_ hs (by rw [length_bits]; omega)
      intro s' l' hs' hpre
      have hle := hpre.length_le
      rw [length_codeword, length_bits] at hle
      have heq := eq_of_codeword_prefix hused hs' hs (Nat.le_of_lt_succ (hlens _ hs'.mem))
        (Nat.le_of_lt_succ (hlens _ hs.mem)) (hpre.trans hwhole) (hcode ▸ prefix_refl _)
      omega
  · have hzero : h.fast ⟨_, hlt⟩ = 0 := by
      refine hh.none _ fun s l hs hl hcode => hshort ⟨s, l, hs, hl, ?_⟩
      rw [← hbits l hl]
      exact hcode
    rw [hzero, Nat.zero_shiftRight, if_neg (by simp)]
    exact slow_spec hh hlens hused buf cnt

/-- The tables agree with the code they are built from. -/
theorem lookup_agrees (self : Huff) (lens : List ℕ) (hlen : lens.length ≤ 288)
    (hlens : ∀ l ∈ lens, l < 16) :
    ((∃ complete h, build self lens = .ok (complete, h)) ↔ kraft lens ≤ 1) ∧
      ∀ complete h, build self lens = .ok (complete, h) → (complete = true ↔ kraft lens = 1) ∧
        ∀ (buf : BitVec 64) (cnt : ℕ), ∃ r, lookup h buf cnt = .ok r ∧ slow h buf cnt = .ok r ∧
          (∀ s l, r = .Found s l ↔ Has lens s l ∧ codeword lens s l <+: bits buf.toNat cnt) ∧
          (r = .Bad ↔ ∀ s l, Has lens s l → l ≤ cnt ∧ ¬ codeword lens s l <+: bits buf.toNat cnt) ∧
          (r = .More ↔ (∀ s l, Has lens s l → ¬ codeword lens s l <+: bits buf.toNat cnt) ∧
            ∃ s l, Has lens s l ∧ cnt < l) ∧
          (r = .Bad → ∀ s l, Has lens s l → ¬ codeword lens s l <+: bits buf.toNat cnt ∧
            ¬ bits buf.toNat cnt <+: codeword lens s l) ∧
          ∀ buf' : BitVec 64, (∀ i < cnt, buf'.getLsbD i = buf.getLsbD i) →
            lookup h buf' cnt = .ok r := by
  have hle : ∀ l ∈ lens, l ≤ 15 := fun l hl => Nat.le_of_lt_succ (hlens l hl)
  obtain ⟨hok, herr⟩ := build_eq self hlen hlens
  rw [kraft_le_one_iff hle, kraft_eq_one_iff hle]
  by_cases hused : used lens 15 ≤ 2 ^ 15
  · obtain ⟨h, hbuild, hh⟩ := hok hused
    refine ⟨⟨fun _ => hused, fun _ => ⟨_, h, hbuild⟩⟩, ?_⟩
    intro complete h' hbuild'
    rw [hbuild, Outcome.ok.injEq, Prod.mk.injEq] at hbuild'
    obtain ⟨rfl, rfl⟩ := hbuild'
    refine ⟨decide_eq_true_iff, ?_⟩
    intro buf cnt
    have hL : ∀ s l, Has lens s l → l ≤ 15 := fun s l hs => hle l hs.mem
    obtain ⟨r, hr, hfinds⟩ := lookup_spec hh hlen hlens hused buf cnt
    obtain ⟨r', hr', hfinds'⟩ := slow_spec hh hlens hused buf cnt
    obtain rfl := hfinds.unique hused hL hfinds'
    refine ⟨r, hr, hr', hfinds.found_iff hused hL, ?_, ?_, ?_, ?_⟩
    · rw [hfinds.bad_iff, length_bits]
    · rw [hfinds.more_iff, length_bits]
    · rintro rfl s l hs
      exact hfinds.not_prefix hs
    · intro buf' hsame
      obtain ⟨r', hr', hfinds'⟩ := lookup_spec hh hlen hlens hused buf' cnt
      have hbits : bits buf'.toNat cnt = bits buf.toNat cnt := bits_congr hsame
      rw [hbits] at hfinds'
      rw [hr', hfinds'.unique hused hL hfinds]
  · have herr := herr hused
    rw [herr]
    refine ⟨⟨?_, fun h => absurd h hused⟩, ?_⟩
    · rintro ⟨complete, h, hbuild⟩
      cases hbuild
    · intro complete h hbuild
      cases hbuild

theorem lookup_agrees_three : ∃ complete h, build Huff.new [1, 2, 2] = .ok (complete, h) :=
  (lookup_agrees Huff.new [1, 2, 2] (by decide) (by decide)).1.2 (by norm_num [kraft])

end Lazaret.Inflate
