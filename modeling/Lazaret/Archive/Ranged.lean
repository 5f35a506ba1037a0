import Lazaret.Archive.Pieces
import Mathlib.Logic.Relation

/-!
# Reading by ranges

The host gives a reading what it has of a file, fetches what the reading needed, and reads again
(`ranged`).  The rounds end, since each asks for a byte that was not given.  They give what the
whole file says when the last has all that reading it asks for (`Complete`), as it has unless the
reading comes to something that nothing is noted for (`Blind`); of a reading that gives up at the
first bytes that are not here (`Strict`) the pieces given tell which it is (`Served`).
-/

namespace Lazaret.Archive

open List

variable {α : Type} {file : List UInt8} {given : List Piece} {p : Rd α}

def supply (file : List UInt8) (ranges : List (ℕ × ℕ)) : List Piece :=
  ranges.map fun r => (r.1, (file.drop r.1).take r.2)

/-- What a reading leaves noted when it is given pieces of the file. -/
def needsOf (p : Rd α) (file : List UInt8) (given : List Piece) : List (ℕ × ℕ) :=
  (p.on (Bytes.ofPieces file.length given U64_MAX)).2.needs

/-- A round of reading by ranges: the result, when nothing was needed, or the pieces of the next
round. -/
def ranged (p : Rd α) (file : List UInt8) (given : List Piece) : α ⊕ List Piece :=
  if needsOf p file given = [] then .inl (p.on (Bytes.ofPieces file.length given U64_MAX)).1
  else .inr (given ++ supply file (needsOf p file given))

/-- The pieces have what a question is about: of no bytes, they have or touch the place. -/
def Answered (file : List UInt8) (given : List Piece) (q : Query) : Prop :=
  q.off + q.len ≤ file.length → (Bytes.ofPieces file.length given U64_MAX).Held q.off q.len

instance (file : List UInt8) (given : List Piece) (q : Query) : Decidable (Answered file given q) :=
  inferInstanceAs (Decidable (_ → ∃ p ∈ Bytes.joined file.length given, _ ∧ _))

/-- The pieces have all that the reading of the whole file asks for or looks at. -/
def Complete (p : Rd α) (file : List UInt8) (given : List Piece) : Prop :=
  p.Every (Bytes.tell file) (Answered file given)

instance (p : Rd α) (file : List UInt8) (given : List Piece) : Decidable (Complete p file given) :=
  inferInstanceAs (Decidable (p.Every _ _))

namespace Bytes

variable {s : Bytes}

lemma answer_of_answered {q : Query} (hgiven : PiecesOf file given) (h : Answered file given q) :
    (ofPieces file.length given U64_MAX).answer q =
      (tell file q, ofPieces file.length given U64_MAX) := by
  by_cases hsize : q.off + q.len ≤ file.length
  · rw [tell_here hsize]
    exact (ofFile_ofPieces hgiven).answer_held hsize (h hsize)
  · rw [tell_past (by omega)]
    have hpast : (ofPieces file.length given U64_MAX).size < q.off + q.len := not_le.1 hsize
    exact answer_past hpast

lemma OfFile.on_fresh (h : OfFile file s) (hs : s.Fresh) (p : Rd α) :
    OfFile file (p.on s).2 ∧ (p.on s).2.Fresh ∧ (p.on s).2.pieces = s.pieces := by
  refine Reading.run_keeps (fun t => OfFile file t ∧ t.Fresh ∧ t.pieces = s.pieces) ?_ p s
    ⟨h, hs, rfl⟩
  rintro t q ⟨h1, h2, h3⟩
  have hn := h1.answer_noted q
  exact ⟨h1.noted hn, h2.noted hn, hn.pieces_eq.trans h3⟩

end Bytes

/-! ### Rounds -/

lemma supply_of (file : List UInt8) (ranges : List (ℕ × ℕ)) :
    PiecesOf file (supply file ranges) := by
  intro q hq i hi _
  obtain ⟨r, -, rfl⟩ := mem_map.1 hq
  simp only [length_take, length_drop] at hi
  rw [getElem?_take, if_pos (by omega), getElem?_drop]

lemma covers_supply {ranges : List (ℕ × ℕ)} {i : ℕ} (hi : i < file.length) :
    Covers (supply file ranges) i ↔ InRanges ranges i := by
  constructor
  · rintro ⟨q, hq, hlo, hhi⟩
    obtain ⟨r, hr, rfl⟩ := mem_map.1 hq
    simp only [Piece.stop, length_take, length_drop] at hlo hhi
    exact ⟨r, hr, hlo, by omega⟩
  · rintro ⟨r, hr, hlo, hhi⟩
    refine ⟨_, mem_map_of_mem hr, hlo, ?_⟩
    simp only [Piece.stop, length_take, length_drop]
    omega

theorem needsOf_new (hgiven : PiecesOf file given) (hneeds : needsOf p file given ≠ []) :
    ∃ i, i < file.length ∧ InRanges (needsOf p file given) i ∧ ¬ Covers given i := by
  have hs := Bytes.ofFile_ofPieces hgiven
  obtain ⟨h1, h2, h3⟩ := hs.on_fresh (by simp [Bytes.Fresh, Bytes.ofPieces]) p
  have hneed : (p.on (Bytes.ofPieces file.length given U64_MAX)).2.need ≠ [] :=
    fun hnil => hneeds (h2.needs_eq_nil.2 hnil)
  obtain ⟨r, hr⟩ := exists_mem_of_ne_nil _ hneed
  obtain ⟨hsize, i, hlo, hhi, hnot⟩ := h2 r hr
  rw [h1.size_eq] at hsize
  refine ⟨i, by omega, (inRanges_needs _ i).2 ⟨r, hr, hlo, hhi⟩, fun hcov => hnot ?_⟩
  have hhas := (Bytes.has_ofPieces hgiven i).2 ⟨by omega, hcov⟩
  rwa [Bytes.Has, h3]

noncomputable def missing (file : List UInt8) (given : List Piece) : ℕ :=
  open Classical in ((Finset.range file.length).filter fun i => ¬ Covers given i).card

lemma covers_append {l l' : List Piece} {i : ℕ} :
    Covers (l ++ l') i ↔ Covers l i ∨ Covers l' i := by
  simp only [Covers, mem_append, or_and_right, exists_or]

lemma missing_lt (hgiven : PiecesOf file given) (hneeds : needsOf p file given ≠ []) :
    missing file (given ++ supply file (needsOf p file given)) < missing file given := by
  obtain ⟨i, hi, hin, hnot⟩ := needsOf_new hgiven hneeds
  refine Finset.card_lt_card ((Finset.ssubset_iff_of_subset ?_).2 ⟨i, ?_, ?_⟩)
  · intro j hj
    simp only [Finset.mem_filter, covers_append] at hj ⊢
    exact ⟨hj.1, fun hc => hj.2 (Or.inl hc)⟩
  · simp only [Finset.mem_filter, Finset.mem_range]
    exact ⟨hi, hnot⟩
  · simp only [Finset.mem_filter, covers_append, covers_supply hi, not_and, not_not]
    exact fun _ => Or.inr hin

lemma ranged_next {next : List Piece} (hgiven : PiecesOf file given)
    (hr : ranged p file given = .inr next) :
    PiecesOf file next ∧ missing file next < missing file given := by
  rw [ranged] at hr
  split_ifs at hr with hnil
  cases hr
  refine ⟨?_, missing_lt hgiven hnil⟩
  intro q hq
  rcases mem_append.1 hq with hq | hq
  · exact hgiven q hq
  · exact supply_of file _ q hq

/-- Reading by ranges gives what reading the whole file gives. -/
def ReadsWhole (p : Rd α) (file : List UInt8) (given : List Piece) : Prop :=
  ∃ n, again (ranged p file) n given = some (p.on (Bytes.whole file)).1

/-- The first thing that the pieces do not have, of what the reading of the whole file asks for or
looks at, is one that nothing is noted for: no bytes, or bytes only looked at. -/
def Blind (file : List UInt8) (given : List Piece) : Rd α → Prop
  | .done _ => False
  | .ask q k =>
    if Answered file given q then Blind file given (k (Bytes.tell file q))
    else q.isLook = true ∨ q.len = 0

instance decidableBlind (file : List UInt8) (given : List Piece) :
    (p : Rd α) → Decidable (Blind file given p)
  | .done _ => isFalse id
  | .ask q k =>
    have := decidableBlind file given (k (Bytes.tell file q))
    inferInstanceAs (Decidable (if Answered file given q then _ else _ ∨ _))

lemma Bytes.OfFile.need_mono {s : Bytes} (h : Bytes.OfFile file s) (p : Rd α) {r : ℕ × ℕ}
    (hr : r ∈ s.need) : r ∈ (p.on s).2.need := by
  refine (Reading.run_keeps (fun t => Bytes.OfFile file t ∧ r ∈ t.need) ?_ p s ⟨h, hr⟩).2
  rintro t q ⟨h1, h2⟩
  have hn := h1.answer_noted q
  refine ⟨h1.noted hn, ?_⟩
  rcases hn.need_eq with heq | ⟨r', heq, -⟩
  · exact heq ▸ h2
  · exact heq ▸ mem_append_left _ h2

theorem complete_of_last (hgiven : PiecesOf file given) (hneeds : needsOf p file given = [])
    (h : ¬ Blind file given p) : Complete p file given := by
  have hs := Bytes.ofFile_ofPieces hgiven
  induction p with
  | done a => trivial
  | ask q k ih =>
    rw [Blind] at h
    split_ifs at h with hq
    · refine ⟨hq, ih _ ?_ h⟩
      rwa [needsOf, Rd.on, Reading.run, Bytes.answer_of_answered hgiven hq] at hneeds
    · -- bytes that are asked for and not here are noted, and stay so
      obtain ⟨hlook, hlen⟩ := not_or.1 h
      obtain ⟨hsize, hheld⟩ := Classical.not_imp.1 hq
      have hnoted := (hs.answer_missing hsize hheld (by simpa using hlook) (by omega)).2
      obtain ⟨r, hr⟩ := exists_mem_of_ne_nil _ hnoted
      have hlast := (hs.noted (hs.answer_noted q)).need_mono
        (k ((Bytes.ofPieces file.length given U64_MAX).answer q).1) hr
      have hfresh := (hs.on_fresh (by simp [Bytes.Fresh, Bytes.ofPieces]) (.ask q k)).2.1
      rw [needsOf, hfresh.needs_eq_nil] at hneeds
      rw [Rd.on, Reading.run, ← Rd.on] at hneeds
      rw [hneeds] at hlast
      cases hlast

theorem ranged_ends (hgiven : PiecesOf file given) :
    ∃ n a, again (ranged p file) n given = some a := by
  obtain ⟨a, ha, -⟩ := again_ends (PiecesOf file) (fun _ => True) (missing file)
    (fun g g' => ranged_next) (fun _ _ _ _ => trivial) given hgiven
  exact ⟨_, a, ha⟩

def Reached (p : Rd α) (file : List UInt8) : List Piece → List Piece → Prop :=
  Relation.ReflTransGen fun g g' => ranged p file g = .inr g'

lemma readsWhole_next {next : List Piece} (hr : ranged p file given = .inr next) :
    ReadsWhole p file given ↔ ReadsWhole p file next := by
  constructor
  · rintro ⟨n, hn⟩
    cases n with
    | zero => cases hn
    | succ n =>
      rw [again, hr] at hn
      exact ⟨n, hn⟩
  · rintro ⟨n, hn⟩
    refine ⟨n + 1, ?_⟩
    rw [again, hr]
    exact hn

lemma ranged_complete (hgiven : PiecesOf file given) (h : Complete p file given) :
    ranged p file given = .inl (p.on (Bytes.whole file)).1 := by
  have hrun := Reading.run_eq_value h fun q hq => Bytes.answer_of_answered hgiven hq
  have hneeds : needsOf p file given = [] := by
    rw [needsOf, Rd.on, hrun]
    rfl
  rw [ranged, if_pos hneeds, Rd.on, hrun, Bytes.on_whole]

theorem readsWhole_of_complete (hgiven : PiecesOf file given) {g : List Piece}
    (hr : Reached p file given g) (h : Complete p file g) : ReadsWhole p file given := by
  induction hr using Relation.ReflTransGen.head_induction_on with
  | refl =>
    refine ⟨1, ?_⟩
    rw [again, ranged_complete hgiven h]
  | head hstep _ ih => exact (readsWhole_next hstep).2 (ih (ranged_next hgiven hstep).1)

lemma Reached.pieces {g : List Piece} (hgiven : PiecesOf file given) (hr : Reached p file given g) :
    PiecesOf file g := by
  induction hr with
  | refl => exact hgiven
  | tail _ hstep ih => exact (ranged_next ih hstep).1

/-- Rounds that come to pieces with which nothing is noted, and the reading is not blind, give what
the whole file does. -/
theorem readsWhole_of_last (hgiven : PiecesOf file given) {g : List Piece}
    (hr : Reached p file given g) (hneeds : needsOf p file g = []) (h : ¬ Blind file g p) :
    ReadsWhole p file given :=
  readsWhole_of_complete hgiven hr (complete_of_last (hr.pieces hgiven) hneeds h)

/-! ### Readings that give up at what is missing -/

def Query.noted (size : ℕ) : Query → ℕ × ℕ
  | .fetch off len more => (off, min (max len more) (size - off))
  | .look off _ => (off, 0)

/-- A reading that looks at nothing, and gives up (with a result that is one of `bad`, and no other
is) at the first bytes that are not here. -/
def Strict (size : ℕ) (bad : α → Prop) : Rd α → Prop
  | .done a => ¬ bad a
  | .ask q k => q.isLook = false ∧ (∃ b, bad b ∧ k .asked = .done b) ∧
      (∀ bytes, Strict size bad (k (.here bytes))) ∧
      (size < q.off + q.len → Strict size bad (k .past))

/-- The reading of the whole file asks for no bytes only at places that the pieces have, with each
range that was asked for before and they did not have, and what is noted with it. -/
def Served (file : List UInt8) : Rd α → List Piece → Prop
  | .done _, _ => True
  | .ask q k, given =>
    if Answered file given q then Served file (k (Bytes.tell file q)) given
    else 0 < q.len ∧
      Served file (k (Bytes.tell file q)) (given ++ supply file [q.noted file.length])

instance decidableServed (file : List UInt8) :
    (p : Rd α) → (given : List Piece) → Decidable (Served file p given)
  | .done _, _ => isTrue trivial
  | .ask q k, given =>
    have := decidableServed file (k (Bytes.tell file q)) given
    have := decidableServed file (k (Bytes.tell file q))
      (given ++ supply file [q.noted file.length])
    inferInstanceAs (Decidable (if Answered file given q then _ else 0 < q.len ∧ _))

lemma absorb_ne_nil {l : List Piece} {r : Piece} (hl : ∀ q ∈ l, q.2 ≠ []) (hr : r.2 ≠ []) :
    ∀ q ∈ absorb l r, q.2 ≠ [] := by
  rcases l with _ | ⟨⟨lo, b⟩, rest⟩
  · simpa [absorb] using hr
  · have hb := hl (lo, b) mem_cons_self
    have hrest := fun q hq => hl q (mem_cons_of_mem _ hq)
    rw [absorb]
    split_ifs
    · exact forall_mem_cons.2 ⟨append_ne_nil_of_left_ne_nil hb _, hrest⟩
    · exact hl
    · exact forall_mem_cons.2 ⟨hr, hl⟩

lemma joined_ne_nil (size : ℕ) (given : List Piece) : ∀ q ∈ Bytes.joined size given, q.2 ≠ [] := by
  have key : ∀ ps l : List Piece, (∀ q ∈ ps, q.2 ≠ []) → (∀ q ∈ l, q.2 ≠ []) →
      ∀ q ∈ ps.foldl absorb l, q.2 ≠ [] := by
    intro ps
    induction ps with
    | nil => exact fun l _ hl => hl
    | cons r ps ih =>
      intro l hps hl
      exact ih _ (fun q hq => hps q (mem_cons_of_mem _ hq))
        (absorb_ne_nil hl (hps r mem_cons_self))
  intro q hq
  refine key _ [] ?_ (by simp) q (mem_reverse.1 hq)
  intro _ hcut
  obtain ⟨r, hr, rfl⟩ := mem_map.1 hcut
  have hmem := mem_filter.1 ((mem_insertionSort pieceLe).1 hr)
  obtain ⟨hlt, hne⟩ : r.1 < size ∧ r.2 ≠ [] := by simpa using hmem.2
  have hlen := length_pos_iff.2 hne
  rw [cutAt, ← length_pos_iff, length_take]
  omega

lemma Answered.append {q : Query} (hgiven : PiecesOf file given) {more : List Piece}
    (hmore : PiecesOf file (given ++ more)) (h : Answered file given q) :
    Answered file (given ++ more) q := by
  intro hsize
  obtain ⟨pc, hpc, hlo, hhi⟩ := h hsize
  have hpos := length_pos_iff.2 (joined_ne_nil file.length given pc hpc)
  have hall : (Bytes.ofPieces file.length (given ++ more) U64_MAX).Held pc.1 pc.2.length := by
    refine Bytes.held_of_has (Bytes.ofFile_ofPieces hmore).apart hpos fun i h1 h2 => ?_
    have hhas : (Bytes.ofPieces file.length given U64_MAX).Has i := ⟨pc, hpc, h1, h2⟩
    obtain ⟨hi, hcov⟩ := (Bytes.has_ofPieces hgiven i).1 hhas
    exact (Bytes.has_ofPieces hmore i).2 ⟨hi, covers_append.2 (.inl hcov)⟩
  obtain ⟨pc', hpc', h1, h2⟩ := hall
  rw [Piece.stop] at hhi
  exact ⟨pc', hpc', by omega, by omega⟩

lemma answered_noted {q : Query}
    (hmore : PiecesOf file (given ++ supply file [q.noted file.length]))
    (hlook : q.isLook = false) (hlen : 0 < q.len) :
    Answered file (given ++ supply file [q.noted file.length]) q := by
  intro hsize
  refine Bytes.held_of_has (Bytes.ofFile_ofPieces hmore).apart hlen fun i h1 h2 => ?_
  refine (Bytes.has_ofPieces hmore i).2 ⟨by omega, covers_append.2 (.inr ?_)⟩
  refine (covers_supply (by omega)).2 ⟨_, mem_singleton_self _, ?_⟩
  cases q with
  | look off len => cases hlook
  | fetch off len more =>
    simp only [Query.off, Query.len, Query.noted] at *
    omega

/-- A round of a reading that gives up at what is missing: it has all that it asks for, or it notes
what it does not have, or that is no bytes and it fails. -/
lemma Strict.round {bad : α → Prop} (hs : Strict file.length bad p) (hgiven : PiecesOf file given) :
    Complete p file given ∧ Served file p given ∨
    (∃ r : ℕ × ℕ, 0 < r.2 ∧ (p.on (Bytes.ofPieces file.length given U64_MAX)).2.need = [r] ∧
      (Served file p given ↔ Served file p (given ++ supply file [r]))) ∨
    (∃ b, bad b ∧ p.on (Bytes.ofPieces file.length given U64_MAX) =
      (b, Bytes.ofPieces file.length given U64_MAX)) ∧ ¬ Served file p given := by
  have hmore : ∀ r, PiecesOf file (given ++ supply file [r]) := fun r q hq =>
    (mem_append.1 hq).elim (hgiven q) (supply_of file _ q)
  induction p with
  | done a => exact .inl ⟨trivial, trivial⟩
  | ask q k ih =>
    obtain ⟨hlook, ⟨b, hb, hasked⟩, hhere, hpast⟩ := hs
    by_cases hq : Answered file given q
    · have hgo : Strict file.length bad (k (Bytes.tell file q)) := by
        by_cases hsize : q.off + q.len ≤ file.length
        · rw [Bytes.tell_here hsize]
          exact hhere _
        · rw [Bytes.tell_past (by omega)]
          exact hpast (by omega)
      have hrun : Rd.on (.ask q k) (Bytes.ofPieces file.length given U64_MAX) =
          Rd.on (k (Bytes.tell file q)) (Bytes.ofPieces file.length given U64_MAX) := by
        rw [Rd.on, Reading.run, Bytes.answer_of_answered hgiven hq]
      rw [hrun, Served, if_pos hq]
      rcases ih _ hgo with ⟨hc, hserved⟩ | ⟨r, hr, hneed, hiff⟩ | hfail
      · exact .inl ⟨⟨hq, hc⟩, hserved⟩
      · refine .inr (.inl ⟨r, hr, hneed, ?_⟩)
        rw [Served, if_pos (hq.append hgiven (hmore r))]
        exact hiff
      · exact .inr (.inr hfail)
    · have hsize : q.off + q.len ≤ file.length := by
        by_contra hsize
        exact hq fun hle => absurd hle hsize
      have hheld : ¬ (Bytes.ofPieces file.length given U64_MAX).Held q.off q.len :=
        fun hheld => hq fun _ => hheld
      cases q with
      | look off len => cases hlook
      | fetch off len more =>
        simp only [Query.off, Query.len] at hsize hheld
        have hin : ¬ (Bytes.ofPieces file.length given U64_MAX).size < off + len := not_lt.2 hsize
        rcases Nat.eq_zero_or_pos len with rfl | hlen
        · -- no bytes are asked for, and nothing is noted
          refine .inr (.inr ⟨⟨b, hb, ?_⟩, ?_⟩)
          · rw [Rd.on, Reading.run, Bytes.answer, if_neg hin, Bytes.peek_none hheld, if_pos rfl,
              Bytes.note_zero]
            dsimp only
            rw [hasked, Reading.run]
          · rw [Served, if_neg hq]
            exact fun h => absurd h.1 (Nat.lt_irrefl 0)
        · obtain ⟨s', hnote, -, -, -, hneed⟩ := (Bytes.ofFile_ofPieces hgiven).note_ok
            (by omega : 0 < max len more) (by omega : off < file.length)
          refine .inr (.inl ⟨(Query.fetch off len more).noted file.length, ?_, ?_, ?_⟩)
          · rw [Query.noted]
            dsimp only
            omega
          · rw [Rd.on, Reading.run, Bytes.answer, if_neg hin, Bytes.peek_none hheld,
              if_neg hlen.ne', hnote]
            dsimp only
            rw [hasked, Reading.run, hneed]
            rfl
          · have hnow := answered_noted (q := .fetch off len more) (hmore _) rfl hlen
            rw [Served, Served, if_neg hq, if_pos hnow]
            exact and_iff_right hlen

lemma Strict.value_not_bad {bad : α → Prop} (hs : Strict file.length bad p) :
    ¬ bad (p.value (Bytes.tell file)) := by
  induction p with
  | done a => exact hs
  | ask q k ih =>
    obtain ⟨-, -, hhere, hpast⟩ := hs
    refine ih _ ?_
    by_cases hsize : q.off + q.len ≤ file.length
    · rw [Bytes.tell_here hsize]
      exact hhere _
    · rw [Bytes.tell_past (by omega)]
      exact hpast (by omega)

/-- Reading by ranges gives what the whole file does exactly when the pieces given, and what they
lead to, have each place that no bytes are asked for at. -/
theorem readsWhole_iff {bad : α → Prop} (hs : Strict file.length bad p)
    (hgiven : PiecesOf file given) : ReadsWhole p file given ↔ Served file p given := by
  generalize hn : missing file given = n
  induction n using Nat.strong_induction_on generalizing given with
  | _ n ih =>
    rcases hs.round hgiven with ⟨hc, hserved⟩ | ⟨r, hr, hneed, hiff⟩ | ⟨⟨b, hb, hrun⟩, hnot⟩
    · exact iff_of_true (readsWhole_of_complete hgiven .refl hc) hserved
    · have hneeds : needsOf p file given = [r] := by
        rw [needsOf, Bytes.needs, hneed, filter_cons_of_pos (by simpa using hr)]
        rfl
      have hnext : ranged p file given = .inr (given ++ supply file [r]) := by
        rw [ranged, hneeds, if_neg (by simp)]
      obtain ⟨hgiven', hlt⟩ := ranged_next hgiven hnext
      rw [readsWhole_next hnext, hiff]
      exact ih _ (hn ▸ hlt) hgiven' rfl
    · refine iff_of_false ?_ hnot
      rintro ⟨n, hn⟩
      have hlast : ranged p file given = .inl b := by
        have hneeds : needsOf p file given = [] := by
          rw [needsOf, hrun]
          rfl
        rw [ranged, if_pos hneeds, hrun]
      cases n with
      | zero => cases hn
      | succ n =>
        rw [again, hlast, Bytes.on_whole] at hn
        have heq : b = p.value (Bytes.tell file) := Option.some_inj.1 hn
        exact hs.value_not_bad (heq ▸ hb)

end Lazaret.Archive
