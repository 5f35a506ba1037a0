import Lazaret.Archive.Bytes
import Mathlib.Data.List.TakeWhile

/-!
# What pieces of a file give

The bytes a reading has of a file are the file's (`OfFile`), and a range is there exactly when one
piece holds it (`peek_eq`), since the pieces are merged (`held_of_has`).  What is noted because it
was missing holds a byte that is not there (`Fresh`), so reading again with it gets further
(`missing_lt`).
-/

namespace Lazaret.Archive

open List

variable {file : List UInt8}

/-- The bytes of `p` are the file's at its offset. -/
def Agrees (file : List UInt8) (p : Piece) : Prop :=
  ∀ i, i < p.2.length → p.2[i]? = file[p.1 + i]?

/-- Of two members of a list, one is in the relation to the other that holds along the list, or they
are the same. -/
lemma pairwise_trichotomy {α : Type*} {R : α → α → Prop} {l : List α} (h : l.Pairwise R) {a b : α}
    (ha : a ∈ l) (hb : b ∈ l) : a = b ∨ R a b ∨ R b a := by
  induction l with
  | nil => cases ha
  | cons c l ih =>
    rw [pairwise_cons] at h
    rw [mem_cons] at ha hb
    rcases ha with rfl | ha <;> rcases hb with rfl | hb
    · exact .inl rfl
    · exact .inr (.inl (h.1 _ hb))
    · exact .inr (.inr (h.1 _ ha))
    · exact ih h.2 ha hb

namespace Bytes

/-- The pieces of `s` are the file's, apart from each other, and a reading has no bound. -/
structure OfFile (file : List UInt8) (s : Bytes) : Prop where
  size_eq : s.size = file.length
  agrees : ∀ p ∈ s.pieces, Agrees file p ∧ p.stop ≤ file.length
  apart : s.pieces.Pairwise fun p q => p.stop < q.1
  unlimited : s.cap = U64_MAX

/-- Byte `i` is here. -/
def Has (s : Bytes) (i : ℕ) : Prop := ∃ p ∈ s.pieces, p.1 ≤ i ∧ i < p.stop

/-- One piece holds bytes `off..off + len`. -/
def Held (s : Bytes) (off len : ℕ) : Prop := ∃ p ∈ s.pieces, p.1 ≤ off ∧ off + len ≤ p.stop

variable {s s' : Bytes} {off len : ℕ}

lemma Held.has (h : s.Held off len) {i : ℕ} (h1 : off ≤ i) (h2 : i < off + len) : s.Has i := by
  obtain ⟨p, hp, hlo, hhi⟩ := h
  exact ⟨p, hp, by omega, by omega⟩

lemma last_piece (hap : s.pieces.Pairwise fun p q => p.stop < q.1) {p : Piece} (hp : p ∈ s.pieces)
    (hlo : p.1 ≤ off) (hhi : off ≤ p.stop) :
    (s.pieces.takeWhile fun q => q.1 ≤ off).getLast? = some p := by
  obtain ⟨l₁, l₂, hl⟩ := append_of_mem hp
  rw [hl, pairwise_append, pairwise_cons] at hap
  obtain ⟨-, ⟨hafter, -⟩, hbefore⟩ := hap
  have hall : ∀ q ∈ l₁, decide (q.1 ≤ off) = true := by
    intro q hq
    have hlt := hbefore q hq p (mem_cons_self ..)
    rw [Piece.stop] at hlt
    simp only [decide_eq_true_eq]
    omega
  have hstop : l₂.takeWhile (fun q => decide (q.1 ≤ off)) = [] := by
    rcases l₂ with _ | ⟨q, l₂⟩
    · rfl
    · have hlt := hafter q (mem_cons_self ..)
      exact takeWhile_cons_of_neg (by simp only [decide_eq_true_eq]; omega)
  rw [hl, takeWhile_append_of_pos hall, takeWhile_cons_of_pos (by simpa using hlo), hstop]
  simp

theorem OfFile.peek_of_held (h : OfFile file s) (hheld : s.Held off len) :
    s.peek off len = some ((file.drop off).take len) := by
  obtain ⟨p, hp, hlo, hhi⟩ := hheld
  obtain ⟨hag, hend⟩ := h.agrees p hp
  have hlast := last_piece h.apart hp hlo (by omega)
  rw [peek, if_neg (by rw [h.size_eq]; omega), hlast]
  dsimp only
  rw [if_neg (by simp only [Piece.stop] at hhi; omega)]
  refine congrArg some (ext_getElem? fun i => ?_)
  simp only [getElem?_take, getElem?_drop]
  split_ifs with hi
  · rw [Piece.stop] at hhi
    rw [hag (off - p.1 + i) (by omega)]
    congr 1
    omega
  · rfl

theorem held_of_peek {b : List UInt8} (hpeek : s.peek off len = some b) : s.Held off len := by
  rw [peek] at hpeek
  split_ifs at hpeek with h1
  split at hpeek
  · cases hpeek
  · rename_i o bs hlast
    split_ifs at hpeek with h2
    have hmem := mem_of_getLast? hlast
    have hlo := mem_takeWhile_imp hmem
    refine ⟨(o, bs), (takeWhile_sublist _).subset hmem, by simpa using hlo, ?_⟩
    simp only [Piece.stop]
    omega

lemma held_of_has (hap : s.pieces.Pairwise fun p q => p.stop < q.1) (hlen : 0 < len)
    (hall : ∀ i, off ≤ i → i < off + len → s.Has i) : s.Held off len := by
  obtain ⟨p, hp, hlo, hhi⟩ := hall off le_rfl (by omega)
  refine ⟨p, hp, hlo, ?_⟩
  by_contra hshort
  -- the byte where the piece ends would be in another piece, that touches it
  obtain ⟨q, hq, hqlo, hqhi⟩ := hall p.stop (by omega) (by omega)
  rcases pairwise_trichotomy hap hp hq with rfl | hpq | hqp
  · omega
  · omega
  · have hle : p.1 ≤ p.stop := Nat.le_add_right ..
    omega

lemma OfFile.note_ok (h : OfFile file s) (hlen : 0 < len) (hoff : off < file.length) :
    ∃ s', s.note off len = .ok s' ∧ s'.size = s.size ∧ s'.pieces = s.pieces ∧ s'.cap = s.cap ∧
      s'.need = s.need ++ [(off, min len (file.length - off))] := by
  rw [note]
  have hpos : min len (s.size - off) ≠ 0 := by
    rw [h.size_eq]
    omega
  simp only [hpos, if_false]
  -- a saturated sum does not pass the bound `u64::MAX`
  rw [if_neg (by rw [h.unlimited, satAdd]; omega)]
  exact ⟨_, rfl, rfl, rfl, rfl, by rw [h.size_eq]⟩

lemma note_zero (s : Bytes) (off : ℕ) : s.note off 0 = .ok s := by
  simp [note]

lemma OfFile.of_same (h : OfFile file s) (hsize : s'.size = s.size) (hpieces : s'.pieces = s.pieces)
    (hcap : s'.cap = s.cap) : OfFile file s' where
  size_eq := hsize.trans h.size_eq
  agrees := by
    rw [hpieces]
    exact h.agrees
  apart := by
    rw [hpieces]
    exact h.apart
  unlimited := hcap.trans h.unlimited

/-! ### Answers -/

/-- What every answer leaves: the pieces, and the needs with at most one range added, which holds a
byte that is not here. -/
structure Noted (s s' : Bytes) : Prop where
  size_eq : s'.size = s.size
  pieces_eq : s'.pieces = s.pieces
  cap_eq : s'.cap = s.cap
  need_eq : s'.need = s.need ∨ ∃ r : ℕ × ℕ, s'.need = s.need ++ [r] ∧ r.1 + r.2 ≤ s.size ∧
    ∃ i, r.1 ≤ i ∧ i < r.1 + r.2 ∧ ¬ s.Has i

lemma Noted.refl (s : Bytes) : Noted s s := ⟨rfl, rfl, rfl, .inl rfl⟩

lemma OfFile.noted (h : OfFile file s) (hn : Noted s s') : OfFile file s' :=
  h.of_same hn.size_eq hn.pieces_eq hn.cap_eq

end Bytes

def Query.off : Query → ℕ
  | .fetch off _ _ => off
  | .look off _ => off

def Query.len : Query → ℕ
  | .fetch _ len _ => len
  | .look _ len => len

def Query.isLook : Query → Bool
  | .fetch .. => false
  | .look .. => true

namespace Bytes

variable {s s' : Bytes} {q : Query}

lemma answer_past (h : s.size < q.off + q.len) : s.answer q = (.past, s) := by
  cases q with
  | fetch off len more =>
    simp only [Query.off, Query.len] at h
    rw [answer, if_pos h]
  | look off len =>
    simp only [Query.off, Query.len] at h
    have hp : s.peek off len = none := by rw [peek, if_pos h]
    rw [answer, hp]

lemma OfFile.answer_held (h : OfFile file s) (hsize : q.off + q.len ≤ s.size)
    (hheld : s.Held q.off q.len) :
    s.answer q = (.here ((file.drop q.off).take q.len), s) := by
  cases q with
  | fetch off len more =>
    have hp := h.peek_of_held hheld
    simp only [Query.off, Query.len] at hp hsize ⊢
    rw [answer, if_neg (by omega), hp]
  | look off len =>
    have hp := h.peek_of_held hheld
    simp only [Query.off, Query.len] at hp ⊢
    rw [answer, hp]

lemma peek_none {off len : ℕ} (hheld : ¬ s.Held off len) : s.peek off len = none := by
  rcases hp : s.peek off len with _ | b
  · rfl
  · exact absurd (held_of_peek hp) hheld

lemma OfFile.answer_missing (h : OfFile file s) (hsize : q.off + q.len ≤ s.size)
    (hheld : ¬ s.Held q.off q.len) (hlook : q.isLook = false) (hlen : 0 < q.len) :
    Noted s (s.answer q).2 ∧ (s.answer q).2.need ≠ [] := by
  cases q with
  | look off len => cases hlook
  | fetch off len more =>
    simp only [Query.off, Query.len] at hheld hsize hlen
    obtain ⟨s', hnote, h1, h2, h3, h4⟩ :=
      h.note_ok (by omega : 0 < max len more) (by rw [← h.size_eq]; omega : off < file.length)
    rw [answer, if_neg (by omega), peek_none hheld, if_neg (by omega), hnote]
    dsimp only
    refine ⟨⟨h1, h2, h3, .inr ⟨_, h4, ?_, ?_⟩⟩, ?_⟩
    · rw [h.size_eq] at hsize ⊢
      omega
    · -- were every byte of the range itself here, one piece would hold it
      by_contra hall
      refine hheld (held_of_has h.apart hlen fun i hlo hhi => ?_)
      by_contra hi
      refine hall ⟨i, hlo, ?_, hi⟩
      rw [h.size_eq] at hsize
      omega
    · rw [h4]
      simp

theorem OfFile.answer_noted (h : OfFile file s) (q : Query) : Noted s (s.answer q).2 := by
  by_cases hsize : q.off + q.len ≤ s.size
  · by_cases hheld : s.Held q.off q.len
    · rw [h.answer_held hsize hheld]
      exact Noted.refl s
    · cases q with
      | look off len =>
        simp only [Query.off, Query.len] at hheld
        rw [answer, peek_none hheld]
        exact Noted.refl s
      | fetch off len more =>
        by_cases hlen : 0 < len
        · exact (h.answer_missing hsize hheld rfl hlen).1
        · simp only [Query.off, Query.len] at hheld hsize
          rw [answer, if_neg (by omega), peek_none hheld, if_pos (by omega), note_zero]
          exact Noted.refl s
  · rw [answer_past (by omega)]
    exact Noted.refl s

lemma ofFile_whole (file : List UInt8) : OfFile file (whole file) where
  size_eq := rfl
  agrees := by
    intro p hp
    rw [whole, mem_singleton] at hp
    subst hp
    exact ⟨fun i _ => by simp, by simp [Piece.stop]⟩
  apart := pairwise_singleton ..
  unlimited := rfl

lemma whole_held {off len : ℕ} (h : off + len ≤ file.length) : (whole file).Held off len :=
  ⟨(0, file), mem_singleton.2 rfl, Nat.zero_le _, by simpa [Piece.stop] using h⟩

/-- The answer to every question when the whole file is there. -/
def tell (file : List UInt8) (q : Query) : Answer := ((whole file).answer q).1

lemma tell_past (h : file.length < q.off + q.len) : tell file q = .past := by
  have hw : (whole file).size < q.off + q.len := h
  rw [tell, answer_past hw]

lemma tell_here (h : q.off + q.len ≤ file.length) :
    tell file q = .here ((file.drop q.off).take q.len) := by
  rw [tell, (ofFile_whole file).answer_held h (whole_held h)]

lemma answer_whole (q : Query) : (whole file).answer q = (tell file q, whole file) := by
  by_cases h : q.off + q.len ≤ file.length
  · rw [tell, (ofFile_whole file).answer_held h (whole_held h)]
  · have hw : (whole file).size < q.off + q.len := Nat.lt_of_not_le h
    rw [tell, answer_past hw]

lemma on_whole {α : Type} (p : Rd α) : p.on (whole file) = (p.value (tell file), whole file) := by
  induction p with
  | done a => rfl
  | ask q k ih =>
    show ((k ((whole file).answer q).1).run answer ((whole file).answer q).2) = _
    rw [answer_whole]
    exact ih _

end Bytes

/-! ### Joining pieces -/

/-- One of the pieces has byte `i`. -/
def Covers (l : List Piece) (i : ℕ) : Prop := ∃ p ∈ l, p.1 ≤ i ∧ i < p.stop

/-- Pieces of the file, the last first, that neither overlap nor touch. -/
structure Stack (file : List UInt8) (l : List Piece) : Prop where
  agrees : ∀ p ∈ l, Agrees file p ∧ p.stop ≤ file.length
  apart : l.Pairwise fun p q => q.stop < p.1

lemma covers_cons {p : Piece} {l : List Piece} {i : ℕ} :
    Covers (p :: l) i ↔ (p.1 ≤ i ∧ i < p.stop) ∨ Covers l i := by
  simp only [Covers, exists_mem_cons_iff]

lemma agrees_grown {lo : ℕ} {b : List UInt8} {p : Piece} (hb : Agrees file (lo, b))
    (hp : Agrees file p) (hin : p.1 ≤ lo + b.length) (hout : lo + b.length < p.stop) :
    Agrees file (lo, b ++ p.2.drop (lo + b.length - p.1)) ∧
      Piece.stop (lo, b ++ p.2.drop (lo + b.length - p.1)) = p.stop := by
  rw [Piece.stop] at hout
  constructor
  · intro i hi
    simp only [length_append, length_drop] at hi
    dsimp only
    rcases lt_or_ge i b.length with h | h
    · rw [getElem?_append_left h]
      exact hb i h
    · rw [getElem?_append_right h, getElem?_drop, hp _ (by omega)]
      congr 1
      omega
  · simp only [Piece.stop, length_append, length_drop]
    omega

lemma Stack.absorb {l : List Piece} {p : Piece} (hl : Stack file l) (hp : Agrees file p)
    (hend : p.stop ≤ file.length) (hord : ∀ q ∈ l, q.1 ≤ p.1) :
    Stack file (absorb l p) ∧ (∀ q ∈ Archive.absorb l p, q.1 ≤ p.1) ∧
      ∀ i, Covers (Archive.absorb l p) i ↔ (p.1 ≤ i ∧ i < p.stop) ∨ Covers l i := by
  rcases l with _ | ⟨⟨lo, b⟩, rest⟩
  · refine ⟨⟨?_, pairwise_singleton ..⟩, ?_, fun i => covers_cons⟩
    · intro q hq
      rw [Archive.absorb, mem_singleton] at hq
      exact hq ▸ ⟨hp, hend⟩
    · intro q hq
      rw [Archive.absorb, mem_singleton] at hq
      exact hq ▸ le_rfl
  · have hlo : lo ≤ p.1 := hord (lo, b) (mem_cons_self ..)
    have hb := hl.agrees (lo, b) (mem_cons_self ..)
    have hap := pairwise_cons.1 hl.apart
    rw [Archive.absorb]
    split_ifs with hin hout
    · -- it goes past the end of the last piece, which grows
      obtain ⟨hag, hstop⟩ := agrees_grown hb.1 hp hin hout
      refine ⟨⟨?_, pairwise_cons.2 hap⟩, ?_, ?_⟩
      · intro q hq
        rcases mem_cons.1 hq with rfl | hq
        · exact ⟨hag, hstop ▸ hend⟩
        · exact hl.agrees q (mem_cons_of_mem _ hq)
      · intro q hq
        rcases mem_cons.1 hq with rfl | hq
        · exact hlo
        · exact hord q (mem_cons_of_mem _ hq)
      · intro i
        rw [covers_cons, covers_cons, hstop]
        simp only [Piece.stop] at hout ⊢
        constructor
        · rintro (⟨h1, h2⟩ | h)
          · rcases lt_or_ge i (lo + b.length) with h | h
            · exact .inr (.inl ⟨h1, h⟩)
            · exact .inl ⟨by omega, h2⟩
          · exact .inr (.inr h)
        · rintro (⟨h1, h2⟩ | ⟨h1, h2⟩ | h)
          · exact .inl ⟨by omega, h2⟩
          · exact .inl ⟨h1, by omega⟩
          · exact .inr h
    · -- the last piece holds it
      refine ⟨hl, hord, fun i => ⟨.inr, ?_⟩⟩
      rintro (⟨h1, h2⟩ | h)
      · refine ⟨(lo, b), mem_cons_self .., ?_, ?_⟩
        · show lo ≤ i
          omega
        · show i < lo + b.length
          omega
      · exact h
    · -- it starts past the end of the last piece
      refine ⟨⟨?_, pairwise_cons.2 ⟨?_, hl.apart⟩⟩, ?_, fun i => covers_cons⟩
      · intro q hq
        rcases mem_cons.1 hq with rfl | hq
        · exact ⟨hp, hend⟩
        · exact hl.agrees q hq
      · intro q hq
        rcases mem_cons.1 hq with rfl | hq
        · show lo + b.length < p.1
          omega
        · have h1 : q.stop < lo := hap.1 q hq
          omega
      · intro q hq
        rcases mem_cons.1 hq with rfl | hq
        · exact le_rfl
        · exact hord q hq

lemma Stack.foldl {l ps : List Piece} (hl : Stack file l)
    (hps : ∀ p ∈ ps, Agrees file p ∧ p.stop ≤ file.length)
    (hsort : ps.Pairwise fun p q => p.1 ≤ q.1)
    (hord : ∀ p ∈ ps, ∀ q ∈ l, q.1 ≤ p.1) :
    Stack file (ps.foldl Archive.absorb l) ∧
      ∀ i, Covers (ps.foldl Archive.absorb l) i ↔ Covers ps i ∨ Covers l i := by
  induction ps generalizing l with
  | nil => exact ⟨hl, fun i => by simp [Covers]⟩
  | cons p ps ih =>
    rw [pairwise_cons] at hsort
    obtain ⟨hp, hend⟩ := hps p (mem_cons_self ..)
    obtain ⟨hstack, hle, hcov⟩ := hl.absorb hp hend (hord p (mem_cons_self ..))
    obtain ⟨h1, h2⟩ := ih hstack (fun q hq => hps q (mem_cons_of_mem _ hq)) hsort.2
      fun q hq r hr => (hle r hr).trans (hsort.1 q hq)
    refine ⟨h1, fun i => ?_⟩
    rw [foldl_cons, h2, hcov, covers_cons]
    tauto

instance : Std.Total pieceLe := ⟨fun a b => by unfold pieceLe; omega⟩

instance : IsTrans Piece pieceLe := ⟨fun a b c => by unfold pieceLe; omega⟩

/-- Pieces of the file: where it has a byte, theirs is the same. -/
def PiecesOf (file : List UInt8) (given : List Piece) : Prop :=
  ∀ p ∈ given, ∀ i, i < p.2.length → p.1 + i < file.length → p.2[i]? = file[p.1 + i]?

lemma cutAt_stop {size : ℕ} {p : Piece} : (cutAt size p).stop = p.1 + min p.2.length
    (size - p.1) := by
  simp [cutAt, Piece.stop]

lemma joined_spec {given : List Piece} (hgiven : PiecesOf file given) :
    Stack file (Bytes.joined file.length given).reverse ∧
      ∀ i, Covers (Bytes.joined file.length given) i ↔ i < file.length ∧ Covers given i := by
  set ps := ((given.filter fun p => p.1 < file.length ∧ p.2 ≠ []).insertionSort pieceLe) with hps
  have hmem : ∀ p, p ∈ ps ↔ p ∈ given ∧ p.1 < file.length ∧ p.2 ≠ [] := by
    intro p
    rw [hps, mem_insertionSort, mem_filter]
    simp
  have hsort : (ps.map (cutAt file.length)).Pairwise fun p q => p.1 ≤ q.1 := by
    rw [pairwise_map]
    refine (pairwise_insertionSort pieceLe _).imp fun h => ?_
    simp only [pieceLe] at h
    simp only [cutAt]
    omega
  have hall : ∀ p ∈ ps.map (cutAt file.length), Agrees file p ∧ p.stop ≤ file.length := by
    intro p hp
    obtain ⟨q, hq, rfl⟩ := mem_map.1 hp
    obtain ⟨hq, hlt, -⟩ := (hmem q).1 hq
    refine ⟨fun i hi => ?_, by rw [cutAt_stop]; omega⟩
    simp only [cutAt, length_take] at hi ⊢
    rw [getElem?_take, if_pos (by omega)]
    exact hgiven q hq i (by omega) (by omega)
  have hnil : Stack file [] := ⟨by simp, Pairwise.nil⟩
  obtain ⟨h1, h2⟩ := hnil.foldl hall hsort (by simp)
  refine ⟨by rwa [Bytes.joined, reverse_reverse], fun i => ?_⟩
  have hrev : Covers (Bytes.joined file.length given) i ↔
      Covers ((ps.map (cutAt file.length)).foldl Archive.absorb []) i := by
    simp only [Covers, Bytes.joined, mem_reverse, hps]
  rw [hrev, h2]
  constructor
  · rintro (⟨p, hp, hlo, hhi⟩ | ⟨p, hp, -⟩)
    · obtain ⟨q, hq, rfl⟩ := mem_map.1 hp
      rw [cutAt_stop] at hhi
      have hlo' : q.1 ≤ i := hlo
      exact ⟨by omega, q, ((hmem q).1 hq).1, hlo', by rw [Piece.stop]; omega⟩
    · cases hp
  · rintro ⟨hi, p, hp, hlo, hhi⟩
    rw [Piece.stop] at hhi
    have hne : p.2 ≠ [] := by
      rintro hnil
      rw [hnil, length_nil] at hhi
      omega
    refine .inl ⟨cutAt file.length p, mem_map_of_mem ((hmem p).2 ⟨hp, by omega, hne⟩), hlo, ?_⟩
    rw [cutAt_stop]
    omega

namespace Bytes

lemma ofFile_ofPieces {given : List Piece} (hgiven : PiecesOf file given) :
    OfFile file (ofPieces file.length given U64_MAX) where
  size_eq := rfl
  agrees := fun p hp => (joined_spec hgiven).1.agrees p (mem_reverse.2 hp)
  apart := by
    have h := (joined_spec hgiven).1.apart
    rwa [pairwise_reverse] at h
  unlimited := rfl

lemma has_ofPieces {given : List Piece} (hgiven : PiecesOf file given) (i : ℕ) :
    (ofPieces file.length given U64_MAX).Has i ↔ i < file.length ∧ Covers given i :=
  (joined_spec hgiven).2 i

end Bytes

/-! ### What is needed -/

def InRanges (l : List (ℕ × ℕ)) (i : ℕ) : Prop := ∃ r ∈ l, r.1 ≤ i ∧ i < r.1 + r.2

lemma inRanges_cons {r : ℕ × ℕ} {l : List (ℕ × ℕ)} {i : ℕ} :
    InRanges (r :: l) i ↔ (r.1 ≤ i ∧ i < r.1 + r.2) ∨ InRanges l i := by
  simp only [InRanges, exists_mem_cons_iff]

lemma addNeed_spec {l : List (ℕ × ℕ)} {r : ℕ × ℕ} (hord : ∀ q ∈ l, q.1 ≤ r.1) :
    (∀ q ∈ addNeed l r, q.1 ≤ r.1) ∧
      ∀ i, InRanges (addNeed l r) i ↔ (r.1 ≤ i ∧ i < r.1 + r.2) ∨ InRanges l i := by
  rcases l with _ | ⟨⟨o, n⟩, rest⟩
  · exact ⟨by simp [addNeed], fun i => inRanges_cons⟩
  · obtain ⟨off, len⟩ := r
    have ho : o ≤ off := hord (o, n) (mem_cons_self ..)
    rw [addNeed]
    split_ifs with htouch
    · constructor
      · intro q hq
        rcases mem_cons.1 hq with rfl | hq
        · exact ho
        · exact hord q (mem_cons_of_mem _ hq)
      · intro i
        rw [inRanges_cons, inRanges_cons, ← or_assoc]
        exact or_congr_left (by dsimp only; omega)
    · refine ⟨?_, fun i => inRanges_cons⟩
      intro q hq
      rcases mem_cons.1 hq with rfl | hq
      · exact le_rfl
      · exact hord q hq

lemma foldl_addNeed {l rs : List (ℕ × ℕ)} (hsort : rs.Pairwise fun p q => p.1 ≤ q.1)
    (hord : ∀ r ∈ rs, ∀ q ∈ l, q.1 ≤ r.1) (i : ℕ) :
    InRanges (rs.foldl addNeed l) i ↔ InRanges rs i ∨ InRanges l i := by
  induction rs generalizing l with
  | nil => simp [InRanges]
  | cons r rs ih =>
    rw [pairwise_cons] at hsort
    obtain ⟨hle, hcov⟩ := addNeed_spec (hord r (mem_cons_self ..))
    rw [foldl_cons, ih hsort.2 fun q hq p hp => (hle p hp).trans (hsort.1 q hq), hcov,
      inRanges_cons]
    tauto

instance : Std.Total rangeLe := ⟨fun a b => by unfold rangeLe; omega⟩

instance : IsTrans (ℕ × ℕ) rangeLe := ⟨fun a b c => by unfold rangeLe; omega⟩

lemma inRanges_needs (s : Bytes) (i : ℕ) : InRanges s.needs i ↔ InRanges s.need i := by
  have hsort : ((s.need.filter fun r => 0 < r.2).insertionSort rangeLe).Pairwise
      fun p q => p.1 ≤ q.1 := by
    refine (pairwise_insertionSort rangeLe _).imp fun h => ?_
    simp only [rangeLe] at h
    omega
  have hfold := foldl_addNeed hsort (l := []) (by simp) i
  have hrev : InRanges s.needs i ↔
      InRanges (((s.need.filter fun r => 0 < r.2).insertionSort rangeLe).foldl addNeed []) i := by
    simp only [InRanges, Bytes.needs, mem_reverse]
  rw [hrev, hfold]
  constructor
  · rintro (⟨r, hr, hi⟩ | ⟨r, hr, -⟩)
    · rw [mem_insertionSort, mem_filter] at hr
      exact ⟨r, hr.1, hi⟩
    · cases hr
  · rintro ⟨r, hr, hlo, hhi⟩
    refine .inl ⟨r, ?_, hlo, hhi⟩
    rw [mem_insertionSort, mem_filter]
    exact ⟨hr, by simp only [decide_eq_true_eq]; omega⟩

namespace Bytes

/-- Every range noted is in the file and has a byte that is not here. -/
def Fresh (s : Bytes) : Prop :=
  ∀ r ∈ s.need, r.1 + r.2 ≤ s.size ∧ ∃ i, r.1 ≤ i ∧ i < r.1 + r.2 ∧ ¬ s.Has i

lemma Fresh.noted {s s' : Bytes} (h : s.Fresh) (hn : Noted s s') : s'.Fresh := by
  have hhas : ∀ i, s'.Has i ↔ s.Has i := fun i => by simp only [Has, hn.pieces_eq]
  intro r hr
  simp only [hhas, hn.size_eq]
  rcases hn.need_eq with heq | ⟨r', heq, hr', hi⟩
  · exact h r (heq ▸ hr)
  · rw [heq, mem_append, mem_singleton] at hr
    rcases hr with hr | rfl
    · exact h r hr
    · exact ⟨hr', hi⟩

lemma Fresh.needs_eq_nil {s : Bytes} (h : s.Fresh) : s.needs = [] ↔ s.need = [] := by
  constructor
  · intro hnil
    rcases hneed : s.need with _ | ⟨r, rs⟩
    · rfl
    · obtain ⟨-, i, hlo, hhi, -⟩ := h r (hneed ▸ mem_cons_self ..)
      obtain ⟨r', hr', -⟩ := (inRanges_needs s i).2 ⟨r, hneed ▸ mem_cons_self .., hlo, hhi⟩
      rw [hnil] at hr'
      cases hr'
  · intro hnil
    simp [needs, hnil]

end Bytes

end Lazaret.Archive
