import Lazaret.Archive.Asked

/-!
# What a reading by ranges is charged

A reading is charged the bytes it asks for against a bound (`Bytes::note`, `zip.rs`), and each byte
once: what was asked for is kept as ranges that hold no given byte and do not touch (`Charged`), and
`needed` is the number of bytes in them.
-/

namespace Lazaret.Archive

open List BTreeMap

/-! ### The invariant -/

namespace Bytes

instance (s : Bytes) : DecidablePred s.Has :=
  fun i => inferInstanceAs (Decidable (∃ p ∈ s.pieces, p.1 ≤ i ∧ i < p.stop))

/-- How many bytes of the file satisfy `P`. -/
def count (s : Bytes) (P : ℕ → Prop) [DecidablePred P] : ℕ := ((Finset.range s.size).filter P).card

/-- A byte that a request for `off..off + len` adds: neither given nor asked for. -/
def Adds (s : Bytes) (off len i : ℕ) : Prop :=
  off ≤ i ∧ i < off + len ∧ ¬ s.Has i ∧ ¬ InMap s.asked i

instance (s : Bytes) (off len : ℕ) : DecidablePred (s.Adds off len) :=
  fun _ => inferInstanceAs (Decidable (_ ∧ _ ∧ ¬ _ ∧ ¬ _))

/-- The pieces are apart and in the file; what was asked for is ranges that do not touch, of bytes
that were not given; and every byte is counted once, within the bound. -/
structure Charged (s : Bytes) : Prop where
  apart : s.pieces.Pairwise fun p q => p.stop < q.1
  stop_le : ∀ p ∈ s.pieces, p.stop ≤ s.size
  given_eq : s.given = s.count s.Has
  spans : Spans s.size s.asked
  fresh : ∀ i, InMap s.asked i → ¬ s.Has i
  needed_eq : s.needed = s.count (InMap s.asked)
  bounded : s.given + s.needed ≤ max s.cap s.given
  need_pos : ∀ r ∈ s.need, 0 < r.2 ∧ r.1 + r.2 ≤ s.size

lemma charged_ofPieces (size : ℕ) (given : List Piece) (cap : ℕ) :
    (ofPieces size given cap).Charged where
  apart := (joined_apart size given).1
  stop_le := (joined_apart size given).2.1
  given_eq := by
    obtain ⟨hapart, hstop, -⟩ := joined_apart size given
    have hcard := card_inSpans (l := (joined size given).map fun p => (p.1, p.stop)) (n := size)
      (pairwise_map.2 (hapart.imp fun h => h.le)) (forall_mem_map.2 hstop)
    have hlen : ((joined size given).map fun p => (p.1, p.stop)).map (fun r => r.2 - r.1) =
        (joined size given).map fun p => p.2.length := by
      rw [map_map]
      refine map_congr_left fun p _ => ?_
      simp [Piece.stop]
    rw [hlen] at hcard
    show ((joined size given).map fun p => p.2.length).sum = _
    rw [← hcard]
    refine congrArg Finset.card (Finset.filter_congr fun i _ => ?_)
    simp only [InSpans, mem_map, exists_exists_and_eq_and, Has, ofPieces]
  spans := Spans.empty size
  fresh := fun i hi => absurd hi not_inMap_empty
  needed_eq := by
    symm
    simp only [count, ofPieces, Finset.card_eq_zero]
    exact Finset.filter_false_of_mem fun i _ => not_inMap_empty
  bounded := by
    simp [ofPieces]
  need_pos := by
    simp [ofPieces]

variable {s s' : Bytes}

lemma Charged.sum_le (h : s.Charged) (off len : ℕ) :
    s.given + s.needed + s.count (s.Adds off len) ≤ s.size := by
  have hdisj : Disjoint ((Finset.range s.size).filter s.Has)
      ((Finset.range s.size).filter (InMap s.asked)) :=
    Finset.disjoint_filter.2 fun i _ hhas hask => h.fresh i hask hhas
  have hdisj' : Disjoint ((Finset.range s.size).filter s.Has ∪
      (Finset.range s.size).filter (InMap s.asked))
      ((Finset.range s.size).filter (s.Adds off len)) := by
    rw [Finset.disjoint_union_left]
    exact ⟨Finset.disjoint_filter.2 fun i _ hhas hadd => hadd.2.2.1 hhas,
      Finset.disjoint_filter.2 fun i _ hask hadd => hadd.2.2.2 hask⟩
  rw [h.given_eq, h.needed_eq, count, count, count, ← Finset.card_union_of_disjoint hdisj,
    ← Finset.card_union_of_disjoint hdisj']
  calc _ ≤ (Finset.range s.size).card :=
        Finset.card_le_card (Finset.union_subset
          (Finset.union_subset (Finset.filter_subset ..) (Finset.filter_subset ..))
          (Finset.filter_subset ..))
    _ = s.size := Finset.card_range _

/-- The pieces and the ranges asked for that reach into `off..stop`, as `note` collects them. -/
def covers (s : Bytes) (off stop : ℕ) : List (ℕ × ℕ) :=
  (((s.pieces.dropWhile fun p => p.stop ≤ off).map fun p => (p.1, p.stop)).takeWhile
      fun r => r.1 < stop) ++
    ((s.asked.range fun k => k ≤ off).getLast?.filter fun r => off < r.2).toList ++
    s.asked.range fun k => off ≤ k ∧ k < stop

end Bytes

lemma mem_takeWhile_of_sorted {l : List (ℕ × ℕ)} (hl : l.Pairwise fun a b => a.1 ≤ b.1) {stop : ℕ}
    {r : ℕ × ℕ} : r ∈ l.takeWhile (fun r => r.1 < stop) ↔ r ∈ l ∧ r.1 < stop := by
  induction l with
  | nil => simp
  | cons a l ih =>
    rw [pairwise_cons] at hl
    by_cases ha : a.1 < stop
    · rw [takeWhile_cons_of_pos (by simpa using ha), mem_cons, mem_cons, ih hl.2]
      constructor
      · rintro (rfl | ⟨h1, h2⟩)
        · exact ⟨.inl rfl, ha⟩
        · exact ⟨.inr h1, h2⟩
      · rintro ⟨rfl | h1, h2⟩
        · exact .inl rfl
        · exact .inr ⟨h1, h2⟩
    · rw [takeWhile_cons_of_neg (by simpa using ha)]
      simp only [not_mem_nil, mem_cons, false_iff, not_and]
      rintro (rfl | h1)
      · exact ha
      · have hle := hl.1 r h1
        omega

lemma mem_dropWhile_of_apart {l : List Piece} (hl : l.Pairwise fun p q => p.stop < q.1) {off : ℕ}
    {p : Piece} : p ∈ l.dropWhile (fun p => p.stop ≤ off) ↔ p ∈ l ∧ off < p.stop := by
  induction l with
  | nil => simp
  | cons a l ih =>
    rw [pairwise_cons] at hl
    by_cases ha : a.stop ≤ off
    · rw [dropWhile_cons_of_pos (by simpa using ha), mem_cons, ih hl.2]
      constructor
      · rintro ⟨h1, h2⟩
        exact ⟨.inr h1, h2⟩
      · rintro ⟨rfl | h1, h2⟩
        · omega
        · exact ⟨h1, h2⟩
    · rw [dropWhile_cons_of_neg (by simpa using ha), mem_cons]
      refine ⟨fun hp => ⟨hp, ?_⟩, fun hp => hp.1⟩
      rcases hp with rfl | hp
      · omega
      · have hlt := hl.1 p hp
        have hle : p.1 ≤ p.stop := Nat.le_add_right ..
        omega

namespace Bytes

variable {s s' : Bytes} {off stop : ℕ}

lemma Charged.covers_spec (h : s.Charged) (off stop : ℕ) :
    (∀ r ∈ s.covers off stop, r.1 ≤ r.2) ∧
      ∀ i, off ≤ i → i < stop → (InSpans (s.covers off stop) i ↔ s.Has i ∨ InMap s.asked i) := by
  have hpieces : ∀ r, r ∈ (((s.pieces.dropWhile fun p => p.stop ≤ off).map fun p =>
      (p.1, p.stop)).takeWhile fun r => r.1 < stop) ↔
      (∃ p ∈ s.pieces, r = (p.1, p.stop) ∧ off < p.stop) ∧ r.1 < stop := by
    intro r
    have hsort : ((s.pieces.dropWhile fun p => p.stop ≤ off).map fun p =>
        (p.1, p.stop)).Pairwise fun a b => a.1 ≤ b.1 := by
      rw [pairwise_map]
      refine (h.apart.sublist (dropWhile_sublist _)).imp fun {p q} hpq => ?_
      have hle : p.1 ≤ p.stop := Nat.le_add_right ..
      dsimp only
      omega
    rw [mem_takeWhile_of_sorted hsort, mem_map]
    refine and_congr_left fun _ => ⟨?_, ?_⟩
    · rintro ⟨p, hp, rfl⟩
      obtain ⟨hp, hlt⟩ := (mem_dropWhile_of_apart h.apart).1 hp
      exact ⟨p, hp, rfl, hlt⟩
    · rintro ⟨p, hp, rfl, hlt⟩
      exact ⟨p, (mem_dropWhile_of_apart h.apart).2 ⟨hp, hlt⟩, rfl⟩
  have hmem : ∀ r, r ∈ s.covers off stop ↔
      ((∃ p ∈ s.pieces, r = (p.1, p.stop) ∧ off < p.stop) ∧ r.1 < stop) ∨
      ((s.asked.range fun k => k ≤ off).getLast? = some r ∧ off < r.2) ∨
      (r ∈ s.asked ∧ off ≤ r.1 ∧ r.1 < stop) := by
    intro r
    rw [covers, mem_append, mem_append, hpieces, BTreeMap.mem_range, Option.mem_toList,
      Option.filter_eq_some_iff, or_assoc]
    simp only [decide_eq_true_eq]
  refine ⟨fun r hr => ?_, fun i hlo hhi => ⟨?_, ?_⟩⟩
  · rcases (hmem r).1 hr with ⟨⟨p, hp, rfl, hlt⟩, -⟩ | ⟨hlast, -⟩ | ⟨hr, -⟩
    · exact Nat.le_add_right ..
    · exact (h.spans.nonempty r (range_getLast?_eq_some.1 hlast).1).le
    · exact (h.spans.nonempty r hr).le
  · rintro ⟨r, hr, h1, h2⟩
    rcases (hmem r).1 hr with ⟨⟨p, hp, rfl, -⟩, -⟩ | ⟨hlast, -⟩ | ⟨hr, -⟩
    · exact .inl ⟨p, hp, h1, h2⟩
    · exact .inr ⟨r, (range_getLast?_eq_some.1 hlast).1, h1, h2⟩
    · exact .inr ⟨r, hr, h1, h2⟩
  · rintro (⟨p, hp, h1, h2⟩ | ⟨r, hr, h1, h2⟩)
    · exact ⟨(p.1, p.stop), (hmem _).2 (.inl ⟨⟨p, hp, rfl, by omega⟩, by dsimp only; omega⟩), h1,
        h2⟩
    · rcases Nat.lt_or_ge off r.1 with hstart | hstart
      · exact ⟨r, (hmem r).2 (.inr (.inr ⟨hr, hstart.le, by omega⟩)), h1, h2⟩
      · -- a range that starts by `off` and has a later byte is the last that starts by `off`
        refine ⟨r, (hmem r).2 (.inr (.inl ⟨?_, by omega⟩)), h1, h2⟩
        refine range_getLast?_eq_some.2 ⟨hr, by simpa using hstart, fun q hq hle => ?_⟩
        simp only [decide_eq_true_eq] at hle
        rcases eq_or_lt hq hr with heq | hlt | hlt
        · exact .inl heq
        · exact .inr hlt
        · have hapart := h.spans.apart r hr q hq hlt
          omega

lemma Charged.gaps_adds (h : s.Charged) {len : ℕ} (hlen : 0 < len) (i : ℕ) :
    InSpans (gaps (off + len) off ((s.covers off (off + len)).insertionSort rangeLe)) i ↔
      s.Adds off len i := by
  obtain ⟨hpos, hcov⟩ := h.covers_spec off (off + len)
  have hsort : ((s.covers off (off + len)).insertionSort rangeLe).Pairwise
      fun a b => a.1 ≤ b.1 := by
    refine (pairwise_insertionSort rangeLe _).imp fun h => ?_
    simp only [rangeLe] at h
    omega
  have hpos' : ∀ r ∈ (s.covers off (off + len)).insertionSort rangeLe, r.1 ≤ r.2 := fun r hr =>
    hpos r ((mem_insertionSort _).1 hr)
  rw [(gaps_spec (by omega) hpos' hsort).2.2 i, Adds]
  refine and_congr_right fun hlo => and_congr_right fun hhi => ?_
  rw [← not_or, ← hcov i hlo hhi]
  simp only [InSpans, mem_insertionSort]

/-- What an accepted request for `off..off + len` leaves. -/
structure Asks (s s' : Bytes) (off len : ℕ) : Prop where
  size_eq : s'.size = s.size
  pieces_eq : s'.pieces = s.pieces
  given_eq : s'.given = s.given
  cap_eq : s'.cap = s.cap
  needed_eq : s'.needed = s.needed + s.count (s.Adds off len)
  asked_iff : ∀ i, InMap s'.asked i ↔ InMap s.asked i ∨ s.Adds off len i
  need_eq : s'.need = s.need ++ [(off, len)]

def pastCap (cap : ℕ) : Miss :=
  .Bad s!"it would take reading more than the {commas cap} bytes read of a model file"

/-- A request that would take the bytes given and asked for past the bound is refused; another one
is accepted, and charged the bytes it adds. -/
theorem Charged.note_spec (h : s.Charged) (hsize : s.size ≤ U64_MAX) {off len : ℕ} (hlen : 0 < len)
    (hend : off + len ≤ s.size) :
    (s.cap < s.given + s.needed + s.count (s.Adds off len) → s.note off len =
      .error (pastCap s.cap)) ∧ (s.given + s.needed + s.count (s.Adds off len) ≤ s.cap →
        ∃ s', s.note off len = .ok s' ∧ s.Asks s' off len ∧ s'.Charged) := by
  have hmin : min len (s.size - off) = len := by omega
  obtain ⟨hpos, hcov⟩ := h.covers_spec off (off + len)
  set new := gaps (off + len) off ((s.covers off (off + len)).insertionSort rangeLe) with hnew
  have hsort : ((s.covers off (off + len)).insertionSort rangeLe).Pairwise
      fun a b => a.1 ≤ b.1 := by
    refine (pairwise_insertionSort rangeLe _).imp fun h => ?_
    simp only [rangeLe] at h
    omega
  obtain ⟨hin, hpair, -⟩ := gaps_spec (by omega : off < off + len)
    (fun r hr => hpos r ((mem_insertionSort _).1 hr)) hsort
  have hadds : ∀ i, InSpans new i ↔ s.Adds off len i := h.gaps_adds hlen
  -- the bytes added are as many as the code's sum
  have hcount : (new.map fun r => r.2 - r.1).sum = s.count (s.Adds off len) := by
    rw [← card_inSpans hpair fun r hr => (hin r hr).2.2.trans hend, count]
    exact congrArg Finset.card (Finset.filter_congr fun i _ => hadds i)
  have hsum := h.sum_le off len
  have hnote : s.note off len =
      if s.cap < s.given + s.needed + s.count (s.Adds off len) then .error (pastCap s.cap)
      else .ok { s with
        needed := s.needed + s.count (s.Adds off len)
        asked := new.foldl addAsked s.asked
        need := s.need ++ [(off, len)] } := by
    have hsat : satAdd (satAdd s.given s.needed) (s.count (s.Adds off len)) =
        s.given + s.needed + s.count (s.Adds off len) := by
      simp only [satAdd]
      omega
    rw [note]
    simp only [hmin, if_neg hlen.ne']
    rw [← hsat, ← hcount]
    rfl
  constructor
  · intro hcap
    rw [hnote, if_pos hcap]
  · intro hcap
    obtain ⟨hspans, hasked⟩ := foldl_addAsked h.spans
      (fun r hr => ⟨(hin r hr).2.1, (hin r hr).2.2.trans hend⟩) hpair
      fun i hi => ((hadds i).1 hi).2.2.2
    have hasked' : ∀ i, InMap (new.foldl addAsked s.asked) i ↔ InMap s.asked i ∨
      s.Adds off len i := by
      intro i
      rw [hasked, hadds]
    rw [if_neg (by omega)] at hnote
    refine ⟨_, hnote, ⟨rfl, rfl, rfl, rfl, rfl, hasked', rfl⟩, ?_⟩
    refine ⟨h.apart, h.stop_le, h.given_eq, hspans, ?_, ?_, ?_, ?_⟩
    · intro i hi
      rcases (hasked' i).1 hi with hi | hi
      · exact h.fresh i hi
      · exact hi.2.2.1
    · have hdisj : Disjoint ((Finset.range s.size).filter (InMap s.asked))
          ((Finset.range s.size).filter (s.Adds off len)) :=
        Finset.disjoint_filter.2 fun i _ hask hadd => hadd.2.2.2 hask
      show s.needed + _ = ((Finset.range s.size).filter _).card
      rw [h.needed_eq, count, count, ← Finset.card_union_of_disjoint hdisj, ← Finset.filter_or]
      exact congrArg Finset.card (Finset.filter_congr fun i _ => (hasked' i).symm)
    · show s.given + (s.needed + _) ≤ max s.cap s.given
      omega
    · intro r hr
      rcases mem_append.1 hr with hr | hr
      · exact h.need_pos r hr
      · rw [mem_singleton] at hr
        subst hr
        exact ⟨hlen, hend⟩

/-! ### Calls -/

/-- A call of `note` or of `get` (with what it says of a range past the file's end). -/
inductive Call
  | note (off len : ℕ)
  | get (off len : ℕ) (past : String)

def call (s : Bytes) : Call → Except Miss (List UInt8) × Bytes
  | .note off len =>
    match s.note off len with
    | .ok s' => (.ok [], s')
    | .error m => (.error m, s)
  | .get off len past => Rd.on (get off len past).run s

def after (s : Bytes) (calls : List Call) : Bytes := calls.foldl (fun s c => (s.call c).2) s

/-- The range of the file a call asks for: none when the range has no byte, or when `get` finds it
past the end of the file, or here. -/
def request (s : Bytes) : Call → Option (ℕ × ℕ)
  | .note off len =>
    if min len (s.size - off) = 0 then none else some (off, min len (s.size - off))
  | .get off len _ =>
    if len = 0 ∨ s.size < off + len ∨ (s.peek off len).isSome then none else some (off, len)

/-- Whether what a call returned says that its range was asked for. -/
def granted : Except Miss (List UInt8) → Bool
  | .ok _ | .error .Need => true
  | .error (.Bad _) => false

/-- What a call returns when it is not refused: `get` gives what is here, and says `Need` of what is
not. -/
def reply (s : Bytes) : Call → Except Miss (List UInt8)
  | .note .. => .ok []
  | .get off len past =>
    if s.size < off + len then .error (.Bad past)
    else
      match s.peek off len with
      | some b => .ok b
      | none => .error .Need

def accepted (s : Bytes) : List Call → List (ℕ × ℕ)
  | [] => []
  | c :: calls =>
    ((s.request c).filter fun _ => granted (s.call c).1).toList ++ accepted (s.call c).2 calls

lemma call_get (s : Bytes) (off len : ℕ) (past : String) :
    s.call (.get off len past) =
      match s.answer (.fetch off len len) with
      | (.here b, s') => (.ok b, s')
      | (.asked, s') => (.error .Need, s')
      | (.past, s') => (.error (.Bad past), s')
      | (.refused m, s') => (.error m, s') := by
  show Reading.run answer _ s = _
  rw [get, ExceptT.run_mk, Reading.run]
  rcases s.answer (.fetch off len len) with ⟨a, s'⟩
  cases a <;> rfl

lemma call_request (s : Bytes) (c : Call) :
    (s.request c = none → s.call c = (s.reply c, s)) ∧
      ∀ off len, s.request c = some (off, len) →
        (0 < len ∧ off + len ≤ s.size ∧ granted (s.reply c) = true) ∧
        (∀ m, s.note off len = .error m → s.call c = (.error m, s)) ∧
        ∀ s', s.note off len = .ok s' → s.call c = (s.reply c, s') := by
  cases c with
  | note off len =>
    have hcut : s.note off len = s.note off (min len (s.size - off)) := by
      simp only [Bytes.note, min_assoc, min_self]
    constructor
    · intro hnone
      rw [request] at hnone
      split_ifs at hnone with hzero
      rw [call, hcut, hzero, note_zero, reply]
    · intro o l hsome
      rw [request] at hsome
      split_ifs at hsome with hzero
      rw [Option.some.injEq, Prod.mk.injEq] at hsome
      obtain ⟨rfl, rfl⟩ := hsome
      refine ⟨⟨by omega, by omega, rfl⟩, fun m hm => ?_, fun s' hs' => ?_⟩
      · rw [call, hcut, hm]
      · rw [call, hcut, hs', reply]
  | get off len past =>
    have hcall := s.call_get off len past
    rw [answer] at hcall
    constructor
    · intro hnone
      rw [request] at hnone
      split_ifs at hnone with hskip
      by_cases hend : s.size < off + len
      · rw [hcall, if_pos hend, reply, if_pos hend]
      · rw [if_neg hend] at hcall
        rcases hpeek : s.peek off len with _ | b
        · rw [hpeek] at hcall hskip
          have hzero : len = 0 := by
            rcases hskip with h | h | h
            · exact h
            · exact absurd h hend
            · cases h
          rw [hcall, if_pos hzero, note_zero, reply, if_neg hend, hpeek]
        · rw [hcall, hpeek, reply, if_neg hend, hpeek]
    · intro o l hsome
      rw [request] at hsome
      split_ifs at hsome with hskip
      rw [Option.some.injEq, Prod.mk.injEq] at hsome
      obtain ⟨rfl, rfl⟩ := hsome
      rw [not_or, not_or, Bool.not_eq_true, Option.isSome_eq_false_iff, Option.isNone_iff_eq_none]
        at hskip
      obtain ⟨hzero, hend, hpeek⟩ := hskip
      rw [if_neg hend, hpeek] at hcall
      dsimp only at hcall
      rw [if_neg hzero, max_self] at hcall
      have hreply : s.reply (.get off len past) = .error .Need := by
        rw [reply, if_neg hend, hpeek]
      refine ⟨⟨by omega, by omega, by rw [hreply]; rfl⟩, fun m hm => ?_, fun s' hs' => ?_⟩
      · rw [hcall, hm]
      · rw [hcall, hs', hreply]

/-- What one call does: it is refused, and changes nothing, exactly when it asks for a range whose
new bytes would take the bytes given and asked for past the bound. -/
theorem Charged.call_spec (h : s.Charged) (hsize : s.size ≤ U64_MAX) (c : Call) :
    (s.request c = none → s.call c = (s.reply c, s)) ∧
      ∀ off len, s.request c = some (off, len) →
        granted (s.reply c) = true ∧
        (s.cap < s.given + s.needed + s.count (s.Adds off len) →
          s.call c = (.error (pastCap s.cap), s)) ∧
        (s.given + s.needed + s.count (s.Adds off len) ≤ s.cap →
          (s.call c).1 = s.reply c ∧ s.Asks (s.call c).2 off len ∧ (s.call c).2.Charged) := by
  obtain ⟨hnone, hsome⟩ := call_request s c
  refine ⟨hnone, fun off len hreq => ?_⟩
  obtain ⟨⟨hlen, hend, hgranted⟩, herr, hok⟩ := hsome off len hreq
  refine ⟨hgranted, ?_⟩
  obtain ⟨hpast, hin⟩ := h.note_spec hsize hlen hend
  constructor
  · intro hcap
    exact herr _ (hpast hcap)
  · intro hcap
    obtain ⟨s', hnote, hasks, hcharged⟩ := hin hcap
    rw [hok s' hnote]
    exact ⟨rfl, hasks, hcharged⟩

lemma Charged.step (h : s.Charged) (hsize : s.size ≤ U64_MAX) (c : Call) :
    (s.call c).2.Charged ∧ (s.call c).2.size = s.size ∧ (s.call c).2.pieces = s.pieces ∧
      (s.call c).2.given = s.given ∧ (s.call c).2.cap = s.cap ∧
      (s.call c).2.need = s.need ++
        ((s.request c).filter fun _ => granted (s.call c).1).toList := by
  obtain ⟨hnone, hsome⟩ := h.call_spec hsize c
  rcases hreq : s.request c with _ | ⟨off, len⟩
  · rw [hnone hreq]
    exact ⟨h, rfl, rfl, rfl, rfl, by simp⟩
  · obtain ⟨hgranted, hpast, hin⟩ := hsome off len hreq
    rcases lt_or_ge s.cap (s.given + s.needed + s.count (s.Adds off len)) with hcap | hcap
    · rw [hpast hcap]
      exact ⟨h, rfl, rfl, rfl, rfl, by simp [granted, pastCap]⟩
    · obtain ⟨hreply, hasks, hcharged⟩ := hin hcap
      refine ⟨hcharged, hasks.size_eq, hasks.pieces_eq, hasks.given_eq, hasks.cap_eq, ?_⟩
      rw [hasks.need_eq]
      simp only [hreply, hgranted]
      rfl

lemma Charged.run (h : s.Charged) (hsize : s.size ≤ U64_MAX) (calls : List Call) :
    (s.after calls).Charged ∧ (s.after calls).size = s.size ∧ (s.after calls).pieces = s.pieces ∧
      (s.after calls).given = s.given ∧ (s.after calls).cap = s.cap ∧
      (s.after calls).need = s.need ++ s.accepted calls := by
  induction calls generalizing s with
  | nil => exact ⟨h, rfl, rfl, rfl, rfl, by simp [after, accepted]⟩
  | cons c calls ih =>
    obtain ⟨h1, h2, h3, h4, h5, h6⟩ := h.step hsize c
    obtain ⟨k1, k2, k3, k4, k5, k6⟩ := ih h1 (h2 ▸ hsize)
    refine ⟨k1, k2.trans h2, k3.trans h3, k4.trans h4, k5.trans h5, ?_⟩
    show ((s.call c).2.after calls).need = _
    rw [k6, h6, accepted, append_assoc]

end Bytes

/-! ### What is needed -/

lemma addNeed_apart {l : List (ℕ × ℕ)} {r : ℕ × ℕ} (hl : l.Pairwise fun p q => q.1 + q.2 < p.1)
    (hord : ∀ q ∈ l, q.1 ≤ r.1) : (addNeed l r).Pairwise fun p q => q.1 + q.2 < p.1 := by
  rcases l with _ | ⟨⟨o, n⟩, rest⟩
  · exact pairwise_singleton ..
  · have hrest := pairwise_cons.1 hl
    obtain ⟨off, len⟩ := r
    rw [addNeed]
    split_ifs with htouch
    · exact pairwise_cons.2 hrest
    · refine pairwise_cons.2 ⟨fun q hq => ?_, hl⟩
      rcases mem_cons.1 hq with rfl | hq
      · exact Nat.lt_of_not_le htouch
      · have hlt : q.1 + q.2 < o := hrest.1 q hq
        show q.1 + q.2 < off
        omega

lemma foldl_addNeed_apart {l rs : List (ℕ × ℕ)} (hl : l.Pairwise fun p q => q.1 + q.2 < p.1)
    (hsort : rs.Pairwise fun p q => p.1 ≤ q.1) (hord : ∀ r ∈ rs, ∀ q ∈ l, q.1 ≤ r.1) :
    (rs.foldl addNeed l).Pairwise fun p q => q.1 + q.2 < p.1 := by
  induction rs generalizing l with
  | nil => exact hl
  | cons r rs ih =>
    rw [pairwise_cons] at hsort
    obtain ⟨hle, -⟩ := addNeed_spec (hord r (mem_cons_self ..))
    exact ih (addNeed_apart hl (hord r (mem_cons_self ..))) hsort.2
      fun q hq p hp => (hle p hp).trans (hsort.1 q hq)

namespace Bytes

variable {s : Bytes}

theorem needs_apart (s : Bytes) : s.needs.Pairwise fun p q => p.1 + p.2 < q.1 := by
  have hsort : ((s.need.filter fun r => 0 < r.2).insertionSort rangeLe).Pairwise
      fun p q => p.1 ≤ q.1 := by
    refine (pairwise_insertionSort rangeLe _).imp fun h => ?_
    simp only [rangeLe] at h
    omega
  rw [needs, pairwise_reverse]
  exact foldl_addNeed_apart Pairwise.nil hsort (by simp)

/-! ### Looking -/

theorem Charged.peek_isSome (h : s.Charged) {off len : ℕ} (hlen : 0 < len) :
    (s.peek off len).isSome ↔ ∀ i, off ≤ i → i < off + len → s.Has i := by
  constructor
  · intro hsome i hlo hhi
    obtain ⟨b, hb⟩ := Option.isSome_iff_exists.1 hsome
    exact (held_of_peek hb).has hlo hhi
  · intro hall
    obtain ⟨p, hp, hlo, hhi⟩ := held_of_has h.apart hlen hall
    have hend := h.stop_le p hp
    rw [peek, if_neg (by omega), last_piece h.apart hp hlo (by omega)]
    dsimp only
    rw [if_neg (by rw [Piece.stop] at hhi; omega)]
    rfl

lemma peek_joined {file : List UInt8} {given : List Piece} (hgiven : PiecesOf file given)
    (hsize : s.size = file.length) (hpieces : s.pieces = joined file.length given) {off len : ℕ}
    {b : List UInt8} (hb : s.peek off len = some b) : b = (file.drop off).take len := by
  -- the bound plays no part in it
  have hfile : OfFile file { s with cap := U64_MAX } :=
    (ofFile_ofPieces hgiven).of_same hsize hpieces rfl
  have hpeek := hfile.peek_of_held (held_of_peek hb)
  exact Option.some.inj (hb.symm.trans hpeek)

/-- Each byte that is asked for is charged once, whatever pieces a reading has and whatever calls it
makes; a call is refused exactly when the bytes it adds would take the sum past the bound. -/
theorem requests_charged_once (size : ℕ) (hsize : size ≤ U64_MAX) (given : List Piece) (cap : ℕ)
    (calls : List Call) :
    let s := (ofPieces size given cap).after calls
    (Spans size s.asked ∧ ∀ i, InMap s.asked i → ¬ Covers given i) ∧
      s.needed = ((Finset.range size).filter (InMap s.asked)).card ∧
      s.given = ((Finset.range size).filter s.Has).card ∧
      (∀ i, s.Has i ↔ i < size ∧ Covers given i) ∧
      s.given + s.needed ≤ max cap s.given ∧
      (∀ c, (s.request c = none → s.call c = (s.reply c, s)) ∧
        ∀ off len, s.request c = some (off, len) →
          (cap < s.given + s.needed + s.count (s.Adds off len) →
            s.call c = (.error (pastCap cap), s)) ∧
          (s.given + s.needed + s.count (s.Adds off len) ≤ cap →
            (s.call c).1 = s.reply c ∧ s.Asks (s.call c).2 off len)) ∧
      (s.needs.Pairwise fun p q => p.1 + p.2 < q.1) ∧
      (∀ i, InRanges s.needs i ↔ InRanges ((ofPieces size given cap).accepted calls) i) ∧
      ∀ off len, 0 < len →
        ((s.peek off len).isSome ↔
          ∀ i, off ≤ i → i < off + len → i < size ∧ Covers given i) ∧
        ∀ file : List UInt8, file.length = size → PiecesOf file given →
          ∀ b, s.peek off len = some b → b = (file.drop off).take len := by
  intro s
  have hstart := charged_ofPieces size given cap
  obtain ⟨hs, hsize', hpieces, hgiven, hcap, hneed⟩ := hstart.run hsize calls
  rw [show (ofPieces size given cap).size = size from rfl] at hsize'
  have hhas : ∀ i, s.Has i ↔ i < size ∧ Covers given i := by
    intro i
    rw [← (joined_apart size given).2.2 i]
    simp only [Has, Covers, s, hpieces]
    rfl
  have hcap' : s.cap = cap := hcap
  refine ⟨⟨hsize' ▸ hs.spans, fun i hi hcov => hs.fresh i hi ?_⟩, ?_, ?_, hhas, ?_, ?_,
    needs_apart s, ?_, ?_⟩
  · exact (hhas i).2 ⟨hsize' ▸ hs.spans.lt hi, hcov⟩
  · rw [hs.needed_eq, count, hsize']
  · rw [hs.given_eq, count, hsize']
  · rw [← hcap']
    exact hs.bounded
  · intro c
    obtain ⟨hnone, hsome⟩ := hs.call_spec (hsize'.trans_le hsize) c
    refine ⟨hnone, fun off len hreq => ?_⟩
    obtain ⟨-, hpast, hin⟩ := hsome off len hreq
    rw [← hcap']
    exact ⟨hpast, fun hle => ⟨(hin hle).1, (hin hle).2.1⟩⟩
  · intro i
    rw [inRanges_needs, hneed]
    rfl
  · intro off len hlen
    refine ⟨?_, fun file hfile hof b hb => ?_⟩
    · rw [hs.peek_isSome hlen]
      simp only [← hhas]
      rfl
    · subst hfile
      exact peek_joined hof hsize' hpieces hb

/-- A reading of four bytes of a file of eight: two calls that overlap, one that is refused. -/
theorem requests_charged_once_overlapping :
    let s := (ofPieces 8 [(0, [1, 2])] 6).after [.note 1 3, .get 3 2 "past", .note 5 3]
    s.needed = 3 ∧ s.needs = [(1, 4)] ∧ s.given + s.needed ≤ max 6 s.given := by
  have h := requests_charged_once 8 (by decide) [(0, [1, 2])] 6
    [.note 1 3, .get 3 2 "past", .note 5 3]
  exact ⟨by decide, by decide, h.2.2.2.2.1⟩

/-- The pieces given may themselves be more than the bound. -/
theorem given_may_pass_cap :
    ¬ ∀ (size : ℕ), size ≤ U64_MAX → ∀ (given : List Piece) (cap : ℕ) (calls : List Call),
      ((ofPieces size given cap).after calls).given +
        ((ofPieces size given cap).after calls).needed ≤ cap := by
  intro h
  have hone := h 1 (by decide) [(0, [7])] 0 []
  exact absurd hone (by decide)

end Bytes

end Lazaret.Archive
