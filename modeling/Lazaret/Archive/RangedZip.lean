import Lazaret.Archive.Ranged
import Lazaret.Archive.Zip

/-!
# A zip archive read by ranges

A reading by ranges is to be the reading of the whole file.  That of a member, which gives up at the
first bytes that are not here, is so exactly when the pieces given are enough for it (`Served`), and
the listing when its last round is not `Blind`.  What goes wrong is `get` of no bytes away from
every piece, which is `Need` and notes nothing, and the search for the data descriptor of an
unlisted member, which looks at the rest of the file without asking for it.
-/

namespace Lazaret.Archive

variable {α β ε : Type} {size : ℕ}

def Needy (needy : ε → Prop) : Except ε α → Prop
  | .ok _ => False
  | .error e => needy e

/-- A reading that may fail, and fails as needy at the first bytes that are not here only. -/
def StrictE (size : ℕ) (needy : ε → Prop) (p : RdE ε α) : Prop := Strict size (Needy needy) p.run

lemma Strict.bind {bad : α → Prop} {bad' : β → Prop} {p : Rd α} {f : α → Rd β}
    (hp : Strict size bad p)
    (hf : ∀ a, ¬ bad a → Strict size bad' (f a)) (hbad : ∀ a, bad a → ∃ b, bad' b ∧ f a = .done b) :
    Strict size bad' (p.bind f) := by
  induction p with
  | done a => exact hf a hp
  | ask q k ih =>
    obtain ⟨hlook, ⟨a, ha, hasked⟩, hhere, hpast⟩ := hp
    obtain ⟨b, hb, hfa⟩ := hbad a ha
    refine ⟨hlook, ⟨b, hb, ?_⟩, fun bytes => ih _ (hhere bytes), fun h => ih _ (hpast h)⟩
    show (k .asked).bind f = _
    rw [hasked]
    exact hfa

variable {needy : ε → Prop}

lemma StrictE.bind {p : RdE ε α} {f : α → RdE ε β} (hp : StrictE size needy p)
    (hf : ∀ a, StrictE size needy (f a)) : StrictE size needy (p >>= f) := by
  refine Strict.bind hp ?_ ?_
  · rintro (e | a) ha
    · exact ha
    · exact hf a
  · rintro (e | a) ha
    · exact ⟨.error e, ha, rfl⟩
    · cases ha

lemma StrictE.adapt {ε' : Type} {needy' : ε' → Prop} {p : RdE ε α} (hp : StrictE size needy p)
    {f : ε → ε'} (hf : ∀ e, needy' (f e) ↔ needy e) : StrictE size needy' (ExceptT.adapt f p) := by
  refine Strict.bind hp ?_ ?_
  · rintro (e | a) ha
    · exact fun h => ha ((hf e).1 h)
    · exact id
  · rintro (e | a) ha
    · exact ⟨.error (f e), (hf e).2 ha, rfl⟩
    · cases ha

lemma strictE_pure (a : α) : StrictE size needy (pure a : RdE ε α) := id

lemma strictE_throw {e : ε} (he : ¬ needy e) : StrictE size needy (throw e : RdE ε α) := he

lemma strictE_throw_bind {e : ε} (he : ¬ needy e) (f : α → RdE ε β) :
    StrictE size needy ((throw e : RdE ε α) >>= f) := he

def Miss.IsNeed (m : Miss) : Prop := m = .Need

lemma not_isNeed (why : String) : ¬ (Miss.Bad why).IsNeed := nofun

lemma strictE_get (off len : ℕ) (past : String) :
    StrictE size Miss.IsNeed (get off len past) :=
  ⟨rfl, ⟨.error .Need, rfl, rfl⟩, fun _ => id, fun _ => not_isNeed past⟩

lemma strictE_header {want fetch : ℕ} {e : Entry} (hlocal : e.local_ < size)
    (hfetch : want ≤ fetch) (tooMany : String) :
    StrictE size Miss.IsNeed (header size e want fetch tooMany) := by
  rw [header]
  dsimp only
  rw [if_neg (by omega)]
  refine ⟨rfl, ⟨.error .Need, rfl, rfl⟩, fun _ => id, fun hpast => ?_⟩
  simp only [Query.off, Query.len] at hpast
  omega

lemma strictE_raw {want fetch : ℕ} {e : Entry} (hwant : want ≤ fetch) (tooMany : String) :
    StrictE size Miss.IsNeed (raw size e want fetch tooMany) := by
  rw [raw]
  by_cases h1 : e.flags &&& 1 ≠ 0
  · rw [if_pos h1]
    exact strictE_throw_bind (not_isNeed _) _
  rw [if_neg h1]
  dsimp only
  by_cases h2 : size ≤ e.local_
  · rw [if_pos h2]
    exact strictE_throw_bind (not_isNeed _) _
  rw [if_neg h2]
  refine StrictE.bind (strictE_header (by omega) hwant tooMany) fun hdr => ?_
  by_cases h3 : ¬ startsWith hdr (pk 3 4) = true
  · rw [if_pos h3]
    exact strictE_throw_bind (not_isNeed _) _
  rw [if_neg h3]
  split
  · split
    · split
      · exact strictE_throw_bind (not_isNeed _) _
      · rw [if_neg (by omega)]
        exact strictE_get _ _ _
    · exact strictE_throw (not_isNeed _)
  · exact strictE_throw (not_isNeed _)

lemma strict_readChecked (C : Codec) {limit : ℕ} {e : Entry}
    (hfetch : e.csize ≤ fetchBound e limit) :
    Strict size (Needy Miss.IsNeed) (readChecked C size e limit) := by
  have hread : StrictE size Miss.IsNeed (read C size e limit) := by
    unfold read
    dsimp only
    split
    · refine StrictE.bind (strictE_raw hfetch _) fun b => ?_
      split
      · exact strictE_throw_bind (not_isNeed _) _
      · exact strictE_pure _
    · refine StrictE.bind (strictE_raw hfetch _) fun b => ?_
      split
      · exact strictE_pure _
      · exact strictE_throw (not_isNeed _)
    · exact strictE_throw (not_isNeed _)
  rw [readChecked]
  refine StrictE.bind hread fun out => ?_
  dsimp only
  split
  · exact strictE_throw_bind (not_isNeed _) _
  · split
    · exact strictE_throw_bind (not_isNeed _) _
    · exact strictE_pure _

/-- A prefix read that failed for bytes that are needed. -/
def PrefixError.IsNeed (e : PrefixError) : Prop := e.miss.IsNeed

lemma strictE_inflate (C : Codec) (n fuel : ℕ) (inf : C.Inflater) (input out : List UInt8) :
    StrictE size PrefixError.IsNeed (ExceptT.mk (pure (inflatePrefix C n fuel inf input out))) := by
  show ¬ Needy PrefixError.IsNeed (inflatePrefix C n fuel inf input out)
  fun_induction inflatePrefix C n fuel inf input out with
  | case3 => exact not_isNeed _
  | case6 _ _ _ _ _ _ _ _ _ _ _ ih => exact ih
  | _ => exact id

lemma strict_readPrefix (C : Codec) {n fetch : ℕ} {e : Entry} (hn : n ≤ U64_MAX)
    (hfetch : e.csize ≤ fetch) : Strict size (Needy Miss.IsNeed) (readPrefix C size e n fetch) := by
  have hmax : max PREFIX_RAW n ≤ U64_MAX := by
    refine max_le ?_ hn
    decide
  have hfirst : StrictE size PrefixError.IsNeed
      (ExceptT.adapt (fun miss : Miss => (⟨miss, 0⟩ : PrefixError))
        (raw size e (max PREFIX_RAW n) U64_MAX "")) :=
    (strictE_raw hmax "").adapt fun _ => Iff.rfl
  have hcounted : StrictE size PrefixError.IsNeed (readPrefixCounted C size e n fetch) := by
    rw [readPrefixCounted]
    dsimp only
    split
    · exact StrictE.bind hfirst fun _ => strictE_pure _
    · refine StrictE.bind hfirst fun raw1 => ?_
      refine StrictE.bind (strictE_inflate C _ _ _ _ _) fun r => ?_
      split
      · refine StrictE.bind (StrictE.adapt (strictE_raw hfetch _) fun _ => Iff.rfl) fun all => ?_
        refine StrictE.bind (strictE_inflate C _ _ _ _ _) fun _ => ?_
        exact strictE_pure _
      · exact strictE_pure _
    · exact not_isNeed _
  refine Strict.bind hcounted ?_ ?_
  · rintro (e | a) ha
    · exact ha
    · exact id
  · rintro (e | a) ha
    · exact ⟨.error e.miss, ha, rfl⟩
    · cases ha

/-- A zip archive read by ranges: each round that needs something asks for a byte that was not
given.  The listing is that of the whole file if the last round is not blind, a member if and only
if the pieces given are enough for it. -/
theorem reading_by_ranges (C : Codec) (file : List UInt8) (given : List Piece)
    (hgiven : PiecesOf file given) :
    (∀ max maxDir, let p := entries C file.length max maxDir
      (needsOf p file given ≠ [] →
        ∃ i, i < file.length ∧ InRanges (needsOf p file given) i ∧ ¬ Covers given i) ∧
      (∃ n a, again (ranged p file) n given = some a) ∧
      ((∃ g, Reached p file given g ∧ needsOf p file g = [] ∧ ¬ Blind file g p) →
        ReadsWhole p file given)) ∧
    (∀ e limit, e.csize ≤ fetchBound e limit → let p := readChecked C file.length e limit
      (needsOf p file given ≠ [] →
        ∃ i, i < file.length ∧ InRanges (needsOf p file given) i ∧ ¬ Covers given i) ∧
      (∃ n a, again (ranged p file) n given = some a) ∧
      (ReadsWhole p file given ↔ Served file p given)) ∧
    ∀ e n fetch, n ≤ U64_MAX → e.csize ≤ fetch → let p := readPrefix C file.length e n fetch
      (needsOf p file given ≠ [] →
        ∃ i, i < file.length ∧ InRanges (needsOf p file given) i ∧ ¬ Covers given i) ∧
      (∃ n a, again (ranged p file) n given = some a) ∧
      (ReadsWhole p file given ↔ Served file p given) := by
  refine ⟨fun max maxDir => ?_, fun e limit hfetch => ?_, fun e n fetch hn hfetch => ?_⟩
  · refine ⟨needsOf_new hgiven, ranged_ends hgiven, ?_⟩
    rintro ⟨g, hr, hneeds, hblind⟩
    exact readsWhole_of_last hgiven hr hneeds hblind
  · have hstrict : Strict file.length _ (readChecked C file.length e limit) :=
      strict_readChecked C hfetch
    exact ⟨needsOf_new hgiven, ranged_ends hgiven, readsWhole_iff hstrict hgiven⟩
  · have hstrict : Strict file.length _ (readPrefix C file.length e n fetch) :=
      strict_readPrefix C hn hfetch
    exact ⟨needsOf_new hgiven, ranged_ends hgiven, readsWhole_iff hstrict hgiven⟩

def crc32 (b : List UInt8) : ℕ :=
  let shift := fun c : ℕ => if c % 2 = 1 then (c / 2) ^^^ 0xEDB88320 else c / 2
  let byte := fun c : ℕ => (List.range 8).foldl (fun c _ => shift c) c
  (b.foldl (fun c x => byte ((c ^^^ x.toNat) % 256) ^^^ (c / 256)) 0xFFFFFFFF) ^^^ 0xFFFFFFFF

/-- Enough of a codec for stored members with ASCII names. -/
def storedOnly : Codec where
  crc32 := crc32
  decodeAll := fun _ _ => .error "not deflated"
  Inflater := Unit
  newInflater := ()
  inflate := fun _ _ _ => .error ("not deflated", 0)
  escapeLossy := fun b => String.ofList (b.map fun c => Char.ofNat c.toNat)

/-- An archive of one stored member, `a`, that holds an `x`. -/
def oneMember : List UInt8 :=
  [80, 75, 3, 4, 20, 0, 0, 0, 0, 0, 0, 0, 33, 0, 131, 22, 220, 140, 1, 0, 0, 0, 1, 0, 0, 0, 1, 0,
   0, 0, 97, 120, 80, 75, 1, 2, 20, 3, 20, 0, 0, 0, 0, 0, 0, 0, 33, 0, 131, 22, 220, 140, 1, 0,
   0, 0, 1, 0, 0, 0, 1, 0, 0, 0, 0, 0, 0, 0, 0, 0, 0, 0, 128, 1, 0, 0, 0, 0, 97, 80, 75, 5, 6, 0,
   0, 0, 0, 1, 0, 1, 0, 47, 0, 0, 0, 32, 0, 0, 0, 0, 0]

/-- The local header of a member `a` that holds nothing. -/
def emptyMember : List UInt8 :=
  [80, 75, 3, 4, 20, 0, 0, 0, 0, 0, 0, 0, 33, 0, 0, 0, 0, 0, 0, 0, 0, 0, 0, 0, 0, 0, 1, 0, 0, 0, 97]

def emptyEntry : Entry where
  name := [97]
  flags := 0
  method := 0
  crc32 := 0
  csize := 0
  size := 0
  local_ := 0
  xlen := 0
  made_by := 788
  external := 0
  listed := true

/-- The archive listed from no pieces, after a round that asks for all of it; and an empty member
read from no pieces, where what is read ahead with its header has the place of its no bytes. -/
theorem reading_by_ranges_one_member :
    ReadsWhole (entries storedOnly oneMember.length 10 1000) oneMember [] ∧
      ((entries storedOnly oneMember.length 10 1000).on (Bytes.whole oneMember)).1.isOk = true ∧
      ReadsWhole (readChecked storedOnly emptyMember.length emptyEntry 10) emptyMember [] ∧
      ReadsWhole (readPrefix storedOnly emptyMember.length emptyEntry 10 100) emptyMember [] := by
  have hone : PiecesOf oneMember [] := by simp [PiecesOf]
  have hempty : PiecesOf emptyMember [] := by simp [PiecesOf]
  have hlisting := (reading_by_ranges storedOnly oneMember [] hone).1 10 1000
  have hmember := (reading_by_ranges storedOnly emptyMember [] hempty).2
  refine ⟨hlisting.2.2 ⟨supply oneMember [(0, 101)], .single ?_, ?_, ?_⟩, ?_,
    (hmember.1 emptyEntry 10 ?_).2.2.2 ?_, (hmember.2 emptyEntry 10 100 ?_ ?_).2.2.2 ?_⟩
  all_goals with_unfolding_all decide

/-- An empty file read by ranges, and an empty member of which only the header's 30 bytes were
given: both readings end with `Need` and no range to read. -/
theorem no_bytes_are_never_given :
    (∀ n, again (ranged (entries storedOnly 0 10 1000) []) n [] ≠
      some ((entries storedOnly 0 10 1000).on (Bytes.whole [])).1) ∧
    PiecesOf emptyMember [(0, emptyMember.take 30)] ∧ emptyEntry.csize ≤ fetchBound emptyEntry 10 ∧
    (∀ n, again (ranged (readChecked storedOnly emptyMember.length emptyEntry 10) emptyMember) n
      [(0, emptyMember.take 30)] ≠
      some ((readChecked storedOnly emptyMember.length emptyEntry 10).on
        (Bytes.whole emptyMember)).1) ∧
    ((readChecked storedOnly emptyMember.length emptyEntry 10).on (Bytes.whole emptyMember)).1 =
      .ok [] := by
  have hfile : ranged (entries storedOnly 0 10 1000) [] [] = .inl (.error .Need) := by
    decide
  have hmember : ranged (readChecked storedOnly emptyMember.length emptyEntry 10) emptyMember
      [(0, emptyMember.take 30)] = .inl (.error .Need) := by
    decide
  refine ⟨fun n => ?_, ?_, by decide, fun n => ?_, by decide⟩
  · cases n with
    | zero => simp [again]
    | succ n =>
      rw [again, hfile]
      dsimp only
      decide
  · intro q hq i hi _
    rw [List.mem_singleton.1 hq] at hi ⊢
    rw [List.getElem?_take, if_pos (by simpa using hi.trans_le (by simp)), zero_add]
  · cases n with
    | zero => simp [again]
    | succ n =>
      rw [again, hmember]
      dsimp only
      decide

end Lazaret.Archive
