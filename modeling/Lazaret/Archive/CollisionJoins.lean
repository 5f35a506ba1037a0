import Lazaret.Archive.Collisions
import Mathlib.Data.List.Sort
import Mathlib.Data.String.Basic

/-!
# What collides is joined

The order of the entries has every key as a run (`mem_runs`), and what is below a key as a range
(`mem_belowOf`), so the joins that `collisions` makes connect just the entries that collide
(`root_joinAll`), and the flags say how they do (`flags_joinAll`).
-/

namespace Lazaret.Archive.Extract

open List

/-! ## The order of the keys -/

section Order

variable {key : ℕ → Text}

lemma keyLe_iff {a b : ℕ} : keyLe key a b = true ↔ key a < key b ∨ (key a = key b ∧ a ≤ b) := by
  simp [keyLe]

lemma sorted_order (n : ℕ) :
    ((range n).mergeSort (keyLe key)).Pairwise fun a b => key a ≤ key b := by
  have h : ((range n).mergeSort (keyLe key)).Pairwise fun a b => keyLe key a b = true := by
    apply pairwise_mergeSort
    · intro a b c hab hbc
      rw [keyLe_iff] at *
      rcases hab with hab | ⟨hab, hle⟩ <;> rcases hbc with hbc | ⟨hbc, hle'⟩
      · exact .inl (hab.trans hbc)
      · exact .inl (hbc ▸ hab)
      · exact .inl (hab ▸ hbc)
      · exact .inr ⟨hab.trans hbc, hle.trans hle'⟩
    · intro a b
      rw [Bool.or_eq_true, keyLe_iff, keyLe_iff]
      rcases lt_trichotomy (key a) (key b) with h | h | h
      · exact .inl (.inl h)
      · rcases le_total a b with hle | hle
        · exact .inl (.inr ⟨h, hle⟩)
        · exact .inr (.inr ⟨h.symm, hle⟩)
      · exact .inr (.inl h)
  refine h.imp fun hab => ?_
  rcases keyLe_iff.1 hab with hlt | ⟨heq, -⟩
  · exact hlt.le
  · exact heq.le

lemma takeWhile_eq_filter {α : Type} {p : α → Bool} {l : List α}
    (h : l.Pairwise fun a b => p b = true → p a = true) : l.takeWhile p = l.filter p := by
  induction l with
  | nil => rfl
  | cons a l ih =>
    obtain ⟨ha, hl⟩ := pairwise_cons.1 h
    by_cases hp : p a = true
    · rw [takeWhile_cons_of_pos hp, filter_cons_of_pos hp, ih hl]
    · rw [takeWhile_cons_of_neg hp, filter_cons_of_neg hp, eq_comm, filter_eq_nil_iff]
      exact fun b hb hpb => hp (ha b hb hpb)

lemma dropWhile_eq_filter {α : Type} {p : α → Bool} {l : List α}
    (h : l.Pairwise fun a b => p b = true → p a = true) :
    l.dropWhile p = l.filter fun a => !p a := by
  induction l with
  | nil => rfl
  | cons a l ih =>
    obtain ⟨ha, hl⟩ := pairwise_cons.1 h
    by_cases hp : p a = true
    · rw [dropWhile_cons_of_pos hp, filter_cons_of_neg (by simp [hp]), ih hl]
    · rw [dropWhile_cons_of_neg hp, filter_cons_of_pos (by simp [hp]), eq_comm,
        cons_inj_right, filter_eq_self]
      exact fun b hb => by simpa using fun hpb => hp (ha b hb hpb)

lemma mem_runs {order : List ℕ} (h : order.Pairwise fun a b => key a ≤ key b) {run : List ℕ} :
    run ∈ runs key order ↔ ∃ i ∈ order, run = order.filter fun j => key j = key i := by
  induction hn : order.length using Nat.strong_induction_on generalizing order with
  | _ n ih =>
    cases order with
    | nil => simp [runs]
    | cons i rest =>
      obtain ⟨hi, hrest⟩ := pairwise_cons.1 h
      have hfirst : rest.Pairwise fun a b =>
          decide (key b = key i) = true → decide (key a = key i) = true := by
        rw [pairwise_iff_forall_sublist] at hrest ⊢
        intro a b hab
        simp only [decide_eq_true_eq]
        intro hb
        have ha : a ∈ rest := hab.subset (by simp)
        exact le_antisymm (hb ▸ hrest hab) (hi a ha)
      have hdrop : (rest.dropWhile fun j => key j = key i) = rest.filter fun j =>
          key j ≠ key i := by
        rw [dropWhile_eq_filter hfirst]
        simp
      have hlen : (rest.filter fun j => key j ≠ key i).length < n := by
        have := length_filter_le (fun j => decide (key j ≠ key i)) rest
        rw [length_cons] at hn
        omega
      rw [runs, mem_cons, takeWhile_eq_filter hfirst, hdrop,
        ih _ hlen (hrest.filter _) rfl, exists_mem_cons_iff]
      have hself : (i :: rest).filter (fun j => key j = key i) =
          i :: rest.filter fun j => key j = key i := by simp
      rw [hself]
      have hother : ∀ a, key a ≠ key i → ((i :: rest).filter fun j => key j = key a) =
          (rest.filter fun j => key j ≠ key i).filter fun j => key j = key a := by
        intro a ha
        rw [filter_cons_of_neg (by simpa using fun h => ha h.symm), filter_filter]
        refine filter_congr fun j _ => ?_
        by_cases hj : key j = key a
        · simp [hj, ha]
        · simp [hj]
      constructor
      · rintro (rfl | ⟨a, ha, rfl⟩)
        · exact .inl rfl
        · rw [mem_filter, decide_eq_true_eq] at ha
          exact .inr ⟨a, ha.1, (hother a ha.2).symm⟩
      · rintro (rfl | ⟨a, ha, rfl⟩)
        · exact .inl rfl
        · by_cases hai : key a = key i
          · left
            rw [← hself, hai]
          · right
            refine ⟨a, ?_, hother a hai⟩
            rw [mem_filter, decide_eq_true_eq]
            exact ⟨ha, hai⟩

lemma slash_iff (c : Char) : ¬ c < '/' ∧ c < '0' ↔ c = '/' := by
  have hslash : ('/' : Char).toNat = 47 := rfl
  have hzero : ('0' : Char).toNat = 48 := rfl
  have hlt : ∀ d : Char, c < d ↔ c.toNat < d.toNat := fun d => Iff.rfl
  rw [hlt, hlt, hslash, hzero, ← Char.toNat_inj, hslash]
  omega

lemma between_iff (k s : Text) :
    ¬ s < k ++ ['/'] ∧ s < k ++ ['0'] ↔ (k ++ ['/']) <+: s := by
  induction k generalizing s with
  | nil =>
    cases s with
    | nil => simp
    | cons c s =>
      rw [nil_append, nil_append, cons_prefix_cons, cons_lt_cons_iff, cons_lt_cons_iff]
      simpa [eq_comm] using slash_iff c
  | cons a k ih =>
    cases s with
    | nil => simp
    | cons c s =>
      rw [cons_append, cons_append, cons_prefix_cons, cons_lt_cons_iff, cons_lt_cons_iff, ← ih]
      by_cases hc : c = a
      · simp [hc]
      · simp [hc, Ne.symm hc]

lemma take_drop_partitionPoint {order : List ℕ} {p q : ℕ → Bool}
    (hpq : ∀ i, p i = true → q i = true) (hp : order.Pairwise fun a b => p b = true → p a = true)
    (hq : order.Pairwise fun a b => q b = true → q a = true) :
    (order.take (Joins.partitionPoint q order)).drop (Joins.partitionPoint p order) =
      (order.filter q).filter fun i => !p i := by
  have htake : order.take (Joins.partitionPoint q order) = order.filter q := by
    rw [← takeWhile_eq_filter hq]
    exact (prefix_iff_eq_take.1 ( takeWhile_prefix q)).symm
  have hpoint : order.takeWhile p = (order.filter q).takeWhile p := by
    rw [takeWhile_eq_filter hp, takeWhile_eq_filter (hp.filter q), filter_filter]
    refine filter_congr fun i _ => ?_
    cases hi : p i with
    | false => rfl
    | true => rw [hpq i hi, Bool.and_true]
  rw [htake, Joins.partitionPoint, hpoint, ← dropWhile_eq_filter (hp.filter q)]
  conv_lhs => arg 2; rw [← takeWhile_append_dropWhile (p := p) (l := order.filter q)]
  rw [drop_left]

lemma mem_belowOf {order : List ℕ} (h : order.Pairwise fun a b => key a ≤ key b) {file i : ℕ} :
    i ∈ Joins.belowOf key order file ↔ i ∈ order ∧ (key file ++ ['/']) <+: key i := by
  have hfirst : ∀ k : Text, order.Pairwise fun a b =>
      decide (key b < k) = true → decide (key a < k) = true := fun k =>
    h.imp fun hab hb => by
      rw [decide_eq_true_eq] at hb ⊢
      exact lt_of_le_of_lt hab hb
  have hlt : key file ++ ['/'] < key file ++ ['0'] := append_left_lt (by decide)
  rw [Joins.belowOf, take_drop_partitionPoint ?_ (hfirst _) (hfirst _), mem_filter,
    mem_filter, ← between_iff]
  · simp only [Bool.not_eq_true', decide_eq_true_eq, decide_eq_false_iff_not]
    tauto
  · intro j hj
    rw [decide_eq_true_eq] at hj ⊢
    exact hj.trans hlt

end Order

/-! ## The joins that are made -/

section Made

variable {entry : ℕ → Entry} {key : ℕ → Text} {order : List ℕ}

def runPairs (entry : ℕ → Entry) (run : List ℕ) : List (ℕ × ℕ) :=
  match run.find? fun i => (entry i).kind = .File with
  | none => []
  | some file => if run.length > 1 then run.map fun i => (file, i) else []

def runMarks (entry : ℕ → Entry) (run : List ℕ) : List (ℕ × Flags) :=
  match run.find? fun i => (entry i).kind = .File with
  | none => []
  | some _ => if run.length > 1 then run.map fun i => (i, Joins.runFlags entry run) else []

lemma mem_runPairs {run : List ℕ} {file i : ℕ} : (file, i) ∈ runPairs entry run ↔
    (run.find? fun i => (entry i).kind = .File) = some file ∧ 1 < run.length ∧ i ∈ run := by
  rw [runPairs]
  cases run.find? fun i => (entry i).kind = .File with
  | none => simp
  | some f =>
    dsimp only
    split_ifs with hlen
    · simp [hlen, eq_comm, and_comm]
    · simp [hlen]

lemma mem_runMarks {run : List ℕ} {i : ℕ} {f : Flags} : (i, f) ∈ runMarks entry run ↔
    (∃ file, (run.find? fun i => (entry i).kind = .File) = some file) ∧ 1 < run.length ∧
      i ∈ run ∧ f = Joins.runFlags entry run := by
  rw [runMarks]
  cases run.find? fun i => (entry i).kind = .File with
  | none => simp
  | some file =>
    dsimp only
    split_ifs with hlen
    · simp [hlen, eq_comm]
    · simp [hlen]

/-- The flags that a file gives, to itself and to what is below its key. -/
def belowMarks (key : ℕ → Text) (order : List ℕ) (file : ℕ) : List (ℕ × Flags) :=
  let below := Joins.belowOf key order file
  (if below ≠ [] then [(file, ⟨false, false, true⟩)] else []) ++
    below.map fun i => (i, ⟨false, false, true⟩)

lemma mem_belowMarks {file i : ℕ} {f : Flags} : (i, f) ∈ belowMarks key order file ↔
    f = ⟨false, false, true⟩ ∧
      (i = file ∧ (∃ k, k ∈ Joins.belowOf key order file) ∨
        i ∈ Joins.belowOf key order file) := by
  rw [belowMarks, mem_append]
  by_cases h : Joins.belowOf key order file = []
  · simp [h]
  · obtain ⟨k, hk⟩ := exists_mem_of_ne_nil _ h
    have hsome : ∃ k, k ∈ Joins.belowOf key order file := ⟨k, hk⟩
    simp only [ne_eq, h, not_false_eq_true, if_true, mem_singleton, Prod.mk.injEq,
      mem_map, hsome, and_true]
    constructor
    · rintro (⟨rfl, rfl⟩ | ⟨j, hj, rfl, rfl⟩)
      · exact ⟨rfl, .inl rfl⟩
      · exact ⟨rfl, .inr hj⟩
    · rintro ⟨rfl, rfl | hi⟩
      · exact .inl ⟨rfl, rfl⟩
      · exact .inr ⟨i, hi, rfl, rfl⟩

def flagsOf (marks : List (ℕ × Flags)) (i : ℕ) : Flags :=
  (marks.filter fun m => m.1 = i).foldl (fun f m => f.or m.2) .none

lemma flagsOf_append_singleton (marks : List (ℕ × Flags)) (i : ℕ) (f : Flags) :
    flagsOf (marks ++ [(i, f)]) =
      Function.update (flagsOf marks) i ((flagsOf marks i).or f) := by
  ext j : 1
  rw [flagsOf, filter_append]
  by_cases h : i = j
  · subst h
    simp [flagsOf]
  · simp [flagsOf, h, Ne.symm h]

/-- What the loops have made so far: these joins, these flags, and a file of each of these keys. -/
structure Made (s : Joins) (pairs : List (ℕ × ℕ)) (marks : List (ℕ × Flags)) (files : List ℕ) :
    Prop where
  parent : s.parent = UnionFind.single.unions pairs
  flags : s.flags = flagsOf marks
  fileKeys : s.fileKeys = files

namespace Made

variable {s : Joins} {pairs : List (ℕ × ℕ)} {marks : List (ℕ × Flags)} {files : List ℕ}

lemma mark (h : Made s pairs marks files) (i : ℕ) (f : Flags) :
    Made { s with flags := Function.update s.flags i ((s.flags i).or f) } pairs
      (marks ++ [(i, f)]) files :=
  ⟨h.parent, by rw [flagsOf_append_singleton, h.flags], h.fileKeys⟩

lemma joins (h : Made s pairs marks files) (file : ℕ) (f : Flags) (l : List ℕ) :
    Made (l.foldl (fun s i => s.join file i f) s) (pairs ++ l.map fun i => (file, i))
      (marks ++ l.map fun i => (i, f)) files := by
  induction l generalizing s pairs marks with
  | nil => simpa using h
  | cons i l ih =>
    have hstep : Made (s.join file i f) (pairs ++ [(file, i)]) (marks ++ [(i, f)]) files := by
      obtain ⟨hparent, hflags, hfiles⟩ := h.mark i f
      refine ⟨?_, hflags, hfiles⟩
      rw [UnionFind.unions_concat, ← hparent]
      rfl
    simpa using ih hstep

lemma joinRun (h : Made s pairs marks files) (run : List ℕ) :
    Made (s.joinRun entry run) (pairs ++ runPairs entry run) (marks ++ runMarks entry run)
      (files ++ (run.find? fun i => (entry i).kind = .File).toList) := by
  rw [Joins.joinRun, runPairs, runMarks]
  cases run.find? fun i => (entry i).kind = .File with
  | none => simpa using h
  | some file =>
    have hfile : Made { s with fileKeys := s.fileKeys ++ [file] } pairs marks (files ++ [file]) :=
      ⟨h.parent, h.flags, by rw [h.fileKeys]⟩
    dsimp only
    split_ifs
    · exact hfile.joins file _ run
    · simpa using hfile

lemma joinBelow (h : Made s pairs marks files) (file : ℕ) :
    Made (s.joinBelow key order file)
      (pairs ++ (Joins.belowOf key order file).map fun i => (file, i))
      (marks ++ belowMarks key order file) files := by
  rw [Joins.joinBelow, belowMarks, ← append_assoc]
  split_ifs
  · exact (h.mark file _).joins file _ _
  · simpa using h.joins file ⟨false, false, true⟩ (Joins.belowOf key order file)

variable (entry) in
lemma foldl_joinRun (h : Made s pairs marks files) (l : List (List ℕ)) :
    Made (l.foldl (Joins.joinRun entry) s) (pairs ++ l.flatMap (runPairs entry))
      (marks ++ l.flatMap (runMarks entry))
      (files ++ l.flatMap fun run => (run.find? fun i => (entry i).kind = .File).toList) := by
  induction l generalizing s pairs marks files with
  | nil => simpa using h
  | cons run l ih => simpa using ih (h.joinRun run)

variable (key order) in
lemma foldl_joinBelow (h : Made s pairs marks files) (l : List ℕ) :
    Made (l.foldl (Joins.joinBelow key order) s)
      (pairs ++ l.flatMap fun file => (Joins.belowOf key order file).map fun i => (file, i))
      (marks ++ l.flatMap (belowMarks key order)) files := by
  induction l generalizing s pairs marks with
  | nil => simpa using h
  | cons file l ih => simpa using ih (h.joinBelow file)

end Made

end Made

/-! ## What collides -/

section Colliding

variable (T : Tables) (entries : List Entry)

def IsFile (i : ℕ) : Prop := i < entries.length ∧ (entryAt entries i).kind = .File

/-- Two entries have one key, which is that of a file. -/
def SharesKey (i j : ℕ) : Prop :=
  i < entries.length ∧ j < entries.length ∧ keyAt T entries i = keyAt T entries j ∧
    ∃ k, IsFile entries k ∧ keyAt T entries k = keyAt T entries i

def Below (file i : ℕ) : Prop :=
  IsFile entries file ∧ i < entries.length ∧ (keyAt T entries file ++ ['/']) <+: keyAt T entries i

def Related (i j : ℕ) : Prop :=
  SharesKey T entries i j ∨ Below T entries i j ∨ Below T entries j i

/-- Entries that collide, or that a chain of entries that collide connects. -/
def Connected : ℕ → ℕ → Prop := Relation.EqvGen (Related T entries)

/-- A file stands where another entry needs a directory. -/
def InPlaceOf (file i : ℕ) : Prop :=
  (IsFile entries file ∧ SharesKey T entries file i ∧ (entryAt entries i).kind = .Directory) ∨
    Below T entries file i

variable {T entries} {i j : ℕ}

abbrev orderOf (T : Tables) (entries : List Entry) : List ℕ :=
  (List.range entries.length).mergeSort (keyLe (keyAt T entries))

abbrev runOf (T : Tables) (entries : List Entry) (i : ℕ) : List ℕ :=
  (orderOf T entries).filter fun j => keyAt T entries j = keyAt T entries i

lemma mem_orderOf : i ∈ orderOf T entries ↔ i < entries.length := by
  rw [orderOf, mem_mergeSort, mem_range]

lemma mem_runOf : j ∈ runOf T entries i ↔
    j < entries.length ∧ keyAt T entries j = keyAt T entries i := by
  rw [runOf, mem_filter, mem_orderOf, decide_eq_true_eq]

lemma nodup_runOf (i : ℕ) : (runOf T entries i).Nodup :=
  ((mergeSort_perm _ _).nodup_iff.2 nodup_range).filter _

lemma SharesKey.symm (h : SharesKey T entries i j) : SharesKey T entries j i := by
  obtain ⟨hi, hj, hkey, k, hk, hki⟩ := h
  exact ⟨hj, hi, hkey.symm, k, hk, hki.trans hkey⟩

lemma IsFile.sharesKey (h : IsFile entries i) (hj : j < entries.length)
    (hkey : keyAt T entries i = keyAt T entries j) : SharesKey T entries i j :=
  ⟨h.1, hj, hkey, i, h, rfl⟩

abbrev fileOf (T : Tables) (entries : List Entry) (i : ℕ) : Option ℕ :=
  (runOf T entries i).find? fun j => (entryAt entries j).kind = .File

variable {file : ℕ}

lemma fileOf_eq_some (h : fileOf T entries i = some file) :
    IsFile entries file ∧ keyAt T entries file = keyAt T entries i := by
  have hmem := mem_runOf.1 (mem_of_find?_eq_some h)
  have hfile := List.find?_some h
  rw [decide_eq_true_eq] at hfile
  exact ⟨⟨hmem.1, hfile⟩, hmem.2⟩

lemma exists_fileOf {k : ℕ} (hk : IsFile entries k) (hkey : keyAt T entries k = keyAt T entries i) :
    ∃ file, fileOf T entries i = some file := by
  rw [← Option.isSome_iff_exists, List.find?_isSome]
  exact ⟨k, mem_runOf.2 ⟨hk.1, hkey⟩, by simpa using hk.2⟩

/-- The files that have what is below their keys joined to them. -/
def filesOf (T : Tables) (entries : List Entry) : List ℕ :=
  (runs (keyAt T entries) (orderOf T entries)).flatMap fun run =>
    (run.find? fun i => (entryAt entries i).kind = .File).toList

def pairsOf (T : Tables) (entries : List Entry) : List (ℕ × ℕ) :=
  (runs (keyAt T entries) (orderOf T entries)).flatMap (runPairs (entryAt entries)) ++
    (filesOf T entries).flatMap fun file =>
      (Joins.belowOf (keyAt T entries) (orderOf T entries) file).map fun i => (file, i)

def marksOf (T : Tables) (entries : List Entry) : List (ℕ × Flags) :=
  (runs (keyAt T entries) (orderOf T entries)).flatMap (runMarks (entryAt entries)) ++
    (filesOf T entries).flatMap (belowMarks (keyAt T entries) (orderOf T entries))

lemma made_joinAll (T : Tables) (entries : List Entry) :
    Made (joinAll T entries) (pairsOf T entries) (marksOf T entries) (filesOf T entries) := by
  have hstart : Made ⟨.single, fun _ => .none, []⟩ [] [] [] := ⟨rfl, rfl, rfl⟩
  have hfirst := hstart.foldl_joinRun (entryAt entries)
    (runs (keyAt T entries) (orderOf T entries))
  rw [nil_append, nil_append, nil_append] at hfirst
  have hsecond := hfirst.foldl_joinBelow (keyAt T entries) (orderOf T entries) (filesOf T entries)
  have hfiles := hfirst.fileKeys
  show Made (foldl _ _ (Joins.fileKeys _)) _ _ _
  rw [hfiles]
  exact hsecond

lemma mem_runs_orderOf {run : List ℕ} : run ∈ runs (keyAt T entries) (orderOf T entries) ↔
    ∃ i < entries.length, run = runOf T entries i := by
  rw [mem_runs (sorted_order _)]
  simp only [mem_orderOf]

lemma mem_filesOf :
    file ∈ filesOf T entries ↔ ∃ i < entries.length, fileOf T entries i = some file := by
  simp only [filesOf, mem_flatMap, mem_runs_orderOf, Option.mem_toList]
  constructor
  · rintro ⟨run, ⟨i, hi, rfl⟩, h⟩
    exact ⟨i, hi, h⟩
  · rintro ⟨i, hi, h⟩
    exact ⟨_, ⟨i, hi, rfl⟩, h⟩

lemma mem_below_iff : i ∈ Joins.belowOf (keyAt T entries) (orderOf T entries) file ↔
      i < entries.length ∧ (keyAt T entries file ++ ['/']) <+: keyAt T entries i := by
  rw [mem_belowOf (sorted_order _), mem_orderOf]

lemma mem_pairsOf : (file, j) ∈ pairsOf T entries ↔
    (∃ i < entries.length, fileOf T entries i = some file ∧ 1 < (runOf T entries i).length ∧
      j ∈ runOf T entries i) ∨
    ∃ i < entries.length, fileOf T entries i = some file ∧ Below T entries file j := by
  rw [pairsOf, mem_append]
  refine or_congr ?_ ?_
  · simp only [mem_flatMap, mem_runs_orderOf, mem_runPairs]
    constructor
    · rintro ⟨run, ⟨i, hi, rfl⟩, h⟩
      exact ⟨i, hi, h⟩
    · rintro ⟨i, hi, h⟩
      exact ⟨_, ⟨i, hi, rfl⟩, h⟩
  · simp only [mem_flatMap, mem_filesOf, mem_map, mem_below_iff]
    constructor
    · rintro ⟨f, ⟨i, hi, hf⟩, k, hk, hpair⟩
      cases hpair
      exact ⟨i, hi, hf, (fileOf_eq_some hf).1, hk⟩
    · rintro ⟨i, hi, hf, -, hbelow⟩
      exact ⟨file, ⟨i, hi, hf⟩, j, hbelow, rfl⟩

variable {α : Type} {l : List α}

lemma one_lt_length {a b : α} (ha : a ∈ l) (hb : b ∈ l) (h : a ≠ b) : 1 < l.length := by
  rcases l with - | ⟨c, - | ⟨d, l⟩⟩
  · cases ha
  · rw [mem_singleton] at ha hb
    exact absurd (ha.trans hb.symm) h
  · simp

lemma joined_of_sharesKey (h : SharesKey T entries i j) :
    UnionFind.Joined (pairsOf T entries) i j := by
  obtain ⟨hi, hj, hkey, k, hk, hki⟩ := h
  by_cases hij : i = j
  · rw [hij]
    exact .refl _
  · obtain ⟨file, hfile⟩ := exists_fileOf hk hki
    have hmemi : i ∈ runOf T entries i := mem_runOf.2 ⟨hi, rfl⟩
    have hmemj : j ∈ runOf T entries i := mem_runOf.2 ⟨hj, hkey.symm⟩
    have hlen := one_lt_length hmemi hmemj hij
    have hjoin : ∀ a ∈ runOf T entries i, UnionFind.Joined (pairsOf T entries) file a :=
      fun a ha => UnionFind.joined_of_mem (mem_pairsOf.2 (.inl ⟨i, hi, hfile, hlen, ha⟩))
    exact .trans _ _ _ (.symm _ _ (hjoin i hmemi)) (hjoin j hmemj)

lemma joined_of_below (h : Below T entries i j) : UnionFind.Joined (pairsOf T entries) i j := by
  obtain ⟨hi, hj, hkey⟩ := h
  obtain ⟨file, hfile⟩ := exists_fileOf (i := i) hi rfl
  obtain ⟨hisFile, hsame⟩ := fileOf_eq_some hfile
  have hbelow : Below T entries file j := ⟨hisFile, hj, by rwa [hsame]⟩
  exact .trans _ _ _ (joined_of_sharesKey (hi.sharesKey hisFile.1 hsame.symm))
    (UnionFind.joined_of_mem (mem_pairsOf.2 (.inr ⟨i, hi.1, hfile, hbelow⟩)))

lemma joined_iff : UnionFind.Joined (pairsOf T entries) i j ↔ Connected T entries i j := by
  constructor
  · intro h
    induction h with
    | rel a b hab =>
      rcases mem_pairsOf.1 hab with ⟨k, hk, hfile, -, hb⟩ | ⟨k, hk, hfile, hbelow⟩
      · obtain ⟨hisFile, hsame⟩ := fileOf_eq_some hfile
        obtain ⟨hb, hkey⟩ := mem_runOf.1 hb
        exact .rel _ _ (.inl (hisFile.sharesKey hb (hsame.trans hkey.symm)))
      · exact .rel _ _ (.inr (.inl hbelow))
    | refl a => exact .refl a
    | symm a b _ ih => exact .symm _ _ ih
    | trans a b c _ _ ih ih' => exact .trans _ _ _ ih ih'
  · intro h
    induction h with
    | rel a b hab =>
      rcases hab with hab | hab | hab
      · exact joined_of_sharesKey hab
      · exact joined_of_below hab
      · exact .symm _ _ (joined_of_below hab)
    | refl a => exact .refl a
    | symm a b _ ih => exact .symm _ _ ih
    | trans a b c _ _ ih ih' => exact .trans _ _ _ ih ih'

theorem root_joinAll : (joinAll T entries).parent.root i = (joinAll T entries).parent.root j ↔
    Connected T entries i j := by
  rw [(made_joinAll T entries).parent, UnionFind.root_eq_root_iff, joined_iff]

/-! ### How they collide -/

lemma flagsOf_iff {b : Flags → Bool} (hnone : b .none = false)
    (hor : ∀ f g, b (f.or g) = (b f || b g)) {marks : List (ℕ × Flags)} :
    b (flagsOf marks i) = true ↔ ∃ f, (i, f) ∈ marks ∧ b f = true := by
  induction marks using reverseRecOn with
  | nil => simp [flagsOf, hnone]
  | append_singleton marks m ih =>
    obtain ⟨j, g⟩ := m
    rw [flagsOf_append_singleton]
    by_cases h : i = j
    · subst h
      rw [Function.update_self, hor, Bool.or_eq_true, ih]
      simp [or_and_right, exists_or]
    · rw [Function.update_of_ne h, ih]
      simp [h]

lemma mem_marksOf {f : Flags} : (j, f) ∈ marksOf T entries ↔
    (∃ i < entries.length, (∃ file, fileOf T entries i = some file) ∧
      1 < (runOf T entries i).length ∧ j ∈ runOf T entries i ∧
      f = Joins.runFlags (entryAt entries) (runOf T entries i)) ∨
    ∃ i < entries.length, ∃ file, fileOf T entries i = some file ∧ f = ⟨false, false, true⟩ ∧
      (j = file ∧ (∃ k, Below T entries file k) ∨ Below T entries file j) := by
  rw [marksOf, mem_append]
  refine or_congr ?_ ?_
  · simp only [mem_flatMap, mem_runs_orderOf, mem_runMarks]
    constructor
    · rintro ⟨run, ⟨i, hi, rfl⟩, h⟩
      exact ⟨i, hi, h⟩
    · rintro ⟨i, hi, h⟩
      exact ⟨_, ⟨i, hi, rfl⟩, h⟩
  · simp only [mem_flatMap, mem_filesOf, mem_belowMarks, mem_below_iff]
    constructor
    · rintro ⟨file, ⟨i, hi, hf⟩, rfl, h⟩
      have hfile := (fileOf_eq_some hf).1
      refine ⟨i, hi, file, hf, rfl, ?_⟩
      rcases h with ⟨rfl, k, hk⟩ | h
      · exact .inl ⟨rfl, k, hfile, hk⟩
      · exact .inr ⟨hfile, h⟩
    · rintro ⟨i, hi, file, hf, rfl, h⟩
      refine ⟨file, ⟨i, hi, hf⟩, rfl, ?_⟩
      rcases h with ⟨rfl, k, -, hk⟩ | ⟨-, h⟩
      · exact .inl ⟨rfl, k, hk⟩
      · exact .inr h

lemma dedup_lt_iff {β : Type} [DecidableEq β] (h : l.Nodup) (f : α → β) :
    (l.map f).dedup.length < l.length ↔ ∃ a ∈ l, ∃ b ∈ l, a ≠ b ∧ f a = f b := by
  have hlen : (l.map f).dedup.length < l.length ↔ ¬ (l.map f).Nodup := by
    rw [← dedup_eq_self, ← length_map f]
    have hsub := dedup_sublist (l.map f)
    constructor
    · intro hlt heq
      rw [heq] at hlt
      exact lt_irrefl _ hlt
    · exact fun hne => lt_of_le_of_ne hsub.length_le fun heq => hne (hsub.eq_of_length heq)
  rw [hlen, nodup_map_iff_inj_on h]
  push Not
  constructor
  · rintro ⟨a, ha, b, hb, hab, hne⟩
    exact ⟨a, ha, b, hb, hne, hab⟩
  · rintro ⟨a, ha, b, hb, hne, hab⟩
    exact ⟨a, ha, b, hb, hab, hne⟩

lemma one_lt_dedup_iff {β : Type} [DecidableEq β] (f : α → β) :
    1 < (l.map f).dedup.length ↔ ∃ a ∈ l, ∃ b ∈ l, f a ≠ f b := by
  constructor
  · intro h
    have hnodup := nodup_dedup (l.map f)
    have hmem : ∀ x ∈ (l.map f).dedup, ∃ a ∈ l, f a = x := fun x hx =>
      mem_map.1 (mem_dedup.1 hx)
    rcases hd : (l.map f).dedup with - | ⟨x, - | ⟨y, rest⟩⟩
    · simp [hd] at h
    · simp [hd] at h
    · rw [hd] at hnodup hmem
      obtain ⟨a, ha, rfl⟩ := hmem x (by simp)
      obtain ⟨b, hb, rfl⟩ := hmem y (by simp)
      refine ⟨a, ha, b, hb, fun hab => ?_⟩
      simp [hab] at hnodup
  · rintro ⟨a, ha, b, hb, hab⟩
    exact one_lt_length (mem_dedup.2 (mem_map_of_mem ha))
      (mem_dedup.2 (mem_map_of_mem hb)) hab

lemma sharesKey_of_mem {a b : ℕ} (hfile : ∃ file, fileOf T entries a = some file)
    (hi : i ∈ runOf T entries a) (hb : b ∈ runOf T entries a) : SharesKey T entries i b := by
  obtain ⟨file, hfile⟩ := hfile
  obtain ⟨hisFile, hkey⟩ := fileOf_eq_some hfile
  obtain ⟨hi, hik⟩ := mem_runOf.1 hi
  obtain ⟨hb, hbk⟩ := mem_runOf.1 hb
  exact ⟨hi, hb, hik.trans hbk.symm, file, hisFile, hkey.trans hik.symm⟩

lemma mem_runOf_of_sharesKey (h : SharesKey T entries i j) :
    (∃ file, fileOf T entries i = some file) ∧ i ∈ runOf T entries i ∧ j ∈ runOf T entries i := by
  obtain ⟨hi, hj, hkey, k, hk, hki⟩ := h
  exact ⟨exists_fileOf hk hki, mem_runOf.2 ⟨hi, rfl⟩, mem_runOf.2 ⟨hj, hkey.symm⟩⟩

lemma runFlag_joinAll {b : Flags → Bool} {P : ℕ → ℕ → Prop} (hnone : b .none = false)
    (hor : ∀ f g, b (f.or g) = (b f || b g)) (hother : b ⟨false, false, true⟩ = false)
    (hrun : ∀ l : List ℕ, l.Nodup → (b (Joins.runFlags (entryAt entries) l) = true ↔
      ∃ j ∈ l, ∃ k ∈ l, P j k)) (hne : ∀ j k, P j k → j ≠ k) :
    b ((joinAll T entries).flags i) = true ↔
      ∃ j k, SharesKey T entries i j ∧ SharesKey T entries i k ∧ P j k := by
  rw [(made_joinAll T entries).flags, flagsOf_iff hnone hor]
  constructor
  · rintro ⟨f, hmem, hf⟩
    rcases mem_marksOf.1 hmem with ⟨a, ha, hfile, -, hi, rfl⟩ | ⟨a, -, file, -, rfl, -⟩
    · obtain ⟨j, hj, k, hk, h⟩ := (hrun _ (nodup_runOf a)).1 hf
      exact ⟨j, k, sharesKey_of_mem hfile hi hj, sharesKey_of_mem hfile hi hk, h⟩
    · cases hother.symm.trans hf
  · rintro ⟨j, k, hij, hik, h⟩
    obtain ⟨hfile, hi, hj⟩ := mem_runOf_of_sharesKey hij
    obtain ⟨-, -, hk⟩ := mem_runOf_of_sharesKey hik
    exact ⟨_, mem_marksOf.2 (.inl ⟨i, hij.1, hfile, one_lt_length hj hk (hne j k h), hi, rfl⟩),
      (hrun _ (nodup_runOf i)).2 ⟨j, hj, k, hk, h⟩⟩

theorem duplicate_joinAll : ((joinAll T entries).flags i).duplicate = true ↔
    ∃ j k, SharesKey T entries i j ∧ SharesKey T entries i k ∧ j ≠ k ∧
      (entryAt entries j).name = (entryAt entries k).name :=
  runFlag_joinAll (b := (·.duplicate)) rfl (fun _ _ => rfl) rfl
    (fun l hl => by rw [Joins.runFlags, decide_eq_true_eq, dedup_lt_iff hl]) fun _ _ h => h.1

theorem alias_joinAll : ((joinAll T entries).flags i).alias_ = true ↔
    ∃ j k, SharesKey T entries i j ∧ SharesKey T entries i k ∧
      (entryAt entries j).name ≠ (entryAt entries k).name :=
  runFlag_joinAll (b := (·.alias_)) rfl (fun _ _ => rfl) rfl
    (fun l _ => by rw [Joins.runFlags, decide_eq_true_eq, gt_iff_lt, one_lt_dedup_iff])
    fun j k h hjk => h (by rw [hjk])

/-- An entry that has the flag of a file and a directory is connected with a file that is in the
place of another entry. -/
theorem inPlaceOf_of_fileDirectory (h : ((joinAll T entries).flags i).fileDirectory = true) :
    ∃ file j, InPlaceOf T entries file j ∧ Connected T entries i file ∧
    Connected T entries i j := by
  rw [(made_joinAll T entries).flags, flagsOf_iff (b := (·.fileDirectory)) rfl fun _ _ => rfl] at h
  obtain ⟨f, hmem, hf⟩ := h
  rcases mem_marksOf.1 hmem with ⟨a, ha, hfile, -, hi, rfl⟩ | ⟨a, -, file, -, -, hbelow⟩
  · rw [Joins.runFlags, any_eq_true] at hf
    obtain ⟨j, hj, hdir⟩ := hf
    rw [decide_eq_true_eq] at hdir
    obtain ⟨file, hfileOf⟩ := hfile
    obtain ⟨hisFile, hkey⟩ := fileOf_eq_some hfileOf
    have hfilemem : file ∈ runOf T entries a := mem_runOf.2 ⟨hisFile.1, hkey⟩
    refine ⟨file, j, .inl ⟨hisFile, sharesKey_of_mem ⟨file, hfileOf⟩ hfilemem hj, hdir⟩, ?_, ?_⟩
    · exact .rel _ _ (.inl (sharesKey_of_mem ⟨file, hfileOf⟩ hi hfilemem))
    · exact .rel _ _ (.inl (sharesKey_of_mem ⟨file, hfileOf⟩ hi hj))
  · rcases hbelow with ⟨rfl, k, hk⟩ | hbelow
    · exact ⟨i, k, .inr hk, .refl _, .rel _ _ (.inr (.inl hk))⟩
    · exact ⟨file, i, .inr hbelow, .rel _ _ (.inr (.inr hbelow)), .refl _⟩

theorem fileDirectory_of_inPlaceOf (h : InPlaceOf T entries file i) :
    ((joinAll T entries).flags i).fileDirectory = true := by
  rw [(made_joinAll T entries).flags, flagsOf_iff (b := (·.fileDirectory)) rfl fun _ _ => rfl]
  rcases h with ⟨hisFile, hshares, hdir⟩ | ⟨hisFile, hi, hkey⟩
  · obtain ⟨hfile, hfilemem, hi⟩ := mem_runOf_of_sharesKey hshares
    have hne : file ≠ i := by
      rintro rfl
      rw [hisFile.2] at hdir
      cases hdir
    refine ⟨_, mem_marksOf.2 (.inl ⟨file, hisFile.1, hfile, one_lt_length hfilemem hi hne, hi,
      rfl⟩), ?_⟩
    rw [Joins.runFlags, any_eq_true]
    exact ⟨i, hi, decide_eq_true hdir⟩
  · obtain ⟨f, hf⟩ := exists_fileOf (i := file) hisFile rfl
    obtain ⟨hfisFile, hsame⟩ := fileOf_eq_some hf
    exact ⟨_, mem_marksOf.2 (.inr ⟨file, hisFile.1, f, hf, rfl,
      .inr ⟨hfisFile, hi, by rwa [hsame]⟩⟩), rfl⟩

end Colliding

end Lazaret.Archive.Extract
