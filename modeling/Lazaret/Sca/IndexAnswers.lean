import Lazaret.Sca.IndexFile
import Lazaret.Sca.KeyOrder

/-!
# Lookups in a written file

A document and the file that `dumpIndex` wrote of it (`Indexed`).  The file opens where a reader
accepts its counts, its warnings and its metadata; an advisory is read back where its record nests
no deeper than the bound; and a lookup gives what one in the document does exactly where the
advisories that it names are read (`Indexed.readAdvisoriesFor_iff`).
-/

namespace Lazaret.Sca

open List

variable {U : Unicode} {M : Machine}

/-! ## The metadata -/

variable {h : BundleHeader}

lemma bundleHeader_eq_ok {doc : Json} (hh : bundleHeader doc = .ok h) :
    (h.advisories = [] ∧ (∀ l, doc.get? "advisories" ≠ some (.list l)) ∨
        doc.get? "advisories" = some (.list h.advisories)) ∧
      h.counts = (Json.dict? (doc.get? "counts")).getD (.dict []) := by
  rw [bundleHeader] at hh
  split at hh
  · cases hh
  · dsimp only at hh
    split at hh
    · cases hh
    · rename_i l hl
      cases hh
      refine ⟨?_, rfl⟩
      split at hl
      · rename_i hget
        cases hl
        exact .inl ⟨rfl, fun l h => by rw [hget] at h; cases h⟩
      · rename_i hget
        cases hl
        exact .inl ⟨rfl, fun l h => by rw [hget] at h; cases h⟩
      · rename_i l' hget
        cases hl
        exact .inr hget
      · cases hl

lemma counts_cases {doc : Json} (hh : bundleHeader doc = .ok h) :
    h.counts = .dict [] ∨ (∃ m, h.counts = .dict m) ∧ doc.get? "counts" = some h.counts := by
  rw [(bundleHeader_eq_ok hh).2]
  cases hget : doc.get? "counts" with
  | none => exact .inl rfl
  | some v =>
    cases v with
    | dict m => exact .inr ⟨⟨m, rfl⟩, rfl⟩
    | null | bool _ | number _ | text _ | list _ => exact .inl rfl

lemma exists_counts {doc : Json} (hh : bundleHeader doc = .ok h) : ∃ m, h.counts = .dict m := by
  obtain hempty | ⟨hdict, -⟩ := counts_cases hh
  · exact ⟨[], hempty⟩
  · exact hdict

lemma distinct_counts {doc : Json} (hdoc : doc.Distinct)
    (hh : bundleHeader doc = .ok h) : h.counts.Distinct := by
  obtain hempty | ⟨-, hget⟩ := counts_cases hh
  · rw [hempty]
    exact ⟨nodup_nil, trivial⟩
  · exact Json.distinct_get? hdoc hget

lemma nodup_warningCounts (ws : List String) : ((warningCounts ws).map Prod.fst).Nodup := by
  have hmap : Prod.fst ∘ (fun w : String => (w.toList, ws.count w)) = String.toList := rfl
  rw [warningCounts, map_map, hmap]
  exact (nodup_dedup ws).map fun s t h => String.toList_inj.1 h

lemma pos_of_mem_warningCounts {ws : List String} {w : Text × ℕ} (hw : w ∈ warningCounts ws) :
    0 < w.2 := by
  obtain ⟨s, hs, rfl⟩ := mem_map.1 hw
  exact count_pos_iff.2 (List.mem_dedup.1 hs)

lemma distinct_metadata {doc : Json} (hdoc : doc.Distinct)
    (hh : bundleHeader doc = .ok h) (ws : List String) (advisories keys postings : ℕ) :
    (withCounts (metadataOf doc h (warningCounts ws)) advisories keys postings).Distinct := by
  have hgen : ((h.generatedAt.map Json.text).getD .null).Distinct := by
    cases h.generatedAt <;> trivial
  have hsources : (Json.list (h.sources.map .text)).Distinct := by
    rw [Json.Distinct, Json.distinctItems_iff]
    intro v hv
    obtain ⟨t, -, rfl⟩ := mem_map.1 hv
    trivial
  have hwarnings : (Json.dict ((warningCounts ws).map fun w => (w.1, natJson w.2))).Distinct := by
    rw [Json.Distinct, Json.distinctMembers_iff, map_map]
    refine ⟨nodup_warningCounts ws, ?_⟩
    intro e he
    obtain ⟨w, -, rfl⟩ := mem_map.1 he
    trivial
  have hextra : (dictOf (EXTRA.filterMap fun k => (doc.get? k).map fun v => (k, v))).Distinct := by
    apply distinct_dictOf
    · have hsub : ((EXTRA.filterMap fun k => (doc.get? k).map fun v => (k, v)).map
          Prod.fst).Sublist EXTRA := by
        rw [map_filterMap]
        have hfilter : (fun k => ((doc.get? k).map fun v => (k, v)).map Prod.fst) =
            Option.guard fun k => (doc.get? k).isSome := by
          funext k
          cases hk : doc.get? k <;> simp [Option.guard, hk]
        rw [hfilter, filterMap_eq_filter]
        exact filter_sublist
      exact hsub.nodup (by decide)
    · intro m hm
      obtain ⟨k, -, hk⟩ := mem_filterMap.1 hm
      obtain ⟨v, hv, rfl⟩ := Option.map_eq_some_iff.1 hk
      exact Json.distinct_get? hdoc hv
  have hkeys : ["bundleVersion", "generatedAt", "sources", "counts", "warnings", "extra", "format",
      "advisories", "keys", "postings"].Nodup := by decide
  apply distinct_dictOf
  · exact hkeys
  · intro m hm
    simp only [metadataOf, cons_append, nil_append, mem_cons, not_mem_nil, or_false] at hm
    obtain rfl | rfl | rfl | rfl | rfl | rfl | rfl | rfl | rfl | rfl := hm
    · trivial
    · exact hgen
    · exact hsources
    · exact distinct_counts hdoc hh
    · exact hwarnings
    · exact hextra
    · trivial
    · trivial
    · trivial
    · trivial

lemma mapM_warningOf (ws : List String) :
    (∀ w ∈ warningCounts ws, w.2 < 2 ^ 40) ∧
        ((Json.sortedMembers ((warningCounts ws).map fun w => (w.1, natJson w.2))).insertionSort
          fun a b => a.1 ≤ b.1).mapM IndexedBundle.warningOf =
        some ((warningCounts ws).insertionSort fun a b => a.1 ≤ b.1) ∨
      (∃ w ∈ warningCounts ws, ¬ w.2 < 2 ^ 40) ∧
        ((Json.sortedMembers ((warningCounts ws).map fun w => (w.1, natJson w.2))).insertionSort
          fun a b => a.1 ≤ b.1).mapM IndexedBundle.warningOf = none := by
  have hmembers : (Json.sortedMembers
        ((warningCounts ws).map fun w => (w.1, natJson w.2))).insertionSort (fun a b => a.1 ≤ b.1) =
      ((warningCounts ws).insertionSort fun a b => a.1 ≤ b.1).map fun w => (w.1, natJson w.2) := by
    rw [Json.sortedMembers_eq, map_map]
    exact (map_insertionSort (fun a b : Text × ℕ => a.1 ≤ b.1)
      (fun a b : Text × Json => a.1 ≤ b.1) (fun w => (w.1, natJson w.2)) (warningCounts ws)
      fun _ _ _ _ => Iff.rfl).symm
  have hread : ∀ w ∈ warningCounts ws, IndexedBundle.warningOf (w.1, natJson w.2) =
      if w.2 < 2 ^ 40 then some w else none := by
    intro w hw
    rw [IndexedBundle.warningOf, natOf_natJson]
    dsimp only
    by_cases hlt : w.2 < 2 ^ 40
    · rw [if_pos ⟨pos_of_mem_warningCounts hw, hlt⟩, if_pos hlt]
    · rw [if_neg fun h => hlt h.2, if_neg hlt]
  have hperm := perm_insertionSort (fun a b : Text × ℕ => a.1 ≤ b.1) (warningCounts ws)
  rw [hmembers]
  by_cases hall : ∀ w ∈ warningCounts ws, w.2 < 2 ^ 40
  · refine .inl ⟨hall, ?_⟩
    rw [option_mapM_eq_some, forall₂_map_left_iff, forall₂_same]
    intro w hw
    rw [hperm.mem_iff] at hw
    rw [hread w hw, if_pos (hall w hw)]
  · obtain ⟨w, hnot⟩ := not_forall.1 hall
    obtain ⟨hw, hle⟩ := Classical.not_imp.1 hnot
    refine .inr ⟨⟨w, hw, hle⟩, ?_⟩
    cases hm : (((warningCounts ws).insertionSort fun a b => a.1 ≤ b.1).map fun w =>
        (w.1, natJson w.2)).mapM IndexedBundle.warningOf with
    | none => rfl
    | some ys =>
      rw [option_mapM_eq_some, forall₂_map_left_iff] at hm
      obtain ⟨i, hi⟩ := mem_iff_getElem?.1 (hperm.mem_iff.2 hw)
      obtain ⟨y, -, hy⟩ := forall₂_getElem? hm hi
      rw [hread w hw, if_neg hle] at hy
      cases hy

lemma takeMeta_eq_ok {doc : Json} (hdoc : doc.Distinct)
    (hh : bundleHeader doc = .ok h) (ws : List String) {head : Header} {info : BundleInfo} :
    IndexedBundle.takeMeta head (withCounts (metadataOf doc h (warningCounts ws)) head.advisories
        head.keys head.postings).sorted = .ok info ↔
      (∀ w ∈ warningCounts ws, w.2 < 2 ^ 40) ∧
        info = ⟨h.generatedAt, h.sources, h.counts.sorted,
          (warningCounts ws).insertionSort fun a b => a.1 ≤ b.1⟩ := by
  have hdistinct := distinct_metadata hdoc hh ws head.advisories head.keys head.postings
  have hget : ∀ key, (withCounts (metadataOf doc h (warningCounts ws)) head.advisories head.keys
      head.postings).sorted.get? key = ((withCounts (metadataOf doc h (warningCounts ws))
        head.advisories head.keys head.postings).get? key).map Json.sorted :=
    fun key => Json.get?_sorted hdistinct key
  have hdict : (Json.dict? (some (withCounts (metadataOf doc h (warningCounts ws)) head.advisories
      head.keys head.postings).sorted)).isNone = false := rfl
  obtain ⟨m, hm⟩ := exists_counts hh
  have hsources : (Json.sortedItems (h.sources.map Json.text)).mapM (fun s => Json.text? (some s)) =
      some h.sources := by
    rw [Json.sortedItems_eq, map_map, option_mapM_eq_some, forall₂_map_left_iff, forall₂_same]
    exact fun _ _ => rfl
  rw [IndexedBundle.takeMeta]
  simp only [hget, hdict]
  simp only [withCounts, metadataOf, get?_dictOf, cons_append, nil_append,
    List.find?_cons, String.reduceEq, decide_false, decide_true, Option.map_some, sorted_natJson,
    eqNat_natJson, Bool.true_eq_false, Bool.false_eq_true, or_self, if_false]
  obtain ⟨hlt, hread⟩ | ⟨⟨w, hw, hle⟩, hread⟩ := mapM_warningOf ws
  · have hidem := Pairwise.insertionSort_eq
      (pairwise_insertionSort (fun a b : Text × ℕ => a.1 ≤ b.1) (warningCounts ws))
    simp only [Json.sorted, hsources, hread, hm, Json.dict?]
    cases h.generatedAt with
    | none =>
      simp only [Option.map_none, Option.getD_none, Json.sorted, hidem, Except.ok.injEq]
      exact ⟨fun h => ⟨hlt, h.symm⟩, fun h => h.2.symm⟩
    | some t =>
      simp only [Option.map_some, Option.getD_some, Json.sorted, hidem, Except.ok.injEq]
      exact ⟨fun h => ⟨hlt, h.symm⟩, fun h => h.2.symm⟩
  · simp only [Json.sorted, hsources, hread, hm, Json.dict?]
    constructor
    · cases h.generatedAt <;> exact fun h => by cases h
    · rintro ⟨hlt, -⟩
      exact absurd (hlt w hw) hle

/-- What the metadata keeps of a document nests no deeper than a reader accepts: its counts are set
one level deeper there, and the fields that are only kept two. -/
def MetadataAccepted (doc : Json) : Prop :=
  (∀ m, doc.get? "counts" = some (.dict m) → (Json.dict m).depth + 1 ≤ MAX_MANIFEST_DEPTH) ∧
    ∀ k ∈ EXTRA, ∀ v, doc.get? k = some v → v.depth + 2 ≤ MAX_MANIFEST_DEPTH

lemma depth_dictOf_le {l : List (String × Json)} {n : ℕ} :
    (dictOf l).depth ≤ n + 1 ↔ ∀ m ∈ l, m.2.depth ≤ n := by
  rw [dictOf, Json.depth, add_le_add_iff_right, Json.depthMembers_eq, Json.depthItems_le, map_map]
  constructor
  · exact fun h m hm => h m.2 (mem_map.2 ⟨m, hm, rfl⟩)
  · intro h v hv
    obtain ⟨m, hm, rfl⟩ := mem_map.1 hv
    exact h m hm

lemma depth_metadata_le {doc : Json} (hh : bundleHeader doc = .ok h)
    (warnings : List (Text × ℕ)) (advisories keys postings : ℕ) :
    (withCounts (metadataOf doc h warnings) advisories keys postings).depth ≤ MAX_MANIFEST_DEPTH ↔
      MetadataAccepted doc := by
  have hleaf : ∀ l : List Json, (∀ v ∈ l, v.depth = 0) → Json.depthItems l = 0 := by
    intro l hl
    exact Nat.le_zero.1 (Json.depthItems_le.2 fun v hv => (hl v hv).le)
  have hgen : ((h.generatedAt.map Json.text).getD .null).depth = 0 := by
    cases h.generatedAt <;> rfl
  have hsources : (Json.list (h.sources.map .text)).depth = 1 := by
    rw [Json.depth, hleaf]
    intro v hv
    obtain ⟨t, -, rfl⟩ := mem_map.1 hv
    rfl
  have hwarnings : (Json.dict (warnings.map fun w => (w.1, natJson w.2))).depth = 1 := by
    rw [Json.depth, Json.depthMembers_eq, hleaf]
    intro v hv
    rw [map_map] at hv
    obtain ⟨w, -, rfl⟩ := mem_map.1 hv
    rfl
  have hnat : ∀ n, (natJson n).depth = 0 := fun _ => rfl
  have hcounts : h.counts.depth ≤ 499 ↔
      ∀ m, doc.get? "counts" = some (.dict m) → (Json.dict m).depth + 1 ≤ MAX_MANIFEST_DEPTH := by
    obtain ⟨-, hc⟩ := bundleHeader_eq_ok hh
    rw [hc]
    cases hget : doc.get? "counts" with
    | none => simp [Json.dict?, Json.depth, Json.depthMembers]
    | some v =>
      cases v with
      | dict m =>
        simp only [Json.dict?, Option.getD_some, Option.some.injEq, Json.dict.injEq,
          forall_eq', MAX_MANIFEST_DEPTH]
        omega
      | null | bool _ | number _ | text _ | list _ =>
        simp [Json.dict?, Json.depth, Json.depthMembers]
  have hextra : (dictOf (EXTRA.filterMap fun k => (doc.get? k).map fun v => (k, v))).depth ≤ 499 ↔
      ∀ k ∈ EXTRA, ∀ v, doc.get? k = some v → v.depth + 2 ≤ MAX_MANIFEST_DEPTH := by
    rw [depth_dictOf_le]
    constructor
    · intro hall k hk v hv
      have hmem : (k, v) ∈ EXTRA.filterMap fun k => (doc.get? k).map fun v => (k, v) :=
        mem_filterMap.2 ⟨k, hk, by rw [hv, Option.map_some]⟩
      have hle : v.depth ≤ 498 := hall _ hmem
      rw [MAX_MANIFEST_DEPTH]
      omega
    · intro hall m hm
      obtain ⟨k, hk, hkv⟩ := mem_filterMap.1 hm
      obtain ⟨v, hv, rfl⟩ := Option.map_eq_some_iff.1 hkv
      have hle : v.depth + 2 ≤ 500 := hall k hk v hv
      exact Nat.le_sub_of_add_le hle
  rw [withCounts, MAX_MANIFEST_DEPTH, depth_dictOf_le, MetadataAccepted, ← hcounts, ← hextra]
  simp only [metadataOf, cons_append, nil_append, forall_mem_cons, hgen, hsources, hwarnings, hnat]
  simp

/-! ## Where package entries are -/

/-- The package entries of a bundle in order, each with its advisory's number and its own. -/
def locations (advs : List Advisory) : List (ℕ × ℕ × PackageEntry) :=
  advs.zipIdx.flatMap fun a => a.1.packages.zipIdx.map fun p => (a.2, p.2, p.1)

/-- Package entries with their numbers, filed under their keys from a place on. -/
def filed (U : Unicode) (order n : ℕ) (ps : List (PackageEntry × ℕ)) :
    List (Text × Unit × List Posting) :=
  (ps.zipIdx order).flatMap fun q => (keysOfPackage U q.1.1).map fun key =>
    (key, (), [(q.2, n, q.1.2)])

def filings (U : Unicode) (advs : List Advisory) : List (Text × Unit × List Posting) :=
  (locations advs).zipIdx.flatMap fun l => (keysOfPackage U l.1.2.2).map fun key =>
    (key, (), [(l.2, l.1.1, l.1.2.1)])

lemma locations_concat (advs : List Advisory) (adv : Advisory) :
    locations (advs ++ [adv]) =
      locations advs ++ adv.packages.zipIdx.map fun p => (advs.length, p.2, p.1) := by
  rw [locations, zipIdx_append, flatMap_append]
  simp [locations]

lemma filings_concat (advs : List Advisory) (adv : Advisory) :
    filings U (advs ++ [adv]) =
      filings U advs ++ filed U (locations advs).length advs.length adv.packages.zipIdx := by
  rw [filings, locations_concat, zipIdx_append, flatMap_append, zero_add, zipIdx_map, flatMap_map]
  rfl

lemma pairsOf_getElem? (advs : List Advisory) :
    Forall₂ (fun l p => advs[l.1]? = some p.1 ∧ p.1.packages[l.2.1]? = some p.2 ∧ l.2.2 = p.2)
      (locations advs) (pairsOf advs) := by
  induction advs using reverseRecOn with
  | nil => exact .nil
  | append_singleton advs adv ih =>
    have hpairs : pairsOf (advs ++ [adv]) =
        pairsOf advs ++ adv.packages.map fun pkg => (adv, pkg) := by
      rw [pairsOf, flatMap_append]
      simp [pairsOf]
    rw [locations_concat, hpairs]
    apply rel_append
    · refine ih.imp fun l p h => ⟨?_, h.2⟩
      rw [List.getElem?_append_left (List.getElem?_eq_some_iff.1 h.1).1]
      exact h.1
    · rw [forall₂_map_left_iff, forall₂_map_right_iff, forall₂_iff_get]
      refine ⟨length_zipIdx, fun i hi hi' => ?_⟩
      simp

/-! ## What is filed -/

lemma foldl_addPackage (n : ℕ) (ps : List (PackageEntry × ℕ)) (st : Dump) :
    ps.foldl (Dump.addPackage U n) st =
      { st with
        postings := (filed U st.order n ps).foldl (fun d e => Grouping.add e.1 e.2.1 e.2.2 d)
          st.postings
        order := st.order + ps.length } := by
  induction ps generalizing st with
  | nil => rfl
  | cons p ps ih =>
    rw [foldl_cons, ih]
    have hfiled : filed U st.order n (p :: ps) =
        (keysOfPackage U p.1).map (fun key => (key, (), [(st.order, n, p.2)])) ++
          filed U (st.order + 1) n ps := by
      rw [filed, zipIdx_cons, flatMap_cons]
      rfl
    rw [hfiled, foldl_append, foldl_map, length_cons]
    simp only [Dump.addPackage]
    rw [add_assoc, add_comm 1]

/-- What `dump_index` has made of some advisories, those that are kept: their records in order, and
their package entries filed. -/
structure Dumped (U : Unicode) (st : Dump) (kept : List (Json × Advisory)) : Prop where
  advRecords : st.advRecords = kept.zipIdx.map fun k => dictOf [("n", natJson k.2), ("a", k.1.1)]
  postings : st.postings = Grouping.gather (filings U (kept.map Prod.snd))
  order : st.order = (locations (kept.map Prod.snd)).length
  read : ∀ n k, kept[n]? = some k → (normalizeAdvisory U k.1 (n + 1)).1 = some k.2

lemma length_advRecords {st : Dump} {kept : List (Json × Advisory)} (h : Dumped U st kept) :
    st.advRecords.length = kept.length := by
  rw [h.advRecords, length_map, length_zipIdx]

lemma dumped_addAdvisory {st : Dump} {kept : List (Json × Advisory)} (h : Dumped U st kept)
    (raw : Json) : ∃ kept', Dumped U (st.addAdvisory U raw) kept' ∧
      (∀ k ∈ kept', k ∈ kept ∨ k.1 = raw) ∧ (∀ k ∈ kept, k ∈ kept') ∧
      ((∃ m, raw = .dict m) → ∃ k ∈ kept', k.1 = raw) ∧
      readAdvisory U (kept.map Prod.snd, st.warnings) raw =
        (kept'.map Prod.snd, (st.addAdvisory U raw).warnings) := by
  rw [Dump.addAdvisory, length_advRecords h, readAdvisory]
  dsimp only
  rw [length_map]
  cases hn : normalizeAdvisory U raw (kept.length + 1) with
  | mk adv ws =>
    cases adv with
    | none =>
      refine ⟨kept, ⟨h.advRecords, h.postings, h.order, h.read⟩, fun k hk => .inl hk,
        fun k hk => hk, ?_, rfl⟩
      rintro ⟨m, rfl⟩
      cases hn
    | some adv =>
      refine ⟨kept ++ [(raw, adv)], ?_, ?_, fun k hk => mem_append_left _ hk,
        fun _ => ⟨(raw, adv), by simp, rfl⟩, ?_⟩
      · dsimp only
        rw [foldl_addPackage]
        refine ⟨?_, ?_, ?_, ?_⟩
        · dsimp only
          rw [h.advRecords, zipIdx_append, map_append]
          simp
        · dsimp only
          rw [map_append, map_singleton, filings_concat, h.postings, h.order,
            length_map, Grouping.gather, Grouping.gather, foldl_append]
        · dsimp only
          rw [map_append, map_singleton, locations_concat, length_append, length_map, h.order]
        · intro n k hk
          rw [getElem?_append] at hk
          split at hk
          · exact h.read n k hk
          · rename_i hge
            rw [getElem?_singleton] at hk
            split at hk
            · rename_i hzero
              cases hk
              have hlast : n = kept.length := by omega
              rw [hlast, hn]
            · cases hk
      · intro k hk
        rw [mem_append, mem_singleton] at hk
        exact hk.imp_right fun h => by rw [h]
      · dsimp only
        rw [foldl_addPackage, map_append, map_singleton]

theorem exists_dumped (raws : List Json) (warnings : List String) :
    ∃ kept, Dumped U (raws.foldl (Dump.addAdvisory U) ⟨[], [], 0, warnings⟩) kept ∧
      (∀ k ∈ kept, k.1 ∈ raws) ∧ (∀ m, .dict m ∈ raws → ∃ k ∈ kept, k.1 = .dict m) ∧
      raws.foldl (readAdvisory U) ([], warnings) =
        (kept.map Prod.snd, (raws.foldl (Dump.addAdvisory U) ⟨[], [], 0, warnings⟩).warnings) := by
  induction raws using reverseRecOn with
  | nil =>
    refine ⟨[], ⟨rfl, rfl, rfl, ?_⟩, fun k hk => absurd hk not_mem_nil,
      fun m hm => absurd hm not_mem_nil, rfl⟩
    intro n k hk
    simp at hk
  | append_singleton raws raw ih =>
    obtain ⟨kept, hdumped, hmem, hall, hread⟩ := ih
    obtain ⟨kept', hdumped', hmem', hsub, hlast, hread'⟩ := dumped_addAdvisory hdumped raw
    rw [foldl_concat, foldl_concat, hread, hread']
    refine ⟨kept', hdumped', ?_, ?_, rfl⟩
    · intro k hk
      rw [mem_append, mem_singleton]
      exact (hmem' k hk).imp_left fun h => hmem k h
    · intro m hm
      rw [mem_append, mem_singleton] at hm
      obtain hm | rfl := hm
      · obtain ⟨k, hk, hkm⟩ := hall m hm
        exact ⟨k, hsub k hk, hkm⟩
      · exact hlast ⟨m, rfl⟩

/-! ## The document and its file -/

/-- A document, and the file that `dump_index` wrote of it. -/
structure Indexed (U : Unicode) (M : Machine) (doc : Json) (bytes : List UInt8) where
  header : BundleHeader
  dump : Dump
  kept : List (Json × Advisory)
  header_eq : bundleHeader doc = .ok header
  dumped : Dumped U dump kept
  kept_mem : ∀ k ∈ kept, k.1 ∈ header.advisories
  kept_all : ∀ m, .dict m ∈ header.advisories → ∃ k ∈ kept, k.1 = .dict m
  read_eq : header.advisories.foldl (readAdvisory U) ([], header.warnings) =
    (kept.map Prod.snd, dump.warnings)
  written : Written M (metadataOf doc header (warningCounts dump.warnings)) dump.advRecords
    (dump.postings.map fun e => (e.1, e.2.2)) bytes

theorem exists_indexed {doc : Json} {bytes : List UInt8} {summary : IndexSummary}
    {warnings : List (Text × ℕ)} (h : dumpIndex U M doc = .ok (bytes, summary, warnings)) :
    Nonempty (Indexed U M doc bytes) := by
  rw [dumpIndex] at h
  split at h
  · cases h
  · rename_i header hheader
    simp only [except_bind_eq_ok] at h
    obtain ⟨written, hwritten, h⟩ := h
    obtain ⟨kept, hdumped, hmem, hall, hread⟩ :=
      exists_dumped (U := U) header.advisories header.warnings
    rw [Except.ok.injEq, Prod.mk.injEq] at h
    obtain ⟨rfl, -⟩ := h
    obtain ⟨W⟩ := written_of_assemble hwritten
    exact ⟨⟨header, _, kept, hheader, hdumped, hmem, hall, hread, W⟩⟩

namespace Indexed

variable {doc : Json} {bytes : List UInt8} (I : Indexed U M doc bytes)

def advs : List Advisory := I.kept.map Prod.snd

/-- What `CveBundle` says of the document. -/
def info : BundleInfo :=
  ⟨I.header.generatedAt, I.header.sources, I.header.counts, warningCounts I.dump.warnings⟩

def readInfo : BundleInfo :=
  ⟨I.header.generatedAt, I.header.sources, I.header.counts.sorted,
    (warningCounts I.dump.warnings).insertionSort fun a b => a.1 ≤ b.1⟩

lemma ofDocument_eq : CveBundle.ofDocument U doc = .ok
    (CveBundle.ofAdvisories U I.advs, I.info) := by
  rw [CveBundle.ofDocument, I.header_eq]
  dsimp only
  rw [I.read_eq]
  rfl

lemma length_advRecords : I.dump.advRecords.length = I.advs.length := by
  rw [Sca.length_advRecords I.dumped, advs, length_map]

theorem openIndex_eq (hM : M.Lawful) (hdoc : doc.Distinct) (b : IndexedBundle) :
    IndexedBundle.openIndex M I.written.file = .ok b ↔
      (CountsAccepted I.advs.length I.dump.postings.length ∧ MetadataAccepted doc ∧
        ∀ w ∈ I.info.warnings, w.2 < 2 ^ 40) ∧ b = I.written.opened I.readInfo := by
  have hdistinct := distinct_metadata hdoc I.header_eq I.dump.warnings I.dump.advRecords.length
    (I.dump.postings.map fun e => (e.1, e.2.2)).length
    (totalPostings (I.dump.postings.map fun e => (e.1, e.2.2)))
  have hmeta : ∀ info, IndexedBundle.takeMeta I.written.head (withCounts
      (metadataOf doc I.header (warningCounts I.dump.warnings)) I.dump.advRecords.length
      (I.dump.postings.map fun e => (e.1, e.2.2)).length
      (totalPostings (I.dump.postings.map fun e => (e.1, e.2.2)))).sorted = .ok info ↔
      (∀ w ∈ warningCounts I.dump.warnings, w.2 < 2 ^ 40) ∧ info = I.readInfo :=
    fun info => takeMeta_eq_ok hdoc I.header_eq I.dump.warnings
  rw [I.written.openIndex_eq hM hdistinct, depth_metadata_le I.header_eq]
  rw [I.length_advRecords, length_map] at hmeta ⊢
  constructor
  · rintro ⟨hcounts, hdepth, info, hinfo, rfl⟩
    obtain ⟨hwarnings, rfl⟩ := (hmeta info).1 hinfo
    exact ⟨⟨hcounts, hdepth, hwarnings⟩, rfl⟩
  · rintro ⟨⟨hcounts, hdepth, hwarnings⟩, rfl⟩
    exact ⟨hcounts, hdepth, _, (hmeta _).2 ⟨hwarnings, rfl⟩, rfl⟩

lemma distinct_of_kept (hdoc : doc.Distinct) {k : Json × Advisory} (hk : k ∈ I.kept) :
    k.1.Distinct := by
  obtain ⟨hnil, -⟩ | hget := (bundleHeader_eq_ok I.header_eq).1
  · have hmem := I.kept_mem k hk
    rw [hnil] at hmem
    cases hmem
  · exact Json.distinctItems_iff.1 (Json.distinct_get? hdoc hget) _ (I.kept_mem k hk)

theorem readAdvisoryRecord_eq (hM : M.Lawful) (hdoc : doc.Distinct) {n : ℕ} {k : Json × Advisory}
    (hk : I.kept[n]? = some k) :
    IndexedBundle.readAdvisoryRecord U M (I.written.opened I.readInfo) n =
      if k.1.depth + 1 ≤ MAX_MANIFEST_DEPTH then .ok k.2
      else .error (.damaged ("advisory " ++ toString n ++ " is not JSON")) := by
  have hraw : k.1.Distinct := I.distinct_of_kept hdoc (mem_of_getElem? hk)
  have hobj : (dictOf [("n", natJson n), ("a", k.1)]).Distinct := by
    have hkeys : ["n", "a"].Nodup := by decide
    apply distinct_dictOf
    · exact hkeys
    · intro m hm
      simp only [mem_cons, not_mem_nil, or_false] at hm
      obtain rfl | rfl := hm
      · trivial
      · exact hraw
  have hdepth : (dictOf [("n", natJson n), ("a", k.1)]).depth = k.1.depth + 1 := by
    rw [dictOf, Json.depth, Json.depthMembers_eq]
    simp [Json.depthItems, natJson, Json.depth]
  have hrec : I.dump.advRecords[n]? = some (dictOf [("n", natJson n), ("a", k.1)]) := by
    rw [I.dumped.advRecords, getElem?_map, getElem?_zipIdx, hk]
    simp
  obtain ⟨off, data, hpack, hmem, hentry⟩ := I.written.drop_advTable hrec
  have hspan : (off, data) ∈ Packed.spans 0 (I.written.advs.map Prod.snd ++
      I.written.keys.map Prod.snd) := by
    rw [Packed.spans_append]
    exact mem_append_left _ hmem
  have hread : IndexedBundle.record M (I.written.opened I.readInfo) off data.length _ _ = _ :=
    I.written.record_eq hM hobj hpack hspan ("advisory " ++ toString n)
  have htable : (I.written.opened I.readInfo).advtab = I.written.advTable := rfl
  rw [IndexedBundle.readAdvisoryRecord]
  simp only [htable, hentry, hread, hdepth]
  by_cases hle : k.1.depth + 1 ≤ MAX_MANIFEST_DEPTH
  · rw [if_pos hle, if_pos hle, except_ok_bind]
    have hn : ((dictOf [("n", natJson n), ("a", k.1)]).sorted).get? "n" = some (natJson n) := by
      rw [Json.get?_sorted hobj, get?_dictOf]
      rfl
    have ha : ((dictOf [("n", natJson n), ("a", k.1)]).sorted).get? "a" = some k.1.sorted := by
      rw [Json.get?_sorted hobj, get?_dictOf]
      rfl
    have hadv : (normalizeAdvisory U k.1.sorted (n + 1)).1 = some k.2 := by
      rw [Json.normalizeAdvisory_sorted U hraw]
      exact I.dumped.read n k hk
    rw [hn, ha, eqNat_natJson]
    dsimp only
    rw [hadv]
  · rw [if_neg hle, if_neg hle]
    rfl

def postingsUnder (key : Text) : List Posting := Grouping.under I.dump.postings key

variable {key : Text}

lemma mem_postingsUnder {p : Posting} : p ∈ I.postingsUnder key ↔
    ∃ pkg, (locations I.advs)[p.1]? = some (p.2.1, p.2.2, pkg) ∧ key ∈ keysOfPackage U pkg := by
  rw [postingsUnder, I.dumped.postings, Grouping.mem_under_gather]
  constructor
  · rintro ⟨e, he, rfl, hp⟩
    obtain ⟨l, hl, he⟩ := mem_flatMap.1 he
    obtain ⟨key, hkey, rfl⟩ := mem_map.1 he
    rw [mem_singleton] at hp
    subst hp
    exact ⟨l.1.2.2, mem_zipIdx_iff_getElem?.1 hl, hkey⟩
  · rintro ⟨pkg, hl, hkey⟩
    refine ⟨(key, (), [p]), mem_flatMap.2 ⟨((p.2.1, p.2.2, pkg), p.1), ?_, ?_⟩, rfl,
      mem_singleton_self p⟩
    · exact mem_zipIdx_iff_getElem?.2 hl
    · exact mem_map.2 ⟨key, hkey, rfl⟩

lemma mem_keys : key ∈ I.dump.postings.map Prod.fst ↔
    ∃ p ∈ pairsOf I.advs, key ∈ keysOfPackage U p.2 := by
  have hkeys : key ∈ I.dump.postings.map Prod.fst ↔ ∃ e ∈ I.dump.postings, e.1 = key :=
    mem_map
  rw [hkeys, I.dumped.postings, Grouping.exists_gather]
  constructor
  · rintro ⟨e, he, rfl⟩
    obtain ⟨l, hl, he⟩ := mem_flatMap.1 he
    obtain ⟨key, hkey, rfl⟩ := mem_map.1 he
    obtain ⟨p, hp, -, -, hpkg⟩ := forall₂_getElem? (pairsOf_getElem? I.advs)
      (mem_zipIdx_iff_getElem?.1 hl)
    exact ⟨p, mem_of_getElem? hp, hpkg ▸ hkey⟩
  · rintro ⟨p, hp, hkey⟩
    obtain ⟨o, ho⟩ := mem_iff_getElem?.1 hp
    obtain ⟨l, hl, -, -, hpkg⟩ := forall₂_getElem? (pairsOf_getElem? I.advs).flip ho
    refine ⟨(key, (), [(o, l.1, l.2.1)]), mem_flatMap.2 ⟨(l, o), ?_, ?_⟩, rfl⟩
    · exact mem_zipIdx_iff_getElem?.2 hl
    · exact mem_map.2 ⟨key, hpkg ▸ hkey, rfl⟩

lemma pair_of_mem {p : Posting} (hp : p ∈ I.postingsUnder key) :
    ∃ k pkg, I.kept[p.2.1]? = some k ∧ k.2.packages[p.2.2]? = some pkg ∧
      (pairsOf I.advs)[p.1]? = some (k.2, pkg) ∧ key ∈ keysOfPackage U pkg := by
  obtain ⟨pkg, hl, hkey⟩ := I.mem_postingsUnder.1 hp
  obtain ⟨pair, hpair, hadv, hpkg, rfl⟩ := forall₂_getElem? (pairsOf_getElem? I.advs) hl
  rw [advs, getElem?_map, Option.map_eq_some_iff] at hadv
  obtain ⟨k, hk, hk2⟩ := hadv
  rw [← hk2] at hpkg
  refine ⟨k, pair.2, hk, hpkg, ?_, hkey⟩
  rw [hpair, hk2]

lemma distinct_entryRecord (e : Text × List Posting) : (entryRecord e).Distinct := by
  have hkeys : ["k", "p"].Nodup := by decide
  apply distinct_dictOf
  · exact hkeys
  · intro m hm
    simp only [mem_cons, not_mem_nil, or_false] at hm
    obtain rfl | rfl := hm
    · trivial
    · rw [Json.Distinct, Json.distinctItems_iff]
      intro v hv
      obtain ⟨q, -, rfl⟩ := mem_map.1 hv
      exact ⟨trivial, trivial, trivial, trivial⟩

lemma depth_entryRecord_le (e : Text × List Posting) : (entryRecord e).depth ≤ 3 := by
  rw [entryRecord, depth_dictOf_le]
  intro m hm
  simp only [mem_cons, not_mem_nil, or_false] at hm
  obtain rfl | rfl := hm
  · exact Nat.zero_le 2
  · rw [Json.depth, add_le_add_iff_right, Json.depthItems_le]
    intro v hv
    obtain ⟨q, -, rfl⟩ := mem_map.1 hv
    simp [Json.depth, Json.depthItems, natJson]

lemma mapM_postingOf {n_adv : ℕ} {ps : List Posting} (h : ∀ p ∈ ps, p.2.1 < n_adv) :
    (Json.sortedItems (ps.map fun q => .list [natJson q.1, natJson q.2.1, natJson q.2.2])).mapM
      (IndexedBundle.postingOf n_adv) = some ps := by
  rw [Json.sortedItems_eq, map_map, option_mapM_eq_some, forall₂_map_left_iff, forall₂_same]
  intro p hp
  have hsorted : (Json.list [natJson p.1, natJson p.2.1, natJson p.2.2]).sorted =
      .list [natJson p.1, natJson p.2.1, natJson p.2.2] := rfl
  rw [Function.comp_apply, hsorted, IndexedBundle.postingOf]
  simp only [natOf_natJson, Option.bind_eq_bind, Option.bind_some, h p hp, if_true]

theorem readPosting_eq (hM : M.Lawful)
    (hdigest : ∀ k ∈ I.dump.postings.map Prod.fst, keyDigest M key = keyDigest M k → key = k) :
    IndexedBundle.readPosting M (I.written.opened I.readInfo) key = .ok (I.postingsUnder key) := by
  have hstrict := IndexedBundle.inOrder_strict (I.written.inOrder_keyTable hM)
  have hlen : (sortedEntries M (I.dump.postings.map fun e => (e.1, e.2.2))).length =
      (I.dump.postings.map fun e => (e.1, e.2.2)).length := length_insertionSort _ _
  have hmem : ∀ e, e ∈ sortedEntries M (I.dump.postings.map fun e => (e.1, e.2.2)) ↔
      e ∈ I.dump.postings.map fun e => (e.1, e.2.2) :=
    fun e => (perm_insertionSort _ _).mem_iff
  have hbisect : ∀ i, Bisect.bisect (IndexedBundle.digestAt (I.written.opened I.readInfo).keytab)
      (byteValues (keyDigest M key)) (I.written.opened I.readInfo).header.keys = some i ↔
      i < (I.dump.postings.map fun e => (e.1, e.2.2)).length ∧
        IndexedBundle.digestAt I.written.keyTable i = byteValues (keyDigest M key) :=
    fun i => Bisect.bisect_eq_some hstrict
  rw [IndexedBundle.readPosting, IndexedBundle.find, postingsUnder, Grouping.under]
  cases hfind : I.dump.postings.find? fun e => e.1 = key with
  | none =>
    have hnone : Bisect.bisect (IndexedBundle.digestAt (I.written.opened I.readInfo).keytab)
        (byteValues (keyDigest M key)) (I.written.opened I.readInfo).header.keys = none := by
      rw [Option.eq_none_iff_forall_ne_some]
      intro i hi
      obtain ⟨hlt, hat⟩ := (hbisect i).1 hi
      rw [← hlen] at hlt
      rw [I.written.digestAt_keyTable hM (getElem?_eq_getElem hlt)] at hat
      have hentry := (hmem _).1 (getElem_mem hlt)
      obtain ⟨e, he, hee⟩ := mem_map.1 hentry
      rw [← hee] at hat
      have hkey := hdigest e.1 (mem_map.2 ⟨e, he, rfl⟩) (byteValues_injective hat).symm
      have hnot := List.find?_eq_none.1 hfind e he
      rw [decide_eq_true_eq] at hnot
      exact hnot hkey.symm
    rw [hnone]
    rfl
  | some e =>
    have hkey := List.find?_some hfind
    rw [decide_eq_true_eq] at hkey
    have hentry : (e.1, e.2.2) ∈ sortedEntries M
        (I.dump.postings.map fun e => (e.1, e.2.2)) :=
      (hmem _).2 (mem_map.2 ⟨e, mem_of_find?_eq_some hfind, rfl⟩)
    obtain ⟨i, hi⟩ := mem_iff_getElem?.1 hentry
    have hat := I.written.digestAt_keyTable hM hi
    have hsome := (hbisect i).2 ⟨hlen ▸ (List.getElem?_eq_some_iff.1 hi).1, by rw [hat, ← hkey]⟩
    obtain ⟨off, data, hpack, hspan, htable⟩ := I.written.drop_keyTable hM hi
    have hspan' : (off, data) ∈ Packed.spans 0 (I.written.advs.map Prod.snd ++
        I.written.keys.map Prod.snd) := by
      rw [Packed.spans_append, zero_add]
      exact mem_append_right _ hspan
    have hread : IndexedBundle.record M (I.written.opened I.readInfo) off data.length _ _ = _ :=
      I.written.record_eq hM (distinct_entryRecord _) hpack hspan' "the entry for a name"
    have hdepth : (entryRecord (e.1, e.2.2)).depth ≤ MAX_MANIFEST_DEPTH :=
      (depth_entryRecord_le _).trans (by decide)
    rw [if_pos hdepth] at hread
    have hentryAt : IndexedBundle.entryAt ((I.written.opened I.readInfo).keytab.drop
        (i * KEY_ENTRY + DIGEST_BYTES)) = (off, data.length, M.crc32 data) := htable
    have hk : (entryRecord (e.1, e.2.2)).sorted.get? "k" = some (.text e.1) := by
      rw [Json.get?_sorted (distinct_entryRecord _), entryRecord, get?_dictOf]
      rfl
    have hp : (entryRecord (e.1, e.2.2)).sorted.get? "p" = some (.list (Json.sortedItems
        (e.2.2.map fun q => .list [natJson q.1, natJson q.2.1, natJson q.2.2]))) := by
      rw [Json.get?_sorted (distinct_entryRecord _), entryRecord, get?_dictOf]
      rfl
    have hunder : I.postingsUnder key = e.2.2 := by
      rw [postingsUnder, Grouping.under, hfind]
      rfl
    have hbound : ∀ p ∈ e.2.2, p.2.1 < (I.written.opened I.readInfo).header.advisories := by
      intro p hp
      rw [← hunder] at hp
      obtain ⟨k, pkg, hk, -⟩ := I.pair_of_mem hp
      have hadvs : (I.written.opened I.readInfo).header.advisories = I.kept.length :=
        Sca.length_advRecords I.dumped
      rw [hadvs]
      exact (List.getElem?_eq_some_iff.1 hk).1
    rw [hsome]
    dsimp only [Option.map_some]
    rw [hentryAt]
    dsimp only
    rw [hread, except_ok_bind, hk, hp]
    dsimp only
    rw [if_neg (not_not.2 hkey), mapM_postingOf hbound]
    rfl

end Indexed

/-! ## Keys -/

lemma looseKey_injective {k k' : Text} (h : looseKey k = looseKey k') : k = k' :=
  (cons.inj (cons.inj h).2).2

lemma exactKey_injective {k k' : Ecosystem × Text} (h : exactKey k = exactKey k') : k = k' := by
  obtain ⟨eco, k⟩ := k
  obtain ⟨eco', k'⟩ := k'
  have htail : eco.name ++ Char.ofNat 0 :: k = eco'.name ++ Char.ofNat 0 :: k' :=
    (cons.inj (cons.inj h).2).2
  -- The names of the ecosystems begin differently.
  have hfirst : ∀ (e : Ecosystem) (t : Text), (e.name ++ t).head? = e.name.head? := by
    intro e t
    cases e <;> rfl
  have hhead : eco.name.head? = eco'.name.head? := by rw [← hfirst eco, htail, hfirst eco']
  have hsame : eco = eco' := by
    cases eco <;> cases eco' <;> first | rfl | exact absurd hhead (by decide)
  subst hsame
  rw [Prod.mk.injEq]
  exact ⟨rfl, (cons.inj (append_cancel_left htail)).2⟩

lemma looseKey_ne_exactKey {k : Text} {k' : Ecosystem × Text} : looseKey k ≠ exactKey k' :=
  fun h => absurd (cons.inj h).1 (by decide)

lemma mem_looseKeyTexts {variants : List Text} {key : Text} :
    key ∈ looseKeyTexts variants ↔ ∃ k ∈ variants, looseKey k = key := by
  rw [looseKeyTexts, mem_map]
  exact exists_congr fun k => and_congr_left fun _ => (perm_insertionSort _ _).mem_iff

lemma names_iff {name : Text} {ecosystem : Option Ecosystem} {pkg : PackageEntry} :
    names U name ecosystem pkg = true ↔
      ∃ key ∈ keysForLookup U name ecosystem, key ∈ keysOfPackage U pkg := by
  simp only [names, keysForLookup, keysOfPackage, Bool.or_eq_true, any_eq_true,
    decide_eq_true_eq, mem_append, mem_looseKeyTexts, mem_map]
  constructor
  · rintro (⟨k, hk, hmem⟩ | ⟨eco, heco, hmem⟩)
    · exact ⟨looseKey k, .inl ⟨k, hk, rfl⟩, .inr ⟨k, hmem, rfl⟩⟩
    · exact ⟨_, .inr ⟨eco, heco, rfl⟩, .inl ⟨_, hmem, rfl⟩⟩
  · rintro ⟨key, ⟨k, hk, rfl⟩ | ⟨eco, heco, rfl⟩, ⟨k', hk', h⟩ | ⟨k', hk', h⟩⟩
    · exact absurd h.symm looseKey_ne_exactKey
    · exact .inl ⟨k, hk, looseKey_injective h ▸ hk'⟩
    · exact .inr ⟨eco, heco, exactKey_injective h ▸ hk'⟩
    · exact absurd h looseKey_ne_exactKey

/-! ## Collecting -/

lemma setDefault_spec (ps : List Posting) :
    (∀ p ∈ ps.foldl IndexedBundle.setDefault [], p ∈ ps) ∧
      ((ps.foldl IndexedBundle.setDefault []).map Prod.fst).Nodup ∧
      ∀ p ∈ ps, p.1 ∈ (ps.foldl IndexedBundle.setDefault []).map Prod.fst := by
  induction ps using reverseRecOn with
  | nil => exact ⟨fun p hp => hp, nodup_nil, fun p hp => absurd hp not_mem_nil⟩
  | append_singleton ps p ih =>
    obtain ⟨hsub, hnodup, hseen⟩ := ih
    rw [foldl_concat, IndexedBundle.setDefault]
    by_cases hany : (ps.foldl IndexedBundle.setDefault []).any fun q => q.1 = p.1
    · rw [if_pos hany]
      refine ⟨fun q hq => mem_append_left _ (hsub q hq), hnodup, ?_⟩
      intro q hq
      rw [mem_append, mem_singleton] at hq
      obtain hq | rfl := hq
      · exact hseen q hq
      · obtain ⟨q', hq', heq⟩ := any_eq_true.1 hany
        rw [decide_eq_true_eq] at heq
        exact mem_map.2 ⟨q', hq', heq⟩
    · rw [if_neg hany]
      refine ⟨?_, ?_, ?_⟩
      · intro q hq
        rw [mem_append] at hq ⊢
        exact hq.imp_left (hsub q)
      · rw [map_append, map_singleton, nodup_append]
        refine ⟨hnodup, nodup_singleton _, ?_⟩
        rintro o ho o' ho' rfl
        rw [mem_singleton] at ho'
        subst ho'
        obtain ⟨q', hq', heq⟩ := mem_map.1 ho
        exact hany (any_eq_true.2 ⟨q', hq', decide_eq_true heq⟩)
      · intro q hq
        rw [map_append, mem_append, map_singleton, mem_singleton]
        rw [mem_append, mem_singleton] at hq
        exact hq.imp (hseen q) fun h => by rw [h]

def collected (ps : List Posting) : List Posting :=
  (ps.foldl IndexedBundle.setDefault []).insertionSort fun p q => p.1 ≤ q.1

lemma mem_of_mem_collected {ps : List Posting} {p : Posting} (hp : p ∈ collected ps) : p ∈ ps :=
  (setDefault_spec ps).1 p ((perm_insertionSort _ _).mem_iff.1 hp)

lemma mem_orders_collected {ps : List Posting} {p : Posting} (hp : p ∈ ps) :
    p.1 ∈ (collected ps).map Prod.fst :=
  ((perm_insertionSort _ _).map Prod.fst).mem_iff.2 ((setDefault_spec ps).2.2 p hp)

lemma nodup_orders_collected (ps : List Posting) : ((collected ps).map Prod.fst).Nodup :=
  ((perm_insertionSort _ _).map Prod.fst).nodup_iff.2 (setDefault_spec ps).2.1

lemma filterMap_collected {α : Type} (xs : List α) (ps : List Posting) :
    (collected ps).filterMap (fun p => xs[p.1]?) = Places.pick xs
    ((collected ps).map Prod.fst) := by
  have hsorted : ((collected ps).map Prod.fst).Pairwise (· ≤ ·) := by
    rw [pairwise_map]
    exact pairwise_insertionSort _ _
  rw [Places.pick, (nodup_orders_collected ps).dedup, hsorted.insertionSort_eq, filterMap_map]
  rfl

lemma mapM_filterMap {α β : Type} {g : α → Except ReadError β} {f : α → Option β} {xs : List α}
    (h : ∀ x ∈ xs, ∃ y, g x = .ok y ∧ f x = some y) : xs.mapM g = .ok (xs.filterMap f) := by
  induction xs with
  | nil => rfl
  | cons x xs ih =>
    obtain ⟨y, hg, hf⟩ := h x mem_cons_self
    rw [mapM_cons, hg, except_ok_bind, ih fun z hz => h z (mem_cons_of_mem x hz),
      filterMap_cons, hf]
    rfl

/-! ## Lookups -/

lemma mem_locations {advs : List Advisory} {n j : ℕ} {adv : Advisory} {pkg : PackageEntry}
    (hadv : advs[n]? = some adv) (hpkg : adv.packages[j]? = some pkg) :
    (n, j, pkg) ∈ locations advs := by
  rw [locations, mem_flatMap]
  refine ⟨(adv, n), mem_zipIdx_iff_getElem?.2 hadv, mem_map.2 ⟨(pkg, j), ?_, rfl⟩⟩
  exact mem_zipIdx_iff_getElem?.2 hpkg

namespace Indexed

variable {doc : Json} {bytes : List UInt8} (I : Indexed U M doc bytes)

/-- No key of a package entry has the digest of another key that a lookup asks for. -/
def DigestsApart (name : Text) (ecosystem : Option Ecosystem) : Prop :=
  ∀ k ∈ keysForLookup U name ecosystem, ∀ p ∈ pairsOf I.advs, ∀ k' ∈ keysOfPackage U p.2,
    keyDigest M k = keyDigest M k' → k = k'

/-- The places under the keys that a lookup asks for. -/
def asked (name : Text) (ecosystem : Option Ecosystem) : List Posting :=
  ((keysForLookup U name ecosystem).map I.postingsUnder).flatten

variable {name : Text} {ecosystem : Option Ecosystem}

lemma mem_asked {p : Posting} : p ∈ I.asked name ecosystem ↔
      ∃ key ∈ keysForLookup U name ecosystem, p ∈ I.postingsUnder key := by
  simp only [asked, mem_flatten, mem_map, exists_exists_and_eq_and]

lemma readAdvisoriesFor_eq (hM : M.Lawful) (hdigest : I.DigestsApart name ecosystem) :
    IndexedBundle.readAdvisoriesFor U M (I.written.opened I.readInfo) name ecosystem =
      (collected (I.asked name ecosystem)).mapM
        (IndexedBundle.readPair U M (I.written.opened I.readInfo)) := by
  have hpostings : (keysForLookup U name ecosystem).mapM
      (IndexedBundle.readPosting M (I.written.opened I.readInfo)) =
      .ok ((keysForLookup U name ecosystem).map I.postingsUnder) := by
    rw [except_mapM_eq_ok, forall₂_map_right_iff, forall₂_same]
    intro key hkey
    apply I.readPosting_eq hM
    intro k hk heq
    obtain ⟨p, hp, hkp⟩ := I.mem_keys.1 hk
    exact hdigest key hkey p hp k hkp heq
  rw [IndexedBundle.readAdvisoriesFor, hpostings, except_ok_bind]
  rfl

lemma readPair_eq (hM : M.Lawful) (hdoc : doc.Distinct) {key : Text} {p : Posting}
    (hp : p ∈ I.postingsUnder key) :
    ∃ k pkg, k ∈ I.kept ∧ pkg ∈ k.2.packages ∧ key ∈ keysOfPackage U pkg ∧
      (pairsOf I.advs)[p.1]? = some (k.2, pkg) ∧
      (k.1.depth + 1 ≤ MAX_MANIFEST_DEPTH →
        IndexedBundle.readPair U M (I.written.opened I.readInfo) p = .ok (k.2, pkg)) := by
  obtain ⟨k, pkg, hk, hpkg, hpair, hkey⟩ := I.pair_of_mem hp
  refine ⟨k, pkg, mem_of_getElem? hk, mem_of_getElem? hpkg, hkey, hpair, fun hdepth => ?_⟩
  rw [IndexedBundle.readPair, I.readAdvisoryRecord_eq hM hdoc hk, if_pos hdepth, except_ok_bind,
    IndexedBundle.entryOf, hpkg]

lemma mem_orders_iff {o : ℕ} : o ∈ (collected (I.asked name ecosystem)).map Prod.fst ↔
      ∃ x, (pairsOf I.advs)[o]? = some x ∧ names U name ecosystem x.2 = true := by
  constructor
  · intro ho
    obtain ⟨p, hp, rfl⟩ := mem_map.1 ho
    obtain ⟨key, hkey, hmem⟩ := I.mem_asked.1 (mem_of_mem_collected hp)
    obtain ⟨k, pkg, -, -, hpair, hfiled⟩ := I.pair_of_mem hmem
    exact ⟨_, hpair, names_iff.2 ⟨key, hkey, hfiled⟩⟩
  · rintro ⟨x, hx, hnames⟩
    obtain ⟨key, hkey, hfiled⟩ := names_iff.1 hnames
    obtain ⟨l, hl, -, -, hpkg⟩ := forall₂_getElem? (pairsOf_getElem? I.advs).flip hx
    have hposting : (o, l.1, l.2.1) ∈ I.postingsUnder key :=
      I.mem_postingsUnder.2 ⟨l.2.2, hl, hpkg ▸ hfiled⟩
    exact mem_orders_collected (I.mem_asked.2 ⟨key, hkey, hposting⟩)

/-- A lookup in the file gives what one in the document does exactly when the records of the
advisories that name the dependency nest no deeper than the bound. -/
theorem readAdvisoriesFor_iff (hM : M.Lawful) (hdoc : doc.Distinct)
    (hdigest : I.DigestsApart name ecosystem) :
    IndexedBundle.readAdvisoriesFor U M (I.written.opened I.readInfo) name ecosystem =
        .ok ((CveBundle.ofAdvisories U I.advs).advisoriesFor U name ecosystem) ↔
      ∀ k ∈ I.kept, (∃ pkg ∈ k.2.packages, names U name ecosystem pkg = true) →
        k.1.depth + 1 ≤ MAX_MANIFEST_DEPTH := by
  rw [I.readAdvisoriesFor_eq hM hdigest]
  constructor
  · rintro hread k hk ⟨pkg, hpkg, hnames⟩
    obtain ⟨n, hn⟩ := mem_iff_getElem?.1 hk
    obtain ⟨j, hj⟩ := mem_iff_getElem?.1 hpkg
    have hadv : I.advs[n]? = some k.2 := by
      rw [advs, getElem?_map, hn]
      rfl
    obtain ⟨o, ho⟩ := mem_iff_getElem?.1 (mem_locations hadv hj)
    obtain ⟨x, hx, -, -, hx2⟩ := forall₂_getElem? (pairsOf_getElem? I.advs) ho
    have horder := I.mem_orders_iff.2 ⟨x, hx, by rw [← hx2]; exact hnames⟩
    obtain ⟨p, hp, rfl⟩ := mem_map.1 horder
    obtain ⟨key, hkey, hmem⟩ := I.mem_asked.1 (mem_of_mem_collected hp)
    obtain ⟨pkg', hl, -⟩ := I.mem_postingsUnder.1 hmem
    rw [ho, Option.some.injEq, Prod.mk.injEq] at hl
    obtain ⟨y, hy⟩ := exists_of_except_mapM hread hp
    obtain ⟨adv, hadvRead, -⟩ := except_bind_eq_ok.1 hy
    rw [← hl.1, I.readAdvisoryRecord_eq hM hdoc hn] at hadvRead
    by_contra hdeep
    rw [if_neg hdeep] at hadvRead
    cases hadvRead
  · intro hdepth
    rw [advisoriesFor_eq, ← Places.pick_eq_filter fun i => I.mem_orders_iff, ← filterMap_collected]
    apply mapM_filterMap
    intro p hp
    obtain ⟨key, hkey, hmem⟩ := I.mem_asked.1 (mem_of_mem_collected hp)
    obtain ⟨k, pkg, hk, hpkg, hfiled, hpair, hread⟩ := I.readPair_eq hM hdoc hmem
    exact ⟨_, hread (hdepth k hk ⟨pkg, hpkg, names_iff.2 ⟨key, hkey, hfiled⟩⟩), hpair⟩

end Indexed

end Lazaret.Sca
