import Lazaret.Sca.IndexAnswers
import Lazaret.Sca.JsonReader

/-!
# The indexed bundle answers as the document does

`indexed_answers_iff`: the file that `dump_index` wrote of a document opens with what `CveBundle`
has of it, and gives the same pairs in the same order whatever was looked up before, exactly where a
reader accepts what the writer does not check: its counts, how often a warning was counted, and how
deep the metadata and the records nest.
-/

namespace Lazaret.Sca

open List Option

variable {U : Unicode} {M : Machine}

/-! ## What must agree -/

/-- A bundle that is open says of itself what the document's does: its counts are the same
dictionary, its warnings the same counts. -/
def BundleInfo.Same (read info : BundleInfo) : Prop :=
  read.generatedAt = info.generatedAt ∧ read.sources = info.sources ∧
    read.counts = info.counts.sorted ∧ read.warnings.Perm info.warnings

/-- A file opens, says of itself what a bundle does, and gives for a name what the bundle gives,
whatever lookups were made before. -/
def Answers (U : Unicode) (M : Machine) (f : File) (cb : CveBundle) (info : BundleInfo)
    (name : Text) (ecosystem : Option Ecosystem) : Prop :=
  ∃ b, IndexedBundle.openIndex M f = .ok b ∧ b.info.Same info ∧
    ∀ c, IndexedBundle.Reached U M b c →
      (IndexedBundle.advisoriesFor U M b name ecosystem c).1 =
        .ok (cb.advisoriesFor U name ecosystem)

/-- No key that a lookup asks for has the digest of another key of the bundle. -/
def DigestsApart (U : Unicode) (M : Machine) (advisories : List Advisory) (name : Text)
    (ecosystem : Option Ecosystem) : Prop :=
  ∀ k ∈ keysForLookup U name ecosystem, ∀ p ∈ pairsOf advisories, ∀ k' ∈ keysOfPackage U p.2,
    keyDigest M k = keyDigest M k' → k = k'

/-! ## What a reader accepts -/

/-- The package entries of an advisory as a document has it. -/
def packagesOf (U : Unicode) (raw : Json) : List PackageEntry :=
  ((normalizeAdvisory U raw 1).1.map Advisory.packages).getD []

/-- What a reader accepts, and the writer does not check: the numbers of advisories and of names,
how often a warning was counted, and how deep the metadata nests and the records that a lookup
reads. -/
structure Accepted (U : Unicode) (doc : Json) (cb : CveBundle) (info : BundleInfo) (name : Text)
    (ecosystem : Option Ecosystem) : Prop where
  advisories : cb.advisories.length ≤ MAX_ADVISORIES
  keys : ((pairsOf cb.advisories).flatMap fun p => keysOfPackage U p.2).dedup.length ≤ MAX_KEYS
  warnings : ∀ w ∈ info.warnings, w.2 < 2 ^ 40
  metadata : MetadataAccepted doc
  named : ∀ raws, doc.get? "advisories" = some (.list raws) → ∀ raw ∈ raws,
    (∃ pkg ∈ packagesOf U raw, names U name ecosystem pkg = true) →
      raw.depth + 1 ≤ MAX_MANIFEST_DEPTH

lemma packages_eq_packagesOf {raw : Json} {n : ℕ} {adv : Advisory}
    (h : (normalizeAdvisory U raw n).1 = some adv) : adv.packages = packagesOf U raw := by
  cases raw with
  | dict m =>
    cases h
    rfl
  | null | bool _ | number _ | text _ | list _ => cases h

namespace Indexed

variable {doc : Json} {bytes : List UInt8} (I : Indexed U M doc bytes)

lemma length_postings : I.dump.postings.length =
    ((pairsOf I.advs).flatMap fun p => keysOfPackage U p.2).dedup.length := by
  have hnodup : (I.dump.postings.map Prod.fst).Nodup := by
    rw [I.dumped.postings]
    exact Grouping.nodup_gather _
  have hperm : (I.dump.postings.map Prod.fst).Perm
      ((pairsOf I.advs).flatMap fun p => keysOfPackage U p.2).dedup := by
    rw [perm_ext_iff_of_nodup hnodup (nodup_dedup _)]
    intro key
    rw [I.mem_keys, List.mem_dedup, mem_flatMap]
  rw [← hperm.length_eq, length_map]

lemma same_readInfo : I.readInfo.Same I.info :=
  ⟨rfl, rfl, rfl, perm_insertionSort _ _⟩

lemma named_iff {name : Text} {ecosystem : Option Ecosystem} :
    (∀ k ∈ I.kept, (∃ pkg ∈ k.2.packages, names U name ecosystem pkg = true) →
        k.1.depth + 1 ≤ MAX_MANIFEST_DEPTH) ↔
      ∀ raws, doc.get? "advisories" = some (.list raws) → ∀ raw ∈ raws,
        (∃ pkg ∈ packagesOf U raw, names U name ecosystem pkg = true) →
          raw.depth + 1 ≤ MAX_MANIFEST_DEPTH := by
  have hentries : ∀ k ∈ I.kept, k.2.packages = packagesOf U k.1 := by
    intro k hk
    obtain ⟨n, hn⟩ := mem_iff_getElem?.1 hk
    exact packages_eq_packagesOf (I.dumped.read n k hn)
  obtain ⟨hnil, hnone⟩ | hget := (bundleHeader_eq_ok I.header_eq).1
  · refine ⟨fun _ raws hraws => absurd hraws (hnone raws), fun _ k hk => ?_⟩
    have hmem := I.kept_mem k hk
    rw [hnil] at hmem
    cases hmem
  · constructor
    · intro h raws hraws raw hraw hnamed
      rw [hget, some.injEq, Json.list.injEq] at hraws
      subst hraws
      cases raw with
      | dict m =>
        obtain ⟨k, hk, hkm⟩ := I.kept_all m hraw
        rw [← hkm]
        apply h k hk
        rw [hentries k hk, hkm]
        exact hnamed
      | null | bool _ | number _ | text _ | list _ =>
        obtain ⟨pkg, hpkg, -⟩ := hnamed
        cases hpkg
    · intro h k hk hnamed
      rw [hentries k hk] at hnamed
      exact h _ hget k.1 (I.kept_mem k hk) hnamed

end Indexed

/-! ## The theorem -/

/-- The file answers as the document does, with caches of any content, exactly where a reader
accepts what the writer does not check. -/
theorem indexed_answers_iff (hM : M.Lawful) {doc : Json} (hdoc : doc.Distinct)
    {bytes : List UInt8} {summary : IndexSummary} {warnings : List (Text × ℕ)}
    (hdump : dumpIndex U M doc = .ok (bytes, summary, warnings)) (name : Text)
    (ecosystem : Option Ecosystem)
    (hdigest : ∀ cb info, CveBundle.ofDocument U doc = .ok (cb, info) →
      DigestsApart U M cb.advisories name ecosystem) :
    (∃ cb info, CveBundle.ofDocument U doc = .ok (cb, info) ∧
      (Answers U M ⟨true, bytes⟩ cb info name ecosystem ↔
        Accepted U doc cb info name ecosystem)) ∧
    ∀ f b, IndexedBundle.openIndex M f = .ok b →
      (∀ i j, i < j → j < b.header.keys →
        IndexedBundle.digestAt b.keytab i < IndexedBundle.digestAt b.keytab j) ∧
      ∀ i < b.header.keys, ∀ digest, byteValues digest = IndexedBundle.digestAt b.keytab i →
        IndexedBundle.find b digest =
          some (IndexedBundle.entryAt (b.keytab.drop (i * KEY_ENTRY + DIGEST_BYTES))) := by
  constructor
  · obtain ⟨I⟩ := exists_indexed hdump
    have hapart : I.DigestsApart name ecosystem := hdigest _ _ I.ofDocument_eq
    refine ⟨_, _, I.ofDocument_eq, ?_⟩
    constructor
    · rintro ⟨b, hopen, -, hlookup⟩
      obtain ⟨⟨hcounts, hmeta, hwarnings⟩, rfl⟩ := (I.openIndex_eq hM hdoc b).1 hopen
      have hread := hlookup _ IndexedBundle.Reached.start
      rw [IndexedBundle.advisoriesFor_eq_read IndexedBundle.Reached.start] at hread
      exact ⟨hcounts.1, I.length_postings ▸ hcounts.2, hwarnings, hmeta,
        I.named_iff.1 ((I.readAdvisoriesFor_iff hM hdoc hapart).1 hread)⟩
    · rintro ⟨hadvisories, hkeys, hwarnings, hmeta, hnamed⟩
      have hkeys' : I.dump.postings.length ≤ MAX_KEYS := I.length_postings ▸ hkeys
      refine ⟨_, (I.openIndex_eq hM hdoc _).2 ⟨⟨⟨hadvisories, hkeys'⟩, hmeta, hwarnings⟩, rfl⟩,
        I.same_readInfo, fun c hc => ?_⟩
      rw [IndexedBundle.advisoriesFor_eq_read hc]
      exact (I.readAdvisoriesFor_iff hM hdoc hapart).2 (I.named_iff.2 hnamed)
  · intro f b hopen
    exact ⟨IndexedBundle.inOrder_strict (IndexedBundle.inOrder_of_open hopen),
      fun i hi digest hd => IndexedBundle.find_of_entry hopen hi hd⟩

/-! ## A machine -/

def crcBit (c : ℕ) : ℕ := if c % 2 = 1 then (c / 2) ^^^ 0xedb88320 else c / 2

def crcByte (crc : ℕ) (byte : UInt8) : ℕ := crcBit^[8] (crc ^^^ byte.toNat)

def crc32 (bytes : List UInt8) : ℕ := bytes.foldl crcByte 0xffffffff ^^^ 0xffffffff

lemma crcBit_lt {c : ℕ} (h : c < 2 ^ 32) : crcBit c < 2 ^ 32 := by
  rw [crcBit]
  split
  · exact Nat.xor_lt_two_pow (by omega) (by decide)
  · omega

lemma crcByte_lt {crc : ℕ} (h : crc < 2 ^ 32) (byte : UInt8) : crcByte crc byte < 2 ^ 32 := by
  have hbyte : crc ^^^ byte.toNat < 2 ^ 32 :=
    Nat.xor_lt_two_pow h (lt_trans (UInt8.toNat_lt byte) (by decide))
  exact Function.Iterate.rec (fun c => c < 2 ^ 32) hbyte (fun c hc => crcBit_lt hc) 8

lemma crc32_lt (bytes : List UInt8) : crc32 bytes < 2 ^ 32 := by
  have hfold : ∀ crc < 2 ^ 32, bytes.foldl crcByte crc < 2 ^ 32 := by
    induction bytes with
    | nil => exact fun crc h => h
    | cons b bytes ih => exact fun crc h => ih _ (crcByte_lt h b)
  exact Nat.xor_lt_two_pow (hfold _ (by decide)) (by decide)

/-- The bytes of words, each of so many bytes, the highest first. -/
def wordBytes (words : List (ℕ × ℕ)) : List UInt8 :=
  words.flatMap fun w => (Packed.toBytes w.1 w.2).reverse

def leftPadAdvisory : Json :=
  dictOf [("cve", .text "CVE-2026-0001".toList), ("packages", .list [dictOf [
    ("ecosystem", .text "npm".toList), ("exact", .bool true), ("name", .text "left-pad".toList)]])]

def digests : List (Text × List UInt8) :=
  [(looseKey "left-pad".toList, wordBytes [
      (32, 0x460bb9609d5cbb28f378edd34d2f0734a174a4c5063ec7fd6423370de1d0471b)]),
    (exactKey (.npm, "left-pad".toList), wordBytes [
      (32, 0xf74e91bc9344153745c7f374aa9286de6a7f057aa7a539328bffbd0c37e0c3f7)])]

/-- The two records of a bundle of this advisory, as zlib compresses them. -/
def streams : List (List UInt8 × List UInt8) :=
  [(asciiBytes (write (dictOf [("a", leftPadAdvisory), ("n", natJson 0)])), wordBytes [
      (32, 0x789c158c310e83301004ffb2b52d5d5c505c8bf8421a94e2640e0ab06361274a),
      (32, 0x64f9ef987666341502aef05f05637c4ed6911b2c113d6090c4efb26906cf15ea),
      (32, 0xdff99f8b861ec614bad69ff8022ee7470da2847b71e85a6c9205edd53a0453bb),
      (5, 0x00b9fa1e78)]),
    (asciiBytes (write (entryRecord (exactKey (.npm, "left-pad".toList), [(0, 0, 0)]))), wordBytes [
      (32, 0x789cab56ca56b252728d29350082bc825c08232735ad44b72031454947a940c9),
      (14, 0x2a3ada40070863636b013b0f0d57)])]

/-- Compression by a table; anything else is stored behind a byte that no stream begins with. -/
def store (table : List (List UInt8 × List UInt8)) (raw : List UInt8) : List UInt8 :=
  ((table.find? fun s => s.1 = raw).map Prod.snd).getD (0 :: raw)

def restore (table : List (List UInt8 × List UInt8)) (data : List UInt8) : Option (List UInt8) :=
  match table.find? fun s => s.2 = data with
  | some s => some s.1
  | none => if data.head? = some 0 then some data.tail else none

lemma restore_store {table : List (List UInt8 × List UInt8)}
    (hinjective : ∀ s ∈ table, ∀ s' ∈ table, s.2 = s'.2 → s.1 = s'.1)
    (hhead : ∀ s ∈ table, s.2.head? ≠ some 0) (raw : List UInt8) :
    restore table (store table raw) = some raw := by
  rw [store]
  cases hfind : table.find? fun s => s.1 = raw with
  | none =>
    have hother : table.find? (fun s => s.2 = 0 :: raw) = none := by
      rw [List.find?_eq_none]
      intro s hs h
      rw [decide_eq_true_eq] at h
      apply hhead s hs
      rw [h, head?_cons]
    rw [map_none, getD_none, restore, hother]
    dsimp only
    rw [head?_cons, if_pos rfl, tail_cons]
  | some s =>
    have hs := mem_of_find?_eq_some hfind
    have hraw : s.1 = raw := by simpa using List.find?_some hfind
    rw [map_some, getD_some, restore]
    cases hfind' : table.find? fun s' => s'.2 = s.2 with
    | none =>
      have hnot := List.find?_eq_none.1 hfind' s hs
      simp at hnot
    | some s' =>
      have heq : s'.2 = s.2 := by simpa using List.find?_some hfind'
      dsimp only
      rw [← hraw, hinjective s' (mem_of_find?_eq_some hfind') s hs heq]

def digestOf (table : List (Text × List UInt8)) (bytes : List UInt8) : List UInt8 :=
  ((table.find? fun d => d.1.flatMap String.utf8EncodeChar = bytes).map Prod.snd).getD
    (List.replicate 32 0)

lemma length_digestOf {table : List (Text × List UInt8)} (h : ∀ d ∈ table, d.2.length = 32)
    (bytes : List UInt8) : (digestOf table bytes).length = 32 := by
  rw [digestOf]
  cases hfind : table.find? fun d => d.1.flatMap String.utf8EncodeChar = bytes with
  | none => rfl
  | some d => exact h d (mem_of_find?_eq_some hfind)

def asciiText (bytes : List UInt8) : Text := bytes.map fun b => Char.ofNat b.toNat

lemma asciiText_asciiBytes {t : Text} (h : ∀ c ∈ t, 0 < c.toNat ∧ c.toNat < 128) :
    asciiText (asciiBytes t) = t := by
  induction t with
  | nil => rfl
  | cons c t ih =>
    have hlt := (h c mem_cons_self).2
    have hbyte : (UInt8.ofNat c.toNat).toNat = c.toNat := by
      rw [UInt8.toNat_ofNat']
      omega
    have hrest := ih fun d hd => h d (mem_cons_of_mem c hd)
    rw [asciiText, asciiBytes] at hrest
    rw [asciiBytes, asciiText, map_cons, map_cons, hbyte, Char.ofNat_toNat, hrest]

/-- A machine whose digests and streams are those of tables, and which has no floats to write. -/
def machineOf (digests : List (Text × List UInt8)) (streams : List (List UInt8 × List UInt8)) :
    Machine where
  recursion := 990
  floats _ := false
  crc32 := crc32
  sha256 := digestOf digests
  compress := store streams
  decompress data limit := (restore streams data).map fun raw =>
    ⟨raw.take limit, [], [], decide (raw.length < limit)⟩
  decode bytes := some (asciiText bytes)
  jsonLoads := readJson

lemma lawful_machineOf {digests : List (Text × List UInt8)}
    {streams : List (List UInt8 × List UInt8)} (hdigests : ∀ d ∈ digests, d.2.length = 32)
    (hinjective : ∀ s ∈ streams, ∀ s' ∈ streams, s.2 = s'.2 → s.1 = s'.1)
    (hhead : ∀ s ∈ streams, s.2.head? ≠ some 0) : (machineOf digests streams).Lawful where
  length_sha256 := length_digestOf hdigests
  decompress_compress raw limit hlt := by
    have hdecompress : (machineOf digests streams).decompress
        ((machineOf digests streams).compress raw) limit =
        (restore streams (store streams raw)).map fun raw =>
          ⟨raw.take limit, [], [], decide (raw.length < limit)⟩ := rfl
    rw [hdecompress, restore_store hinjective hhead, map_some, take_of_length_le hlt.le,
      decide_eq_true hlt]
  decode_ascii _ ht := congrArg some (asciiText_asciiBytes ht)
  jsonLoads_dumps _ _ _ _ h := readJson_dumps h

/-- A machine with the digests and the streams of that bundle. -/
def sampleMachine : Machine := machineOf digests streams

lemma lawful_sampleMachine : sampleMachine.Lawful :=
  lawful_machineOf (by decide) (by decide) (by decide)

/-! ## A document that agrees, and one that does not -/

def leftPadBundle : Json :=
  dictOf [("bundleVersion", natJson 1), ("advisories", .list [leftPadAdvisory])]

/-- The advisories that `CveBundle` has of a document. -/
def advisoriesOf (U : Unicode) (doc : Json) : List Advisory :=
  match CveBundle.ofDocument U doc with
  | .ok r => r.1.advisories
  | .error _ => []

def warningsOf (U : Unicode) (doc : Json) : List (Text × ℕ) :=
  match CveBundle.ofDocument U doc with
  | .ok r => r.2.warnings
  | .error _ => []

lemma isOk_of_isSome {α β : Type} {x : Except α β} (h : x.toOption.isSome = true) :
    ∃ b, x = .ok b := by
  cases x with
  | error e => cases h
  | ok b => exact ⟨b, rfl⟩

lemma distinct_leftPadBundle : leftPadBundle.Distinct := by
  simp [leftPadBundle, leftPadAdvisory, dictOf, natJson, Json.Distinct, Json.DistinctMembers,
    Json.DistinctItems]

lemma digestsApart_leftPadBundle : DigestsApart ascii sampleMachine
    (advisoriesOf ascii leftPadBundle) "left-pad".toList (some .npm) := by
  have hapart : ∀ k ∈ keysForLookup ascii "left-pad".toList (some .npm),
      ∀ p ∈ pairsOf (advisoriesOf ascii leftPadBundle), ∀ k' ∈ keysOfPackage ascii p.2,
        keyDigest sampleMachine k = keyDigest sampleMachine k' → k = k' := by decide
  exact hapart

lemma accepted_leftPadBundle {cb : CveBundle} {info : BundleInfo}
    (h : CveBundle.ofDocument ascii leftPadBundle = .ok (cb, info)) :
    Accepted ascii leftPadBundle cb info "left-pad".toList (some .npm) := by
  have hadvisories : cb.advisories = advisoriesOf ascii leftPadBundle := by rw [advisoriesOf, h]
  have hwarnings : info.warnings = warningsOf ascii leftPadBundle := by rw [warningsOf, h]
  constructor
  · rw [hadvisories]
    decide
  · rw [hadvisories]
    decide
  · rw [hwarnings]
    decide
  · constructor
    · intro m hm
      simp [leftPadBundle, get?_dictOf] at hm
    · intro k hk v hv
      simp only [EXTRA, mem_cons, not_mem_nil, or_false] at hk
      obtain rfl | rfl | rfl := hk <;> simp [leftPadBundle, get?_dictOf] at hv
  · intro raws hraws raw hraw _
    simp only [leftPadBundle, get?_dictOf, List.find?_cons, String.reduceEq, decide_false,
      decide_true, map_some, some.injEq, Json.list.injEq] at hraws
    subst hraws
    rw [mem_singleton] at hraw
    subst hraw
    decide

theorem indexed_answers_iff_leftPad : ∃ bytes summary warnings cb info,
    dumpIndex ascii sampleMachine leftPadBundle = .ok (bytes, summary, warnings) ∧
      CveBundle.ofDocument ascii leftPadBundle = .ok (cb, info) ∧
      Answers ascii sampleMachine ⟨true, bytes⟩ cb info "left-pad".toList (some .npm) := by
  have hsome : (dumpIndex ascii sampleMachine leftPadBundle).toOption.isSome = true := by
    decide +kernel
  obtain ⟨⟨bytes, summary, warnings⟩, hdump⟩ := isOk_of_isSome hsome
  have hdigest : ∀ cb info, CveBundle.ofDocument ascii leftPadBundle = .ok (cb, info) →
      DigestsApart ascii sampleMachine cb.advisories "left-pad".toList (some .npm) := by
    intro cb info h
    have hadvisories : cb.advisories = advisoriesOf ascii leftPadBundle := by rw [advisoriesOf, h]
    rw [hadvisories]
    exact digestsApart_leftPadBundle
  obtain ⟨⟨cb, info, hof, hiff⟩, -⟩ := indexed_answers_iff lawful_sampleMachine
    distinct_leftPadBundle hdump "left-pad".toList (some .npm) hdigest
  exact ⟨bytes, summary, warnings, cb, info, hdump, hof, hiff.2 (accepted_leftPadBundle hof)⟩

def nest : ℕ → Json
  | 0 => .list []
  | n + 1 => .list [nest n]

/-- A document whose feeds nest as deep as a document is read. -/
def deepFeeds : Json := dictOf [("bundleVersion", natJson 1), ("feeds", nest 498)]

lemma distinct_nest (n : ℕ) : (nest n).Distinct := by
  induction n with
  | zero => trivial
  | succ n ih => exact ⟨ih, trivial⟩

lemma depth_nest (n : ℕ) : (nest n).depth = n + 1 := by
  induction n with
  | zero => rfl
  | succ n ih => rw [nest, Json.depth, Json.depthItems, ih, Json.depthItems, max_zero]

lemma distinct_deepFeeds : deepFeeds.Distinct := by
  have hkeys : ["bundleVersion", "feeds"].Nodup := by decide
  apply distinct_dictOf
  · exact hkeys
  · intro m hm
    simp only [mem_cons, not_mem_nil, or_false] at hm
    obtain rfl | rfl := hm
    · trivial
    · exact distinct_nest 498

lemma length_writeItems (l : List Json) :
    (writeItems l).length = (l.map fun v => (write v).length).sum + (l.length - 1) := by
  induction l with
  | nil => rfl
  | cons v l ih =>
    have hcomma : (if l = [] then [] else [',']).length + (l.length - 1) = l.length := by
      cases l <;> simp
      omega
    rw [writeItems, length_append, length_append, ih, map_cons, sum_cons, length_cons]
    omega

lemma length_writeMembers (m : List (Text × Json)) : (writeMembers m).length =
    (m.map fun e => (quote e.1).length + (write e.2).length + 1).sum + (m.length - 1) := by
  induction m with
  | nil => rfl
  | cons e m ih =>
    have hcomma : (if m = [] then [] else [',']).length + (m.length - 1) = m.length := by
      cases m <;> simp
      omega
    rw [writeMembers, length_append, length_cons, length_append,
      length_append, ih, map_cons, sum_cons, length_cons]
    omega

mutual

lemma length_write_sorted : ∀ v : Json, (write v.sorted).length = (write v).length
  | .null | .bool _ | .number _ | .text _ => rfl
  | .list l => by
    simp only [Json.sorted, write, length_cons, length_append, length_writeItems_sorted l]
  | .dict m => by
    have hperm := perm_insertionSort (fun a b : Text × Json => a.1 ≤ b.1)
      (Json.sortedMembers m)
    simp only [Json.sorted, write, length_cons, length_append]
    rw [length_writeMembers, (hperm.map _).sum_nat, hperm.length_eq, ← length_writeMembers,
      length_writeMembers_sorted m]

lemma length_writeItems_sorted : ∀ l : List Json,
    (writeItems (Json.sortedItems l)).length = (writeItems l).length
  | [] => rfl
  | v :: l => by
    have hrest := length_writeItems_sorted l
    rw [length_writeItems, length_writeItems] at hrest ⊢
    rw [Json.sortedItems, map_cons, map_cons, sum_cons, sum_cons,
      length_write_sorted v, length_cons, length_cons]
    simp only [Json.sortedItems_eq, length_map] at hrest ⊢
    omega

lemma length_writeMembers_sorted : ∀ m : List (Text × Json),
    (writeMembers (Json.sortedMembers m)).length = (writeMembers m).length
  | [] => rfl
  | e :: m => by
    have hrest := length_writeMembers_sorted m
    rw [length_writeMembers, length_writeMembers] at hrest ⊢
    rw [Json.sortedMembers, map_cons, map_cons, sum_cons, sum_cons,
      length_write_sorted e.2, length_cons, length_cons]
    simp only [Json.sortedMembers_eq, length_map] at hrest ⊢
    omega

end

lemma length_write_nest (n : ℕ) : (write (nest n)).length = 2 * n + 2 := by
  induction n with
  | zero => rfl
  | succ n ih =>
    simp only [nest, write, writeItems, if_true, append_nil, length_cons,
      length_append, ih, length_nil]
    omega

lemma finite_nest (floats : Text → Bool) (n : ℕ) : (nest n).finite floats = true := by
  induction n with
  | zero => rfl
  | succ n ih => rw [nest, Json.finite, Json.finiteItems, ih, Json.finiteItems]; rfl

/-- The metadata of a document that has nothing but feeds. -/
def feedsMetadata (feeds : Json) : Json :=
  dictOf [("bundleVersion", natJson 1), ("generatedAt", .null), ("sources", .list []),
    ("counts", .dict []), ("warnings", .dict []), ("extra", dictOf [("feeds", feeds)]),
    ("format", natJson 1), ("advisories", natJson 0), ("keys", natJson 0), ("postings", natJson 0)]

lemma metadata_deepFeeds {h : BundleHeader} (hh : bundleHeader deepFeeds = .ok h) :
    withCounts (metadataOf deepFeeds h []) 0 0 0 = feedsMetadata (nest 498) := by
  cases hh
  have hfeeds : deepFeeds.get? "feeds" = some (nest 498) := by simp [deepFeeds, get?_dictOf]
  have hgenerator : deepFeeds.get? "generator" = none := by simp [deepFeeds, get?_dictOf]
  have hattribution : deepFeeds.get? "attribution" = none := by simp [deepFeeds, get?_dictOf]
  simp only [metadataOf, EXTRA, filterMap_cons, hfeeds, hgenerator, hattribution,
    map_none, map_some, filterMap_nil, withCounts]
  rfl

lemma dumps_feedsMetadata {floats : Text → Bool} {feeds : Json} (hfinite : feeds.finite floats)
    (hdepth : feeds.depth ≤ 900) (hlen : (write feeds).length ≤ 1000) :
    ∃ text, dumps floats 990 (feedsMetadata feeds) = some text ∧
      (asciiBytes text).length ≤ MAX_META_BYTES := by
  refine ⟨_, dumps_eq_some.2 ⟨⟨?_, ?_⟩, rfl⟩, ?_⟩
  · simp [feedsMetadata, dictOf, Json.finite, Json.finiteMembers, Json.finiteItems, hfinite,
      natJson]
    exact ⟨rfl, rfl⟩
  · simp [feedsMetadata, dictOf, Json.depth, Json.depthMembers, Json.depthItems, natJson]
    omega
  · have hone : (Nat.toDigits 10 1).length = 1 := by decide
    rw [asciiBytes, length_map, length_write_sorted, feedsMetadata, MAX_META_BYTES]
    simp [dictOf, write, writeItems, writeMembers, natJson, quote, escapeChar, hone]
    omega

lemma exists_assemble {M : Machine} (hcrc : ∀ bytes, M.crc32 bytes < 2 ^ 32)
    {metadata : List (String × Json)} {text : Text}
    (htext : dumps M.floats M.recursion (withCounts metadata 0 0 0) = some text)
    (hlen : (asciiBytes text).length ≤ MAX_META_BYTES) :
    ∃ written, assemble M metadata [] [] = .ok written := by
  have hpacked : ∀ crc < 2 ^ 32, ∃ bytes,
      ({ headerOf M (asciiBytes text) [] [] [] 0 0 0 with headerCrc := crc } : Header).pack =
        .ok bytes := by
    intro crc hcrc'
    refine ⟨_, except_map_eq_ok.2 ⟨_, packed_eq_ok.2 (Packed.pack_eq_some.2 ⟨?_, rfl⟩), rfl⟩⟩
    have hmeta := hcrc (asciiBytes text)
    have hnil := hcrc []
    rw [MAX_META_BYTES] at hlen
    simp only [Header.fields, headerOf, forall_mem_cons, length_nil, HEADER_SIZE, FORMAT]
    norm_num
    omega
  obtain ⟨unsigned, hunsigned⟩ : ∃ bytes,
      (headerOf M (asciiBytes text) [] [] [] 0 0 0).pack = .ok bytes := hpacked 0 (by decide)
  obtain ⟨header, hheader⟩ := hpacked _ (hcrc unsigned)
  have hwritten : assemble M metadata [] [] = .ok (header ++ (asciiBytes text ++ []),
      ⟨0, 0, 0, HEADER_SIZE + (asciiBytes text).length⟩) := by
    have hkeys : writeRecords M (fun p => keyDigest M p.1) entryRecord
      (fun p => .entry p.1) 0 (sortedEntries M []) = .ok [] := rfl
    simp only [assemble, zipIdx_nil, writeRecords, except_ok_bind, map_nil, firstShared,
      flatten_nil, length_nil, hkeys, totalPostings, sum_nil, htext,
      if_neg (not_lt.2 hlen), append_nil, hunsigned, hheader]
    rfl
  exact ⟨_, hwritten⟩

lemma exists_dump_deepFeeds : ∃ r, dumpIndex ascii sampleMachine deepFeeds = .ok r := by
  obtain ⟨h, hh⟩ : ∃ h, bundleHeader deepFeeds = .ok h := ⟨_, rfl⟩
  obtain ⟨text, htext, hlen⟩ := dumps_feedsMetadata (finite_nest _ 498)
    ((depth_nest 498).trans_le (by decide)) ((length_write_nest 498).trans_le (by decide))
  rw [← metadata_deepFeeds hh] at htext
  obtain ⟨written, hwritten⟩ := exists_assemble (M := sampleMachine) crc32_lt htext hlen
  have hnone : h.advisories = [] ∧ h.warnings = [] := by
    cases hh
    exact ⟨rfl, rfl⟩
  have hempty : warningCounts [] = [] := rfl
  rw [dumpIndex, hh]
  dsimp only
  rw [hnone.1, hnone.2, foldl_nil, map_nil, hempty, hwritten]
  exact ⟨_, rfl⟩

/-- A document that is as deep as one is read from a file: it is written, and what is written is
refused. -/
theorem deepFeeds_not_opened : sampleMachine.Lawful ∧ deepFeeds.Distinct ∧
    deepFeeds.depth ≤ MAX_MANIFEST_DEPTH ∧
    ∃ bytes summary warnings cb info,
      dumpIndex ascii sampleMachine deepFeeds = .ok (bytes, summary, warnings) ∧
        CveBundle.ofDocument ascii deepFeeds = .ok (cb, info) ∧
        ∀ name ecosystem, ¬ Answers ascii sampleMachine ⟨true, bytes⟩ cb info name ecosystem := by
  have hdepth : deepFeeds.depth ≤ MAX_MANIFEST_DEPTH := by
    rw [deepFeeds, dictOf, Json.depth, Json.depthMembers_eq]
    simp [Json.depthItems, depth_nest, natJson, Json.depth, MAX_MANIFEST_DEPTH]
  obtain ⟨⟨bytes, summary, warnings⟩, hdump⟩ := exists_dump_deepFeeds
  obtain ⟨I⟩ := exists_indexed hdump
  refine ⟨lawful_sampleMachine, distinct_deepFeeds, hdepth, bytes, summary, warnings, _, _, hdump,
    I.ofDocument_eq, ?_⟩
  rintro name ecosystem ⟨b, hopen, -⟩
  obtain ⟨⟨-, hmeta, -⟩, -⟩ := (I.openIndex_eq lawful_sampleMachine distinct_deepFeeds b).1 hopen
  have hfeeds : deepFeeds.get? "feeds" = some (nest 498) := by simp [deepFeeds, get?_dictOf]
  have hle := hmeta.2 "feeds" (by decide) (nest 498) hfeeds
  rw [depth_nest] at hle
  exact absurd hle (by decide)

end Lazaret.Sca
