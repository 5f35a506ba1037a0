import Lazaret.Sca.IndexedBundle

/-!
# What is written is read

A file that `assemble` wrote, as it is opened and read.  `openIndex_written`: it opens exactly when
the reader's bounds admit it, with the metadata's fields as they were given; `record_written`: a
record is read back exactly when its value nests no deeper than the bound.
-/

namespace Lazaret.Sca

open List

variable {U : Unicode} {M : Machine} {α : Type}

/-! ## Text -/

theorem jsonLoadsBounded_dumps (hM : M.Lawful) {v : Json} (hv : v.Distinct) {text : Text}
    (h : dumps M.floats M.recursion v = some text) :
    IndexedBundle.jsonLoadsBounded M (asciiBytes text) =
      if v.depth ≤ MAX_MANIFEST_DEPTH then some v.sorted else none := by
  rw [IndexedBundle.jsonLoadsBounded, hM.decode_ascii text (ascii_dumps h), Option.bind_some,
    jsonDepthExceeds_dumps h]
  by_cases hdepth : v.depth ≤ MAX_MANIFEST_DEPTH
  · rw [if_pos hdepth, decide_eq_false (not_lt.2 hdepth), if_neg Bool.false_ne_true]
    exact hM.jsonLoads_dumps v text hv hdepth h
  · rw [if_neg hdepth, decide_eq_true (not_le.1 hdepth), if_pos rfl]

/-! ## Records -/

variable {bytes : List UInt8}

lemma packed_eq_ok {fields : List (ℕ × ℕ)} :
    packed fields = .ok bytes ↔ Packed.pack fields = some bytes := by
  rw [packed]
  split <;> simp_all

variable {data : List UInt8}

lemma packRecord_eq_ok {obj : Json} {what : Piece} (h : packRecord M obj what = .ok data) :
    data.length ≤ MAX_STORED_BYTES ∧ ∃ text, dumps M.floats M.recursion obj = some text ∧
      (asciiBytes text).length ≤ MAX_RECORD_BYTES ∧ M.compress (asciiBytes text) = data := by
  rw [packRecord] at h
  split at h
  · cases h
  · rename_i text htext
    dsimp only at h
    split at h
    · cases h
    · rename_i hraw
      split at h
      · cases h
      · rename_i hstored
        cases h
        exact ⟨not_lt.1 hstored, text, htext, not_lt.1 hraw, rfl⟩

lemma length_entry {off : ℕ} {entry : List UInt8}
    (h : packed (entryFields M (off, data)) = .ok entry) : entry.length = 16 :=
  Packed.length_of_pack (packed_eq_ok.1 h)

lemma entryAt_entry {off : ℕ} {entry : List UInt8}
    (h : packed (entryFields M (off, data)) = .ok entry) (rest : List UInt8) :
    IndexedBundle.entryAt (entry ++ rest) = (off, data.length, M.crc32 data) := by
  have hunpack := Packed.unpack_pack (packed_eq_ok.1 h) rest
  have hwidths : (entryFields M (off, data)).map Prod.fst = [8, 4, 4] := rfl
  rw [hwidths] at hunpack
  rw [IndexedBundle.entryAt, hunpack]
  rfl

variable {before : α → List UInt8} {obj : α → Json} {what : α → Piece}

variable {rs : List (List UInt8 × List UInt8)} {pos : ℕ} {xs : List α}

lemma writeRecords_cons {x : α} (h : writeRecords M before obj what pos (x :: xs) = .ok rs) :
    ∃ data entry rest, packRecord M (obj x) (what x) = .ok data ∧
      packed (entryFields M (pos, data)) = .ok entry ∧
      writeRecords M before obj what (pos + data.length) xs = .ok rest ∧
      rs = (before x ++ entry, data) :: rest := by
  rw [writeRecords] at h
  simp only [except_bind_eq_ok] at h
  obtain ⟨data, hdata, entry, hentry, rest, hrest, h⟩ := h
  cases h
  exact ⟨data, entry, rest, hdata, hentry, hrest, rfl⟩

lemma length_writeRecords
    (h : writeRecords M before obj what pos xs = .ok rs) : rs.length = xs.length := by
  induction xs generalizing pos rs with
  | nil =>
    cases h
    rfl
  | cons x xs ih =>
    obtain ⟨data, entry, rest, -, -, hrest, rfl⟩ := writeRecords_cons h
    rw [length_cons, ih hrest, length_cons]

lemma writeRecords_getElem?
    (h : writeRecords M before obj what pos xs = .ok rs) {i : ℕ} {x : α} (hx : xs[i]? = some x) :
    ∃ off data entry, rs[i]? = some (before x ++ entry, data) ∧
      packRecord M (obj x) (what x) = .ok data ∧
      packed (entryFields M (off, data)) = .ok entry ∧
      (off, data) ∈ Packed.spans pos (rs.map Prod.snd) := by
  induction xs generalizing pos rs i with
  | nil => simp at hx
  | cons y xs ih =>
    obtain ⟨data, entry, rest, hdata, hentry, hrest, rfl⟩ := writeRecords_cons h
    cases i with
    | zero =>
      rw [getElem?_cons_zero, Option.some.injEq] at hx
      subst hx
      exact ⟨pos, data, entry, rfl, hdata, hentry, mem_cons_self⟩
    | succ i =>
      rw [getElem?_cons_succ] at hx
      obtain ⟨off, data', entry', hr, hpack, hfields, hmem⟩ := ih hrest hx
      exact ⟨off, data', entry', hr, hpack, hfields, mem_cons_of_mem _ hmem⟩

variable {w : ℕ}

lemma length_of_mem_writeRecords (h : writeRecords M before obj what pos xs = .ok rs)
    (hw : ∀ x, (before x).length = w) : ∀ r ∈ rs, r.1.length = w + 16 := by
  induction xs generalizing pos rs with
  | nil =>
    cases h
    exact fun r hr => absurd hr not_mem_nil
  | cons x xs ih =>
    obtain ⟨data, entry, rest, -, hentry, hrest, rfl⟩ := writeRecords_cons h
    rw [forall_mem_cons]
    refine ⟨?_, ih hrest⟩
    rw [length_append, hw, length_entry hentry]

lemma drop_table {i : ℕ} {r : List UInt8 × List UInt8}
    (hw : ∀ r ∈ rs, r.1.length = w) (hr : rs[i]? = some r) :
    ∃ rest, (rs.map Prod.fst).flatten.drop (i * w) = r.1 ++ rest := by
  rw [← flatMap_def, Packed.drop_flatMap hw]
  obtain ⟨hi, rfl⟩ := List.getElem?_eq_some_iff.1 hr
  rw [drop_eq_getElem_cons hi, flatMap_cons]
  exact ⟨_, rfl⟩

lemma length_table (hw : ∀ r ∈ rs, r.1.length = w) :
    (rs.map Prod.fst).flatten.length = w * rs.length := by
  rw [← flatMap_def, Packed.length_flatMap hw]

/-! ## The header -/

variable {h : Header}

lemma Header.pack_eq_ok (hp : h.pack = .ok bytes) :
    ∃ packed, Packed.pack h.fields = some packed ∧ bytes = MAGIC ++ packed := by
  obtain ⟨body, hbody, rfl⟩ := except_map_eq_ok.1 hp
  exact ⟨body, packed_eq_ok.1 hbody, rfl⟩

lemma Header.length_pack (hp : h.pack = .ok bytes) : bytes.length = HEADER_SIZE := by
  obtain ⟨body, hbody, rfl⟩ := Header.pack_eq_ok hp
  rw [length_append, Packed.length_of_pack hbody]
  rfl

lemma Header.unpack_pack (hp : h.pack = .ok bytes) :
    Header.unpack (bytes.drop MAGIC.length) = h := by
  obtain ⟨body, hbody, rfl⟩ := Header.pack_eq_ok hp
  have hunpack := Packed.unpack_pack hbody []
  have hwidths : h.fields.map Prod.fst = headerWidths := rfl
  rw [append_nil, hwidths] at hunpack
  rw [drop_left, Header.unpack, hunpack]
  rfl

lemma Header.pack_unsigned {crc : ℕ} {unsigned : List UInt8}
    (hu : { h with headerCrc := 0 }.pack = .ok unsigned)
    (hp : { h with headerCrc := crc }.pack = .ok bytes) :
    bytes.take (HEADER_SIZE - 4) ++ [0, 0, 0, 0] = unsigned := by
  obtain ⟨body, hbody, rfl⟩ := Header.pack_eq_ok hp
  obtain ⟨body', hbody', rfl⟩ := Header.pack_eq_ok hu
  obtain ⟨-, rfl⟩ := Packed.pack_eq_some.1 hbody
  obtain ⟨-, rfl⟩ := Packed.pack_eq_some.1 hbody'
  have hsplit : ∀ c, ({ h with headerCrc := c } : Header).fields =
      h.fields.dropLast ++ [(4, c)] := fun c => rfl
  have hlen : (MAGIC ++ h.fields.dropLast.flatMap fun f => Packed.toBytes f.1 f.2).length =
      HEADER_SIZE - 4 := by
    have hbody : (h.fields.dropLast.map fun f => (Packed.toBytes f.1 f.2).length) =
        h.fields.dropLast.map Prod.fst := map_congr_left fun f _ => Packed.length_toBytes _ _
    have hwidths : h.fields.dropLast.map Prod.fst = headerWidths.dropLast := rfl
    rw [length_append, length_flatMap, hbody, hwidths]
    rfl
  rw [hsplit crc, hsplit 0, flatMap_append, flatMap_append, ← append_assoc,
    take_left' hlen, ← append_assoc]
  rfl

/-! ## The file -/

def CountsAccepted (advisories keys : ℕ) : Prop := advisories ≤ MAX_ADVISORIES ∧ keys ≤ MAX_KEYS

instance (advisories keys : ℕ) : Decidable (CountsAccepted advisories keys) :=
  inferInstanceAs (Decidable (_ ∧ _))

/-- The parts of a file that `assemble` wrote, and how each came about. -/
structure Written (M : Machine) (metadata : List (String × Json)) (advRecords : List Json)
    (postings : List (Text × List Posting)) (bytes : List UInt8) where
  advs : List (List UInt8 × List UInt8)
  keys : List (List UInt8 × List UInt8)
  text : Text
  unsigned : List UInt8
  header : List UInt8
  advs_eq : writeRecords M (fun _ => []) Prod.fst (fun r => .advisory r.2) 0 advRecords.zipIdx =
    .ok advs
  firstShared_eq : firstShared M [] (postings.map Prod.fst) = none
  keys_eq : writeRecords M (fun p => keyDigest M p.1) entryRecord (fun p => .entry p.1)
    (advs.map Prod.snd).flatten.length (sortedEntries M postings) = .ok keys
  text_eq : dumps M.floats M.recursion (withCounts metadata advRecords.length postings.length
    (totalPostings postings)) = some text
  text_le : (asciiBytes text).length ≤ MAX_META_BYTES
  unsigned_eq : (headerOf M (asciiBytes text) (advs.map Prod.fst).flatten
    (keys.map Prod.fst).flatten (advs.map Prod.snd ++ keys.map Prod.snd).flatten
    advRecords.length postings.length (totalPostings postings)).pack = .ok unsigned
  header_eq : { headerOf M (asciiBytes text) (advs.map Prod.fst).flatten
    (keys.map Prod.fst).flatten (advs.map Prod.snd ++ keys.map Prod.snd).flatten
    advRecords.length postings.length (totalPostings postings) with
      headerCrc := M.crc32 unsigned }.pack = .ok header
  bytes_eq : bytes = header ++ (asciiBytes text ++ ((advs.map Prod.fst).flatten ++
    ((keys.map Prod.fst).flatten ++ (advs.map Prod.snd ++ keys.map Prod.snd).flatten)))

variable {metadata : List (String × Json)} {advRecords : List Json}
  {postings : List (Text × List Posting)} {bytes : List UInt8}

lemma written_of_assemble {summary : IndexSummary}
    (h : assemble M metadata advRecords postings = .ok (bytes, summary)) :
    Nonempty (Written M metadata advRecords postings bytes) := by
  rw [assemble] at h
  simp only [except_bind_eq_ok] at h
  obtain ⟨advs, hadvs, h⟩ := h
  split at h
  · cases h
  · rename_i hshared
    simp only [except_bind_eq_ok] at h
    obtain ⟨keys, hkeys, h⟩ := h
    split at h
    · cases h
    · rename_i text htext
      split at h
      · cases h
      · rename_i hlen
        simp only [except_bind_eq_ok] at h
        obtain ⟨unsigned, hunsigned, header, hheader, h⟩ := h
        rw [Except.ok.injEq, Prod.mk.injEq] at h
        exact ⟨⟨advs, keys, text, unsigned, header, hadvs, hshared, hkeys, htext, not_lt.1 hlen,
          hunsigned, hheader, h.1.symm⟩⟩

namespace Written

variable (W : Written M metadata advRecords postings bytes)

def advTable : List UInt8 := (W.advs.map Prod.fst).flatten

def keyTable : List UInt8 := (W.keys.map Prod.fst).flatten

def blobs : List UInt8 := (W.advs.map Prod.snd ++ W.keys.map Prod.snd).flatten

def head : Header :=
  { headerOf M (asciiBytes W.text) W.advTable W.keyTable W.blobs advRecords.length postings.length
      (totalPostings postings) with headerCrc := M.crc32 W.unsigned }

def file (_ : Written M metadata advRecords postings bytes) : File := ⟨true, bytes⟩

lemma head_pack : W.head.pack = .ok W.header := W.header_eq

lemma length_advs : W.advs.length = advRecords.length := by
  rw [length_writeRecords W.advs_eq, length_zipIdx]

lemma length_keys : W.keys.length = postings.length := by
  rw [length_writeRecords W.keys_eq, sortedEntries, length_insertionSort]

lemma length_keyDigest (hM : M.Lawful) (key : Text) : (keyDigest M key).length = DIGEST_BYTES := by
  rw [keyDigest, length_take, hM.length_sha256]
  rfl

lemma length_of_mem_advs : ∀ r ∈ W.advs, r.1.length = ADV_ENTRY :=
  length_of_mem_writeRecords W.advs_eq fun _ => rfl

lemma length_of_mem_keys (hM : M.Lawful) : ∀ r ∈ W.keys, r.1.length = KEY_ENTRY :=
  length_of_mem_writeRecords W.keys_eq fun _ => length_keyDigest hM _

lemma length_advTable : W.advTable.length = ADV_ENTRY * advRecords.length := by
  rw [advTable, length_table W.length_of_mem_advs, length_advs]

lemma length_keyTable (hM : M.Lawful) : W.keyTable.length = KEY_ENTRY * postings.length := by
  rw [keyTable, length_table (W.length_of_mem_keys hM), length_keys]

lemma length_header : W.header.length = HEADER_SIZE := Header.length_pack W.head_pack

lemma read_part {f : File} {a p z : List UInt8} (hf : f.bytes = a ++ (p ++ z)) {off : ℕ}
    (hoff : off = a.length) : f.read off p.length = p := by
  rw [File.read, hf, hoff, drop_left, take_left]

lemma read_header : W.file.read 0 HEADER_SIZE = W.header := by
  rw [← W.length_header]
  exact read_part (a := []) W.bytes_eq rfl

lemma read_meta : W.file.read HEADER_SIZE (asciiBytes W.text).length = asciiBytes W.text :=
  read_part W.bytes_eq W.length_header.symm

lemma read_advTable : W.file.read W.head.advtabOff W.advTable.length = W.advTable := by
  have hf : W.file.bytes = (W.header ++ asciiBytes W.text) ++ (W.advTable ++
      (W.keyTable ++ W.blobs)) := W.bytes_eq.trans (append_assoc _ _ _).symm
  apply read_part hf
  rw [length_append, length_header]
  rfl

lemma read_keyTable : W.file.read W.head.keytabOff W.keyTable.length = W.keyTable := by
  have hf : W.file.bytes = (W.header ++ asciiBytes W.text ++ W.advTable) ++
      (W.keyTable ++ W.blobs) := by
    rw [append_assoc, append_assoc]
    exact W.bytes_eq
  apply read_part hf
  rw [length_append, length_append, length_header]
  rfl

lemma length_bytes : bytes.length = W.head.fileLen := by
  have hlen : W.head.fileLen = HEADER_SIZE + (asciiBytes W.text).length + W.advTable.length +
      W.keyTable.length + W.blobs.length := rfl
  rw [hlen]
  conv_lhs => rw [W.bytes_eq]
  simp only [length_append, length_header, advTable, keyTable, blobs]
  omega

lemma checkHeader_eq (hM : M.Lawful) : IndexedBundle.checkHeader M W.file =
    if CountsAccepted advRecords.length postings.length then .ok W.head
    else .error (.damaged "a count over the limits") := by
  have hhead : Header.unpack ((W.file.read 0 HEADER_SIZE).drop MAGIC.length) = W.head := by
    rw [W.read_header, Header.unpack_pack W.head_pack]
  have hmagic : (W.file.read 0 HEADER_SIZE).take MAGIC.length = MAGIC := by
    obtain ⟨body, -, hheader⟩ := Header.pack_eq_ok W.head_pack
    rw [W.read_header, hheader, take_left]
  have hlen : ¬ (W.file.read 0 HEADER_SIZE).length < HEADER_SIZE := by
    rw [W.read_header, length_header]
    exact lt_irrefl _
  have hcrc : M.crc32 ((W.file.read 0 HEADER_SIZE).take (HEADER_SIZE - 4) ++ [0, 0, 0, 0]) =
      W.head.headerCrc := by
    rw [W.read_header, Header.pack_unsigned W.unsigned_eq W.header_eq]
    rfl
  have hsize : W.head.fileLen = W.file.bytes.length := W.length_bytes.symm
  have hlayout : ¬ (W.head.metaOff ≠ HEADER_SIZE ∨
      W.head.advtabOff ≠ W.head.metaOff + W.head.metaLen ∨
      W.head.keytabOff ≠ W.head.advtabOff + ADV_ENTRY * W.head.advisories ∨
      W.head.blobsOff ≠ W.head.keytabOff + KEY_ENTRY * W.head.keys ∨
      W.head.blobsOff > W.head.fileLen) := by
    have hadvs : W.head.keytabOff = W.head.advtabOff + W.advTable.length := rfl
    have hkeys : W.head.blobsOff = W.head.keytabOff + W.keyTable.length := rfl
    have hblobs : W.head.fileLen = W.head.blobsOff + W.blobs.length := rfl
    rw [length_advTable] at hadvs
    rw [W.length_keyTable hM] at hkeys
    rintro (h | h | h | h | h)
    · exact h rfl
    · exact h rfl
    · exact h hadvs
    · exact h hkeys
    · omega
  have hformat : W.head.format = FORMAT := rfl
  have hflags : W.head.flags = 0 := rfl
  rw [IndexedBundle.checkHeader]
  simp only [hhead]
  rw [if_neg (by exact Bool.noConfusion), if_neg (not_not.2 hmagic), if_neg hlen,
    if_neg (not_not.2 hformat), if_neg (not_not.2 hcrc), if_neg (not_not.2 hflags),
    if_neg (not_not.2 hsize)]
  by_cases hcounts : CountsAccepted advRecords.length postings.length
  · have hlimits : ¬ (W.head.advisories > MAX_ADVISORIES ∨ W.head.keys > MAX_KEYS ∨
        W.head.metaLen > MAX_META_BYTES) := by
      rintro (h | h | h)
      · exact absurd hcounts.1 (not_le.2 h)
      · exact absurd hcounts.2 (not_le.2 h)
      · exact absurd W.text_le (not_le.2 h)
    rw [if_neg hlimits, if_neg hlayout, if_pos hcounts]
  · have hlimits : W.head.advisories > MAX_ADVISORIES ∨ W.head.keys > MAX_KEYS ∨
        W.head.metaLen > MAX_META_BYTES := by
      by_contra h
      rw [not_or, not_or] at h
      exact hcounts ⟨not_lt.1 h.1, not_lt.1 h.2.1⟩
    rw [if_pos hlimits, if_neg hcounts]

lemma part_eq {off length crc : ℕ} {data : List UInt8} {what : String}
    (hread : W.file.read off length = data) (hlen : data.length = length)
    (hcrc : M.crc32 data = crc) : IndexedBundle.part M W.file off length crc what = .ok data := by
  rw [IndexedBundle.part]
  simp only [hread]
  rw [if_neg (not_not.2 hlen), if_neg (not_not.2 hcrc)]

/-! ### The key table -/

lemma digestAt_keyTable (hM : M.Lawful) {i : ℕ} {p : Text × List Posting}
    (hp : (sortedEntries M postings)[i]? = some p) :
    IndexedBundle.digestAt W.keyTable i = byteValues (keyDigest M p.1) := by
  obtain ⟨off, data, entry, hr, -⟩ := writeRecords_getElem? W.keys_eq hp
  obtain ⟨rest, hdrop⟩ := drop_table (W.length_of_mem_keys hM) hr
  rw [IndexedBundle.digestAt, keyTable, hdrop, append_assoc, take_left' (length_keyDigest hM p.1)]

lemma drop_keyTable (hM : M.Lawful) {i : ℕ} {p : Text × List Posting}
    (hp : (sortedEntries M postings)[i]? = some p) :
    ∃ off data, packRecord M (entryRecord p) (.entry p.1) = .ok data ∧
      (off, data) ∈ Packed.spans (W.advs.map Prod.snd).flatten.length (W.keys.map Prod.snd) ∧
      IndexedBundle.entryAt (W.keyTable.drop (i * KEY_ENTRY + DIGEST_BYTES)) =
        (off, data.length, M.crc32 data) := by
  obtain ⟨off, data, entry, hr, hdata, hentry, hmem⟩ := writeRecords_getElem? W.keys_eq hp
  obtain ⟨rest, hdrop⟩ := drop_table (W.length_of_mem_keys hM) hr
  refine ⟨off, data, hdata, hmem, ?_⟩
  rw [← drop_drop, keyTable, hdrop, append_assoc,
    drop_left' (length_keyDigest hM p.1), entryAt_entry hentry]

lemma drop_advTable {n : ℕ} {rec_ : Json} (hrec : advRecords[n]? = some rec_) :
    ∃ off data, packRecord M rec_ (.advisory n) = .ok data ∧
      (off, data) ∈ Packed.spans 0 (W.advs.map Prod.snd) ∧
      IndexedBundle.entryAt (W.advTable.drop (n * ADV_ENTRY)) =
        (off, data.length, M.crc32 data) := by
  have hzip : advRecords.zipIdx[n]? = some (rec_, n) := by
    rw [getElem?_zipIdx, hrec]
    simp
  obtain ⟨off, data, entry, hr, hdata, hentry, hmem⟩ := writeRecords_getElem? W.advs_eq hzip
  obtain ⟨rest, hdrop⟩ := drop_table W.length_of_mem_advs hr
  refine ⟨off, data, hdata, hmem, ?_⟩
  rw [advTable, hdrop, nil_append, entryAt_entry hentry]

end Written

lemma distinct_of_firstShared {seen keys : List Text} (h : firstShared M seen keys = none) :
    (∀ k ∈ seen, ∀ k' ∈ keys, keyDigest M k ≠ keyDigest M k') ∧
      keys.Pairwise fun k k' => keyDigest M k ≠ keyDigest M k' := by
  induction keys generalizing seen with
  | nil => exact ⟨fun _ _ _ hk => absurd hk not_mem_nil, Pairwise.nil⟩
  | cons key rest ih =>
    rw [firstShared] at h
    split at h
    · cases h
    · rename_i hfind
      obtain ⟨hseen, hrest⟩ := ih h
      have hnew : ∀ k ∈ seen, keyDigest M k ≠ keyDigest M key := fun k hk => by
        simpa using List.find?_eq_none.1 hfind k hk
      constructor
      · intro k hk k' hk'
        obtain rfl | hk' := mem_cons.1 hk'
        · exact hnew k hk
        · exact hseen k (mem_append_left _ hk) k' hk'
      · rw [pairwise_cons]
        exact ⟨fun k' hk' => hseen key (by simp) k' hk', hrest⟩

lemma byteValues_injective {a b : List UInt8} (h : byteValues a = byteValues b) : a = b :=
  map_injective_iff.2 (fun _ _ hxy => UInt8.toNat_inj.1 hxy) h

namespace Written

variable (W : Written M metadata advRecords postings bytes)

lemma sortedEntries_strict (W : Written M metadata advRecords postings bytes) :
    (sortedEntries M postings).Pairwise fun a b =>
      byteValues (keyDigest M a.1) < byteValues (keyDigest M b.1) := by
  have hdistinct : (sortedEntries M postings).Pairwise fun a b =>
      byteValues (keyDigest M a.1) ≠ byteValues (keyDigest M b.1) := by
    refine (Perm.pairwise_iff (fun h => Ne.symm h) (perm_insertionSort _ postings)).2 ?_
    have hkeys := (distinct_of_firstShared W.firstShared_eq).2
    rw [pairwise_map] at hkeys
    exact hkeys.imp fun hne h => hne (byteValues_injective h)
  have hsorted : (sortedEntries M postings).Pairwise fun a b =>
      byteValues (keyDigest M a.1) ≤ byteValues (keyDigest M b.1) :=
    pairwise_insertionSort _ postings
  exact (hsorted.and hdistinct).imp fun h => lt_of_le_of_ne h.1 h.2

lemma inOrder_keyTable (hM : M.Lawful) :
    IndexedBundle.inOrder W.keyTable postings.length 0 = true := by
  apply IndexedBundle.inOrder_of_strict
  intro j hj
  have hlen : (sortedEntries M postings).length = postings.length := length_insertionSort _ _
  rw [← hlen] at hj
  rw [W.digestAt_keyTable hM (getElem?_eq_getElem (Nat.lt_of_succ_lt hj)),
    W.digestAt_keyTable hM (getElem?_eq_getElem hj)]
  exact pairwise_iff_getElem.1 W.sortedEntries_strict j (j + 1) _ hj (Nat.lt_succ_self j)

/-- The bundle that is open, with what the metadata says. -/
def opened (info : BundleInfo) : IndexedBundle := ⟨W.file, W.head, W.advTable, W.keyTable, info⟩

/-- A file that was written opens where its counts are accepted, its metadata nests no deeper than
the bound, and its fields are what they must be. -/
theorem openIndex_eq (hM : M.Lawful)
    (hmeta : (withCounts metadata advRecords.length postings.length
      (totalPostings postings)).Distinct) (b : IndexedBundle) :
    IndexedBundle.openIndex M W.file = .ok b ↔
      CountsAccepted advRecords.length postings.length ∧
      (withCounts metadata advRecords.length postings.length
        (totalPostings postings)).depth ≤ MAX_MANIFEST_DEPTH ∧
      ∃ info, IndexedBundle.takeMeta W.head (withCounts metadata advRecords.length postings.length
        (totalPostings postings)).sorted = .ok info ∧ b = W.opened info := by
  rw [IndexedBundle.openIndex, W.checkHeader_eq hM]
  by_cases hcounts : CountsAccepted advRecords.length postings.length
  · have hmetaPart : IndexedBundle.part M W.file W.head.metaOff W.head.metaLen W.head.metaCrc
        "the metadata" = .ok (asciiBytes W.text) := W.part_eq W.read_meta rfl rfl
    have hadvPart : IndexedBundle.part M W.file W.head.advtabOff (ADV_ENTRY * W.head.advisories)
        W.head.advtabCrc "the advisory table" = .ok W.advTable :=
      W.part_eq (W.length_advTable ▸ W.read_advTable) W.length_advTable rfl
    have hkeyPart : IndexedBundle.part M W.file W.head.keytabOff (KEY_ENTRY * W.head.keys)
        W.head.keytabCrc "the key table" = .ok W.keyTable :=
      W.part_eq (W.length_keyTable hM ▸ W.read_keyTable) (W.length_keyTable hM) rfl
    have hsorted : IndexedBundle.inOrder W.keyTable W.head.keys 0 = true := W.inOrder_keyTable hM
    rw [if_pos hcounts, except_ok_bind, hmetaPart, except_ok_bind, hadvPart, except_ok_bind,
      hkeyPart, except_ok_bind, hsorted, if_neg Bool.noConfusion,
      jsonLoadsBounded_dumps hM hmeta W.text_eq]
    by_cases hdepth : (withCounts metadata advRecords.length postings.length
        (totalPostings postings)).depth ≤ MAX_MANIFEST_DEPTH
    · rw [if_pos hdepth]
      simp only [except_bind_eq_ok, Except.ok.injEq, hcounts, hdepth, true_and]
      exact exists_congr fun info => and_congr_right fun _ => eq_comm
    · rw [if_neg hdepth]
      constructor
      · intro h
        cases h
      · rintro ⟨-, h, -⟩
        exact absurd h hdepth
  · rw [if_neg hcounts]
    constructor
    · intro h
      cases h
    · rintro ⟨h, -⟩
      exact absurd h hcounts

/-! ### Records -/

lemma read_blob {off : ℕ} {data : List UInt8}
    (h : (off, data) ∈ Packed.spans 0 (W.advs.map Prod.snd ++ W.keys.map Prod.snd)) :
    W.file.read (W.head.blobsOff + off) data.length = data ∧
      off + data.length ≤ W.head.fileLen - W.head.blobsOff := by
  have hslice := @Packed.slice_of_mem_spans UInt8 [] _ _ _ h
  have hblobs : W.head.fileLen = W.head.blobsOff + W.blobs.length := rfl
  have hoff : (W.header ++ (asciiBytes W.text ++ (W.advTable ++ W.keyTable))).length =
      W.head.blobsOff := by
    have hlen : W.head.blobsOff = HEADER_SIZE + (asciiBytes W.text).length + W.advTable.length +
        W.keyTable.length := rfl
    simp only [length_append, length_header, hlen]
    omega
  have hbytes : W.file.bytes =
      (W.header ++ (asciiBytes W.text ++ (W.advTable ++ W.keyTable))) ++ W.blobs := by
    simp only [append_assoc]
    exact W.bytes_eq
  rw [nil_append] at hslice
  constructor
  · rw [File.read, hbytes, ← drop_drop, drop_left' hoff]
    exact hslice.1
  · rw [hblobs, Nat.add_sub_cancel_left]
    exact hslice.2

variable {b : IndexedBundle}

theorem record_eq (hM : M.Lawful) {info : BundleInfo} {obj : Json} (hobj : obj.Distinct)
    {what : Piece} {off : ℕ} {data : List UInt8} (hpack : packRecord M obj what = .ok data)
    (hmem : (off, data) ∈ Packed.spans 0 (W.advs.map Prod.snd ++ W.keys.map Prod.snd))
    (name : String) :
    IndexedBundle.record M (W.opened info) off data.length (M.crc32 data) name =
      if obj.depth ≤ MAX_MANIFEST_DEPTH then .ok obj.sorted
      else .error (.damaged (name ++ " is not JSON")) := by
  obtain ⟨hread, hwithin⟩ := W.read_blob hmem
  obtain ⟨hstored, text, htext, hraw, rfl⟩ := packRecord_eq_ok hpack
  have hdata : (W.opened info).file.read ((W.opened info).header.blobsOff + off)
      (M.compress (asciiBytes text)).length = M.compress (asciiBytes text) := hread
  have hoff : ¬ ((M.compress (asciiBytes text)).length > MAX_STORED_BYTES ∨
      off + (M.compress (asciiBytes text)).length >
        (W.opened info).header.fileLen - (W.opened info).header.blobsOff) := by
    rintro (h | h)
    · exact absurd hstored (not_le.2 h)
    · exact absurd hwithin (not_le.2 h)
  have hinflate := hM.decompress_compress (asciiBytes text) (MAX_RECORD_BYTES + 1)
    (Nat.lt_succ_of_le hraw)
  have hwhole : ¬ ((asciiBytes text).length > MAX_RECORD_BYTES ∨ ([] : List UInt8) ≠ [] ∨
      ([] : List UInt8) ≠ [] ∨ true = false) := by
    rintro (h | h | h | h)
    · exact absurd hraw (not_le.2 h)
    · exact h rfl
    · exact h rfl
    · cases h
  rw [IndexedBundle.record]
  simp only [hdata]
  rw [if_neg hoff, if_neg (not_not.2 rfl), if_neg (not_not.2 rfl), hinflate]
  dsimp only
  rw [if_neg hwhole, jsonLoadsBounded_dumps hM hobj htext]
  by_cases hdepth : obj.depth ≤ MAX_MANIFEST_DEPTH
  · rw [if_pos hdepth, if_pos hdepth]
  · rw [if_neg hdepth, if_neg hdepth]

end Written

/-! ## The metadata -/

lemma get?_dictOf (l : List (String × Json)) (key : String) :
    (dictOf l).get? key = (l.find? fun m => m.1 = key).map Prod.snd := by
  rw [dictOf, Json.get?, List.find?_map, Option.map_map]
  congr 1
  congr 1
  funext m
  simp [String.toList_inj]

lemma distinct_dictOf {l : List (String × Json)} (hkeys : (l.map Prod.fst).Nodup)
    (hvalues : ∀ m ∈ l, m.2.Distinct) : (dictOf l).Distinct := by
  rw [dictOf, Json.Distinct, Json.distinctMembers_iff, map_map]
  constructor
  · have hmap : Prod.fst ∘ (fun m : String × Json => (m.1.toList, m.2)) =
        String.toList ∘ Prod.fst := rfl
    rw [hmap, ← map_map]
    exact hkeys.map fun s t h => String.toList_inj.1 h
  · intro e he
    obtain ⟨m, hm, rfl⟩ := mem_map.1 he
    exact hvalues m hm

lemma eqNat_natJson (n : ℕ) : Json.eqNat (some (natJson n)) n = true := by
  simp [Json.eqNat, natJson]

lemma sorted_natJson (n : ℕ) : (natJson n).sorted = natJson n := rfl

lemma natOf_natJson (n : ℕ) : IndexedBundle.natOf (natJson n) = some n := by
  have hdigits : ∀ c ∈ Nat.toDigits 10 n, isDigit c = true := by
    intro c hc
    have hdigit := Nat.isDigit_of_mem_toDigits (b := 10) (by decide) (by decide) hc
    rw [Char.isDigit, Bool.and_eq_true, decide_eq_true_eq, decide_eq_true_eq] at hdigit
    rw [isDigit, decide_eq_true_eq]
    exact hdigit
  have hint : int (Nat.toDigits 10 n) = n := by
    have hstep : (fun (k : ℕ) (c : Char) => k * 10 + (c.toNat - '0'.toNat)) =
        fun k c => 10 * k + (c.toNat - '0'.toNat) := by
      funext k c
      rw [mul_comm]
    rw [int, hstep, ← Nat.ofDigitChars_eq_foldl]
    exact Nat.ofDigitChars_ten_toDigits
  rw [natJson, IndexedBundle.natOf, if_pos ⟨Nat.toDigits_ne_nil, all_eq_true.2 hdigits⟩, hint]

end Lazaret.Sca
