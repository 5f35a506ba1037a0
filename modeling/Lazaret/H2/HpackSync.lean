import Lazaret.H2.Hpack

/-!
# Encoder and decoder stay in step

A `Peer` is an encoder and the decoder that its blocks go to.  The encoder shrinks its table as soon
as it is told a new size, the decoder with the next block.  `Agree` is what holds all the while:
evictions one after the other keep what the smallest of them keeps (`keep_keep`).
-/

namespace Lazaret.H2.Hpack

open List Outcome Option

def FieldRef.field (f : FieldRef) : Field := ⟨f.name, f.value⟩

/-! ### Finding fields -/

variable {name value : List UInt8}

lemma findFrom_spec (l : List Field) (i : ℕ) (named : Option ℕ) :
    (∀ k, (Encoder.findFrom name value l i named).1 = some k →
      ∃ j, k = i + j ∧ l[j]? = some ⟨name, value⟩) ∧
    (∀ k, (Encoder.findFrom name value l i named).2 = some k →
      named = some k ∨ ∃ j f, k = i + j ∧ l[j]? = some f ∧ f.name = name) := by
  induction l generalizing i named with
  | nil => exact ⟨fun k h => absurd h (by simp [Encoder.findFrom]), fun k h => .inl h⟩
  | cons f l ih =>
    rw [Encoder.findFrom]
    split_ifs with hname hvalue
    · refine ⟨fun k h => ⟨0, ?_, ?_⟩, fun k h => .inr ⟨0, f, ?_, rfl, hname⟩⟩
      · cases h
        rfl
      · rw [getElem?_cons_zero, ← hname, ← hvalue]
      · cases h
        rfl
    · obtain ⟨ih1, ih2⟩ := ih (i + 1) (named.or (some i))
      refine ⟨fun k h => ?_, fun k h => ?_⟩
      · obtain ⟨j, hj, hl⟩ := ih1 k h
        exact ⟨j + 1, by omega, hl⟩
      · rcases ih2 k h with h | ⟨j, g, hj, hl, hg⟩
        · cases named with
          | some a => exact .inl h
          | none =>
            rw [none_or, some.injEq] at h
            exact .inr ⟨0, f, by omega, rfl, hname⟩
        · exact .inr ⟨j + 1, g, by omega, hl, hg⟩
    · obtain ⟨ih1, ih2⟩ := ih (i + 1) named
      refine ⟨fun k h => ?_, fun k h => ?_⟩
      · obtain ⟨j, hj, hl⟩ := ih1 k h
        exact ⟨j + 1, by omega, hl⟩
      · rcases ih2 k h with h | ⟨j, g, hj, hl, hg⟩
        · exact .inl h
        · exact .inr ⟨j + 1, g, by omega, hl, hg⟩

variable {t : DynamicTable}

lemma index_le (h : t.Wf) (hmax : t.max ≤ DEFAULT_TABLE_SIZE) {i : ℕ}
    {f : Field} (hi : (STATIC ++ t.entries)[i]? = some f) : i + 1 ≤ 2 ^ 32 - 1 := by
  have hlt := (List.getElem?_eq_some_iff.1 hi).1
  have hstatic : STATIC.length = 61 := by with_unfolding_all decide
  have hlen := h.length_le
  rw [ENTRY_OVERHEAD] at hlen
  rw [DEFAULT_TABLE_SIZE] at hmax
  rw [length_append, hstatic] at hlt
  omega

lemma find_full (h : t.Wf) (hmax : t.max ≤ DEFAULT_TABLE_SIZE)
    {k : ℕ} (hk : (Encoder.find t name value).1 = some k) :
    t.get k = some ⟨name, value⟩ ∧ k ≤ 2 ^ 32 - 1 := by
  obtain ⟨j, rfl, hj⟩ := (findFrom_spec _ _ _).1 k hk
  rw [add_comm 1, DynamicTable.get_succ]
  exact ⟨hj, index_le h hmax hj⟩

lemma find_named (h : t.Wf) (hmax : t.max ≤ DEFAULT_TABLE_SIZE)
    {k : ℕ} (hk : (Encoder.find t name value).2 = some k) :
    k ≠ 0 ∧ (∃ f, t.get k = some f ∧ f.name = name) ∧ k ≤ 2 ^ 32 - 1 := by
  rcases (findFrom_spec _ _ _).2 k hk with h' | ⟨j, f, rfl, hj, hf⟩
  · cases h'
  · rw [add_comm 1, DynamicTable.get_succ]
    exact ⟨by omega, ⟨f, hj, hf⟩, index_le h hmax hj⟩

/-! ### One field -/

def Fits (limit : ℕ) (f : FieldRef) : Prop :=
  (f.name.length ≤ limit ∧ f.value.length ≤ limit) ∧
    f.name.length ≤ 2 ^ 32 - 1 ∧ f.value.length ≤ 2 ^ 32 - 1

instance (limit : ℕ) (f : FieldRef) : Decidable (Fits limit f) :=
  inferInstanceAs (Decidable (_ ∧ _))

lemma literal_encode (h : t.Wf) (hmax : t.max ≤ DEFAULT_TABLE_SIZE) {f : FieldRef}
    {limit : ℕ} (hf : Fits limit f) {p : ℕ} {flags : UInt8} (hp : p ≤ 7)
    (hflags : flags.toNat % 2 ^ p = 0) (rest : List UInt8) :
    Decoder.literal t p limit
    (Encoder.encodeName (Encoder.find t f.name f.value).2 p flags f.name ++
      encodeString f.value ++ rest) = .ok (f.field, rest) := by
  obtain ⟨⟨hname, hvalue⟩, hname32, hvalue32⟩ := hf
  rw [Decoder.literal]
  cases hnamed : (Encoder.find t f.name f.value).2 with
  | some k =>
    obtain ⟨hk, ⟨g, hg, hgname⟩, hk32⟩ := find_named h hmax hnamed
    simp only [Encoder.encodeName, append_assoc, decodeInt_encodeInt flags _ hp hflags hk32,
      ok_bind, Decoder.literalName, if_neg hk, hg, okOr_some, hgname,
      decodeString_encodeString hvalue hvalue32]
    rfl
  | none =>
    simp only [Encoder.encodeName, append_assoc,
      decodeInt_encodeInt flags _ hp hflags (Nat.zero_le _), ok_bind, Decoder.literalName, if_true,
      decodeString_encodeString hname hname32,
      decodeString_encodeString hvalue hvalue32]
    rfl

lemma head_encodeName (named : Option ℕ) (p : ℕ) (flags : UInt8) (name : List UInt8) :
    ∃ x ≤ 2 ^ p - 1, ∃ l,
      Encoder.encodeName named p flags name = (flags ||| UInt8.ofNat x) :: l := by
  cases named with
  | some k => exact head?_encodeInt p k flags
  | none =>
    obtain ⟨x, hx, l, hl⟩ := head?_encodeInt p 0 flags
    exact ⟨x, hx, l ++ encodeString name, by rw [Encoder.encodeName, hl, cons_append]⟩

variable {d : Decoder} {s : Decoding}

lemma step_encodeField {f : FieldRef} (h : s.table.Wf)
    (hmax : s.table.max ≤ DEFAULT_TABLE_SIZE) (hf : Fits d.stringLimit f) (rest : List UInt8) :
    ∃ first l, (Encoder.encodeField s.table f).1 = first :: l ∧
      d.step s first ((Encoder.encodeField s.table f).1 ++ rest) =
        .ok (d.count { s with table := (Encoder.encodeField s.table f).2 } f.field, rest) := by
  -- which flags a first byte shows
  have h80 : ∀ x ≤ 127, ((0x80 : UInt8) ||| UInt8.ofNat x) &&& 0x80 ≠ 0 := by decide
  have h40 : ∀ x ≤ 63, ¬ ((0x40 : UInt8) ||| UInt8.ofNat x) &&& 0x80 ≠ 0 ∧
      ((0x40 : UInt8) ||| UInt8.ofNat x) &&& 0x40 ≠ 0 := by decide
  have h10 : ∀ x ≤ 15, ¬ ((0x10 : UInt8) ||| UInt8.ofNat x) &&& 0x80 ≠ 0 ∧
      ¬ ((0x10 : UInt8) ||| UInt8.ofNat x) &&& 0x40 ≠ 0 ∧
      ¬ ((0x10 : UInt8) ||| UInt8.ofNat x) &&& 0x20 ≠ 0 := by decide
  have h00 : ∀ x ≤ 15, ¬ ((0x00 : UInt8) ||| UInt8.ofNat x) &&& 0x80 ≠ 0 ∧
      ¬ ((0x00 : UInt8) ||| UInt8.ofNat x) &&& 0x40 ≠ 0 ∧
      ¬ ((0x00 : UInt8) ||| UInt8.ofNat x) &&& 0x20 ≠ 0 := by decide
  -- a literal field that is not added
  have hplain : ∀ flags : UInt8, flags.toNat % 2 ^ 4 = 0 → (∀ x ≤ 15,
      ¬ (flags ||| UInt8.ofNat x) &&& 0x80 ≠ 0 ∧ ¬ (flags ||| UInt8.ofNat x) &&& 0x40 ≠ 0 ∧
      ¬ (flags ||| UInt8.ofNat x) &&& 0x20 ≠ 0) → ∃ first l,
      Encoder.encodeName (Encoder.find s.table f.name f.value).2 4 flags f.name ++
        encodeString f.value = first :: l ∧
      d.step s first (Encoder.encodeName (Encoder.find s.table f.name f.value).2 4 flags f.name ++
        encodeString f.value ++ rest) = .ok (d.count s f.field, rest) := by
    intro flags hmod hflags
    obtain ⟨x, hx, l, hl⟩ := head_encodeName (Encoder.find s.table f.name f.value).2 4 flags f.name
    obtain ⟨h1, h2, h3⟩ := hflags x hx
    refine ⟨_, _, by rw [hl, cons_append], ?_⟩
    rw [Decoder.step, if_neg h1, if_neg h2, if_neg h3, literal_encode h hmax hf (by omega) hmod]
    rfl
  rw [Encoder.encodeField]
  split
  · rename_i index _ hfind hsens
    obtain ⟨hget, h32⟩ := find_full h hmax (congrArg Prod.fst hfind)
    obtain ⟨x, hx, l, hl⟩ := head?_encodeInt 7 index 0x80
    refine ⟨_, _, hl, ?_⟩
    rw [Decoder.step, if_pos (h80 x hx), decodeInt_encodeInt 0x80 rest le_rfl rfl h32]
    simp only [ok_bind, hget, okOr_some]
    rfl
  · rename_i full named hfind hnot
    have hnamed : (Encoder.find s.table f.name f.value).2 = named := congrArg Prod.snd hfind
    rw [← hnamed]
    cases hsens : f.sensitive with
    | true => simpa [hsens] using hplain 0x10 rfl h10
    | false =>
      by_cases hadd : f.name.length + f.value.length + ENTRY_OVERHEAD ≤ s.table.max / 2
      · simp only [hadd, decide_true, Bool.not_false, Bool.and_true, if_true, Bool.false_eq_true,
          if_false]
        obtain ⟨x, hx, l, hl⟩ :=
          head_encodeName (Encoder.find s.table f.name f.value).2 6 0x40 f.name
        obtain ⟨h1, h2⟩ := h40 x hx
        refine ⟨_, _, by rw [hl, cons_append], ?_⟩
        rw [Decoder.step, if_neg h1, if_pos h2, literal_encode h hmax hf (by omega) rfl]
        rfl
      · simpa [hadd] using hplain 0x00 rfl h00

lemma encodeField_table (h : t.Wf) (f : FieldRef) :
    (Encoder.encodeField t f).2.Wf ∧ (Encoder.encodeField t f).2.max = t.max ∧
      ∀ e ∈ (Encoder.encodeField t f).2.entries,
        e ∈ t.entries ∨ f.sensitive = false ∧ e = f.field := by
  rw [Encoder.encodeField]
  split
  · exact ⟨h, rfl, fun e he => .inl he⟩
  · dsimp only
    split_ifs with hadd
    · refine ⟨(h.insert _).1, (h.insert _).2, fun e he => ?_⟩
      rcases h.mem_insert he with rfl | he
      · refine .inr ⟨?_, rfl⟩
        simp only [Bool.and_eq_true, Bool.not_eq_true'] at hadd
        exact hadd.1
      · exact .inl he
    · exact ⟨h, rfl, fun e he => .inl he⟩

/-! ### A list of fields -/

lemma count_table (d : Decoder) (s : Decoding) (t : DynamicTable) (f : Field) :
    d.count { s with table := t } f = { d.count s f with table := t } := by
  simp only [Decoder.count]
  split_ifs <;> rfl

def countAll (d : Decoder) (s : Decoding) (fields : List Field) : Decoding :=
  fields.foldl (fun s f => d.count s f) s

lemma countAll_table (d : Decoder) (s : Decoding) (t : DynamicTable) (fields : List Field) :
    countAll d { s with table := t } fields = { countAll d s fields with table := t } := by
  induction fields generalizing s with
  | nil => rfl
  | cons f fields ih =>
    simp only [countAll, foldl_cons] at ih ⊢
    rw [count_table, ih]

lemma loop_encodeFields {fields : List FieldRef} {n : ℕ}
    (h : s.table.Wf) (hmax : s.table.max ≤ DEFAULT_TABLE_SIZE)
    (hf : ∀ f ∈ fields, Fits d.stringLimit f)
    (hn : (Encoder.encodeFields fields s.table).1.length ≤ n) :
    d.loop n s (Encoder.encodeFields fields s.table).1 =
      .ok { countAll d s (fields.map FieldRef.field) with
        table := (Encoder.encodeFields fields s.table).2 } := by
  induction fields generalizing s n with
  | nil => rw [Encoder.encodeFields, Decoder.loop]; rfl
  | cons f fields ih =>
    rw [forall_mem_cons] at hf
    obtain ⟨hwf, hmax', -⟩ := encodeField_table h f
    simp only [Encoder.encodeFields] at hn ⊢
    generalize hrest : (Encoder.encodeFields fields (Encoder.encodeField s.table f).2).1 = rest
      at hn ⊢
    obtain ⟨first, l, hl, hstep⟩ := step_encodeField (d := d) h hmax hf.1 rest
    have hlen : (l ++ rest).length + 1 ≤ n := by
      rw [hl, cons_append, length_cons] at hn
      exact hn
    obtain ⟨n, rfl⟩ : ∃ m, n = m + 1 := ⟨n - 1, by omega⟩
    rw [hl, cons_append] at hstep ⊢
    rw [Decoder.loop, hstep, ok_bind]
    dsimp only
    rw [count_table]
    have htable : ({ d.count s f.field with table := (Encoder.encodeField s.table f).2 } :
        Decoding).table = (Encoder.encodeField s.table f).2 := rfl
    have hrun := ih (s := { d.count s f.field with table := (Encoder.encodeField s.table f).2 })
      (n := n) hwf (by rw [htable, hmax']; exact hmax) hf.2
      (by rw [htable, hrest]; rw [length_append] at hlen; omega)
    rw [htable, hrest] at hrun
    rw [hrun, countAll_table]
    rfl

lemma encodeFields_table (h : t.Wf) (fields : List FieldRef) :
    (Encoder.encodeFields fields t).2.Wf ∧ (Encoder.encodeFields fields t).2.max = t.max ∧
      ∀ e ∈ (Encoder.encodeFields fields t).2.entries,
        e ∈ t.entries ∨ ∃ f ∈ fields, f.sensitive = false ∧ e = f.field := by
  induction fields generalizing t with
  | nil => exact ⟨h, rfl, fun e he => .inl he⟩
  | cons f fields ih =>
    obtain ⟨hwf, hmax, hent⟩ := encodeField_table h f
    obtain ⟨hwf', hmax', hent'⟩ := ih hwf
    refine ⟨hwf', hmax'.trans hmax, fun e he => ?_⟩
    rcases hent' e he with he | ⟨g, hg, hsens, rfl⟩
    · rcases hent e he with he | ⟨hsens, rfl⟩
      · exact .inl he
      · exact .inr ⟨f, mem_cons_self, hsens, rfl⟩
    · exact .inr ⟨g, mem_cons_of_mem _ hg, hsens, rfl⟩

/-- Whether a list is within the limit; its size is counted up to the largest `usize`. -/
def withinLimit (limit : ℕ) (fields : List Field) : Bool :=
  decide (min (total fields) USIZE_MAX ≤ limit)

/-- The fields whose running size is within the limit. -/
def kept (limit : ℕ) (fields : List Field) : List Field :=
  if limit < USIZE_MAX then keep limit fields else fields

lemma countAll_eq (d : Decoder) (fields : List Field) (hsize : s.list ≤ USIZE_MAX)
    (hwithin : s.within = decide (s.list ≤ d.max_list_size)) :
    (countAll d s fields).within =
        decide (min (s.list + total fields) USIZE_MAX ≤ d.max_list_size) ∧
      (countAll d s fields).out = s.out ++
        if d.max_list_size < USIZE_MAX then
          if s.list ≤ d.max_list_size then keep (d.max_list_size - s.list) fields else []
        else fields := by
  induction fields generalizing s with
  | nil =>
    refine ⟨?_, ?_⟩
    · rw [countAll, foldl_nil, hwithin, total_nil, add_zero, min_eq_left hsize]
    · rw [countAll, foldl_nil, keep]
      split_ifs <;> simp
  | cons f fields ih =>
    have hcount : (d.count s f).list = min (s.list + f.size) USIZE_MAX ∧
        (d.count s f).within = decide ((d.count s f).list ≤ d.max_list_size) ∧
        (d.count s f).out = s.out ++
          if min (s.list + f.size) USIZE_MAX ≤ d.max_list_size then [f] else [] := by
      simp only [Decoder.count]
      split_ifs with h1 h2 h2
      · omega
      · exact ⟨rfl, by simpa using h1, (append_nil _).symm⟩
      · refine ⟨rfl, ?_, rfl⟩
        -- a list that is within the limit was so before
        rw [hwithin]
        dsimp only
        rw [decide_eq_true h2, decide_eq_true (by omega)]
      · omega
    obtain ⟨hlist, hwithin', hout⟩ := hcount
    obtain ⟨ih1, ih2⟩ := ih (s := d.count s f) (by rw [hlist]; exact min_le_right _ _) hwithin'
    rw [countAll, foldl_cons, ← countAll, ih1, ih2, hlist, hout, total_cons]
    refine ⟨?_, ?_⟩
    · rw [decide_eq_decide]
      omega
    · rw [append_assoc]
      congr 1
      by_cases hlimit : d.max_list_size < USIZE_MAX
      · rw [if_pos hlimit, if_pos hlimit]
        by_cases hfit : s.list + f.size ≤ d.max_list_size
        · rw [if_pos (by omega), if_pos (by omega), if_pos (by omega), keep, if_pos (by omega),
            Nat.min_eq_left (by omega), Nat.sub_sub, singleton_append]
        · rw [if_neg (by omega), if_neg (by omega), nil_append]
          by_cases hs : s.list ≤ d.max_list_size
          · rw [if_pos hs, keep, if_neg (by omega)]
          · rw [if_neg hs]
      · rw [if_neg hlimit, if_neg hlimit, if_pos (by omega), singleton_append]

/-! ### Blocks -/

lemma decode_encodeFields (d : Decoder) {fields : List FieldRef} (h : t.Wf)
    (hmax : t.max ≤ DEFAULT_TABLE_SIZE) (hf : ∀ f ∈ fields, Fits d.stringLimit f) {n : ℕ}
    (hn : (Encoder.encodeFields fields t).1.length ≤ n) :
    ∃ s, d.loop n ⟨t, 0, true, false, []⟩ (Encoder.encodeFields fields t).1 = .ok s ∧
      s.table = (Encoder.encodeFields fields t).2 ∧
      s.within = withinLimit d.max_list_size (fields.map FieldRef.field) ∧
      s.out = kept d.max_list_size (fields.map FieldRef.field) := by
  obtain ⟨hwithin, hout⟩ := countAll_eq d (fields.map FieldRef.field)
    (s := ⟨t, 0, true, false, []⟩) (Nat.zero_le _) (by simp)
  refine ⟨_, loop_encodeFields (s := ⟨t, 0, true, false, []⟩) h hmax hf hn, rfl, ?_, ?_⟩
  · rw [withinLimit]
    simpa using hwithin
  · rw [kept]
    simpa using hout

lemma step_sizeUpdate {size : ℕ} (h : s.table.Wf)
    (hstarted : s.started = false) (hsize : size ≤ d.allowed_table_size)
    (h32 : size ≤ 2 ^ 32 - 1) (rest : List UInt8) :
    ∃ first l, encodeInt 5 0x20 size = first :: l ∧
      d.step s first (encodeInt 5 0x20 size ++ rest) =
        .ok ({ s with table := ⟨keep size s.table.entries, total (keep size s.table.entries),
          size⟩ }, rest) := by
  have h20 : ∀ x ≤ 31, ¬ ((0x20 : UInt8) ||| UInt8.ofNat x) &&& 0x80 ≠ 0 ∧
      ¬ ((0x20 : UInt8) ||| UInt8.ofNat x) &&& 0x40 ≠ 0 ∧
      ((0x20 : UInt8) ||| UInt8.ofNat x) &&& 0x20 ≠ 0 := by decide
  obtain ⟨x, hx, l, hl⟩ := head?_encodeInt 5 size 0x20
  obtain ⟨h1, h2, h3⟩ := h20 x hx
  refine ⟨_, _, hl, ?_⟩
  rw [Decoder.step, if_neg h1, if_neg h2, if_pos h3, hstarted, if_neg (by simp),
    decodeInt_encodeInt 0x20 rest (by omega) rfl h32]
  simp only [ok_bind, if_neg (not_lt.2 hsize), h.setMax_eq]

/-- An encoder, and the decoder that its blocks go to. -/
structure Peer where
  encoder : Encoder
  decoder : Decoder

inductive Event where
  | setPeerTableSize (size : ℕ)
  | encode (fields : List FieldRef)

namespace Peer

/-- A new connection, with the limit `limit` on header lists. -/
def new (limit : ℕ) : Peer := ⟨Encoder.new, Decoder.new DEFAULT_TABLE_SIZE limit⟩

/-- One event, and what the decoder gives for a block. -/
def step (p : Peer) : Event → Outcome Error (Peer × Option (Bool × List Field))
  | .setPeerTableSize size => do
    let encoder ← p.encoder.setPeerTableSize size
    .ok ({ p with encoder := encoder }, none)
  | .encode fields => do
    let (block, encoder) ← p.encoder.encode fields
    let (within, out, decoder) ← p.decoder.decode block []
    .ok (⟨encoder, decoder⟩, some (within, out))

/-- Events in order, and what the decoder gives for the blocks. -/
def run : Peer → List Event → Outcome Error (Peer × List (Bool × List Field))
  | p, [] => .ok (p, [])
  | p, e :: es => do
    let (p, got) ← p.step e
    let (p, rest) ← p.run es
    .ok (p, got.toList ++ rest)

def fieldsOf : Event → Option (List FieldRef)
  | .setPeerTableSize _ => none
  | .encode fields => some fields

def expected (limit : ℕ) (fields : List FieldRef) : Bool × List Field :=
  (withinLimit limit (fields.map FieldRef.field), kept limit (fields.map FieldRef.field))

/-- What holds between blocks: with nothing to announce the tables are the same; else they have
the same entries once both are shrunk to the smallest size to announce.  All entries are from
fields that are not sensitive. -/
structure Agree (limit : ℕ) (seen : List FieldRef) (p : Peer) : Prop where
  wf_encoder : p.encoder.table.Wf
  wf_decoder : p.decoder.table.Wf
  max_encoder : p.encoder.table.max ≤ DEFAULT_TABLE_SIZE
  max_decoder : p.decoder.table.max ≤ DEFAULT_TABLE_SIZE
  allowed : p.decoder.allowed_table_size = DEFAULT_TABLE_SIZE
  limit_eq : p.decoder.max_list_size = limit
  same : p.encoder.pending = none → p.encoder.table = p.decoder.table
  pending : ∀ smallest last, p.encoder.pending = some (smallest, last) →
    smallest ≤ DEFAULT_TABLE_SIZE ∧ last ≤ DEFAULT_TABLE_SIZE ∧
      keep smallest p.encoder.table.entries = keep smallest p.decoder.table.entries
  origin : ∀ e, e ∈ p.encoder.table.entries ∨ e ∈ p.decoder.table.entries →
    ∃ f ∈ seen, f.sensitive = false ∧ e = f.field

variable {limit : ℕ} {seen : List FieldRef} {p : Peer}

lemma agree_new (limit : ℕ) : Agree limit [] (new limit) where
  wf_encoder := DynamicTable.wf_new _
  wf_decoder := DynamicTable.wf_new _
  max_encoder := le_rfl
  max_decoder := le_rfl
  allowed := rfl
  limit_eq := rfl
  same _ := rfl
  pending _ _ h := absurd h (by simp [new, Encoder.new])
  origin e h := by
    rcases h with h | h
    · exact absurd h (by simp [new, Encoder.new, DynamicTable.new])
    · exact absurd h (by simp [new, Decoder.new, DynamicTable.new])

/-- A new table size keeps the agreement: the encoder's table only loses what the next update
makes the decoder lose. -/
lemma Agree.setPeerTableSize (h : Agree limit seen p) (size : ℕ) :
    ∃ p', p.step (.setPeerTableSize size) = .ok (p', none) ∧ Agree limit seen p' := by
  set new := min size DEFAULT_TABLE_SIZE with hnew
  have hle : new ≤ DEFAULT_TABLE_SIZE := min_le_right _ _
  have hstep : p.step (.setPeerTableSize size) = .ok (⟨⟨⟨keep new p.encoder.table.entries,
      total (keep new p.encoder.table.entries), new⟩,
      some (Encoder.addPending p.encoder.pending new)⟩, p.decoder⟩, none) := by
    simp only [step, Encoder.setPeerTableSize, ← hnew, h.wf_encoder.setMax_eq, ok_bind]
  refine ⟨_, hstep, ?_⟩
  constructor
  · exact DynamicTable.wf_keep _ _
  · exact h.wf_decoder
  · exact hle
  · exact h.max_decoder
  · exact h.allowed
  · exact h.limit_eq
  · intro hnone
    cases hnone
  · intro smallest last hpending
    dsimp only at hpending ⊢
    rw [keep_keep]
    cases hold : p.encoder.pending with
    | none =>
      rw [hold, Encoder.addPending, some.injEq, Prod.mk.injEq] at hpending
      obtain ⟨rfl, rfl⟩ := hpending
      rw [h.same hold, min_self]
      exact ⟨hle, hle, rfl⟩
    | some e =>
      obtain ⟨smallest₀, last₀⟩ := e
      rw [hold, Encoder.addPending, some.injEq, Prod.mk.injEq] at hpending
      obtain ⟨rfl, rfl⟩ := hpending
      obtain ⟨h1, h2, hkeep⟩ := h.pending _ _ hold
      refine ⟨by omega, hle, ?_⟩
      rw [show min (min smallest₀ new) new = min new smallest₀ by omega, ← keep_keep, hkeep,
        keep_keep, min_comm]
  · rintro e (he | he)
    · exact h.origin e (.inl ((keep_sublist _ _).subset he))
    · exact h.origin e (.inr he)

lemma Agree.encode (h : Agree limit seen p) {fields : List FieldRef}
    (hf : ∀ f ∈ fields, Fits (max limit DEFAULT_TABLE_SIZE) f) :
    ∃ p', p.step (.encode fields) = .ok (p', some (expected limit fields)) ∧
      Agree limit (seen ++ fields) p' ∧ p'.encoder.table = p'.decoder.table := by
  have hstring : p.decoder.stringLimit = max limit DEFAULT_TABLE_SIZE := by
    rw [Decoder.stringLimit, h.limit_eq, h.allowed]
  rw [← hstring] at hf
  -- the table that both ends have once the size is announced, and what is written before the fields
  obtain ⟨t, pre, pending', ht, hmax, horigin, hpending, hencode, hdecode⟩ : ∃ t pre pending',
      t.Wf ∧ t.max ≤ DEFAULT_TABLE_SIZE ∧ (∀ e ∈ t.entries, e ∈ p.encoder.table.entries) ∧
      (∀ smallest last, pending' = some (smallest, last) →
        smallest ≤ DEFAULT_TABLE_SIZE ∧ last ≤ DEFAULT_TABLE_SIZE) ∧
      p.encoder.encode fields = .ok (pre ++ (Encoder.encodeFields fields t).1,
        ⟨(Encoder.encodeFields fields t).2, pending'⟩) ∧
      ∀ bytes, ∃ n, bytes.length ≤ n ∧
        p.decoder.loop (pre ++ bytes).length ⟨p.decoder.table, 0, true, false, []⟩ (pre ++ bytes) =
          p.decoder.loop n ⟨t, 0, true, false, []⟩ bytes := by
    cases hpend : p.encoder.pending with
    | none =>
      refine ⟨p.encoder.table, [], none, h.wf_encoder, h.max_encoder, fun e he => he,
        fun _ _ h => absurd h (by simp), ?_, fun bytes => ⟨bytes.length, le_rfl, ?_⟩⟩
      · rw [Encoder.encode, hpend, nil_append]
      · rw [h.same hpend, nil_append]
    | some e =>
      obtain ⟨smallest, last⟩ := e
      obtain ⟨hsmallest, hlast, hkeep⟩ := h.pending _ _ hpend
      refine ⟨⟨keep smallest p.encoder.table.entries,
        total (keep smallest p.encoder.table.entries), smallest⟩, encodeInt 5 0x20 smallest,
        if last ≠ smallest then some (last, last) else none, DynamicTable.wf_keep _ _, hsmallest,
        fun e he => (keep_sublist _ _).subset he, ?_, ?_, fun bytes => ?_⟩
      · intro a b hab
        split_ifs at hab
        cases hab
        exact ⟨hlast, hlast⟩
      · rw [Encoder.encode, hpend]
        simp only [h.wf_encoder.setMax_eq, ok_bind]
      · have h32 : smallest ≤ 2 ^ 32 - 1 := hsmallest.trans (by decide)
        obtain ⟨first, l, hl, hstep⟩ := step_sizeUpdate (d := p.decoder)
          (s := ⟨p.decoder.table, 0, true, false, []⟩) h.wf_decoder rfl
          (by rw [h.allowed]; exact hsmallest) h32 bytes
        refine ⟨(l ++ bytes).length, by rw [length_append]; omega, ?_⟩
        rw [hl, cons_append] at hstep ⊢
        rw [length_cons, Decoder.loop, hstep, ok_bind]
        dsimp only
        rw [hkeep]
  obtain ⟨n, hn, hloop⟩ := hdecode (Encoder.encodeFields fields t).1
  obtain ⟨s, hrun, htable, hwithin, hout⟩ := decode_encodeFields p.decoder ht hmax hf hn
  obtain ⟨hwf, hmax', hent⟩ := encodeFields_table ht fields
  have horigin' : ∀ e ∈ (Encoder.encodeFields fields t).2.entries,
      ∃ f ∈ seen ++ fields, f.sensitive = false ∧ e = f.field := by
    intro e he
    rcases hent e he with he | ⟨f, hf, hsens, rfl⟩
    · obtain ⟨f, hf, hsens, rfl⟩ := h.origin e (.inl (horigin e he))
      exact ⟨f, mem_append_left _ hf, hsens, rfl⟩
    · exact ⟨f, mem_append_right _ hf, hsens, rfl⟩
  refine ⟨⟨⟨(Encoder.encodeFields fields t).2, pending'⟩, { p.decoder with table := s.table }⟩, ?_,
    ?_, htable.symm⟩
  · simp only [step, hencode, ok_bind, Decoder.decode, hloop, hrun, hwithin, hout,
      h.limit_eq, expected]
  · constructor
    · exact hwf
    · rw [htable]
      exact hwf
    · exact hmax'.trans_le hmax
    · rw [htable]
      exact hmax'.trans_le hmax
    · exact h.allowed
    · exact h.limit_eq
    · exact fun _ => htable.symm
    · intro smallest last hsome
      obtain ⟨h1, h2⟩ := hpending _ _ hsome
      refine ⟨h1, h2, ?_⟩
      dsimp only
      rw [htable]
    · rintro e (he | he)
      · exact horigin' e he
      · rw [htable] at he
        exact horigin' e he

lemma Agree.run (h : Agree limit seen p) (events : List Event)
    (hf : ∀ fields ∈ events.filterMap fieldsOf,
      ∀ f ∈ fields, Fits (max limit DEFAULT_TABLE_SIZE) f) :
    ∃ p', p.run events = .ok (p', (events.filterMap fieldsOf).map (expected limit)) ∧
      Agree limit (seen ++ (events.filterMap fieldsOf).flatten) p' ∧
      (∀ fields, events.getLast? = some (.encode fields) →
        p'.encoder.table = p'.decoder.table) := by
  induction events generalizing p seen with
  | nil =>
    refine ⟨p, rfl, ?_, fun _ h => absurd h (by simp)⟩
    rwa [filterMap_nil, flatten_nil, append_nil]
  | cons e events ih =>
    cases e with
    | setPeerTableSize size =>
      obtain ⟨p₁, hstep, h₁⟩ := h.setPeerTableSize size
      obtain ⟨p', hrun, h', hsame⟩ := ih h₁ hf
      refine ⟨p', ?_, h', fun fields hlast => ?_⟩
      · simp only [Peer.run, hstep, hrun, ok_bind]
        rfl
      rw [getLast?_cons] at hlast
      cases hl : events.getLast? with
      | none =>
        rw [hl, getD_none, some.injEq] at hlast
        cases hlast
      | some e =>
        rw [hl, getD_some, some.injEq] at hlast
        exact hsame fields (by rw [hl, hlast])
    | encode fields =>
      have hcons : (Event.encode fields :: events).filterMap fieldsOf =
          fields :: events.filterMap fieldsOf := rfl
      rw [hcons, forall_mem_cons] at hf
      obtain ⟨p₁, hstep, h₁, hsame₁⟩ := h.encode hf.1
      obtain ⟨p', hrun, h', hsame⟩ := ih h₁ hf.2
      refine ⟨p', ?_, ?_, fun fields' hlast => ?_⟩
      · simp only [Peer.run, hstep, hrun, ok_bind]
        rfl
      · rwa [hcons, flatten_cons, ← append_assoc]
      · rw [getLast?_cons] at hlast
        cases hl : events.getLast? with
        | none =>
          rw [getLast?_eq_none_iff] at hl
          subst hl
          rw [Peer.run, Outcome.ok.injEq, Prod.mk.injEq] at hrun
          rw [← hrun.1]
          exact hsame₁
        | some e =>
          rw [hl, getD_some, some.injEq] at hlast
          exact hsame fields' (by rw [hl, hlast])

/-- In every run of table size changes and blocks every block is decoded, after a block the two
tables are the same, and no table ever has an entry from a sensitive field. -/
theorem encoder_decoder_in_step (limit : ℕ) (events : List Event)
    (hf : ∀ fields ∈ events.filterMap fieldsOf,
      ∀ f ∈ fields, Fits (max limit DEFAULT_TABLE_SIZE) f) :
    ∃ p, (new limit).run events = .ok (p, (events.filterMap fieldsOf).map (expected limit)) ∧
      (∀ fields, events.getLast? = some (.encode fields) →
        p.encoder.table = p.decoder.table) ∧
      ∀ e, e ∈ p.encoder.table.entries ∨ e ∈ p.decoder.table.entries →
        ∃ f ∈ (events.filterMap fieldsOf).flatten, f.sensitive = false ∧ e = f.field := by
  obtain ⟨p, hrun, hagree, hsame⟩ := (agree_new limit).run events hf
  exact ⟨p, hrun, hsame, hagree.origin⟩

/-- Two size changes before a block, and a list over the limit. -/
theorem encoder_decoder_in_step_resized :
    ∃ p, (new 100).run [.encode [⟨asBytes "x-a", asBytes "1", false⟩], .setPeerTableSize 0,
        .setPeerTableSize 5000, .encode [⟨asBytes "x-a", asBytes "1", false⟩,
          ⟨asBytes "x-b", asBytes "secret", true⟩, ⟨asBytes "x-c", asBytes "3", false⟩]] =
      .ok (p, [(true, [⟨asBytes "x-a", asBytes "1"⟩]),
        (false, [⟨asBytes "x-a", asBytes "1"⟩, ⟨asBytes "x-b", asBytes "secret"⟩])]) := by
  obtain ⟨p, hrun, -⟩ := encoder_decoder_in_step 100
    [.encode [⟨asBytes "x-a", asBytes "1", false⟩], .setPeerTableSize 0, .setPeerTableSize 5000,
      .encode [⟨asBytes "x-a", asBytes "1", false⟩, ⟨asBytes "x-b", asBytes "secret", true⟩,
        ⟨asBytes "x-c", asBytes "3", false⟩]] (by decide)
  refine ⟨p, hrun.trans (congrArg (fun got => Outcome.ok (p, got)) ?_)⟩
  decide

end Peer

end Lazaret.H2.Hpack
