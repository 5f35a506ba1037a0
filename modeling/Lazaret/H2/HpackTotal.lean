import Lazaret.H2.Hpack

/-!
# Header blocks never fault

Whatever bytes a header block is made of, the decoder ends in a list of fields or an error: each
turn of its loop takes at least one byte, and the table stays well-formed.
-/

namespace Lazaret.H2.Hpack

open Outcome

/-! ### What a turn reads -/

/-- A read that ends in a value or an error, and takes at least one byte if it ends in a value. -/
def Reads {α : Type} (block : List UInt8) (x : Outcome Error (α × List UInt8)) : Prop :=
  x ≠ .fault ∧ ∀ a rest, x = .ok (a, rest) → rest.length < block.length

lemma reads_err {α : Type} (block : List UInt8) (e : Error) :
    Reads block (.err e : Outcome Error (α × List UInt8)) := ⟨by simp, by simp⟩

lemma reads_ok {α : Type} {block rest : List UInt8} (a : α) (h : rest.length < block.length) :
    Reads block (.ok (a, rest) : Outcome Error (α × List UInt8)) := by
  refine ⟨by simp, fun a' rest' he => ?_⟩
  cases he
  exact h

lemma decodeIntRest_reads (block : List UInt8) (value shift : ℕ) :
    Reads block (decodeIntRest block value shift) := by
  induction block generalizing value shift with
  | nil => exact reads_err _ _
  | cons b rest ih =>
    rw [decodeIntRest]
    split_ifs
    · exact reads_err _ _
    · exact reads_ok _ (by simp)
    · exact reads_err _ _
    · obtain ⟨h1, h2⟩ := ih (value + (b &&& 0x7f).toNat <<< shift) (shift + 7)
      exact ⟨h1, fun a r h => (h2 a r h).trans (by simp)⟩

lemma decodeInt_reads (prefix_bits : ℕ) (block : List UInt8) :
    Reads block (decodeInt prefix_bits block) := by
  cases block with
  | nil => exact reads_err _ _
  | cons b rest =>
    rw [decodeInt]
    split_ifs
    · exact reads_ok _ (by simp)
    · obtain ⟨h1, h2⟩ := decodeIntRest_reads rest (b.toNat &&& (1 <<< prefix_bits - 1)) 0
      exact ⟨h1, fun a r h => (h2 a r h).trans (by simp)⟩

lemma Reads.bind {α β : Type} {block : List UInt8} {x : Outcome Error (α × List UInt8)}
    {f : α × List UInt8 → Outcome Error (β × List UInt8)} (hx : Reads block x)
    (hf : ∀ a rest, x = .ok (a, rest) →
      f (a, rest) ≠ .fault ∧ ∀ b r, f (a, rest) = .ok (b, r) → r.length ≤ rest.length) :
    Reads block (x >>= f) := by
  cases hxe : x with
  | fault => exact absurd hxe hx.1
  | err e => exact reads_err _ _
  | ok v =>
    obtain ⟨a, rest⟩ := v
    rw [ok_bind]
    exact ⟨(hf a rest hxe).1, fun b r h => ((hf a rest hxe).2 b r h).trans_lt (hx.2 a rest hxe)⟩

lemma Reads.after {α : Type} {block : List UInt8} {x : Outcome Error (α × List UInt8)}
    (hx : Reads block x) :
    x ≠ .fault ∧ ∀ a rest, x = .ok (a, rest) → rest.length ≤ block.length :=
  ⟨hx.1, fun a rest h => (hx.2 a rest h).le⟩

lemma decodeString_reads (limit : ℕ) (block : List UInt8) :
    Reads block (decodeString limit block) := by
  rw [decodeString]
  cases block with
  | nil => exact reads_err _ _
  | cons b rest =>
    rw [List.head?_cons, okOr_some, ok_bind]
    refine (decodeInt_reads 7 (b :: rest)).bind fun len rest' _ => ?_
    dsimp only
    split_ifs with h1 h2 h3
    · exact ⟨by simp, by simp⟩
    · cases hd : Huffman.decode (rest'.take len) limit with
      | ok s => simp
      | err e => simp
      | fault => exact absurd hd (Huffman.decode_ne_fault _ _)
    · simp
    · simp

lemma Decoder.literalName_after (table : DynamicTable) (limit index : ℕ) (block : List UInt8) :
    literalName table limit index block ≠ .fault ∧
      ∀ a rest, literalName table limit index block = .ok (a, rest) → rest.length ≤
        block.length := by
  rw [literalName]
  split_ifs
  · exact (decodeString_reads limit block).after
  · cases table.get index with
    | none => simp
    | some f => simp

lemma Decoder.literal_reads (table : DynamicTable) (prefix_bits limit : ℕ) (block : List UInt8) :
    Reads block (literal table prefix_bits limit block) := by
  rw [literal]
  refine (decodeInt_reads prefix_bits block).bind fun index rest _ => ?_
  dsimp only
  obtain ⟨h1, h2⟩ := literalName_after table limit index rest
  cases hname : literalName table limit index rest with
  | fault => exact absurd hname h1
  | err e => simp
  | ok v =>
    obtain ⟨name, rest₁⟩ := v
    have hle := h2 name rest₁ hname
    obtain ⟨h3, h4⟩ := decodeString_reads limit rest₁
    rw [ok_bind]
    dsimp only
    cases hvalue : decodeString limit rest₁ with
    | fault => exact absurd hvalue h3
    | err e => simp
    | ok w =>
      obtain ⟨value, rest₂⟩ := w
      have := h4 value rest₂ hvalue
      simp only [ok_bind, ne_eq, reduceCtorEq, not_false_eq_true, Outcome.ok.injEq,
        Prod.mk.injEq, true_and]
      rintro b r ⟨-, rfl⟩
      omega

/-! ### Whole blocks -/

@[simp] lemma count_table_eq (d : Decoder) (s : Decoding) (f : Field) :
    (d.count s f).table = s.table := by
  rw [Decoder.count]
  split_ifs <;> rfl

lemma Decoder.step_reads (d : Decoder) {s : Decoding} (h : s.table.Wf) (first : UInt8)
    (block : List UInt8) :
    Reads block (d.step s first block) ∧
      ∀ s' rest, d.step s first block = .ok (s', rest) → s'.table.Wf := by
  rw [Decoder.step]
  split_ifs
  · obtain ⟨h1, h2⟩ := decodeInt_reads 7 block
    cases hint : decodeInt 7 block with
    | fault => exact absurd hint h1
    | err e => exact ⟨reads_err _ _, by simp⟩
    | ok v =>
      obtain ⟨index, rest⟩ := v
      rw [ok_bind]
      dsimp only
      cases s.table.get index with
      | none => exact ⟨reads_err _ _, by simp⟩
      | some f =>
        refine ⟨reads_ok _ (h2 _ _ hint), fun s' r hs => ?_⟩
        cases hs
        rwa [count_table_eq]
  · obtain ⟨h1, h2⟩ := literal_reads s.table 6 d.stringLimit block
    cases hlit : literal s.table 6 d.stringLimit block with
    | fault => exact absurd hlit h1
    | err e => exact ⟨reads_err _ _, by simp⟩
    | ok v =>
      refine ⟨reads_ok _ (h2 _ _ hlit), fun s' r hs => ?_⟩
      cases hs
      rw [count_table_eq]
      exact (h.insert _).1
  · exact ⟨reads_err _ _, by simp⟩
  · obtain ⟨h1, h2⟩ := decodeInt_reads 5 block
    cases hint : decodeInt 5 block with
    | fault => exact absurd hint h1
    | err e => exact ⟨reads_err _ _, by simp⟩
    | ok v =>
      obtain ⟨size, rest⟩ := v
      rw [ok_bind]
      dsimp only
      split_ifs
      · exact ⟨reads_err _ _, by simp⟩
      · rw [h.setMax_eq, ok_bind]
        refine ⟨reads_ok _ (h2 _ _ hint), fun s' r hs => ?_⟩
        cases hs
        exact DynamicTable.wf_keep _ _
  · obtain ⟨h1, h2⟩ := literal_reads s.table 4 d.stringLimit block
    cases hlit : literal s.table 4 d.stringLimit block with
    | fault => exact absurd hlit h1
    | err e => exact ⟨reads_err _ _, by simp⟩
    | ok v =>
      refine ⟨reads_ok _ (h2 _ _ hlit), fun s' r hs => ?_⟩
      cases hs
      rwa [count_table_eq]

lemma Decoder.loop_wf (d : Decoder) {n : ℕ} {s : Decoding} (h : s.table.Wf) {block : List UInt8}
    (hn : block.length ≤ n) :
    d.loop n s block ≠ .fault ∧ ∀ s', d.loop n s block = .ok s' → s'.table.Wf := by
  induction n generalizing s block with
  | zero =>
    rw [List.length_eq_zero_iff.1 (Nat.le_zero.1 hn)]
    refine ⟨by simp [loop], fun s' hs => ?_⟩
    rw [loop, Outcome.ok.injEq] at hs
    exact hs ▸ h
  | succ n ih =>
    cases block with
    | nil =>
      refine ⟨by simp [loop], fun s' hs => ?_⟩
      rw [loop, Outcome.ok.injEq] at hs
      exact hs ▸ h
    | cons first rest =>
      rw [loop]
      obtain ⟨⟨h1, h2⟩, h3⟩ := d.step_reads h first (first :: rest)
      cases hstep : d.step s first (first :: rest) with
      | fault => exact absurd hstep h1
      | err e => exact ⟨by simp, by simp⟩
      | ok v =>
        obtain ⟨s₁, rest₁⟩ := v
        have hlt := h2 s₁ rest₁ hstep
        rw [List.length_cons] at hlt hn
        rw [ok_bind]
        exact ih (h3 s₁ rest₁ hstep) (by omega)

theorem Decoder.decode_wf {d : Decoder} (h : d.table.Wf) (block : List UInt8) (out : List Field) :
    d.decode block out ≠ .fault ∧
      ∀ within fields d', d.decode block out = .ok (within, fields, d') → d'.table.Wf := by
  obtain ⟨h1, h2⟩ := d.loop_wf (s := ⟨d.table, 0, true, false, out⟩) h (le_refl block.length)
  rw [decode]
  cases hloop : d.loop block.length ⟨d.table, 0, true, false, out⟩ block with
  | fault => exact absurd hloop h1
  | err e => exact ⟨by simp, by simp⟩
  | ok s =>
    refine ⟨by simp, fun within fields d' he => ?_⟩
    cases he
    exact h2 s hloop

end Lazaret.H2.Hpack
