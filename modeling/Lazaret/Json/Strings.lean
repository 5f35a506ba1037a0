import Lazaret.Json.Numbers

/-!
# What the reader takes for a string

The escapes and the runs of plain characters that the loop of a string goes over, against the texts
of a character: what is read is a text of the characters that are pushed (`string_sound`), and every
such text is read (`string_complete`).
-/

namespace Lazaret.Json

open List Outcome Language Utf8

open Utf8 (byte encode)

/-! ## Hexadecimal digits -/

variable {c : Char}

lemma hexDigit_byte (h : c.toNat < 128) : hexDigit (byte c) = Grammar.hexValue c := by
  have hall : ∀ n < 128, hexDigit (byte (Char.ofNat n)) = Grammar.hexValue (Char.ofNat n) := by
    decide
  rw [← Char.ofNat_toNat c]
  exact hall _ h

lemma toNat_lt_of_hexValue {d : ℕ} (h : Grammar.hexValue c = some d) : c.toNat < 128 ∧ d < 16 := by
  rw [Grammar.hexValue] at h
  split at h
  next hdigit =>
    have hbounds := Char.isDigit_iff_toNat.1 hdigit
    rw [← Option.some.inj h]
    exact ⟨toNat_lt_of_isDigit
      hdigit, by have := hbounds.2; simp only [Char.reduceToNat] at *; omega⟩
  split at h
  next hlow =>
    have h1 : 'a'.toNat ≤ c.toNat := hlow.1
    have h2 : c.toNat ≤ 'f'.toNat := hlow.2
    simp only [Char.reduceToNat] at h1 h2 h
    rw [Option.some.injEq] at h
    omega
  split at h
  next hup =>
    have h1 : 'A'.toNat ≤ c.toNat := hup.1
    have h2 : c.toNat ≤ 'F'.toNat := hup.2
    simp only [Char.reduceToNat] at h1 h2 h
    rw [Option.some.injEq] at h
    omega
  · cases h

variable {b : UInt8}

lemma hexDigit_eq_some {d : ℕ} (h : hexDigit b = some d) :
    ∃ c, encode [c] = [b] ∧ Grammar.hexValue c = some d := by
  have hlt : b.toNat < 128 := by
    rw [hexDigit] at h
    split at h
    next hb => exact (UInt8.le_iff_toNat_le.1 hb.2).trans_lt (by decide)
    split at h
    next hb => exact (UInt8.le_iff_toNat_le.1 hb.2).trans_lt (by decide)
    split at h
    next hb => exact (UInt8.le_iff_toNat_le.1 hb.2).trans_lt (by decide)
    · cases h
  obtain ⟨c, hc, rfl⟩ := exists_byte_eq hlt
  exact ⟨c, encode_singleton_of_lt hc, hexDigit_byte hc ▸ h⟩

variable {t s : List UInt8}

lemma hexFrom_sound {k n m : ℕ} (h : hexFrom k n s = .ok (m, t)) :
    ∃ (w : List Char) (ds : List ℕ), ds.length = k ∧ w.map Grammar.hexValue = ds.map some ∧
      m = ds.foldl (fun n d => n * 16 + d) n ∧ s = encode w ++ t := by
  induction k generalizing n s with
  | zero =>
    obtain ⟨rfl, rfl⟩ := Prod.mk.inj (Outcome.ok.inj h)
    exact ⟨[], [], rfl, rfl, rfl, rfl⟩
  | succ k ih =>
    cases s with
    | nil => exact absurd h (by simp [hexFrom, err])
    | cons b s =>
      rw [hexFrom] at h
      split at h
      next d hd =>
        obtain ⟨w, ds, hlen, hmap, hm, rfl⟩ := ih h
        obtain ⟨c, hc, hval⟩ := hexDigit_eq_some hd
        refine ⟨c :: w, d :: ds, ?_, ?_, hm, ?_⟩
        · rw [length_cons, hlen]
        · rw [map_cons, map_cons, hval, hmap]
        · rw [encode_cons, hc]
          rfl
      · cases h

variable {w : List Char}

lemma hexFrom_complete {ds : List ℕ} (h : w.map Grammar.hexValue = ds.map some)
    (n : ℕ) (t : List UInt8) :
    hexFrom ds.length n (encode w ++ t) = .ok (ds.foldl (fun n d => n * 16 + d) n, t) := by
  induction ds generalizing w n with
  | nil =>
    obtain rfl := map_eq_nil_iff.1 h
    rfl
  | cons d ds ih =>
    obtain ⟨c, w, rfl, hval, hmap⟩ := map_eq_cons_iff.1 h
    have hlt := (toNat_lt_of_hexValue hval).1
    rw [encode_cons_of_lt hlt, cons_append, length_cons, hexFrom, hexDigit_byte hlt, hval]
    exact ih hmap _

lemma hex4_sound : Sound hex4 Grammar.fourHex := by
  intro s u t h
  obtain ⟨w, ds, hlen, hmap, hu, hs⟩ := hexFrom_sound h
  exact ⟨w, ⟨ds, hlen, hmap, hu⟩, hs⟩

lemma hex4_complete : Complete hex4 Grammar.fourHex fun _ => True := by
  rintro u w t ⟨ds, hlen, hmap, rfl⟩ -
  have h := hexFrom_complete hmap 0 t
  rw [hlen] at h
  exact h

lemma lt_of_mem_fourHex {u : ℕ} (h : w ∈ Grammar.fourHex u) : u < 2 ^ 16 := by
  obtain ⟨ds, hlen, hmap, rfl⟩ := h
  have hlt : ∀ d ∈ ds, d < 16 := by
    intro d hd
    have hmem : some d ∈ w.map Grammar.hexValue := hmap ▸ mem_map_of_mem hd
    obtain ⟨c, -, hc⟩ := mem_map.1 hmem
    exact (toNat_lt_of_hexValue hc).2
  match ds, hlen with
  | [a, b, c, d], _ =>
    simp only [forall_mem_cons] at hlt
    simp only [foldl_cons, foldl_nil]
    omega

/-! ## Code units -/

lemma charFromU32_eq_some {n : ℕ} : charFromU32 n = some c ↔ c.toNat = n := by
  rw [charFromU32]
  constructor
  · intro h
    split at h
    next hvalid =>
      rw [← Option.some.inj h]
      exact toNat_ofNat hvalid
    · cases h
  · rintro rfl
    have hvalid : c.toNat.isValidChar := c.valid
    rw [if_pos hvalid, Char.ofNat_toNat]

lemma char_bounds (c : Char) : c.toNat < 0xD800 ∨ 0xDFFF < c.toNat ∧ c.toNat < 0x110000 := c.valid

lemma utf16_pair {hi lo : ℕ} (hhi : isHigh hi = true) (hlo : isLow lo = true)
    (h : pair hi lo = some c) : Grammar.utf16 c = [hi, lo] := by
  rw [isHigh, decide_eq_true_iff] at hhi
  rw [isLow, decide_eq_true_iff] at hlo
  rw [pair, charFromU32_eq_some] at h
  rw [Grammar.utf16, if_neg (by omega), cons.injEq, cons.injEq]
  refine ⟨?_, ?_, rfl⟩ <;> omega

lemma pair_of_utf16 (h : ¬ c.toNat < 0x10000) :
    ∃ hi lo, Grammar.utf16 c = [hi, lo] ∧ isHigh hi = true ∧ isLow lo = true ∧
      pair hi lo = some c := by
  have hbounds := char_bounds c
  refine ⟨_, _, by rw [Grammar.utf16, if_neg h], ?_, ?_, ?_⟩
  · rw [isHigh, decide_eq_true_iff]
    omega
  · rw [isLow, decide_eq_true_iff]
    omega
  · rw [pair, charFromU32_eq_some]
    omega

lemma not_surrogate : isHigh c.toNat = false ∧ isLow c.toNat = false := by
  have hbounds := char_bounds c
  rw [isHigh, isLow, decide_eq_false_iff_not, decide_eq_false_iff_not]
  omega

lemma prod_unicodeEscape_one {u : ℕ} (h : w ∈ Grammar.fourHex u) :
    '\\' :: 'u' :: w ∈ ([u].map Grammar.unicodeEscape).prod := by
  rw [map_singleton, prod_singleton]
  exact mem_mul.2 ⟨['\\', 'u'], rfl, w, h, rfl⟩

lemma prod_unicodeEscape_two {hi lo : ℕ} {w' : List Char} (h : w ∈ Grammar.fourHex hi)
    (h' : w' ∈ Grammar.fourHex lo) :
    '\\' :: 'u' :: (w ++ '\\' :: 'u' :: w') ∈ ([hi, lo].map Grammar.unicodeEscape).prod := by
  rw [map_cons, prod_cons]
  exact mem_mul.2 ⟨'\\' :: 'u' :: w, mem_mul.2 ⟨['\\', 'u'], rfl, w, h, rfl⟩,
    _, prod_unicodeEscape_one h', rfl⟩

/-! ## Escapes -/

lemma unicode_sound (h : unicode s = .ok (c, t)) :
    ∃ w, '\\' :: 'u' :: w ∈ Grammar.char c ∧ s = encode w ++ t := by
  rw [unicode, bind_eq_ok] at h
  obtain ⟨⟨hi, u⟩, hhi, h⟩ := h
  obtain ⟨w, hw, rfl⟩ := hex4_sound _ _ _ hhi
  split at h
  next hhigh =>
    split at h
    next hpre =>
      obtain ⟨u', rfl⟩ := hpre
      obtain ⟨⟨lo, v⟩, hlo, h⟩ := bind_eq_ok.1 h
      split at h
      next hlow =>
        split at h
        next c' hpair =>
          obtain ⟨rfl, rfl⟩ := Prod.mk.inj (Outcome.ok.inj h)
          obtain ⟨w', hw', hu'⟩ := hex4_sound _ _ _ hlo
          refine ⟨w ++ '\\' :: 'u' :: w', .inr (.inr ?_), ?_⟩
          · rw [utf16_pair hhigh hlow hpair]
            exact prod_unicodeEscape_two hw hw'
          · change u' = encode w' ++ v at hu'
            rw [hu', encode_append, append_assoc, encode_cons_of_lt (by decide),
              encode_cons_of_lt (by decide)]
            rfl
        · cases h
      · cases h
    · cases h
  split at h
  · cases h
  split at h
  next c' hchar =>
    obtain ⟨rfl, rfl⟩ := Prod.mk.inj (Outcome.ok.inj h)
    rw [charFromU32_eq_some] at hchar
    refine ⟨w, .inr (.inr ?_), rfl⟩
    have hlt := lt_of_mem_fourHex hw
    rw [Grammar.utf16, if_pos (by omega), hchar]
    exact prod_unicodeEscape_one hw
  · cases h

lemma unicode_complete
    (h : w ∈ ((Grammar.utf16 c).map Grammar.unicodeEscape).prod) (t : List UInt8) :
    ∃ w', w = '\\' :: 'u' :: w' ∧ unicode (encode w' ++ t) = .ok (c, t) := by
  by_cases hc : c.toNat < 0x10000
  · rw [Grammar.utf16, if_pos hc, map_singleton, prod_singleton] at h
    obtain ⟨_, rfl, d, hd, rfl⟩ := mem_mul.1 h
    refine ⟨d, rfl, ?_⟩
    rw [unicode, hex4_complete _ d t hd trivial, ok_bind, if_neg (by rw [not_surrogate.1]; decide),
      if_neg (by rw [not_surrogate.2]; decide), charFromU32_eq_some.2 rfl]
  · obtain ⟨hi, lo, hunits, hhigh, hlow, hpair⟩ := pair_of_utf16 hc
    rw [hunits, map_cons, prod_cons, map_singleton, prod_singleton] at h
    obtain ⟨a, ha, b, hb, rfl⟩ := mem_mul.1 h
    obtain ⟨_, rfl, d, hd, rfl⟩ := mem_mul.1 ha
    obtain ⟨_, rfl, e, he, rfl⟩ := mem_mul.1 hb
    refine ⟨d ++ '\\' :: 'u' :: e, rfl, ?_⟩
    have hsplit : encode (d ++ '\\' :: 'u' :: e) ++ t =
        encode d ++ (byte '\\' :: byte 'u' :: (encode e ++ t)) := by
      rw [encode_append, append_assoc, encode_cons_of_lt (by decide), encode_cons_of_lt (by decide)]
      rfl
    rw [hsplit, unicode, hex4_complete _ d _ hd trivial, ok_bind, if_pos hhigh, if_pos ⟨_, rfl⟩]
    show (hex4 (encode e ++ t) >>= _) = _
    rw [hex4_complete _ e t he trivial, ok_bind, if_pos hlow, hpair]

lemma escapes_eq_map : escapes = Grammar.shortEscapes.map fun q => (byte q.1, q.2) := rfl

lemma shortEscapes_lt {q : Char × Char} (h : q ∈ Grammar.shortEscapes) : q.1.toNat < 128 := by
  have hall : ∀ q ∈ Grammar.shortEscapes, q.1.toNat < 128 := by decide
  exact hall q h

lemma escape_sound (h : escape s = .ok (c, t)) :
    ∃ w, '\\' :: w ∈ Grammar.char c ∧ s = encode w ++ t := by
  cases s with
  | nil => exact absurd h (by simp [escape, err])
  | cons b s =>
    rw [escape] at h
    split at h
    next c' hlookup =>
      obtain ⟨rfl, rfl⟩ := Prod.mk.inj (Outcome.ok.inj h)
      obtain ⟨l, l', hsplit, -⟩ := lookup_eq_some_iff.1 hlookup
      have hmem : (b, c') ∈ Grammar.shortEscapes.map fun q => (byte q.1, q.2) := by
        rw [← escapes_eq_map, hsplit]
        exact mem_append_right _ mem_cons_self
      obtain ⟨⟨e, d⟩, hq, heq⟩ := mem_map.1 hmem
      obtain ⟨rfl, rfl⟩ := Prod.mk.inj heq
      refine ⟨[e], .inr (.inl ⟨e, hq, rfl⟩), ?_⟩
      rw [encode_singleton_of_lt (shortEscapes_lt hq)]
      rfl
    · split at h
      next hb =>
        obtain ⟨w, hw, rfl⟩ := unicode_sound h
        exact ⟨'u' :: w, hw, by rw [hb, encode_cons_of_lt (by decide)]; rfl⟩
      · cases h

lemma escape_complete (h : w ∈ Grammar.char c)
    (hw : ¬ (Grammar.Unescaped c ∧ w = [c])) (t : List UInt8) :
    ∃ w', w = '\\' :: w' ∧ escape (encode w' ++ t) = .ok (c, t) := by
  rcases h with h | ⟨e, he, rfl⟩ | h
  · exact absurd h hw
  · refine ⟨[e], rfl, ?_⟩
    have hall : ∀ q ∈ Grammar.shortEscapes, escapes.lookup (byte q.1) = some q.2 := by decide
    rw [encode_singleton_of_lt (shortEscapes_lt he), singleton_append, escape, hall _ he]
  · obtain ⟨w', rfl, hread⟩ := unicode_complete h t
    refine ⟨'u' :: w', rfl, ?_⟩
    have hlookup : escapes.lookup (byte 'u') = none := by decide
    rw [encode_cons_of_lt (by decide), cons_append, escape, hlookup]
    exact hread

/-! ## Runs of plain characters -/

lemma isPlain_byte (h : c.toNat < 128) : isPlain (byte c) = true ↔ Grammar.Unescaped c := by
  have hbyte : ∀ d : Char, d.toNat < 128 → (byte c = byte d ↔ c = d) := by
    intro d hd
    rw [← UInt8.toNat_inj, toNat_byte h, toNat_byte hd, Char.toNat_inj]
  rw [isPlain, decide_eq_true_iff, ne_eq, ne_eq, hbyte '"' (by decide), hbyte '\\' (by decide),
    UInt8.le_iff_toNat_le, toNat_byte h]
  exact Iff.rfl

lemma isPlain_of_le (h : 128 ≤ b.toNat) : isPlain b = true := by
  have hne : ∀ c : Char, c.toNat < 128 → b ≠ byte c := by
    rintro c hc rfl
    rw [toNat_byte hc] at h
    omega
  rw [isPlain, decide_eq_true_iff, UInt8.le_iff_toNat_le]
  exact ⟨hne '"' (by decide), hne '\\' (by decide),
    (by decide : (0x20 : UInt8).toNat ≤ 128).trans h⟩

lemma unescaped_of_le (h : 128 ≤ c.toNat) : Grammar.Unescaped c := by
  refine ⟨?_, ?_, by omega⟩
  · rintro rfl
    exact absurd h (by decide)
  · rintro rfl
    exact absurd h (by decide)

variable {cs : List Char}

lemma unescaped_of_mem (h : ∀ b ∈ encode cs, isPlain b = true)
    (hc : c ∈ cs) : Grammar.Unescaped c := by
  by_cases hlt : c.toNat < 128
  · rw [← isPlain_byte hlt]
    refine h _ (mem_flatMap.2 ⟨c, hc, ?_⟩)
    have hbytes := encode_singleton_of_lt hlt
    rw [encode, flatMap_singleton] at hbytes
    rw [hbytes]
    exact mem_singleton_self _
  · exact unescaped_of_le (Nat.le_of_not_lt hlt)

lemma mem_prod_char (h : ∀ c ∈ cs, Grammar.Unescaped c) : cs ∈ (cs.map Grammar.char).prod := by
  induction cs with
  | nil => exact nil_mem_one
  | cons c cs ih =>
    rw [map_cons, prod_cons]
    exact mem_mul.2 ⟨[c], .inl ⟨h c mem_cons_self, rfl⟩, cs,
      ih fun d hd => h d (mem_cons_of_mem _ hd), rfl⟩

lemma prod_char_append {cs' w' : List Char} (h : w ∈ (cs.map Grammar.char).prod)
    (h' : w' ∈ (cs'.map Grammar.char).prod) : w ++ w' ∈ ((cs ++ cs').map Grammar.char).prod := by
  rw [map_append, prod_append]
  exact mem_mul.2 ⟨w, h, w', h', rfl⟩

/-! ## The loop of a string -/

lemma eq_encode_append {run : List Char} (hrun : slice (s.takeWhile isPlain) = .ok run) :
    (∀ c ∈ run, Grammar.Unescaped c) ∧ s = encode run ++ s.dropWhile isPlain := by
  rw [slice, orFault_eq_ok, decode_eq_some] at hrun
  constructor
  · exact fun c hc => unescaped_of_mem (fun b hb => mem_takeWhile_imp (hrun ▸ hb)) hc
  · rw [← hrun, takeWhile_append_dropWhile]

variable {p : List Char × List UInt8}

lemma stringTurn_inl {p' : List Char × List UInt8} (h : stringTurn p = .inl p') :
    ∃ run c t, (∀ d ∈ run, Grammar.Unescaped d) ∧ p.2 = encode run ++ byte '\\' :: t ∧
      escape t = .ok (c, p'.2) ∧ p'.1 = p.1 ++ run ++ [c] := by
  rw [stringTurn] at h
  split at h
  next run hrun =>
    obtain ⟨hplain, hs⟩ := eq_encode_append hrun
    split at h
    · cases h
    next b u hdrop =>
      split at h
      · cases h
      split at h
      next hb =>
        split at h
        next c t hescape =>
          obtain rfl := Sum.inl.inj h
          exact ⟨run, c, u, hplain, by rw [← hb, ← hdrop]; exact hs, hescape, rfl⟩
        · cases h
        · cases h
      · cases h
  · cases h
  · cases h

lemma stringTurn_inr (h : stringTurn p = .inr (.ok (cs, t))) :
    ∃ run, (∀ d ∈ run, Grammar.Unescaped d) ∧ p.2 = encode run ++ byte '"' :: t ∧
      cs = p.1 ++ run := by
  rw [stringTurn] at h
  split at h
  next run hrun =>
    obtain ⟨hplain, hs⟩ := eq_encode_append hrun
    split at h
    · cases h
    next b u hdrop =>
      split at h
      next hb =>
        obtain ⟨rfl, rfl⟩ := Prod.mk.inj (Outcome.ok.inj (Sum.inr.inj h))
        exact ⟨run, hplain, by rw [← hb, ← hdrop]; exact hs, rfl⟩
      split at h
      · split at h <;> cases h
      · cases h
  · cases h
  · cases h

lemma stringLoop_sound (h : stringLoop.run p = .ok (cs, t)) : ∃ cs', cs = p.1 ++ cs' ∧
      ∃ w ∈ (cs'.map Grammar.char).prod, p.2 = encode w ++ byte '"' :: t := by
  refine Loop.relate (l := stringLoop) (fun p r => ∀ cs t, r = .ok (cs, t) →
    ∃ cs', cs = p.1 ++ cs' ∧ ∃ w ∈ (cs'.map Grammar.char).prod, p.2 = encode w ++ byte '"' :: t)
    ?_ ?_ p cs t h
  · intro p p' r hturn hr cs t hok
    obtain ⟨cs', rfl, w, hw, hp'⟩ := hr cs t hok
    obtain ⟨run, c, u, hplain, hp, hescape, hpushed⟩ := stringTurn_inl hturn
    obtain ⟨e, he, hu⟩ := escape_sound hescape
    have hrest : ('\\' :: e) ++ w ∈ ((c :: cs').map Grammar.char).prod := by
      rw [map_cons, prod_cons]
      exact mem_mul.2 ⟨_, he, w, hw, rfl⟩
    refine ⟨run ++ c :: cs', ?_, run ++ (('\\' :: e) ++ w),
      prod_char_append (mem_prod_char hplain) hrest, ?_⟩
    · rw [hpushed, append_assoc, append_assoc, singleton_append]
    · rw [hp, hu, hp', encode_append, encode_append,
        encode_cons_of_lt (by decide : '\\'.toNat < 128)]
      simp only [append_assoc, cons_append]
  · intro p r hturn cs t hok
    rw [hok] at hturn
    obtain ⟨run, hplain, hp, rfl⟩ := stringTurn_inr hturn
    exact ⟨run, rfl, run, mem_prod_char hplain, hp⟩

lemma takeWhile_append_cons {p : UInt8 → Bool} (hb : p b = false)
    (s t : List UInt8) : (s ++ b :: t).takeWhile p = s.takeWhile p := by
  induction s with
  | nil => rw [nil_append, takeWhile_cons, if_neg (by rw [hb]; decide)]; rfl
  | cons c s ih => rw [cons_append, takeWhile_cons, takeWhile_cons, ih]

lemma slice_run (w : List Char) (t : List UInt8) :
    ∃ run, slice ((encode w ++ byte '"' :: t).takeWhile isPlain) = .ok run := by
  have htake := takeWhile_encode (p := isPlain) (q := fun c => decide (Grammar.Unescaped c))
    (fun c hc => by rw [Bool.eq_iff_iff, isPlain_byte hc, decide_eq_true_iff])
    (fun b hb => isPlain_of_le hb) (fun c hc => decide_eq_true (unescaped_of_le hc)) w
  refine ⟨w.takeWhile fun c => decide (Grammar.Unescaped c), ?_⟩
  rw [takeWhile_append_cons (by decide), htake, slice, decode_encode]
  rfl

lemma stringTurn_plain (hc : Grammar.Unescaped c) (xs : List Char) (w : List Char)
    (t : List UInt8) :
    stringTurn (xs, encode [c] ++ (encode w ++ byte '"' :: t)) =
      stringTurn (xs ++ [c], encode w ++ byte '"' :: t) := by
  have hplain : ∀ b ∈ encode [c], isPlain b = true := by
    by_cases hlt : c.toNat < 128
    · rw [encode_singleton_of_lt hlt]
      intro b hb
      rw [mem_singleton.1 hb]
      exact (isPlain_byte hlt).2 hc
    · exact fun b hb => isPlain_of_le (le_of_mem_encode (Nat.le_of_not_lt hlt) hb)
  obtain ⟨run, hrun⟩ := slice_run w t
  have hrun' : slice (encode [c] ++ (encode w ++ byte '"' :: t).takeWhile isPlain) =
    .ok (c :: run) := by
    rw [slice, orFault_eq_ok, decode_eq_some] at hrun ⊢
    rw [hrun, ← encode_cons]
  rw [stringTurn, stringTurn, takeWhile_append_of_pos hplain,
    dropWhile_append_of_pos hplain, hrun, hrun']
  simp only [append_assoc, singleton_append]

lemma stringTurn_quote (xs : List Char) (t : List UInt8) :
    stringTurn (xs, byte '"' :: t) = .inr (.ok (xs, t)) := by
  have hstop : (byte '"' :: t).takeWhile isPlain = encode [] := rfl
  have hdrop : (byte '"' :: t).dropWhile isPlain = byte '"' :: t := rfl
  rw [stringTurn]
  dsimp only
  rw [hstop, hdrop, slice, decode_encode, orFault_some]
  dsimp only
  rw [if_pos rfl, append_nil]

lemma stringTurn_escape (h : escape s = .ok (c, t)) (xs : List Char) :
    stringTurn (xs, byte '\\' :: s) = .inl (xs ++ [c], t) := by
  have hstop : (byte '\\' :: s).takeWhile isPlain = encode [] := rfl
  have hdrop : (byte '\\' :: s).dropWhile isPlain = byte '\\' :: s := rfl
  rw [stringTurn]
  dsimp only
  rw [hstop, hdrop, slice, decode_encode, orFault_some]
  dsimp only
  rw [if_neg (by decide), if_pos rfl, h, append_nil]

lemma stringLoop_complete (h : w ∈ (cs.map Grammar.char).prod) (xs : List Char)
    (t : List UInt8) : stringLoop.run (xs, encode w ++ byte '"' :: t) = .ok (xs ++ cs, t) := by
  induction cs generalizing w xs with
  | nil =>
    obtain rfl : w = [] := h
    rw [append_nil]
    exact Loop.run_of_done (stringTurn_quote xs t)
  | cons c cs ih =>
    rw [map_cons, prod_cons] at h
    obtain ⟨u, hu, w, hw, rfl⟩ := mem_mul.1 h
    rw [encode_append, append_assoc]
    by_cases hself : Grammar.Unescaped c ∧ u = [c]
    · obtain ⟨hc, rfl⟩ := hself
      rw [Loop.run_congr (stringTurn_plain hc xs w t), ih hw, append_assoc, singleton_append]
    · obtain ⟨e, rfl, hescape⟩ := escape_complete hu hself (encode w ++ byte '"' :: t)
      rw [encode_cons_of_lt (by decide), cons_append,
        Loop.run_of_next (stringTurn_escape hescape xs), ih hw, append_assoc, singleton_append]

/-! ## Strings -/

lemma string_sound (h : string (byte '"' :: s) = .ok (cs, t)) :
    ∃ w ∈ Grammar.string (String.ofList cs), byte '"' :: s = encode w ++ t := by
  obtain ⟨cs', rfl, w, hw, hs⟩ := stringLoop_sound h
  refine ⟨'"' :: (w ++ ['"']), ?_, ?_⟩
  · rw [Grammar.string, String.toList_ofList]
    exact mem_mul.2 ⟨['"'], rfl, _, mem_mul.2 ⟨w, hw, ['"'], rfl, rfl⟩, rfl⟩
  · change s = encode w ++ byte '"' :: t at hs
    rw [hs, encode_cons_of_lt (by decide), encode_append,
      encode_singleton_of_lt (by decide : '"'.toNat < 128)]
    simp only [cons_append, append_assoc, nil_append]

lemma string_complete {s : String} (hw : w ∈ Grammar.string s) (t : List UInt8) :
    ∃ u, encode w ++ t = byte '"' :: u ∧ string (byte '"' :: u) = .ok (s.toList, t) := by
  obtain ⟨_, rfl, v, hv, rfl⟩ := mem_mul.1 hw
  obtain ⟨u, hu, _, rfl, rfl⟩ := mem_mul.1 hv
  refine ⟨encode u ++ byte '"' :: t, ?_, ?_⟩
  · rw [encode_append, encode_append, append_assoc, append_assoc]
    rfl
  · rw [string, tail_cons, stringLoop_complete hu [] t, nil_append]

end Lazaret.Json
