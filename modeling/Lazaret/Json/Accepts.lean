import Lazaret.Json.Strings
import Mathlib.Data.List.DropRight

/-!
# What the reader accepts

The strict reader accepts exactly its language: `parseWithDepth` returns a value if and only if the
input is the UTF-8 of a text of that value, which names no member twice and does not nest too deep
(`parse_with_depth_eq_ok_iff`).
-/

namespace Lazaret.Json

open List Outcome Language Utf8

open Utf8 (byte encode)

/-- A read that takes exactly the texts of the values of a kind, before whatever may follow them. -/
structure Exact {α : Type} (read : List UInt8 → Outcome Failure (α × List UInt8))
    (texts : α → Language Char) (P : α → Prop) (follows : List UInt8 → Prop) : Prop where
  sound : ∀ s a t, read s = .ok (a, t) → P a ∧ ∃ w ∈ texts a, s = encode w ++ t
  complete : ∀ a w t, P a → w ∈ texts a → follows t → read (encode w ++ t) = .ok (a, t)

/-! ## White space -/

lemma nil_mem_ws : [] ∈ Grammar.ws := fun _ hc => absurd hc not_mem_nil

lemma toNat_lt_of_ws {c : Char} (h : c = ' ' ∨ c = '\t' ∨ c = '\n' ∨ c = '\r') : c.toNat < 128 := by
  rcases h with rfl | rfl | rfl | rfl <;> decide

lemma isWs_byte {c : Char} (h : c.toNat < 128) :
    isWs (byte c) = true ↔ c = ' ' ∨ c = '\t' ∨ c = '\n' ∨ c = '\r' := by
  have hbyte : ∀ d : Char, d.toNat < 128 → (byte c = byte d ↔ c = d) := by
    intro d hd
    rw [← UInt8.toNat_inj, toNat_byte h, toNat_byte hd, Char.toNat_inj]
  rw [isWs, decide_eq_true_iff, hbyte ' ' (by decide), hbyte '\t' (by decide),
    hbyte '\n' (by decide), hbyte '\r' (by decide)]

variable {w : List Char}

lemma isWs_of_mem_encode (h : w ∈ Grammar.ws) : ∀ b ∈ encode w, isWs b = true := by
  induction w with
  | nil => exact fun b hb => absurd hb not_mem_nil
  | cons c w ih =>
    have hc := h c mem_cons_self
    have hlt := toNat_lt_of_ws hc
    rw [encode_cons_of_lt hlt, forall_mem_cons]
    exact ⟨(isWs_byte hlt).2 hc, ih fun d hd => h d (mem_cons_of_mem _ hd)⟩

lemma skipWs_sound (s : List UInt8) : ∃ w ∈ Grammar.ws, s = encode w ++ skipWs s := by
  have hall : ∀ b ∈ s.takeWhile isWs, isWs b = true := fun b hb => mem_takeWhile_imp hb
  have hlt : ∀ b ∈ s.takeWhile isWs, b.toNat < 128 := by
    intro b hb
    have hws := hall b hb
    rw [isWs, decide_eq_true_iff] at hws
    rcases hws with rfl | rfl | rfl | rfl <;> decide
  obtain ⟨w, hw, hchars⟩ := exists_encode_of_lt hlt
  refine ⟨w, ?_, ?_⟩
  · exact fun c hc => (isWs_byte (hchars c hc).1).1 (hall _ (hchars c hc).2)
  · rw [hw, skipWs, takeWhile_append_dropWhile]

variable {t : List UInt8}

lemma skipWs_complete (hw : w ∈ Grammar.ws)
    (ht : next isWs t = false) : skipWs (encode w ++ t) = t :=
  dropWhile_append (isWs_of_mem_encode hw) ht

lemma numberEnds_append (hw : w ∈ Grammar.ws) (ht : NumberEnds t) : NumberEnds (encode w ++ t) := by
  cases w with
  | nil => exact ht
  | cons c w =>
    have hc := hw c mem_cons_self
    rw [NumberEnds, encode_cons_of_lt (toNat_lt_of_ws hc), cons_append, next_cons]
    rcases hc with rfl | rfl | rfl | rfl <;> decide

/-! ## Lists -/

section Lists

variable {α : Type} {item : Reader α} {texts : α → Language Char} {P : α → Prop} {c : Char}

/-- The texts of an item with white space around it. -/
def around (texts : α → Language Char) (a : α) : Language Char :=
  Grammar.ws * (texts a * Grammar.ws)

def Starts (texts : α → Language Char) : Prop :=
  ∀ a, ∀ w ∈ texts a, ∃ b u, encode w = b :: u ∧ isWs b = false ∧
    (b ≠ byte ']' ∧ b ≠ byte '}') ∧ b.toNat < 128

lemma separated_cons {l : Language Char} {ls : List (Language Char)} (h : ls ≠ []) :
    Grammar.separated (l :: ls) = l * ({[',']} * Grammar.separated ls) := by
  cases ls with
  | nil => exact absurd rfl h
  | cons l' ls => rfl

variable {t : List UInt8}

lemma read_around (hitem : Exact item.read texts P NumberEnds) {s u : List UInt8} {a : α}
    {b : UInt8} (hread : item.read (skipWs s) = .ok (a, t)) (hskip : skipWs t = b :: u) :
    P a ∧ ∃ w ∈ around texts a, s = encode w ++ b :: u := by
  obtain ⟨ha, w, hw, hs⟩ := hitem.sound _ _ _ hread
  obtain ⟨before, hbefore, hs'⟩ := skipWs_sound s
  obtain ⟨after, hafter, ht⟩ := skipWs_sound t
  refine ⟨ha, before ++ (w ++ after), mem_mul.2 ⟨before, hbefore, w ++ after,
    mem_mul.2 ⟨w, hw, after, hafter, rfl⟩, rfl⟩, ?_⟩
  conv_lhs => rw [hs', hs, ht, hskip]
  simp only [encode_append, append_assoc]

variable {w : List Char}

lemma around_read (hitem : Exact item.read texts P NumberEnds) (hstarts : Starts texts) {a : α}
    (ha : P a) (hw : w ∈ around texts a) {b : UInt8} (hb : isWs b = false)
    (hend : isNumberByte b = false) (u : List UInt8) :
    ∃ t, item.read (skipWs (encode w ++ b :: u)) = .ok (a, t) ∧ skipWs t = b :: u := by
  obtain ⟨before, hbefore, r, hr, rfl⟩ := mem_mul.1 hw
  obtain ⟨v, hv, after, hafter, rfl⟩ := mem_mul.1 hr
  obtain ⟨d, r, hbytes, hd, -⟩ := hstarts a v hv
  refine ⟨encode after ++ b :: u, ?_, skipWs_complete hafter hb⟩
  rw [encode_append, append_assoc, skipWs_complete hbefore, encode_append, append_assoc]
  · exact hitem.complete a v _ ha hv (numberEnds_append hafter hend)
  · rw [encode_append, hbytes]
    exact hd

variable {p : List α × List UInt8} {close : UInt8}

lemma listTurn_inl {p' : List α × List UInt8} (h : listTurn item close p = .inl p') :
    ∃ a t, item.read (skipWs p.2) = .ok (a, t) ∧ skipWs t = byte ',' :: p'.2 ∧
      p'.1 = p.1 ++ [a] := by
  rw [listTurn] at h
  split at h
  next a t hread =>
    split at h
    · cases h
    next b rest hskip =>
      split at h
      next hb =>
        obtain rfl := Sum.inl.inj h
        exact ⟨a, t, hread, hb ▸ hskip, rfl⟩
      · split at h <;> cases h
  · cases h
  · cases h

variable {as : List α}

lemma listTurn_inr (h : listTurn item close p = .inr (.ok (as, t))) :
    ∃ a u, item.read (skipWs p.2) = .ok (a, u) ∧ skipWs u = close :: t ∧ as = p.1 ++ [a] := by
  rw [listTurn] at h
  split at h
  next a u hread =>
    split at h
    · cases h
    next b rest hskip =>
      split at h
      · cases h
      split at h
      next hb =>
        obtain ⟨rfl, rfl⟩ := Prod.mk.inj (Outcome.ok.inj (Sum.inr.inj h))
        exact ⟨a, u, hread, hb ▸ hskip, rfl⟩
      · cases h
  · cases h
  · cases h

lemma listLoop_sound (hitem : Exact item.read texts P NumberEnds)
    (h : (listLoop item close).run p = .ok (as, t)) :
    ∃ as', as' ≠ [] ∧ as = p.1 ++ as' ∧ (∀ a ∈ as', P a) ∧
      ∃ w ∈ Grammar.separated (as'.map (around texts)), p.2 = encode w ++ close :: t := by
  refine Loop.relate (l := listLoop item close) (fun p r => ∀ as t, r = .ok (as, t) →
    ∃ as', as' ≠ [] ∧ as = p.1 ++ as' ∧ (∀ a ∈ as', P a) ∧
      ∃ w ∈ Grammar.separated (as'.map (around texts)), p.2 = encode w ++ close :: t)
    ?_ ?_ p as t h
  · intro p p' r hturn hr as t hok
    obtain ⟨as', hne, rfl, hall, w, hw, hp'⟩ := hr as t hok
    obtain ⟨a, u, hread, hskip, hpushed⟩ := listTurn_inl hturn
    obtain ⟨ha, v, hv, hp⟩ := read_around hitem hread hskip
    refine ⟨a :: as', cons_ne_nil _ _, ?_, ?_, v ++ ',' :: w, ?_, ?_⟩
    · rw [hpushed, append_assoc, singleton_append]
    · exact forall_mem_cons.2 ⟨ha, hall⟩
    · rw [map_cons, separated_cons (by simpa using hne)]
      exact mem_mul.2 ⟨v, hv, _, mem_mul.2 ⟨[','], rfl, w, hw, rfl⟩, rfl⟩
    · rw [hp, hp', encode_append_cons (by decide)]
  · intro p r hturn as t hok
    rw [hok] at hturn
    obtain ⟨a, u, hread, hskip, rfl⟩ := listTurn_inr hturn
    obtain ⟨ha, w, hw, hp⟩ := read_around hitem hread hskip
    refine ⟨[a], cons_ne_nil _ _, rfl, ?_, w, hw, hp⟩
    exact forall_mem_singleton.2 ha

def Closes (c : Char) : Prop := c = ']' ∨ c = '}'

lemma listLoop_complete (hitem : Exact item.read texts P NumberEnds) (hstarts : Starts texts)
    (hclose : Closes c) (hne : as ≠ []) (hall : ∀ a ∈ as, P a)
    (hw : w ∈ Grammar.separated (as.map (around texts))) (xs : List α) (t : List UInt8) :
    (listLoop item (byte c)).run (xs, encode w ++ byte c :: t) = .ok (xs ++ as, t) := by
  induction as generalizing w xs with
  | nil => exact absurd rfl hne
  | cons a as ih =>
    obtain ⟨ha, hall⟩ := forall_mem_cons.1 hall
    by_cases has : as = []
    · -- the last item is before the closing byte
      subst has
      have hc : isWs (byte c) = false ∧ isNumberByte (byte c) = false ∧ byte c ≠ byte ',' := by
        rcases hclose with rfl | rfl <;> decide
      obtain ⟨u, hread, hskip⟩ := around_read hitem hstarts ha hw hc.1 hc.2.1 t
      refine Loop.run_of_done ?_
      show listTurn item (byte c) (xs, encode w ++ byte c :: t) = _
      rw [listTurn]
      dsimp only
      rw [hread]
      dsimp only
      rw [hskip]
      dsimp only
      rw [if_neg hc.2.2, if_pos rfl]
    · rw [map_cons, separated_cons (by simpa using has)] at hw
      obtain ⟨v, hv, comma, hcomma, rfl⟩ := mem_mul.1 hw
      obtain ⟨_, rfl, r, hr, rfl⟩ := mem_mul.1 hcomma
      obtain ⟨u, hread, hskip⟩ := around_read hitem hstarts ha hv (b := byte ',') (by decide)
        (by decide) (encode r ++ byte c :: t)
      have hturn : (listLoop item (byte c)).turn
          (xs, encode v ++ byte ',' :: (encode r ++ byte c :: t)) =
          .inl (xs ++ [a], encode r ++ byte c :: t) := by
        show listTurn item (byte c) _ = _
        rw [listTurn]
        dsimp only
        rw [hread]
        dsimp only
        rw [hskip]
        dsimp only
        rw [if_pos rfl]
      rw [singleton_append, encode_append_cons (by decide), Loop.run_of_next hturn,
        ih has hall hr, append_assoc, singleton_append]

lemma ws_append {w' : List Char} (hw : w ∈ Grammar.ws) (hw' : w' ∈ Grammar.ws) :
    w ++ w' ∈ Grammar.ws := by
  intro c hc
  rcases mem_append.1 hc with hc | hc
  · exact hw c hc
  · exact hw' c hc

lemma mem_separated (hne : as ≠ []) : w ∈ Grammar.separated (as.map (around texts)) ↔
      ∃ before ∈ Grammar.ws, ∃ a ∈ as, ∃ v ∈ texts a, ∃ r, w = before ++ (v ++ r) ∧
        ∀ before' ∈ Grammar.ws,
          before' ++ (v ++ r) ∈ Grammar.separated (as.map (around texts)) := by
  constructor
  · intro hw
    cases as with
    | nil => exact absurd rfl hne
    | cons a as =>
      by_cases has : as = []
      · subst has
        obtain ⟨before, hbefore, r, hr, rfl⟩ := mem_mul.1 hw
        obtain ⟨v, hv, after, hafter, rfl⟩ := mem_mul.1 hr
        exact ⟨before, hbefore, a, mem_cons_self, v, hv, after, rfl, fun before' h' =>
          mem_mul.2 ⟨before', h', _, hr, rfl⟩⟩
      · have hmap : as.map (around texts) ≠ [] := by simpa using has
        rw [map_cons, separated_cons hmap] at hw
        obtain ⟨first, hfirst, rest, hrest, rfl⟩ := mem_mul.1 hw
        obtain ⟨before, hbefore, r, hr, rfl⟩ := mem_mul.1 hfirst
        obtain ⟨v, hv, after, hafter, rfl⟩ := mem_mul.1 hr
        refine ⟨before, hbefore, a, mem_cons_self, v, hv, after ++ rest, ?_, ?_⟩
        · rw [append_assoc, append_assoc]
        · intro before' h'
          rw [map_cons, separated_cons hmap]
          refine mem_mul.2 ⟨before' ++ (v ++ after),
            mem_mul.2 ⟨before', h', _, hr, rfl⟩, rest, hrest, ?_⟩
          rw [append_assoc, append_assoc]
  · rintro ⟨before, hbefore, a, -, v, -, r, rfl, h⟩
    exact h before hbefore

lemma ws_separated {before : List Char} (hbefore : before ∈ Grammar.ws) (hne : as ≠ [])
    (hw : w ∈ Grammar.separated (as.map (around texts))) :
    before ++ w ∈ Grammar.separated (as.map (around texts)) := by
  obtain ⟨before', hbefore', a, -, v, -, r, rfl, h⟩ := (mem_separated hne).1 hw
  rw [← append_assoc]
  exact h _ (ws_append hbefore hbefore')

lemma skipWs_separated (hstarts : Starts texts) (hne : as ≠ [])
    (hw : w ∈ Grammar.separated (as.map (around texts))) (t : List UInt8) :
    ∃ b u, skipWs (encode w ++ t) = b :: u ∧ b ≠ byte ']' ∧ b ≠ byte '}' := by
  obtain ⟨before, hbefore, a, -, v, hv, r, rfl, -⟩ := (mem_separated hne).1 hw
  obtain ⟨b, u, hbytes, hb, hclosing, -⟩ := hstarts a v hv
  refine ⟨b, u ++ (encode r ++ t), ?_, hclosing⟩
  rw [encode_append, append_assoc, skipWs_complete hbefore, encode_append, hbytes,
    cons_append, cons_append, append_assoc]
  rw [encode_append, hbytes]
  exact hb

lemma skipWs_skipWs (s : List UInt8) : skipWs (skipWs s) = skipWs s := dropWhile_idempotent isWs s

lemma list_exact (hitem : Exact item.read texts P NumberEnds) (hstarts : Starts texts)
    (hclose : Closes c) :
    Exact (list item (byte c)) (fun as => Grammar.separated (as.map (around texts)) * {[c]})
      (fun as => ∀ a ∈ as, P a) fun _ => True := by
  have hc : isWs (byte c) = false ∧ c.toNat < 128 := by rcases hclose with rfl | rfl <;> decide
  refine ⟨?_, ?_⟩
  · intro s as t h
    obtain ⟨before, hbefore, hs⟩ := skipWs_sound s
    rw [list] at h
    split at h
    · cases h
    next b u hskip =>
      split at h
      next hb =>
        obtain ⟨rfl, rfl⟩ := Prod.mk.inj (Outcome.ok.inj h)
        refine ⟨fun a ha => absurd ha not_mem_nil, before ++ [c],
          mem_mul.2 ⟨before, hbefore, [c], rfl, rfl⟩, ?_⟩
        rw [encode_append_cons hc.2, hs, hskip, hb]
        rfl
      · obtain ⟨as', hne, hlist, hall, w, hw, hu⟩ := listLoop_sound hitem h
        obtain rfl : as = as' := hlist
        refine ⟨hall, before ++ w ++ [c], mem_mul.2 ⟨before ++ w, ?_, [c], rfl, rfl⟩, ?_⟩
        · exact ws_separated hbefore hne hw
        · change b :: u = encode w ++ byte c :: t at hu
          rw [encode_append_cons hc.2, encode_append, hs, hskip, hu, append_assoc]
          rfl
  · intro as w t hall hw _
    obtain ⟨v, hv, _, rfl, rfl⟩ := mem_mul.1 hw
    rw [encode_append_cons hc.2]
    show list item (byte c) (encode v ++ byte c :: t) = _
    by_cases hne : as = []
    · subst hne
      rw [list, skipWs_complete hv (show next isWs (byte c :: t) = false from hc.1)]
      dsimp only
      rw [if_pos rfl]
    · obtain ⟨b, u, hskip, hb⟩ := skipWs_separated hstarts hne hv (byte c :: t)
      have hbc : b ≠ byte c := by
        rcases hclose with rfl | rfl
        · exact hb.1
        · exact hb.2
      -- the first turn skips the white space that has been skipped
      have hturn : (listLoop item (byte c)).turn ([], b :: u) =
          (listLoop item (byte c)).turn ([], encode v ++ byte c :: t) := by
        show listTurn item (byte c) _ = listTurn item (byte c) _
        rw [listTurn, listTurn, ← hskip, skipWs_skipWs]
      rw [list, hskip]
      dsimp only
      rw [if_neg hbc, Loop.run_congr hturn, listLoop_complete hitem hstarts hclose hne hall hv [] t,
        nil_append]
end Lists
/-! ## Values -/
lemma starts_string (n : String) {w : List Char} (hw : w ∈ Grammar.string n) :
    ∃ u, encode w = byte '"' :: u := by
  obtain ⟨_, rfl, v, -, rfl⟩ := mem_mul.1 hw
  exact ⟨encode v, rfl⟩

lemma number_head {w : List Char} (hw : w ∈ Grammar.number) :
    ∃ b u, encode w = b :: u ∧ (b = byte '-' ∨ isDigit b = true) := by
  obtain ⟨i, hi, fe, -, rfl⟩ := mem_mul.1 hw
  obtain ⟨sign, hsign, ds, hds, rfl⟩ := mem_mul.1 hi
  rcases hsign with rfl | rfl
  · obtain ⟨b, u, hbytes, hb⟩ := next_eq_true (natural_head hds (encode fe))
    exact ⟨b, u, by rw [nil_append, encode_append, hbytes], .inr hb⟩
  · exact ⟨byte '-', _, rfl, .inl rfl⟩

lemma starts_texts : Starts Value.texts := by
  intro v w hw
  cases v with
  | null =>
    obtain rfl : w = "null".toList := hw
    exact ⟨byte 'n', _, rfl, by decide⟩
  | bool b =>
    cases b with
    | true =>
      obtain rfl : w = "true".toList := hw
      exact ⟨byte 't', _, rfl, by decide⟩
    | false =>
      obtain rfl : w = "false".toList := hw
      exact ⟨byte 'f', _, rfl, by decide⟩
  | number n =>
    obtain ⟨b, u, hbytes, rfl | hb⟩ := number_head hw.1
    · exact ⟨_, u, hbytes, by decide⟩
    · refine ⟨b, u, hbytes, ?_, ⟨isDigit_ne hb (by decide), isDigit_ne hb (by decide)⟩, ?_⟩
      · rw [isWs, decide_eq_false_iff_not]
        rintro (rfl | rfl | rfl | rfl) <;> exact absurd hb (by decide)
      · rw [isDigit, decide_eq_true_iff, UInt8.le_iff_toNat_le, UInt8.le_iff_toNat_le] at hb
        exact hb.2.trans_lt (by decide)
  | string s =>
    obtain ⟨u, hu⟩ := starts_string s hw
    exact ⟨byte '"', u, hu, by decide⟩
  | array a =>
    rw [Value.texts_array] at hw
    obtain ⟨_, rfl, v, -, rfl⟩ := mem_mul.1 hw
    exact ⟨byte '[', encode v, rfl, by decide⟩
  | object o =>
    rw [Value.texts_object] at hw
    obtain ⟨_, rfl, v, -, rfl⟩ := mem_mul.1 hw
    exact ⟨byte '{', encode v, rfl, by decide⟩

lemma starts_member : Starts Value.memberTexts := by
  intro m w hw
  obtain ⟨a, ha, r, -, rfl⟩ := mem_mul.1 hw
  obtain ⟨u, hu⟩ := starts_string m.1 ha
  exact ⟨byte '"', u ++ encode r, by rw [encode_append, hu]; rfl, by decide⟩

lemma member_exact {item : Reader Value} {P : Value → Prop}
    (hitem : Exact item.read Value.texts P NumberEnds) :
    Exact (member item).read Value.memberTexts (fun m => P m.2) NumberEnds := by
  refine ⟨?_, ?_⟩
  · intro s m t h
    change memberFrom item s = .ok (m, t) at h
    cases s with
    | nil => exact absurd h (by simp [memberFrom, err])
    | cons b s =>
      rw [memberFrom] at h
      split at h
      · cases h
      next hb =>
        rw [not_not] at hb
        obtain ⟨⟨cs, u⟩, hname, h⟩ := bind_eq_ok.1 h
        rw [hb] at hname
        obtain ⟨name, hw, hs⟩ := string_sound hname
        split at h
        · cases h
        next c rest hskip =>
          split at h
          · cases h
          next hc =>
            rw [not_not] at hc
            obtain ⟨⟨v, t'⟩, hv, h⟩ := bind_eq_ok.1 h
            obtain ⟨rfl, rfl⟩ := Prod.mk.inj (Outcome.ok.inj h)
            obtain ⟨hP, value, hvalue, hrest⟩ := hitem.sound _ _ _ hv
            obtain ⟨before, hbefore, hu⟩ := skipWs_sound u
            obtain ⟨after, hafter, hrest'⟩ := skipWs_sound rest
            change skipWs u = c :: rest at hskip
            refine ⟨hP, name ++ (before ++ ':' :: (after ++ value)), ?_, ?_⟩
            · exact mem_mul.2 ⟨name, hw, _, mem_mul.2 ⟨before, hbefore, _,
                mem_mul.2 ⟨[':'], rfl, _, mem_mul.2 ⟨after, hafter, value, hvalue,
                  rfl⟩, rfl⟩, rfl⟩, rfl⟩
            · rw [hb, hs, hu, hskip, hc, hrest', hrest, encode_append, append_assoc,
                encode_append_cons (by decide), encode_append, append_assoc]
  · intro m w t hP hw ht
    obtain ⟨name, hname, r, hr, rfl⟩ := mem_mul.1 hw
    obtain ⟨before, hbefore, q, hq, rfl⟩ := mem_mul.1 hr
    obtain ⟨_, rfl, p, hp, rfl⟩ := mem_mul.1 hq
    obtain ⟨after, hafter, value, hvalue, rfl⟩ := mem_mul.1 hp
    obtain ⟨b, u', hbytes, hb, -⟩ := starts_texts m.2 value hvalue
    obtain ⟨u, hu, hread⟩ := string_complete hname
      (encode before ++ byte ':' :: (encode after ++ (encode value ++ t)))
    have hsplit : encode (name ++ (before ++ ([':'] ++ (after ++ value)))) ++
      t = byte '"' :: u := by
      rw [← hu, encode_append, append_assoc, singleton_append,
        encode_append_cons (by decide), encode_append, append_assoc]
    have hcolon : skipWs (encode before ++ byte ':' :: (encode after ++ (encode value ++ t))) =
        byte ':' :: (encode after ++ (encode value ++ t)) :=
      skipWs_complete hbefore (by decide : isWs (byte ':') = false)
    have hvalue' : skipWs (encode after ++ (encode value ++ t)) = encode value ++ t :=
      skipWs_complete hafter (by rw [hbytes]; exact hb)
    rw [hsplit]
    show memberFrom item (byte '"' :: u) = _
    rw [memberFrom, if_neg (by simp), hread, ok_bind]
    dsimp only
    rw [hcolon]
    dsimp only
    rw [if_neg (by simp), hvalue', hitem.complete m.2 value t hP hvalue ht, ok_bind,
      String.ofList_toList]

variable {v : Value} {s : List UInt8}

lemma literal_sound {word : List UInt8} {w : Value} (h : literal word v s = .ok (w, t)) :
    w = v ∧ s = word ++ t := by
  rw [literal] at h
  split at h
  next hpre =>
    obtain ⟨u, rfl⟩ := hpre
    obtain ⟨rfl, rfl⟩ := Prod.mk.inj (Outcome.ok.inj h)
    rw [drop_left]
    exact ⟨rfl, rfl⟩
  split at h
  · cases h
  · cases h

lemma literal_complete (word : List UInt8) (v : Value) (t : List UInt8) :
    literal word v (word ++ t) = .ok (v, t) := by
  rw [literal, if_pos (prefix_append word t), drop_left]

/-- What reads the values inside another one, if these may still nest. -/
def inner : ℕ → Option (Reader Value)
  | 0 => none
  | levels + 1 => some (value levels)

lemma value_eq (levels : ℕ) : (value levels).read = valueFrom (inner levels) := by
  cases levels <;> rfl

/-- The values that name no member twice and do not nest too deep. -/
def Allowed (levels : ℕ) (v : Value) : Prop := v.NamesOnce ∧ v.nest ≤ levels

variable {levels : ℕ}

lemma array_sound (ih : Exact (value levels).read Value.texts (Allowed levels) NumberEnds)
    (h : array (some (value levels)) (byte '[' :: s) = .ok (v, t)) :
    Allowed (levels + 1) v ∧ ∃ w ∈ v.texts, byte '[' :: s = encode w ++ t := by
  obtain ⟨⟨as, u⟩, hread, h⟩ := bind_eq_ok.1 h
  obtain ⟨rfl, rfl⟩ := Prod.mk.inj (Outcome.ok.inj h)
  obtain ⟨hall, w, hw, hs⟩ := (list_exact ih starts_texts (.inl rfl)).sound _ _ _ hread
  rw [tail_cons] at hs
  refine ⟨⟨Value.namesOnce_array.2 fun v hv => (hall v hv).1,
    Value.nest_array_le.2 fun v hv => (hall v hv).2⟩, '[' :: w, ?_, ?_⟩
  · rw [Value.texts_array]
    exact mem_mul.2 ⟨['['], rfl, w, hw, rfl⟩
  · rw [hs, encode_cons_of_lt (by decide)]
    rfl

lemma adjacent_names {o : List (String × Value)} :
    Keyed.adjacent ((o.map Prod.fst).insertionSort (· ≤ ·)) = true ↔ ¬ (o.map Prod.fst).Nodup := by
  rw [Keyed.adjacent_iff (pairwise_insertionSort _ _),
    (perm_insertionSort _ (o.map Prod.fst)).nodup_iff]

lemma object_sound {levels : ℕ}
    (ih : Exact (value levels).read Value.texts (Allowed levels) NumberEnds)
    {s t : List UInt8} {v : Value} (h : object (some (value levels)) (byte '{' :: s) = .ok (v, t)) :
    Allowed (levels + 1) v ∧ ∃ w ∈ v.texts, byte '{' :: s = encode w ++ t := by
  obtain ⟨⟨o, u⟩, hread, h⟩ := bind_eq_ok.1 h
  split at h
  · cases h
  next hnames =>
    rw [adjacent_names, not_not] at hnames
    obtain ⟨rfl, rfl⟩ := Prod.mk.inj (Outcome.ok.inj h)
    obtain ⟨hall, w, hw, hs⟩ :=
      (list_exact (member_exact ih) starts_member (.inr rfl)).sound _ _ _ hread
    rw [tail_cons] at hs
    refine ⟨⟨Value.namesOnce_object.2 ⟨hnames, fun m hm => (hall m hm).1⟩,
      Value.nest_object_le.2 fun m hm => (hall m hm).2⟩, '{' :: w, ?_, ?_⟩
    · rw [Value.texts_object]
      exact mem_mul.2 ⟨['{'], rfl, w, hw, rfl⟩
    · rw [hs, encode_cons_of_lt (by decide)]
      rfl

lemma allowed_of_parts {v : Value} (hparts : v.parts = [v]) (hnest : v.nest = 0)
    (hv : ∀ o, v ≠ .object o) (levels : ℕ) : Allowed levels v := by
  refine ⟨fun o ho => ?_, hnest ▸ Nat.zero_le _⟩
  rw [hparts, mem_singleton] at ho
  exact absurd ho.symm (hv o)

lemma value_sound {levels : ℕ}
    (ih : ∀ d, levels = d + 1 → Exact (value d).read Value.texts (Allowed d) NumberEnds)
    {s t : List UInt8} {v : Value} (h : valueFrom (inner levels) s = .ok (v, t)) :
    Allowed levels v ∧ ∃ w ∈ v.texts, s = encode w ++ t := by
  cases s with
  | nil => exact absurd h (by simp [valueFrom, err])
  | cons b s =>
    rw [valueFrom] at h
    split at h
    next hb =>
      cases levels with
      | zero => exact absurd h (by simp [inner, object, err])
      | succ d =>
        rw [hb] at h ⊢
        exact object_sound (ih d rfl) h
    split at h
    next hb =>
      cases levels with
      | zero => exact absurd h (by simp [inner, array, err])
      | succ d =>
        rw [hb] at h ⊢
        exact array_sound (ih d rfl) h
    split at h
    next hb =>
      obtain ⟨⟨cs, u⟩, hread, h⟩ := bind_eq_ok.1 h
      obtain ⟨rfl, rfl⟩ := Prod.mk.inj (Outcome.ok.inj h)
      rw [hb] at hread ⊢
      exact ⟨allowed_of_parts rfl rfl (by simp) levels, string_sound hread⟩
    split at h
    · obtain ⟨rfl, hs⟩ := literal_sound h
      exact ⟨allowed_of_parts rfl rfl (by simp) levels, "true".toList, rfl, hs⟩
    split at h
    · obtain ⟨rfl, hs⟩ := literal_sound h
      exact ⟨allowed_of_parts rfl rfl (by simp) levels, "false".toList, rfl, hs⟩
    split at h
    · obtain ⟨rfl, hs⟩ := literal_sound h
      exact ⟨allowed_of_parts rfl rfl (by simp) levels, "null".toList, rfl, hs⟩
    split at h
    · obtain ⟨n, rfl⟩ := eq_number h
      exact ⟨allowed_of_parts rfl rfl (by simp) levels, number_sound _ _ _ h⟩
    · cases h

lemma valueFrom_cons (levels : Option (Reader Value)) (b : UInt8) (s : List UInt8) :
    valueFrom levels (b :: s) =
      if b = byte '{' then object levels (b :: s)
      else if b = byte '[' then array levels (b :: s)
      else if b = byte '"' then do
        let text ← string (b :: s)
        .ok (.string (String.ofList text.1), text.2)
      else if b = byte 't' then
        literal [byte 't', byte 'r', byte 'u', byte 'e'] (.bool true) (b :: s)
      else if b = byte 'f' then
        literal [byte 'f', byte 'a', byte 'l', byte 's', byte 'e'] (.bool false) (b :: s)
      else if b = byte 'n' then literal [byte 'n', byte 'u', byte 'l', byte 'l'] .null (b :: s)
      else if b = byte '-' ∨ isDigit b then number (b :: s)
      else err (b :: s) .Syntax := rfl

lemma number_dispatch {b : UInt8} (hb : b = byte '-' ∨ isDigit b = true)
    (levels : Option (Reader Value)) (s : List UInt8) :
    valueFrom levels (b :: s) = number (b :: s) := by
  have hne : ∀ c, c ≠ byte '-' → isDigit c = false → b ≠ c := by
    rintro c hc hdigit rfl
    rcases hb with rfl | hb
    · exact hc rfl
    · exact isDigit_ne hb hdigit rfl
  rw [valueFrom_cons, if_neg (hne _ (by decide) (by decide)),
    if_neg (hne _ (by decide) (by decide)),
    if_neg (hne _ (by decide) (by decide)), if_neg (hne _ (by decide) (by decide)),
    if_neg (hne _ (by decide) (by decide)), if_neg (hne _ (by decide) (by decide)), if_pos hb]

lemma value_complete {levels : ℕ}
    (ih : ∀ d, levels = d + 1 → Exact (value d).read Value.texts (Allowed d) NumberEnds)
    {v : Value} {w : List Char} {t : List UInt8} (hv : Allowed levels v) (hw : w ∈ v.texts)
    (ht : NumberEnds t) : valueFrom (inner levels) (encode w ++ t) = .ok (v, t) := by
  cases v with
  | null =>
    obtain rfl : w = "null".toList := hw
    show valueFrom _ (byte 'n' :: ([byte 'u', byte 'l', byte 'l'] ++ t)) = _
    rw [valueFrom_cons, if_neg (by decide), if_neg (by decide), if_neg (by decide),
      if_neg (by decide), if_neg (by decide), if_pos rfl]
    exact literal_complete [byte 'n', byte 'u', byte 'l', byte 'l'] .null t
  | bool b =>
    cases b with
    | true =>
      obtain rfl : w = "true".toList := hw
      show valueFrom _ (byte 't' :: ([byte 'r', byte 'u', byte 'e'] ++ t)) = _
      rw [valueFrom_cons, if_neg (by decide), if_neg (by decide), if_neg (by decide), if_pos rfl]
      exact literal_complete [byte 't', byte 'r', byte 'u', byte 'e'] (.bool true) t
    | false =>
      obtain rfl : w = "false".toList := hw
      show valueFrom _ (byte 'f' :: ([byte 'a', byte 'l', byte 's', byte 'e'] ++ t)) = _
      rw [valueFrom_cons, if_neg (by decide), if_neg (by decide), if_neg (by decide),
        if_neg (by decide), if_pos rfl]
      exact literal_complete [byte 'f', byte 'a', byte 'l', byte 's', byte 'e'] (.bool false) t
  | number n =>
    obtain ⟨b, u, hbytes, hb⟩ := number_head hw.1
    have hread := number_complete hw ht
    rw [hbytes, cons_append] at hread ⊢
    rw [number_dispatch hb, hread]
  | string s =>
    obtain ⟨u, hu, hread⟩ := string_complete hw t
    rw [hu, valueFrom_cons, if_neg (by decide), if_neg (by decide), if_pos rfl, hread,
      ok_bind, String.ofList_toList]
  | array a =>
    cases levels with
    | zero => exact absurd hv.2 (Nat.not_succ_le_zero _)
    | succ d =>
      rw [Value.texts_array] at hw
      obtain ⟨_, rfl, u, hu, rfl⟩ := mem_mul.1 hw
      have hall : ∀ v ∈ a, Allowed d v := fun v hmem =>
        ⟨Value.namesOnce_array.1 hv.1 v hmem, Value.nest_array_le.1 hv.2 v hmem⟩
      show valueFrom _ (byte '[' :: (encode u ++ t)) = _
      rw [valueFrom_cons, if_neg (by decide), if_pos rfl, inner, array, tail_cons,
        (list_exact (ih d rfl) starts_texts (.inl rfl)).complete a u t hall hu trivial, ok_bind]
  | object o =>
    cases levels with
    | zero => exact absurd hv.2 (Nat.not_succ_le_zero _)
    | succ d =>
      rw [Value.texts_object] at hw
      obtain ⟨_, rfl, u, hu, rfl⟩ := mem_mul.1 hw
      obtain ⟨hnames, honce⟩ := Value.namesOnce_object.1 hv.1
      have hall : ∀ m ∈ o, Allowed d m.2 := fun m hmem =>
        ⟨honce m hmem, Value.nest_object_le.1 hv.2 m hmem⟩
      show valueFrom _ (byte '{' :: (encode u ++ t)) = _
      rw [valueFrom_cons, if_pos rfl, inner, object, tail_cons,
        (list_exact (member_exact (ih d rfl)) starts_member (.inr rfl)).complete o u t hall hu
          trivial, ok_bind, if_neg (by rw [adjacent_names, not_not]; exact hnames)]

theorem value_exact (levels : ℕ) :
    Exact (value levels).read Value.texts (Allowed levels) NumberEnds := by
  induction levels with
  | zero =>
    rw [value_eq]
    exact ⟨fun s v t h => value_sound (fun d hd => absurd hd (Nat.succ_ne_zero d).symm) h,
      fun v w t hv hw ht =>
        value_complete (fun d hd => absurd hd (Nat.succ_ne_zero d).symm) hv hw ht⟩
  | succ d ih =>
    have ih' : ∀ d', d + 1 = d' + 1 →
        Exact (value d').read Value.texts (Allowed d') NumberEnds := by
      intro d' hd
      rw [← Nat.succ.inj hd]
      exact ih
    rw [value_eq]
    exact ⟨fun s v t h => value_sound ih' h, fun v w t hv hw ht => value_complete ih' hv hw ht⟩
/-! ## The whole input -/
lemma text_of_parse {input : List UInt8} {maxDepth : ℕ} {v : Value}
    (h : parseWithDepth input maxDepth = .ok v) :
    ∃ text, input = encode text ∧ text.head? ≠ some '\uFEFF' ∧
      text ∈ Grammar.ws * v.texts * Grammar.ws ∧ Allowed (min maxDepth 256) v := by
  rw [parseWithDepth] at h
  split at h
  · cases h
  next text htext =>
    rw [decode_eq_some] at htext
    split at h
    · cases h
    next hbom =>
      split at h
      next v' hparse =>
        obtain rfl := Outcome.ok.inj h
        obtain ⟨⟨v, u⟩, hread, hend⟩ := bind_eq_ok.1 hparse
        dsimp only at hend
        split at hend
        · exact absurd hend (by simp [err])
        next hrest =>
          rw [not_not] at hrest
          obtain rfl := Outcome.ok.inj hend
          obtain ⟨hallowed, w, hw, hs⟩ := (value_exact _).sound _ _ _ hread
          obtain ⟨before, hbefore, hinput⟩ := skipWs_sound input
          obtain ⟨after, hafter, hu⟩ := skipWs_sound u
          have hall : input = encode (before ++ w ++ after) := by
            rw [hinput, hs, hu, hrest, append_nil, encode_append, encode_append, append_assoc]
          have heq : text = before ++ w ++ after := encode_injective (htext.symm.trans hall)
          refine ⟨text, htext, hbom, ?_, hallowed⟩
          rw [heq]
          exact mem_mul.2 ⟨before ++ w, mem_mul.2 ⟨before, hbefore, w, hw, rfl⟩,
            after, hafter, rfl⟩
      · cases h
      · cases h

lemma parse_of_text {text : List Char} {maxDepth : ℕ} {v : Value}
    (hbom : text.head? ≠ some '\uFEFF') (htext : text ∈ Grammar.ws * v.texts * Grammar.ws)
    (hallowed : Allowed (min maxDepth 256) v) : parseWithDepth (encode text) maxDepth = .ok v := by
  obtain ⟨bw, hbw, after, hafter, rfl⟩ := mem_mul.1 htext
  obtain ⟨before, hbefore, w, hw, rfl⟩ := mem_mul.1 hbw
  obtain ⟨b, u, hbytes, hb, -⟩ := starts_texts v w hw
  have hskip : skipWs (encode (before ++ w ++ after)) = encode w ++ encode after := by
    rw [encode_append, encode_append, append_assoc]
    exact skipWs_complete hbefore (by rw [hbytes]; exact hb)
  have hend : skipWs (encode after) = [] := by
    have h := skipWs_complete (t := []) hafter rfl
    rwa [append_nil] at h
  have hends : NumberEnds (encode after) := by
    have h := numberEnds_append (t := []) hafter rfl
    rwa [append_nil] at h
  have hparse : parser (encode (before ++ w ++ after)) (min maxDepth HARD_MAX_DEPTH) = .ok v := by
    rw [parser, hskip, (value_exact (min maxDepth HARD_MAX_DEPTH)).complete v w _ hallowed hw hends,
      ok_bind]
    dsimp only
    rw [hend, if_neg (by simp)]
  rw [parseWithDepth, decode_encode]
  dsimp only
  rw [if_neg hbom, hparse]

/-- `parse_with_depth` returns a value exactly where the input is a text of it, in UTF-8 and with no
byte order mark, that names no member twice and nests at most as deep as is allowed. -/
theorem parse_with_depth_eq_ok_iff (input : List UInt8) (maxDepth : ℕ) (v : Value) :
    parseWithDepth input maxDepth = .ok v ↔
      ∃ text, input = encode text ∧ text.head? ≠ some '\uFEFF' ∧
        text ∈ Grammar.ws * v.texts * Grammar.ws ∧ v.NamesOnce ∧ v.nest ≤ min maxDepth 256 := by
  constructor
  · exact text_of_parse
  · rintro ⟨text, rfl, hbom, htext, hallowed⟩
    exact parse_of_text hbom htext hallowed

/-- The bound on the depth only refuses: what is read under one bound is read under another one as
the same value, exactly if that nests no deeper. -/
theorem parse_with_depth_bound {input : List UInt8} {maxDepth : ℕ} {v : Value}
    (h : parseWithDepth input maxDepth = .ok v) (bound : ℕ) (w : Value) :
    parseWithDepth input bound = .ok w ↔ w = v ∧ v.nest ≤ min bound 256 := by
  obtain ⟨text, rfl, hbom, htext, hnames, hnest⟩ := text_of_parse h
  have hall : ∀ d, v.nest ≤ min d 256 → parseWithDepth (encode text) d = .ok v := fun d hd =>
    parse_of_text hbom htext ⟨hnames, hd⟩
  constructor
  · intro hw
    obtain ⟨text', heq, hbom', htext', hnames', hnest'⟩ := text_of_parse hw
    obtain rfl := encode_injective heq
    -- under the largest bound both are read
    have hmax := @parse_of_text _ 256 _ hbom' htext' ⟨hnames', hnest'.trans (by simp)⟩
    obtain rfl := Outcome.ok.inj (hmax.symm.trans (hall 256 (hnest.trans (by simp))))
    exact ⟨rfl, hnest'⟩
  · rintro ⟨rfl, hbound⟩
    exact hall bound hbound

theorem parse_with_depth_bound_zero : parseWithDepth [0x5B, 0x5D] 0 ≠ .ok (.array []) := by
  have h : parseWithDepth [0x5B, 0x5D] 1 = .ok (.array []) := rfl
  exact fun hw => absurd ((parse_with_depth_bound h 0 _).1 hw).2 (by decide)

end Lazaret.Json