import Lazaret.Lib.Keyed
import Lazaret.Tuf.Json
import Mathlib.Computability.Language

/-!
# What JSON values are

The numbers of RFC 8259 as a language, the values whose numbers are such and whose objects name no
member twice, and when two values are the same: up to the order of the members, at every level, and
the spelling of zero (`Same`).  The two writers sort the members, by different orders of their
names, and write `-0` as `0`: `normal` is the value that is left to write, and values are the same
exactly when that is equal (`same_iff_normal_eq`).
-/

namespace Lazaret.Json

open List

/-! ## Numbers -/

namespace Grammar

def digits : Language Char := {w : List Char | w ≠ [] ∧ ∀ c ∈ w, c.isDigit = true}

def natural : Language Char := {w : List Char | w = ['0'] ∨ w ∈ digits ∧ w.head? ≠ some '0'}

def maybe (l : Language Char) : Language Char := 1 + l

/-- An integer: digits with no leading zero, after a `-` or none. -/
def integer : Language Char := maybe {['-']} * natural

def fraction : Language Char := {['.']} * digits

/-- An exponent: an `e`, a sign or none, and digits. -/
def exponent : Language Char := {['e'], ['E']} * (maybe {['+'], ['-']} * digits)

def number : Language Char := integer * (maybe fraction * maybe exponent)

lemma mem_of_mem_integer {w : List Char} (h : w ∈ integer) {c : Char} (hc : c ∈ w) :
    c = '-' ∨ c.isDigit = true := by
  obtain ⟨sign, hsign, ds, hds, rfl⟩ := Language.mem_mul.1 h
  rcases mem_append.1 hc with hc | hc
  · rcases hsign with rfl | rfl
    · exact absurd hc not_mem_nil
    · exact .inl (mem_singleton.1 hc)
  · rcases hds with rfl | hds
    · rw [mem_singleton.1 hc]
      exact .inr rfl
    · exact .inr (hds.1.2 c hc)

lemma ne_nil_of_mem_integer {w : List Char} (h : w ∈ integer) : w ≠ [] := by
  obtain ⟨sign, hsign, ds, hds, rfl⟩ := Language.mem_mul.1 h
  rintro hnil
  rcases hds with rfl | hds
  · exact cons_ne_nil _ _ (append_eq_nil_iff.1 hnil).2
  · exact hds.1.1 (append_eq_nil_iff.1 hnil).2

lemma mem_number_of_integer {w : List Char} (h : w ∈ integer) : w ∈ number :=
  Language.mem_mul.2 ⟨w, h, [], Language.mem_mul.2 ⟨[], .inl rfl, [], .inl rfl, rfl⟩,
    append_nil w⟩

end Grammar

open Grammar

lemma Number.isInteger_iff {n : Number} (h : n.text.toList ∈ number) :
    n.isInteger = true ↔ n.text.toList ∈ integer := by
  constructor
  · intro hint
    obtain ⟨i, hi, rest, hrest, htext⟩ := Language.mem_mul.1 h
    obtain ⟨f, hf, e, he, rfl⟩ := Language.mem_mul.1 hrest
    have hno : ∀ c ∈ n.text.toList, ¬ (c = '.' ∨ c = 'e' ∨ c = 'E') := by
      simpa [Number.isInteger] using hint
    -- what begins a fraction or an exponent is no character of the text
    rcases hf with rfl | hf
    · rcases he with rfl | he
      · rw [← htext, append_nil, append_nil]
        exact hi
      · obtain ⟨a, ha, b, -, rfl⟩ := Language.mem_mul.1 he
        have hmem : ∀ c ∈ a, c ∈ n.text.toList := fun c hc => by simp [← htext, hc]
        rcases ha with rfl | rfl
        · exact absurd (.inr (.inl rfl)) (hno _ (hmem _ (mem_singleton_self _)))
        · exact absurd (.inr (.inr rfl)) (hno _ (hmem _ (mem_singleton_self _)))
    · obtain ⟨a, rfl, b, -, rfl⟩ := Language.mem_mul.1 hf
      exact absurd (.inl rfl) (hno '.' (by simp [← htext]))
  · intro hint
    simp only [Number.isInteger, Bool.not_eq_true', any_eq_false, decide_eq_true_eq]
    intro c hc hbad
    rcases mem_of_mem_integer hint hc with rfl | hdigit
    · exact absurd hbad (by decide)
    · rcases hbad with rfl | rfl | rfl <;> exact absurd hdigit (by decide)

/-! ## Values -/

@[elab_as_elim, induction_eliminator]
theorem Value.induction {P : Value → Prop} (null : P .null) (bool : ∀ b, P (.bool b))
    (number : ∀ n, P (.number n)) (string : ∀ s, P (.string s))
    (array : ∀ a, (∀ v ∈ a, P v) → P (.array a))
    (object : ∀ o, (∀ m ∈ o, P m.2) → P (.object o)) : ∀ v, P v
  | .null => null
  | .bool b => bool b
  | .number n => number n
  | .string s => string s
  | .array a => array a fun v _ => Value.induction null bool number string array object v
  | .object o => object o fun m _ => Value.induction null bool number string array object m.2
termination_by v => sizeOf v
decreasing_by
  · have := sizeOf_lt_of_mem ‹v ∈ a›
    simp only [Value.array.sizeOf_spec]
    omega
  · have := sizeOf_lt_of_mem ‹m ∈ o›
    have : sizeOf m = 1 + sizeOf m.1 + sizeOf m.2 := rfl
    simp only [Value.object.sizeOf_spec]
    omega

namespace Value

mutual

def parts : Value → List Value
  | .array a => .array a :: partsOfItems a
  | .object o => .object o :: partsOfMembers o
  | v => [v]

def partsOfItems : List Value → List Value
  | [] => []
  | v :: vs => v.parts ++ partsOfItems vs

def partsOfMembers : List (String × Value) → List Value
  | [] => []
  | (_, v) :: ms => v.parts ++ partsOfMembers ms

end

mutual

/-- The value with the members of every object in the order of their names, and with no `-0`. -/
def normal (le : String → String → Prop) [DecidableRel le] : Value → Value
  | .null => .null
  | .bool b => .bool b
  | .number n => .number (if n.text = "-0" then ⟨"0"⟩ else n)
  | .string s => .string s
  | .array a => .array (normalItems le a)
  | .object o => .object ((normalMembers le o).insertionSort fun m m' => le m.1 m'.1)

def normalItems (le : String → String → Prop) [DecidableRel le] : List Value → List Value
  | [] => []
  | v :: vs => v.normal le :: normalItems le vs

def normalMembers (le : String → String → Prop) [DecidableRel le] :
    List (String × Value) → List (String × Value)
  | [] => []
  | (n, v) :: ms => (n, v.normal le) :: normalMembers le ms

end

mutual

/-- Whether values are equal up to the order of the members at every level and the spelling of
zero. -/
def Same : Value → Value → Prop
  | .null, w => w = .null
  | .bool b, w => w = .bool b
  | .number n, w => ∃ m : Number, w = .number m ∧
      (n = m ∨ (n.text = "0" ∨ n.text = "-0") ∧ (m.text = "0" ∨ m.text = "-0"))
  | .string s, w => w = .string s
  | .array a, w => ∃ b, w = .array b ∧ SameItems a b
  | .object o, w => ∃ p, w = .object p ∧ SameMembers o p

def SameItems : List Value → List Value → Prop
  | [], b => b = []
  | v :: a, b => ∃ w b', b = w :: b' ∧ v.Same w ∧ SameItems a b'

/-- Every member has one of its name among the others, and none of those is left over. -/
def SameMembers : List (String × Value) → List (String × Value) → Prop
  | [], p => p = []
  | (n, v) :: o, p => ∃ w p', p.Perm ((n, w) :: p') ∧ v.Same w ∧ SameMembers o p'

end

def NamesOnce (v : Value) : Prop := ∀ o, .object o ∈ v.parts → (o.map Prod.fst).Nodup

/-- The numbers are those of the grammar, and no object names a member twice. -/
structure WellFormed (v : Value) : Prop where
  number : ∀ n, .number n ∈ v.parts → n.text.toList ∈ Grammar.number
  names : v.NamesOnce

/-! ### Parts -/

@[simp] lemma parts_null : parts .null = [.null] := rfl

@[simp] lemma parts_bool (b : Bool) : parts (.bool b) = [.bool b] := rfl

@[simp] lemma parts_number (n : Number) : parts (.number n) = [.number n] := rfl

@[simp] lemma parts_string (s : String) : parts (.string s) = [.string s] := rfl

@[simp] lemma parts_array (a : List Value) : parts (.array a) = .array a :: a.flatMap parts := by
  have hitems : ∀ vs, partsOfItems vs = vs.flatMap parts := by
    intro vs
    induction vs with
    | nil => rfl
    | cons v vs ih =>
      show v.parts ++ partsOfItems vs = _
      rw [ih, flatMap_cons]
  show Value.array a :: partsOfItems a = _
  rw [hitems]

@[simp] lemma parts_object (o : List (String × Value)) :
    parts (.object o) = .object o :: o.flatMap fun m => m.2.parts := by
  have hmembers : ∀ ms : List (String × Value), partsOfMembers ms = ms.flatMap fun m =>
    m.2.parts := by
    intro ms
    induction ms with
    | nil => rfl
    | cons m ms ih =>
      show m.2.parts ++ partsOfMembers ms = _
      rw [ih, flatMap_cons]
  show Value.object o :: partsOfMembers o = _
  rw [hmembers]

lemma mem_parts_self (v : Value) : v ∈ v.parts := by
  cases v <;> simp

lemma mem_parts_array {a : List Value} {v p : Value} (hv : v ∈ a) (hp : p ∈ v.parts) :
    p ∈ parts (.array a) := by
  rw [parts_array]
  exact mem_cons_of_mem _ (mem_flatMap.2 ⟨v, hv, hp⟩)

lemma mem_parts_object {o : List (String × Value)} {m : String × Value} {p : Value} (hm : m ∈ o)
    (hp : p ∈ m.2.parts) : p ∈ parts (.object o) := by
  rw [parts_object]
  exact mem_cons_of_mem _ (mem_flatMap.2 ⟨m, hm, hp⟩)

/-! ### What is left to write -/

section Normal

variable (le : String → String → Prop) [DecidableRel le]

lemma normalItems_eq_map (a : List Value) : normalItems le a = a.map (normal le) := by
  induction a with
  | nil => rfl
  | cons v vs ih =>
    show v.normal le :: normalItems le vs = _
    rw [ih, map_cons]

lemma normalMembers_eq_map (o : List (String × Value)) :
    normalMembers le o = o.map fun m => (m.1, m.2.normal le) := by
  induction o with
  | nil => rfl
  | cons m ms ih =>
    show (m.1, m.2.normal le) :: normalMembers le ms = _
    rw [ih, map_cons]

@[simp] lemma normal_null : normal le .null = .null := rfl

@[simp] lemma normal_bool (b : Bool) : normal le (.bool b) = .bool b := rfl

@[simp] lemma normal_number (n : Number) :
    normal le (.number n) = .number (if n.text = "-0" then ⟨"0"⟩ else n) := rfl

@[simp] lemma normal_string (s : String) : normal le (.string s) = .string s := rfl

@[simp] lemma normal_array (a : List Value) :
    normal le (.array a) = .array (a.map (normal le)) := by
  show Value.array (normalItems le a) = _
  rw [normalItems_eq_map]

@[simp] lemma normal_object (o : List (String × Value)) :
    normal le (.object o) = .object ((o.map fun m => (m.1, m.2.normal le)).insertionSort
      fun m m' => le m.1 m'.1) := by
  show Value.object ((normalMembers le o).insertionSort fun m m' => le m.1 m'.1) = _
  rw [normalMembers_eq_map]

variable {le}

lemma mem_parts_normal {v : Value} {n : Number} (h : .number n ∈ (v.normal le).parts) :
    ∃ m, .number m ∈ v.parts ∧ n = if m.text = "-0" then ⟨"0"⟩ else m := by
  induction v with
  | null | bool => exact absurd h (by simp)
  | number m =>
    refine ⟨m, mem_parts_self _, ?_⟩
    simpa using h
  | string s => exact absurd h (by simp)
  | array a ih =>
    rw [normal_array, parts_array] at h
    rcases mem_cons.1 h with h | h
    · exact absurd h (by simp)
    obtain ⟨w, hw, h⟩ := mem_flatMap.1 h
    obtain ⟨v, hv, rfl⟩ := mem_map.1 hw
    obtain ⟨m, hm, hn⟩ := ih v hv h
    exact ⟨m, mem_parts_array hv hm, hn⟩
  | object o ih =>
    rw [normal_object, parts_object] at h
    rcases mem_cons.1 h with h | h
    · exact absurd h (by simp)
    obtain ⟨w, hw, h⟩ := mem_flatMap.1 h
    obtain ⟨p, hp, rfl⟩ := mem_map.1 ((mem_insertionSort _).1 hw)
    obtain ⟨m, hm, hn⟩ := ih p hp h
    exact ⟨m, mem_parts_object hp hm, hn⟩

end Normal

lemma normal_normal (le : String → String → Prop) [DecidableRel le] [Std.Total le]
    [IsTrans String le] (v : Value) : (v.normal le).normal le = v.normal le := by
  induction v with
  | null => rfl
  | bool b => rfl
  | number n =>
    by_cases hn : n.text = "-0"
    · simp [hn]
    · simp [hn]
  | string s => rfl
  | array a ih =>
    rw [normal_array, normal_array, map_map]
    exact congrArg Value.array (map_congr_left fun v hv => ih v hv)
  | object o ih =>
    rw [normal_object, normal_object, Keyed.insertionSort_map le,
      Pairwise.insertionSort_eq (Keyed.pairwise_insertionSort le _),
      Keyed.insertionSort_map le, map_map]
    refine congrArg Value.object (map_congr_left fun m hm => ?_)
    rw [Function.comp, ih m ((mem_insertionSort _).1 hm)]

/-! ### Values that are the same -/

section

variable {w : Value}

@[simp] lemma same_null : Same .null w ↔ w = .null := Iff.rfl

@[simp] lemma same_bool {b : Bool} : Same (.bool b) w ↔ w = .bool b := Iff.rfl

@[simp] lemma same_number {n : Number} :
    Same (.number n) w ↔ ∃ m : Number, w = .number m ∧
      (n = m ∨ (n.text = "0" ∨ n.text = "-0") ∧ (m.text = "0" ∨ m.text = "-0")) := Iff.rfl

@[simp] lemma same_string {s : String} : Same (.string s) w ↔ w = .string s := Iff.rfl

@[simp] lemma same_array {a : List Value} :
    Same (.array a) w ↔ ∃ b, w = .array b ∧ SameItems a b := Iff.rfl

@[simp] lemma same_object {o : List (String × Value)} :
    Same (.object o) w ↔ ∃ p, w = .object p ∧ SameMembers o p := Iff.rfl

lemma sameItems_nil {b : List Value} : SameItems [] b ↔ b = [] := Iff.rfl

lemma sameItems_cons {v : Value} {a b : List Value} :
    SameItems (v :: a) b ↔ ∃ w b', b = w :: b' ∧ v.Same w ∧ SameItems a b' := Iff.rfl

lemma sameMembers_nil {p : List (String × Value)} : SameMembers [] p ↔ p = [] := Iff.rfl

lemma sameMembers_cons {n : String} {v : Value} {o p : List (String × Value)} :
    SameMembers ((n, v) :: o) p ↔
      ∃ w p', p.Perm ((n, w) :: p') ∧ v.Same w ∧ SameMembers o p' := Iff.rfl

end

lemma normal_number_inj (le : String → String → Prop) [DecidableRel le] {n m : Number} :
    normal le (.number n) = normal le (.number m) ↔
      n = m ∨ (n.text = "0" ∨ n.text = "-0") ∧ (m.text = "0" ∨ m.text = "-0") := by
  obtain ⟨t⟩ := n
  obtain ⟨u⟩ := m
  simp only [normal_number, Value.number.injEq, Number.mk.injEq]
  by_cases ht : t = "-0" <;> by_cases hu : u = "-0"
  · simp [ht, hu]
  · rw [if_pos ht, if_neg hu, ht, Number.mk.injEq]
    constructor
    · rintro rfl
      exact .inr ⟨.inr rfl, .inl rfl⟩
    · rintro (h | ⟨-, h | h⟩)
      · exact absurd h.symm hu
      · exact h.symm
      · exact absurd h hu
  · rw [if_neg ht, if_pos hu, hu, Number.mk.injEq]
    constructor
    · rintro rfl
      exact .inr ⟨.inl rfl, .inr rfl⟩
    · rintro (h | ⟨h | h, -⟩)
      · exact absurd h ht
      · exact h
      · exact absurd h ht
  · rw [if_neg ht, if_neg hu, Number.mk.injEq]
    constructor
    · exact .inl
    · rintro (h | ⟨h | h, h' | h'⟩)
      · exact h
      · exact h.trans h'.symm
      · exact absurd h' hu
      · exact absurd h ht
      · exact absurd h ht

section

variable {le : String → String → Prop} [DecidableRel le]

lemma sameItems_iff {a b : List Value}
    (ih : ∀ v ∈ a, ∀ w, v.Same w ↔ v.normal le = w.normal le) :
    SameItems a b ↔ a.map (normal le) = b.map (normal le) := by
  induction a generalizing b with
  | nil => rw [sameItems_nil, map_nil, eq_comm (a := []), map_eq_nil_iff]
  | cons v a iha =>
    have htail := fun {b} => iha (b := b) fun v hv => ih v (mem_cons_of_mem _ hv)
    rw [sameItems_cons, map_cons]
    constructor
    · rintro ⟨w, b', rfl, hv, ha⟩
      rw [map_cons, (ih v mem_cons_self w).1 hv, htail.1 ha]
    · intro h
      obtain ⟨w, b', rfl, hw, hb'⟩ := map_eq_cons_iff.1 h.symm
      exact ⟨w, b', rfl, (ih v mem_cons_self w).2 hw.symm, htail.2 hb'.symm⟩

lemma sameMembers_iff {o p : List (String × Value)}
    (ih : ∀ m ∈ o, ∀ m' ∈ p, m.2.Same m'.2 ↔ m.2.normal le = m'.2.normal le) :
    SameMembers o p ↔
      (o.map fun m => (m.1, m.2.normal le)).Perm (p.map fun m => (m.1, m.2.normal le)) := by
  induction o generalizing p with
  | nil => rw [sameMembers_nil, map_nil, nil_perm, map_eq_nil_iff]
  | cons m o iho =>
    obtain ⟨n, v⟩ := m
    rw [sameMembers_cons, map_cons]
    constructor
    · rintro ⟨w, p', hperm, hv, ho⟩
      have hw := hperm.mem_iff.2 mem_cons_self
      have hrest := (iho fun m hm m' hm' => ih m (mem_cons_of_mem _ hm) m'
        (hperm.mem_iff.2 (mem_cons_of_mem _ hm'))).1 ho
      refine Perm.trans ?_ (hperm.map _).symm
      rw [map_cons, ← (ih _ mem_cons_self _ hw).1 hv]
      exact hrest.cons _
    · intro hperm
      obtain ⟨⟨n', w⟩, hw, heq⟩ := mem_map.1 (hperm.mem_iff.1 mem_cons_self)
      obtain ⟨rfl, hval⟩ := Prod.mk.inj heq
      obtain ⟨p₁, p₂, rfl⟩ := append_of_mem hw
      have hmid : (p₁ ++ (n', w) :: p₂).Perm ((n', w) :: (p₁ ++ p₂)) := perm_middle
      refine ⟨w, p₁ ++ p₂, hmid, (ih _ mem_cons_self _ hw).2 hval.symm, ?_⟩
      refine (iho fun m hm m' hm' => ih m (mem_cons_of_mem _ hm) m'
        (hmid.mem_iff.2 (mem_cons_of_mem _ hm'))).2 ?_
      have := hperm.trans (hmid.map _)
      rw [map_cons, hval] at this
      exact this.cons_inv

variable (le) [Std.Total le] [IsTrans String le] [Std.Antisymm le]

theorem same_iff_normal_eq {v w : Value} (hv : v.NamesOnce) :
    v.Same w ↔ v.normal le = w.normal le := by
  induction v generalizing w with
  | null => cases w <;> simp
  | bool b => cases w <;> simp [eq_comm]
  | number n =>
    cases w with
    | number m =>
      rw [normal_number_inj, same_number]
      constructor
      · rintro ⟨m', h, hsame⟩
        rw [Value.number.inj h]
        exact hsame
      · exact fun h => ⟨m, rfl, h⟩
    | _ => simp
  | string s => cases w <;> simp [eq_comm]
  | array a ih =>
    cases w with
    | array b =>
      have hiff : ∀ v ∈ a, ∀ w, v.Same w ↔ v.normal le = w.normal le := by
        intro v hmem w
        exact ih v hmem fun o ho => hv o (mem_parts_array hmem ho)
      rw [same_array, normal_array, normal_array, Value.array.injEq, ← sameItems_iff hiff]
      constructor
      · rintro ⟨b', h, hsame⟩
        rw [Value.array.inj h]
        exact hsame
      · exact fun h => ⟨b, rfl, h⟩
    | _ => simp
  | object o ih =>
    cases w with
    | object p =>
      have hiff : ∀ m ∈ o, ∀ m' ∈ p,
          (m.2.Same m'.2 ↔ m.2.normal le = m'.2.normal le) := by
        intro m hmem m' _
        exact ih m hmem fun o' ho' => hv o' (mem_parts_object hmem ho')
      have hnames : ((o.map fun m => (m.1, m.2.normal le)).map Prod.fst).Nodup := by
        rw [map_map]
        exact hv o (mem_parts_self _)
      have hsort := sameMembers_iff hiff
      rw [same_object, normal_object, normal_object, Value.object.injEq]
      constructor
      · rintro ⟨p', h, hsame⟩
        rw [← Value.object.inj h] at hsame
        exact Keyed.insertionSort_eq_of_perm le (hsort.1 hsame) hnames
      · intro h
        refine ⟨p, rfl, hsort.2 ?_⟩
        exact (perm_insertionSort _ _).symm.trans
          ((Perm.of_eq h).trans (perm_insertionSort _ _))
    | _ => simp

end

end Value

end Lazaret.Json
