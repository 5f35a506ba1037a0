import Lazaret.Json.Values
import Lazaret.Lib.Outcome
import Lazaret.Lib.Utf8

/-!
# Writing canonical forms

Both canonical forms write a value with no white space and the members of every object in order;
they differ in the order, in how a string is written, and in which numbers they can write
(`Writer`).  What is written, if it is, are the bytes of the normal value, with nothing left to put
in order (`write_eq_ok_iff`).
-/

namespace Lazaret.Json

open List

open Utf8 (byte encode)

/-- How a canonical form writes numbers and strings, and the order of names it has. -/
structure Writer (ε : Type) where
  number : Number → Except ε (List UInt8)
  string : String → List UInt8
  le : String → String → Prop
  [decidable : DecidableRel le]
  zero : number ⟨"-0"⟩ = number ⟨"0"⟩

attribute [instance] Writer.decidable

namespace Writer

variable {ε : Type} (W : Writer ε)

mutual

/-- The canonical form of a value, or the first number that has none. -/
def write : Value → Except ε (List UInt8)
  | .null => .ok (encode "null".toList)
  | .bool true => .ok (encode "true".toList)
  | .bool false => .ok (encode "false".toList)
  | .number n => W.number n
  | .string s => .ok (W.string s)
  | .array a => do
    let items ← (writeItems a).mapM id
    .ok ([byte '['] ++ List.intercalate [byte ','] items ++ [byte ']'])
  | .object o => do
    let sorted := (writeMembers o).insertionSort fun a b => W.le a.1 b.1
    let members ← sorted.mapM fun m => m.2.map (W.string m.1 ++ [byte ':'] ++ ·)
    .ok ([byte '{'] ++ List.intercalate [byte ','] members ++ [byte '}'])

def writeItems : List Value → List (Except ε (List UInt8))
  | [] => []
  | v :: vs => write v :: writeItems vs

/-- What the value of each member of an object is written as. -/
def writeMembers : List (String × Value) → List (String × Except ε (List UInt8))
  | [] => []
  | (n, v) :: ms => (n, write v) :: writeMembers ms

end

/-! ## The bytes of a value -/

def digits (n : Number) : List UInt8 :=
  match W.number n with
  | .ok b => b
  | .error _ => []

mutual

/-- The bytes of a value with nothing left to put in order. -/
def written : Value → List UInt8
  | .null => encode "null".toList
  | .bool true => encode "true".toList
  | .bool false => encode "false".toList
  | .number n => W.digits n
  | .string s => W.string s
  | .array a => [byte '['] ++ List.intercalate [byte ','] (writtenItems a) ++ [byte ']']
  | .object o => [byte '{'] ++ List.intercalate [byte ','] (writtenMembers o) ++ [byte '}']

def writtenItems : List Value → List (List UInt8)
  | [] => []
  | v :: vs => written v :: writtenItems vs

def writtenMembers : List (String × Value) → List (List UInt8)
  | [] => []
  | (n, v) :: ms => (W.string n ++ [byte ':'] ++ written v) :: writtenMembers ms

end

def writtenMember (m : String × Value) : List UInt8 := W.string m.1 ++ [byte ':'] ++ W.written m.2

lemma written_array (a : List Value) :
    W.written (.array a) =
      [byte '['] ++ intercalate [byte ','] (a.map W.written) ++ [byte ']'] := by
  have hitems : ∀ vs, W.writtenItems vs = vs.map W.written := by
    intro vs
    induction vs with
    | nil => rfl
    | cons v vs ih =>
      show W.written v :: W.writtenItems vs = _
      rw [ih, map_cons]
  show [byte '['] ++ intercalate [byte ','] (W.writtenItems a) ++ [byte ']'] = _
  rw [hitems]

lemma written_object (o : List (String × Value)) :
    W.written (.object o) =
      [byte '{'] ++ intercalate [byte ','] (o.map W.writtenMember) ++ [byte '}'] := by
  have hmembers : ∀ ms, W.writtenMembers ms = ms.map W.writtenMember := by
    intro ms
    induction ms with
    | nil => rfl
    | cons m ms ih =>
      show W.writtenMember m :: W.writtenMembers ms = _
      rw [ih, map_cons]
  show [byte '{'] ++ intercalate [byte ','] (W.writtenMembers o) ++ [byte '}'] = _
  rw [hmembers]

/-! ## What is written -/

lemma write_array (a : List Value) :
    W.write (.array a) = ((a.map W.write).mapM id >>= fun items =>
      .ok ([byte '['] ++ intercalate [byte ','] items ++ [byte ']'])) := by
  have hitems : ∀ vs, W.writeItems vs = vs.map W.write := by
    intro vs
    induction vs with
    | nil => rfl
    | cons v vs ih =>
      show W.write v :: W.writeItems vs = _
      rw [ih, map_cons]
  show ((W.writeItems a).mapM id >>= fun items => _) = _
  rw [hitems]

lemma write_object (o : List (String × Value)) :
    W.write (.object o) =
      ((((o.map fun m => (m.1, W.write m.2)).insertionSort fun a b => W.le a.1 b.1).mapM
        fun m => m.2.map (W.string m.1 ++ [byte ':'] ++ ·)) >>= fun members =>
      .ok ([byte '{'] ++ intercalate [byte ','] members ++ [byte '}'])) := by
  have hmembers : ∀ ms, W.writeMembers ms = ms.map fun m => (m.1, W.write m.2) := by
    intro ms
    induction ms with
    | nil => rfl
    | cons m ms ih =>
      show (m.1, W.write m.2) :: W.writeMembers ms = _
      rw [ih, map_cons]
  show (((W.writeMembers o).insertionSort fun a b => W.le a.1 b.1).mapM fun m =>
    m.2.map (W.string m.1 ++ [byte ':'] ++ ·)) >>= (fun members => _) = _
  rw [hmembers]

lemma write_of_numbers {v : Value}
    (h : ∀ n, .number n ∈ v.parts → ∃ b, W.number n = .ok b) :
    W.write v = .ok (W.written (v.normal W.le)) := by
  induction v with
  | null => rfl
  | bool b => cases b <;> rfl
  | number n =>
    obtain ⟨b, hb⟩ := h n (Value.mem_parts_self _)
    have hnormal : W.number (if n.text = "-0" then ⟨"0"⟩ else n) = .ok b := by
      split
      next hn =>
        obtain ⟨text⟩ := n
        obtain rfl : text = "-0" := hn
        rw [← W.zero, hb]
      · exact hb
    show W.number n = .ok (W.digits _)
    rw [digits, hnormal, hb]
  | string s => rfl
  | array a ih =>
    have hitems : (a.map W.write).mapM id = .ok (a.map fun v => W.written (v.normal W.le)) := by
      rw [except_mapM_eq_ok, forall₂_map_left_iff, forall₂_map_right_iff, forall₂_same]
      exact fun v hv => ih v hv fun n hn => h n (Value.mem_parts_array hv hn)
    rw [write_array, hitems, except_ok_bind, Value.normal_array, written_array, map_map]
    rfl
  | object o ih =>
    -- sorting the members first or writing their values first is the same
    have hmembers : ((o.map fun m => (m.1, W.write m.2)).insertionSort fun a b =>
        W.le a.1 b.1).mapM (fun m => m.2.map (W.string m.1 ++ [byte ':'] ++ ·)) =
        .ok (((o.map fun m => (m.1, m.2.normal W.le)).insertionSort fun a b =>
          W.le a.1 b.1).map W.writtenMember) := by
      rw [Keyed.insertionSort_map W.le, Keyed.insertionSort_map W.le, map_map, except_mapM_eq_ok,
        forall₂_map_left_iff, forall₂_map_right_iff, forall₂_same]
      intro m hm
      have hm := (mem_insertionSort _).1 hm
      rw [ih m hm fun n hn => h n (Value.mem_parts_object hm hn)]
      rfl
    rw [write_object, hmembers, except_ok_bind, Value.normal_object, written_object]

lemma numbers_of_write {v : Value} {b : List UInt8} (h : W.write v = .ok b) :
    ∀ n, .number n ∈ v.parts → ∃ b, W.number n = .ok b := by
  induction v generalizing b with
  | null => simp
  | bool b => simp
  | number m =>
    intro n hn
    obtain rfl : n = m := by simpa using hn
    exact ⟨b, h⟩
  | string s => simp
  | array a ih =>
    intro n hn
    obtain ⟨v, hv, hn⟩ : ∃ v ∈ a, .number n ∈ v.parts := by simpa using hn
    rw [write_array, except_bind_eq_ok] at h
    obtain ⟨items, hitems, -⟩ := h
    obtain ⟨c, hc⟩ := exists_of_except_mapM hitems (mem_map_of_mem hv)
    exact ih v hv hc n hn
  | object o ih =>
    intro n hn
    obtain ⟨m, hm, hn⟩ : ∃ m ∈ o, .number n ∈ m.2.parts := by
      simpa [-Prod.exists] using hn
    rw [write_object, except_bind_eq_ok] at h
    obtain ⟨members, hmembers, -⟩ := h
    obtain ⟨c, hc⟩ := exists_of_except_mapM hmembers
      ((mem_insertionSort _).2 (mem_map_of_mem hm))
    obtain ⟨c', hc', -⟩ := except_map_eq_ok.1 hc
    exact ih m hm hc' n hn

theorem write_eq_ok_iff {v : Value} {b : List UInt8} :
    W.write v = .ok b ↔
      (∀ n, .number n ∈ v.parts → ∃ b, W.number n = .ok b) ∧ b = W.written (v.normal W.le) := by
  constructor
  · intro h
    have hnumbers := W.numbers_of_write h
    rw [W.write_of_numbers hnumbers, Except.ok.injEq] at h
    exact ⟨hnumbers, h.symm⟩
  · rintro ⟨hnumbers, rfl⟩
    exact W.write_of_numbers hnumbers

lemma write_normal [Std.Total W.le] [IsTrans String W.le] {v : Value} {b : List UInt8}
    (h : W.write v = .ok b) : W.write (v.normal W.le) = .ok b := by
  obtain ⟨hnumbers, rfl⟩ := W.write_eq_ok_iff.1 h
  rw [W.write_eq_ok_iff, Value.normal_normal]
  refine ⟨?_, rfl⟩
  intro n hn
  obtain ⟨m, hm, rfl⟩ := Value.mem_parts_normal hn
  obtain ⟨c, hc⟩ := hnumbers m hm
  split
  next hzero =>
    obtain ⟨text⟩ := m
    obtain rfl : text = "-0" := hzero
    exact ⟨c, W.zero.symm.trans hc⟩
  · exact ⟨c, hc⟩

end Writer

end Lazaret.Json
