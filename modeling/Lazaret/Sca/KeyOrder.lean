import Lazaret.Sca.Bundle
import Lazaret.Sca.JsonText

/-!
# Values with their keys in order

What `normalizeAdvisory` reads of an advisory does not depend on the order of its keys
(`Json.normalizeAdvisory_sorted`): each field is read by its name, and a field's own keys are not in
what is made of it.
-/

namespace Lazaret.Sca

open List

namespace Json

variable (o : Option Json)

lemma text?_sorted : text? (o.map sorted) = text? o := by
  rcases o with _ | _ | _ | _ | _ | _ | _ <;> rfl

lemma num_sorted : num (o.map sorted) = num o := by
  rcases o with _ | _ | _ | _ | _ | _ | _ <;> rfl

lemma isTrue_sorted : isTrue (o.map sorted) = isTrue o := by
  rcases o with _ | _ | _ | _ | _ | _ | _ <;> rfl

lemma boundOf_sorted (v : Json) : boundOf v.sorted = boundOf v := by
  cases v <;> rfl

lemma inclusiveOf_sorted (v : Json) : inclusiveOf v.sorted = inclusiveOf v := by
  cases v <;> rfl

lemma isSome_dict?_sorted (v : Json) :
    (dict? (some v.sorted)).isSome = (dict? (some v)).isSome := by
  cases v <;> rfl

lemma truthy_sorted : truthy (o.map sorted) = truthy o := by
  rcases o with _ | _ | _ | _ | _ | l | m
  · rfl
  · rfl
  · rfl
  · rfl
  · rfl
  · cases l <;> rfl
  · have hperm := perm_insertionSort (fun a b : Text × Json => a.1 ≤ b.1) (sortedMembers m)
    have hlen : ((sortedMembers m).insertionSort fun a b => a.1 ≤ b.1).length = m.length := by
      rw [hperm.length_eq, sortedMembers_eq, length_map]
    rw [Option.map_some, sorted, truthy, truthy, Bool.eq_iff_iff, Bool.not_eq_true',
      Bool.not_eq_true', isEmpty_eq_false_iff, isEmpty_eq_false_iff,
      ← length_pos_iff, ← length_pos_iff, hlen]

lemma strs_sorted : strs (o.map sorted) = strs o := by
  rcases o with _ | _ | _ | _ | _ | l | _
  · rfl
  · rfl
  · rfl
  · rfl
  · rfl
  · rw [Option.map_some, sorted, strs, strs, elements, elements, sortedItems_eq, filterMap_map]
    apply filterMap_congr
    exact fun v _ => text?_sorted (some v)
  · rfl

lemma ecosystemNamed_sorted : ecosystemNamed (o.map sorted) = ecosystemNamed o := by
  rw [ecosystemNamed, text?_sorted, ecosystemNamed]

lemma rangeOf_sorted {r : Json} (h : Distinct r) : rangeOf r.sorted = rangeOf r := by
  have hbound : ∀ o : Option Json, (o.map sorted).map boundOf = o.map boundOf := fun o => by
    rw [Option.map_map]
    exact congrArg (fun f => o.map f) (funext boundOf_sorted)
  have hinclusive : ∀ o : Option Json, (o.map sorted).map inclusiveOf = o.map inclusiveOf :=
    fun o => by
      rw [Option.map_map]
      exact congrArg (fun f => o.map f) (funext inclusiveOf_sorted)
  rw [rangeOf, rangeOf, get?_sorted h, get?_sorted h, get?_sorted h, get?_sorted h, hbound, hbound,
    hinclusive, hinclusive]

lemma rangesOf_sorted {o : Option Json} (h : ∀ v, o = some v → Distinct v) :
    rangesOf (o.map sorted) = rangesOf o := by
  rcases o with _ | _ | _ | _ | _ | l | _
  · rfl
  · rfl
  · rfl
  · rfl
  · rfl
  · have hl : ∀ r ∈ l, Distinct r := distinctItems_iff.1 (h _ rfl)
    have hall : (l.map sorted).all (fun r => (dict? (some r)).isSome) =
        l.all fun r => (dict? (some r)).isSome := by
      rw [all_map]
      exact congrArg l.all (funext isSome_dict?_sorted)
    have hmap : (l.map sorted).map rangeOf = l.map rangeOf := by
      rw [map_map]
      exact map_congr_left fun r hr => rangeOf_sorted (hl r hr)
    rw [Option.map_some, sorted, rangesOf, rangesOf, sortedItems_eq, hall, hmap]
  · rfl

lemma normalizePackage_sorted (U : Unicode) {p : Json} (h : Distinct p) :
    normalizePackage U p.sorted = normalizePackage U p := by
  cases p with
  | dict m =>
    have hget := fun key => get?_sorted h key
    have hsorted : dict? (some (dict m).sorted) = some (dict m).sorted := rfl
    have hdict : dict? (some (dict m)) = some (dict m) := rfl
    have hranges : rangesOf (((dict m).get? "ranges").map sorted) =
      rangesOf ((dict m).get? "ranges") :=
      rangesOf_sorted fun v hv => distinct_get? h hv
    rw [normalizePackage, normalizePackage, hsorted, hdict, Option.bind_some, Option.bind_some,
      hget "name", text?_sorted, hget "ecosystem", ecosystemNamed_sorted, hget "exact",
      isTrue_sorted, hget "ranges", hranges, hget "vendor", text?_sorted]
  | null | bool _ | number _ | text _ | list _ => rfl

lemma badNumber_sorted {raw : Json} (h : Distinct raw) (field : String) :
    badNumber raw.sorted field = badNumber raw field := by
  rw [badNumber, badNumber, get?_sorted h, num_sorted]
  rcases raw.get? field with _ | _ | _ | _ | _ | _ | _ <;> rfl

theorem normalizeAdvisory_sorted (U : Unicode) {raw : Json} (h : Distinct raw) (ordinal : ℕ) :
    normalizeAdvisory U raw.sorted ordinal = normalizeAdvisory U raw ordinal := by
  cases raw with
  | dict m =>
    have hget := fun key => get?_sorted h key
    have hsorted : dict? (some (dict m).sorted) = some (dict m).sorted := rfl
    have hdict : dict? (some (dict m)) = some (dict m) := rfl
    have hbad : badNumber (dict m).sorted = badNumber (dict m) := funext (badNumber_sorted h)
    have hid : text? (if truthy (((dict m).get? "cve").map sorted) then
        ((dict m).get? "cve").map sorted else ((dict m).get? "id").map sorted) =
        text? (if truthy ((dict m).get? "cve") then (dict m).get? "cve"
          else (dict m).get? "id") := by
      rw [truthy_sorted]
      split
      · exact text?_sorted _
      · exact text?_sorted _
    have hpackages : ∀ l, (dict m).get? "packages" = some (.list l) →
        (l.map sorted).map (normalizePackage U) = l.map (normalizePackage U) := by
      intro l hl
      rw [map_map]
      exact map_congr_left fun p hp =>
        normalizePackage_sorted U (distinctItems_iff.1 (distinct_get? h hl) p hp)
    rw [normalizeAdvisory, normalizeAdvisory, hsorted, hdict]
    simp only [hget, hid, hbad, text?_sorted, num_sorted, isTrue_sorted, strs_sorted]
    rcases hp : (dict m).get? "packages" with _ | _ | _ | _ | _ | l | _
    · rfl
    · rfl
    · rfl
    · rfl
    · rfl
    · simp only [Option.map_some, sorted, sortedItems_eq, hpackages l hp]
    · rfl
  | null | bool _ | number _ | text _ | list _ => rfl

end Json

end Lazaret.Sca
