import Lazaret.Asn1.Elements

/-!
# Integers of DER

The INTEGERs that are not negative: `unsigned_integer` reads the magnitude of one and `integer`
writes one.  What is read of what is written are the bytes without the zeros before them
(`unsignedInteger_integer`), and nothing else is accepted (`content_of_unsignedInteger`).
-/

namespace Lazaret.Asn1

open List

open X509 (Error)

def TAG_INTEGER : UInt8 := 0x02

/-- `unsigned_integer`: the magnitude of an INTEGER that is not negative. -/
def unsignedInteger (t : Tlv) : Except Error (List UInt8) := do
  let c := t.content
  refuse (t.tag ≠ TAG_INTEGER) (.Asn1 "expected INTEGER")
  refuse (c = []) (.Asn1 "empty INTEGER")
  refuse (c.getD 0 0 &&& 0x80 ≠ 0) (.Asn1 "negative INTEGER where unsigned expected")
  refuse (1 < c.length ∧ c.getD 0 0 = 0 ∧ c.getD 1 0 &&& 0x80 = 0) (.Asn1 "non-minimal INTEGER")
  let start := if 1 < c.length ∧ c.getD 0 0 = 0 then 1 else 0
  .ok (c.drop start)

namespace Write

/-- What stays of a magnitude: the bytes from the first that is not zero. -/
def magnitude (be : List UInt8) : List UInt8 :=
  let start := (be.findIdx? fun b => b ≠ 0).getD be.length
  be.drop start

def integerContent (be : List UInt8) : List UInt8 :=
  let v := magnitude be
  (if v = [] ∨ v.getD 0 0 &&& 0x80 ≠ 0 then [0] else []) ++ v

def integer (be : List UInt8) : List UInt8 := tlv TAG_INTEGER (integerContent be)

lemma magnitude_eq (be : List UInt8) : magnitude be = be.dropWhile fun b => b == 0 := by
  rw [dropWhile_eq_drop_findIdx_not, findIdx_eq_getD_findIdx?]
  have hne : (fun b : UInt8 => decide (b ≠ 0)) = fun b => !(b == 0) := by
    ext b
    by_cases hb : b = 0 <;> simp [hb]
  rw [magnitude, hne]

lemma magnitude_cons {b : UInt8} (hb : b ≠ 0) (bs : List UInt8) :
    magnitude (b :: bs) = b :: bs := by
  rw [magnitude_eq, dropWhile_cons_of_neg (by simpa using hb)]

lemma integerContent_of_top {be bs : List UInt8} {b : UInt8} (h : magnitude be = b :: bs)
    (hb : b &&& 0x80 ≠ 0) : integerContent be = 0 :: b :: bs := by
  have htop : b :: bs = [] ∨ (b :: bs).getD 0 0 &&& 0x80 ≠ 0 := .inr hb
  simp only [integerContent, h]
  rw [if_pos htop, singleton_append]

lemma integerContent_of_low {be bs : List UInt8} {b : UInt8} (h : magnitude be = b :: bs)
    (hb : b &&& 0x80 = 0) : integerContent be = b :: bs := by
  have hlow : ¬ (b :: bs = [] ∨ (b :: bs).getD 0 0 &&& 0x80 ≠ 0) := by
    rintro (hnil | hne)
    · cases hnil
    · exact hne hb
  simp only [integerContent, h]
  rw [if_neg hlow, nil_append]

lemma magnitude_head (be : List UInt8) : (magnitude be).head? ≠ some 0 := by
  intro h
  have := head?_dropWhile_not (fun b => b == 0) be
  rw [← magnitude_eq, h] at this
  exact absurd this (by decide)

end Write

lemma unsignedInteger_zero_cons {b : UInt8} (hb : b &&& 0x80 ≠ 0) (bs raw : List UInt8) :
    unsignedInteger ⟨TAG_INTEGER, 0 :: b :: bs, raw⟩ = .ok (b :: bs) := by
  have hpad : ¬ (1 < (0 :: b :: bs).length ∧ (0 :: b :: bs).getD 0 0 = 0 ∧
      (0 :: b :: bs).getD 1 0 &&& 0x80 = 0) := fun h => hb h.2.2
  have hand : (0 : UInt8) &&& 0x80 = 0 := rfl
  have htop : ¬ (0 :: b :: bs).getD 0 0 &&& 0x80 ≠ 0 := not_not.2 hand
  simp only [unsignedInteger]
  rw [refuse_bind_of_not (not_not.2 rfl), refuse_bind_of_not (cons_ne_nil _ _),
    refuse_bind_of_not htop, refuse_bind_of_not hpad, if_pos ⟨by simp, rfl⟩]
  rfl

lemma unsignedInteger_cons {b : UInt8} (hb : b &&& 0x80 = 0) {bs : List UInt8}
    (hzero : b = 0 → bs = []) (raw : List UInt8) :
    unsignedInteger ⟨TAG_INTEGER, b :: bs, raw⟩ = .ok (b :: bs) := by
  have hpad : ¬ (1 < (b :: bs).length ∧ (b :: bs).getD 0 0 = 0) := by
    rintro ⟨hlen, h⟩
    rw [hzero h] at hlen
    exact absurd hlen (lt_irrefl 1)
  have htop : ¬ (b :: bs).getD 0 0 &&& 0x80 ≠ 0 := not_not.2 hb
  simp only [unsignedInteger]
  rw [refuse_bind_of_not (not_not.2 rfl), refuse_bind_of_not (cons_ne_nil _ _),
    refuse_bind_of_not htop, refuse_bind_of_not (fun h => hpad ⟨h.1, h.2.1⟩), if_neg hpad]
  rfl

theorem unsignedInteger_integer (be raw : List UInt8) :
    unsignedInteger ⟨TAG_INTEGER, Write.integerContent be, raw⟩ =
      .ok (if Write.magnitude be = [] then [0] else Write.magnitude be) := by
  have hhead := Write.magnitude_head be
  cases hv : Write.magnitude be with
  | nil =>
    rw [Write.integerContent, hv]
    exact unsignedInteger_cons rfl (fun _ => rfl) raw
  | cons b bs =>
    rw [hv] at hhead
    rw [if_neg (cons_ne_nil b bs)]
    by_cases hb : b &&& 0x80 = 0
    · rw [Write.integerContent_of_low hv hb]
      exact unsignedInteger_cons hb (fun h => absurd (congrArg some h) hhead) raw
    · rw [Write.integerContent_of_top hv hb]
      exact unsignedInteger_zero_cons hb bs raw

theorem content_of_unsignedInteger {t : Tlv} {v : List UInt8} (h : unsignedInteger t = .ok v) :
    t.tag = TAG_INTEGER ∧ t.content = Write.integerContent v := by
  obtain ⟨tag, content, raw⟩ := t
  obtain ⟨_, htag, h⟩ := except_bind_eq_ok.1 h
  obtain ⟨_, hempty, h⟩ := except_bind_eq_ok.1 h
  obtain ⟨_, htop, h⟩ := except_bind_eq_ok.1 h
  obtain ⟨_, hpad, h⟩ := except_bind_eq_ok.1 h
  rw [refuse_eq_ok] at htag hempty htop hpad
  have hv := (Except.ok.inj h).symm
  refine ⟨not_not.1 htag, ?_⟩
  match content with
  | [] => exact absurd rfl hempty
  | [b] =>
    have hv : v = [b] := hv
    by_cases hb : b = 0
    · rw [hv, hb]
      rfl
    · rw [hv, Write.integerContent_of_low (Write.magnitude_cons hb []) (not_not.1 htop)]
  | b :: c :: cs =>
    by_cases hb : b = 0
    · subst hb
      have hv : v = c :: cs := hv.trans (by rw [if_pos ⟨by simp, rfl⟩]; rfl)
      have hc : c &&& 0x80 ≠ 0 := fun h => hpad ⟨by simp, rfl, h⟩
      have hc0 : c ≠ 0 := fun h => hc (by rw [h]; rfl)
      rw [hv, Write.integerContent_of_top (Write.magnitude_cons hc0 cs) hc]
    · have hv : v = b :: c :: cs := hv.trans (by rw [if_neg fun h => hb h.2]; rfl)
      rw [hv, Write.integerContent_of_low (Write.magnitude_cons hb _) (not_not.1 htop)]

end Lazaret.Asn1
