import Mathlib.Data.Vector.Basic

/-!
# Cursors

Reads from the front of a list: each gives a value and what it left, or an error.  A read that is
`Local` looks at no more than it takes, so what it took reads the same before anything else
(`Yields`), and reads that follow one another take what each of them takes (`Yields.bind`,
`Local.bind`).
-/

namespace Lazaret

open List

/-- A read from the front of a list: a value and what is left, or an error. -/
abbrev Cursor (σ ε : Type) := StateT (List σ) (Except ε)

namespace Cursor

variable {σ ε α β : Type}

def fail (e : ε) : Cursor σ ε α := fun _ => .error e

def require (p : Prop) [Decidable p] (e : ε) : Cursor σ ε Unit := if p then pure () else fail e

/-- The first so many items, or an error when there are fewer. -/
def items (n : ℕ) (short : ε) : Cursor σ ε (List σ) := fun s =>
  if s.length < n then .error short else .ok (s.take n, s.drop n)

def array (n : ℕ) (short : ε) : Cursor σ ε (List.Vector σ n) := do
  let xs ← items n short
  if h : xs.length = n then pure ⟨xs, h⟩ else fail short

def takeRest (short : ε) : Cursor σ ε (List σ) := do
  let rest ← get
  items rest.length short

def mapError {ε' : Type} (f : ε → ε') (p : Cursor σ ε α) : Cursor σ ε' α := fun s =>
  match p s with
  | .ok a => .ok a
  | .error e => .error (f e)

/-! ### Sequences of reads -/

@[simp] lemma pure_apply (a : α) (s : List σ) : (pure a : Cursor σ ε α) s = .ok (a, s) := rfl

@[simp] lemma fail_apply (e : ε) (s : List σ) : (fail e : Cursor σ ε α) s = .error e := rfl

@[simp] lemma get_apply (s : List σ) : (get : Cursor σ ε (List σ)) s = .ok (s, s) := rfl

lemma bind_apply (p : Cursor σ ε α) (f : α → Cursor σ ε β) (s : List σ) :
    (p >>= f) s = match p s with
      | .ok (a, t) => f a t
      | .error e => .error e := by
  show (p s >>= fun r => f r.1 r.2) = _
  cases p s <;> rfl

variable {t s : List σ}

lemma bind_eq_ok {p : Cursor σ ε α} {f : α → Cursor σ ε β} {b : β} :
    (p >>= f) s = .ok (b, t) ↔ ∃ a u, p s = .ok (a, u) ∧ f a u = .ok (b, t) := by
  rw [bind_apply]
  cases p s with
  | ok r => simp [Prod.ext_iff]
  | error e => simp

lemma map_eq_ok {p : Cursor σ ε α} {f : α → β} {b : β} :
    (f <$> p) s = .ok (b, t) ↔ ∃ a, p s = .ok (a, t) ∧ f a = b := by
  rw [map_eq_pure_bind, bind_eq_ok]
  constructor
  · rintro ⟨a, u, ha, hb⟩
    obtain ⟨rfl, rfl⟩ := hb
    exact ⟨a, ha, rfl⟩
  · rintro ⟨a, ha, rfl⟩
    exact ⟨a, t, ha, rfl⟩

lemma pure_eq_ok {a b : α} : (pure a : Cursor σ ε α) s = .ok (b, t) ↔ a = b ∧ s = t := by
  simp

variable {e : ε}

lemma require_eq_ok {p : Prop} [Decidable p] {u : Unit} :
    (require p e : Cursor σ ε Unit) s = .ok (u, t) ↔ p ∧ s = t := by
  rw [require]
  split <;> simp_all

lemma require_bind_eq_ok {p : Prop} [Decidable p] {f : Unit → Cursor σ ε β} {b : β} :
    (require p e >>= f) s = .ok (b, t) ↔ p ∧ f () s = .ok (b, t) := by
  rw [bind_eq_ok]
  constructor
  · rintro ⟨u, v, hcheck, h⟩
    obtain ⟨hp, rfl⟩ := require_eq_ok.1 hcheck
    exact ⟨hp, h⟩
  · rintro ⟨hp, h⟩
    exact ⟨(), s, require_eq_ok.2 ⟨hp, rfl⟩, h⟩

lemma items_eq_ok {n : ℕ} {xs : List σ} :
    (items n e : Cursor σ ε (List σ)) s = .ok (xs, t) ↔ xs.length = n ∧ s = xs ++ t := by
  rw [items]
  constructor
  · intro h
    split at h
    · cases h
    · rename_i hlen
      cases h
      exact ⟨by rw [length_take]; omega, (take_append_drop n s).symm⟩
  · rintro ⟨rfl, rfl⟩
    rw [if_neg (by rw [length_append]; omega), take_left, drop_left]

lemma array_eq_ok {n : ℕ} {v : List.Vector σ n} :
    (array n e : Cursor σ ε (List.Vector σ n)) s = .ok (v, t) ↔ s = v.toList ++ t := by
  rw [array, bind_eq_ok]
  constructor
  · rintro ⟨xs, u, hxs, hv⟩
    obtain ⟨hlen, rfl⟩ := items_eq_ok.1 hxs
    rw [dif_pos hlen] at hv
    obtain ⟨rfl, rfl⟩ := pure_eq_ok.1 hv
    rfl
  · rintro rfl
    refine ⟨v.toList, t, items_eq_ok.2 ⟨v.toList_length, rfl⟩, ?_⟩
    rw [dif_pos v.toList_length]
    exact pure_eq_ok.2 ⟨rfl, rfl⟩

lemma takeRest_eq_ok {xs : List σ} :
    (takeRest e : Cursor σ ε (List σ)) s = .ok (xs, t) ↔ xs = s ∧ t = [] := by
  rw [takeRest, bind_apply, get_apply]
  dsimp only
  rw [items_eq_ok]
  constructor
  · rintro ⟨hlen, rfl⟩
    rw [length_append] at hlen
    obtain rfl : t = [] := length_eq_zero_iff.1 (by omega)
    exact ⟨(append_nil xs).symm, rfl⟩
  · rintro ⟨rfl, rfl⟩
    exact ⟨rfl, (append_nil xs).symm⟩

lemma mapError_eq_ok {ε' : Type} {f : ε → ε'} {p : Cursor σ ε α} {a : α} :
    mapError f p s = .ok (a, t) ↔ p s = .ok (a, t) := by
  rw [mapError]
  cases p s <;> simp

/-! ### What a read takes -/

/-- The read takes these items and gives this value, whatever follows them. -/
def Yields (p : Cursor σ ε α) (xs : List σ) (a : α) : Prop := ∀ rest, p (xs ++ rest) = .ok (a, rest)

namespace Yields

variable {p : Cursor σ ε α} {f : α → Cursor σ ε β} {xs ys : List σ} {a : α} {b : β}

lemma pure (a : α) : Yields (pure a : Cursor σ ε α) [] a := fun _ => rfl

lemma bind (hp : Yields p xs a) (hf : Yields (f a) ys b) : Yields (p >>= f) (xs ++ ys) b := by
  intro rest
  rw [append_assoc, bind_apply, hp]
  exact hf rest

lemma bind_nil (hp : Yields p xs a) (hf : Yields (f a) [] b) : Yields (p >>= f) xs b := by
  rw [← append_nil xs]
  exact hp.bind hf

lemma map (g : α → β) (hp : Yields p xs a) : Yields (g <$> p) xs (g a) :=
  fun rest => map_eq_ok.2 ⟨a, hp rest, rfl⟩

lemma bind_apply (hp : Yields p xs a) (rest : List σ) : (p >>= f) (xs ++ rest) = f a rest := by
  rw [Cursor.bind_apply, hp]

lemma require {c : Prop} [Decidable c] {e : ε} {f : Unit → Cursor σ ε β} (hc : c)
    (hf : Yields (f ()) ys b) : Yields (require c e >>= f) ys b := by
  have hcheck : Yields (Cursor.require c e : Cursor σ ε Unit) [] () := by
    rw [Cursor.require, if_pos hc]
    exact pure ()
  exact hcheck.bind hf

lemma items {n : ℕ} (e : ε) (h : xs.length = n) : Yields (items n e : Cursor σ ε (List σ)) xs xs :=
  fun _ => items_eq_ok.2 ⟨h, rfl⟩

lemma array {n : ℕ} (e : ε) (v : List.Vector σ n) :
    Yields (array n e : Cursor σ ε (List.Vector σ n)) v.toList v :=
  fun _ => array_eq_ok.2 rfl

lemma mapError {ε' : Type} (g : ε → ε') (hp : Yields p xs a) : Yields (mapError g p) xs a :=
  fun rest => mapError_eq_ok.2 (hp rest)

lemma apply_self (hp : Yields p xs a) : p xs = .ok (a, []) := by
  have h := hp []
  rwa [append_nil] at h

end Yields

/-! ### Reads that look at no more than they take -/

/-- What the read took reads the same before anything else. -/
def Local (p : Cursor σ ε α) : Prop := ∀ s a t, p s = .ok (a, t) → ∃ xs, s = xs ++ t ∧ Yields p xs a

namespace Local

variable {p : Cursor σ ε α} {f : α → Cursor σ ε β}

lemma pure (a : α) : Local (pure a : Cursor σ ε α) := by
  rintro s b t h
  obtain ⟨rfl, rfl⟩ := pure_eq_ok.1 h
  exact ⟨[], rfl, Yields.pure a⟩

lemma fail (e : ε) : Local (fail e : Cursor σ ε α) := fun _ _ _ h => by cases h

lemma bind (hp : Local p) (hf : ∀ a, Local (f a)) : Local (p >>= f) := by
  intro s b t h
  obtain ⟨a, u, ha, hb⟩ := bind_eq_ok.1 h
  obtain ⟨xs, rfl, hxs⟩ := hp s a u ha
  obtain ⟨ys, rfl, hys⟩ := hf a u b t hb
  exact ⟨xs ++ ys, (append_assoc _ _ _).symm, hxs.bind hys⟩

lemma items (n : ℕ) (e : ε) : Local (items n e : Cursor σ ε (List σ)) := by
  intro s xs t h
  obtain ⟨hlen, rfl⟩ := items_eq_ok.1 h
  exact ⟨xs, rfl, Yields.items e hlen⟩

lemma mapError {ε' : Type} (g : ε → ε') (hp : Local p) : Local (mapError g p) := by
  intro s a t h
  obtain ⟨xs, hs, hxs⟩ := hp s a t (mapError_eq_ok.1 h)
  exact ⟨xs, hs, hxs.mapError g⟩

end Local

/-! ### Reads that leave the end of what they were given -/

def Forward (p : Cursor σ ε α) : Prop := ∀ s a t, p s = .ok (a, t) → t <:+ s

namespace Forward

variable {p : Cursor σ ε α} {f : α → Cursor σ ε β}

lemma pure (a : α) : Forward (pure a : Cursor σ ε α) := by
  rintro s b t h
  obtain ⟨rfl, rfl⟩ := pure_eq_ok.1 h
  exact suffix_rfl

lemma fail (e : ε) : Forward (fail e : Cursor σ ε α) := fun _ _ _ h => by cases h

lemma get : Forward (get : Cursor σ ε (List σ)) := by
  intro s a t h
  rw [get_apply] at h
  cases h
  exact suffix_rfl

lemma bind (hp : Forward p) (hf : ∀ a, Forward (f a)) : Forward (p >>= f) := by
  intro s b t h
  obtain ⟨a, u, ha, hb⟩ := bind_eq_ok.1 h
  exact (hf a u b t hb).trans (hp s a u ha)

lemma ite {c : Prop} [Decidable c] {q : Cursor σ ε α} (hp : Forward p) (hq : Forward q) :
    Forward (if c then p else q) := by
  split
  · exact hp
  · exact hq

lemma map (g : α → β) (hp : Forward p) : Forward (g <$> p) := by
  intro s b t h
  obtain ⟨a, ha, -⟩ := map_eq_ok.1 h
  exact hp s a t ha

lemma require (c : Prop) [Decidable c] (e : ε) : Forward (require c e : Cursor σ ε Unit) :=
  (pure ()).ite (fail e)

lemma of_local (hp : Local p) : Forward p := by
  intro s a t h
  obtain ⟨xs, rfl, -⟩ := hp s a t h
  exact suffix_append xs t

lemma array (n : ℕ) (e : ε) : Forward (array n e : Cursor σ ε (List.Vector σ n)) := by
  intro s v t h
  rw [array_eq_ok.1 h]
  exact suffix_append _ t

lemma takeRest (e : ε) : Forward (takeRest e : Cursor σ ε (List σ)) := by
  intro s xs t h
  rw [(takeRest_eq_ok.1 h).2]
  exact nil_suffix

end Forward

/-! ### What is true of what a read gives -/

def Gives (p : Cursor σ ε α) (P : α → Prop) : Prop := ∀ s a t, p s = .ok (a, t) → P a

namespace Gives

variable {p : Cursor σ ε α} {f : α → Cursor σ ε β} {P : α → Prop} {Q : β → Prop}

lemma pure {a : α} (h : P a) : Gives (pure a : Cursor σ ε α) P := by
  rintro s b t hb
  obtain ⟨rfl, -⟩ := pure_eq_ok.1 hb
  exact h

lemma bind (hp : Gives p P) (hf : ∀ a, P a → Gives (f a) Q) : Gives (p >>= f) Q := by
  intro s b t h
  obtain ⟨a, u, ha, hb⟩ := bind_eq_ok.1 h
  exact hf a (hp s a u ha) u b t hb

lemma after (hf : ∀ a, Gives (f a) Q) : Gives (p >>= f) Q := by
  intro s b t h
  obtain ⟨a, u, -, hb⟩ := bind_eq_ok.1 h
  exact hf a u b t hb

lemma ite {c : Prop} [Decidable c] {q : Cursor σ ε α} (hp : c → Gives p P) (hq : ¬ c → Gives q P) :
    Gives (if c then p else q) P := by
  split
  · rename_i hc
    exact hp hc
  · rename_i hc
    exact hq hc

lemma map {g : α → β} (hp : Gives p fun a => Q (g a)) : Gives (g <$> p) Q := by
  intro s b t h
  obtain ⟨a, ha, rfl⟩ := map_eq_ok.1 h
  exact hp s a t ha

lemma require {c : Prop} [Decidable c] {e : ε} {g : Unit → Cursor σ ε β}
    (hg : c → Gives (g ()) Q) : Gives (require c e >>= g) Q := by
  intro s b t h
  obtain ⟨hc, h⟩ := require_bind_eq_ok.1 h
  exact hg hc s b t h

lemma mapError {ε' : Type} (g : ε → ε') (hp : Gives p P) : Gives (mapError g p) P :=
  fun s a t h => hp s a t (mapError_eq_ok.1 h)

end Gives

end Cursor

end Lazaret
