import Mathlib.Data.List.Forall2

/-!
# Outcomes of fallible code

What a call can end in: a value, an error it returns, or a fault (it panics or never returns).
`bind_eq_ok` takes a successful sequence of calls apart, `mapM_eq_ok` a successful loop.
-/

namespace Lazaret

open List

/-- A value, an error, or a fault: a panic, or a call that never returns. -/
inductive Outcome (ε α : Type*) where
  | ok (a : α)
  | err (e : ε)
  | fault
deriving DecidableEq

namespace Outcome

variable {ε : Type*} {α β : Type*}

/-- The next call is made with the value of the first one. -/
def bind : Outcome ε α → (α → Outcome ε β) → Outcome ε β
  | ok a, f => f a
  | err e, _ => err e
  | fault, _ => fault

instance : Monad (Outcome ε) where
  pure := ok
  bind := bind

@[simp] lemma pure_eq (a : α) : (pure a : Outcome ε α) = ok a := rfl

@[simp] lemma ok_bind {α β : Type _} (a : α) (f : α → Outcome ε β) : (ok a >>= f) = f a := rfl

@[simp] lemma err_bind {α β : Type _} (e : ε) (f : α → Outcome ε β) :
    (err e >>= f) = err e := rfl

@[simp] lemma fault_bind {α β : Type _} (f : α → Outcome ε β) :
    ((fault : Outcome ε α) >>= f) = fault := rfl

instance : LawfulMonad (Outcome ε) :=
  LawfulMonad.mk' (Outcome ε) (fun x => by cases x <;> rfl) (fun _ _ => rfl)
    (fun x _ _ => by cases x <;> rfl)

lemma bind_eq_ok {α β : Type _} {x : Outcome ε α} {f : α → Outcome ε β} {b : β} :
    (x >>= f) = ok b ↔ ∃ a, x = ok a ∧ f a = ok b := by
  cases x <;> simp

def okOr (x : Option α) (e : ε) : Outcome ε α :=
  match x with
  | some a => ok a
  | none => err e

@[simp] lemma okOr_some (a : α) (e : ε) : okOr (some a) e = ok a := rfl

@[simp] lemma okOr_none (e : ε) : okOr (none : Option α) e = err e := rfl

lemma okOr_eq_ok {x : Option α} {e : ε} {a : α} : okOr x e = ok a ↔ x = some a := by
  cases x <;> simp

def orFault (x : Option α) : Outcome ε α :=
  match x with
  | some a => ok a
  | none => fault

@[simp] lemma orFault_some (a : α) : (orFault (some a) : Outcome ε α) = ok a := rfl

lemma orFault_eq_ok {x : Option α} {a : α} : (orFault x : Outcome ε α) = ok a ↔ x = some a := by
  cases x <;> simp [orFault]

def require (p : Prop) [Decidable p] (e : ε) : Outcome ε Unit := if p then ok () else err e

lemma require_eq_ok {p : Prop} [Decidable p] {e : ε} {u : Unit} : require p e = ok u ↔ p := by
  simp [require]

def mapErr {ε' : Type*} (f : ε → ε') : Outcome ε α → Outcome ε' α
  | ok a => ok a
  | err e => err (f e)
  | fault => fault

lemma mapErr_eq_ok {ε' : Type*} {f : ε → ε'} {x : Outcome ε α} {a : α} :
    x.mapErr f = ok a ↔ x = ok a := by
  cases x <;> simp [mapErr]

lemma mapM_eq_ok {α β : Type _} {f : α → Outcome ε β} {xs : List α} {ys : List β} :
    xs.mapM f = ok ys ↔ Forall₂ (fun x y => f x = ok y) xs ys := by
  induction xs generalizing ys with
  | nil =>
    rw [mapM_nil, pure_eq, ok.injEq, forall₂_nil_left_iff]
    exact eq_comm
  | cons x xs ih =>
    rw [mapM_cons]
    simp only [bind_eq_ok, pure_eq, ok.injEq, forall₂_cons_left_iff, ih]
    constructor
    · rintro ⟨y, hy, zs, hzs, rfl⟩
      exact ⟨y, zs, hy, hzs, rfl⟩
    · rintro ⟨y, zs, hy, hzs, rfl⟩
      exact ⟨y, hy, zs, hzs, rfl⟩

lemma zip_mapM_eq_ok {α β γ : Type _} {f : α × β → Outcome ε γ} {g : α → γ} {xs : List α}
    {ys : List β} (h : Forall₂ (fun x y => f (x, y) = ok (g x)) xs ys) :
    (xs.zip ys).mapM f = ok (xs.map g) := by
  rw [mapM_eq_ok]
  induction h with
  | nil => exact .nil
  | cons hx _ ih => exact .cons hx ih

lemma forM_eq_ok {α : Type _} {f : α → Outcome ε PUnit} {xs : List α} {u : PUnit} :
    xs.forM f = ok u ↔ ∀ x ∈ xs, f x = ok ⟨⟩ := by
  induction xs with
  | nil => simp
  | cons x xs ih =>
    rw [forM_eq_forM] at ih ⊢
    rw [forM_cons, bind_eq_ok, forall_mem_cons]
    constructor
    · rintro ⟨_, hx, hrest⟩
      exact ⟨hx, ih.1 hrest⟩
    · rintro ⟨hx, hrest⟩
      exact ⟨_, hx, ih.2 hrest⟩

lemma foldlM_inv {α σ : Type _} {f : σ → α → Outcome ε σ} {l : List α} (Inv : List α → σ → Prop)
    (hstep : ∀ pre a post s, l = pre ++ a :: post → Inv pre s →
      ∃ s', f s a = ok s' ∧ Inv (pre ++ [a]) s') {s : σ} (h : Inv [] s) :
    ∃ s', l.foldlM f s = ok s' ∧ Inv l s' := by
  have hrest : ∀ post pre s, l = pre ++ post → Inv pre s →
      ∃ s', post.foldlM f s = ok s' ∧ Inv l s' := by
    intro post
    induction post with
    | nil =>
      intro pre s hl hs
      rw [append_nil] at hl
      exact ⟨s, rfl, hl ▸ hs⟩
    | cons a post ih =>
      intro pre s hl hs
      obtain ⟨s', hf, hs'⟩ := hstep pre a post s hl hs
      rw [foldlM_cons, hf, ok_bind]
      exact ih (pre ++ [a]) s' (by rw [hl, append_assoc]; rfl) hs'
  exact hrest l [] s rfl h

end Outcome

lemma except_bind_eq_ok {ε α β : Type _} {x : Except ε α} {f : α → Except ε β} {b : β} :
    (x >>= f) = .ok b ↔ ∃ a, x = .ok a ∧ f a = .ok b := by
  cases x with
  | ok | error => simp [bind, Except.bind]

lemma except_ok_bind {ε α β : Type _} (a : α) (f : α → Except ε β) :
    ((Except.ok a : Except ε α) >>= f) = f a := rfl

/-- A check that fails with the error when what it looks for is there. -/
def refuse {ε : Type*} (p : Prop) [Decidable p] (e : ε) : Except ε Unit :=
  if p then .error e else .ok ()

lemma refuse_eq_ok {ε : Type*} {p : Prop} [Decidable p] {e : ε} {u : Unit} :
    refuse p e = .ok u ↔ ¬ p := by
  simp [refuse]

lemma refuse_bind_of_not {ε : Type} {β : Type} {p : Prop} [Decidable p] (h : ¬ p) (e : ε)
    (f : Unit → Except ε β) : (refuse p e >>= f) = f () := by
  rw [refuse, if_neg h]
  rfl

lemma except_bind_eq_error {ε α β : Type _} {x : Except ε α} {f : α → Except ε β} {e : ε} :
    (x >>= f) = .error e ↔ x = .error e ∨ ∃ a, x = .ok a ∧ f a = .error e := by
  cases x with
  | ok | error => simp [bind, Except.bind]

lemma except_map_eq_ok {ε α β : Type _} {x : Except ε α} {f : α → β} {b : β} :
    x.map f = .ok b ↔ ∃ a, x = .ok a ∧ f a = b := by
  cases x with
  | error | ok => simp [Except.map]

lemma except_forM_eq_ok {ε α : Type _} {f : α → Except ε PUnit} {xs : List α} {u : PUnit} :
    xs.forM f = .ok u ↔ ∀ x ∈ xs, f x = .ok ⟨⟩ := by
  induction xs with
  | nil => simp [pure, Except.pure]
  | cons x xs ih =>
    rw [forM_eq_forM] at ih ⊢
    rw [forM_cons, except_bind_eq_ok, forall_mem_cons]
    constructor
    · rintro ⟨_, hx, hrest⟩
      exact ⟨hx, ih.1 hrest⟩
    · rintro ⟨hx, hrest⟩
      exact ⟨_, hx, ih.2 hrest⟩

lemma except_mapM_eq_ok {ε α β : Type _} {f : α → Except ε β} {xs : List α} {ys : List β} :
    xs.mapM f = .ok ys ↔ Forall₂ (fun x y => f x = .ok y) xs ys := by
  induction xs generalizing ys with
  | nil =>
    rw [mapM_nil, forall₂_nil_left_iff]
    constructor
    · intro h
      cases h
      rfl
    · rintro rfl
      rfl
  | cons x xs ih =>
    rw [mapM_cons]
    simp only [except_bind_eq_ok, forall₂_cons_left_iff, ih]
    constructor
    · rintro ⟨y, hy, zs, hzs, h⟩
      cases h
      exact ⟨y, zs, hy, hzs, rfl⟩
    · rintro ⟨y, zs, hy, hzs, rfl⟩
      exact ⟨y, hy, zs, hzs, rfl⟩

lemma except_mapM_returns {ε α β : Type _} {f : α → Except ε β} {xs : List α}
    (h : ∀ x ∈ xs, ∃ y, f x = .ok y) : ∃ ys, xs.mapM f = .ok ys := by
  induction xs with
  | nil => exact ⟨[], rfl⟩
  | cons x xs ih =>
    rw [forall_mem_cons] at h
    obtain ⟨⟨y, hy⟩, h⟩ := h
    obtain ⟨ys, hys⟩ := ih h
    exact ⟨y :: ys, except_mapM_eq_ok.2 (.cons hy (except_mapM_eq_ok.1 hys))⟩

lemma mem_of_except_mapM {ε α β : Type _} {f : α → Except ε β} {xs : List α} {ys : List β}
    (h : xs.mapM f = .ok ys) (y : β) : y ∈ ys ↔ ∃ x ∈ xs, f x = .ok y := by
  rw [except_mapM_eq_ok] at h
  induction h with
  | nil => simp
  | cons hx _ ih =>
    rw [mem_cons, ih, exists_mem_cons_iff, hx, Except.ok.injEq, eq_comm]

lemma exists_of_except_mapM {ε α β : Type _} {f : α → Except ε β} {xs : List α} {ys : List β}
    (h : xs.mapM f = .ok ys) {x : α} (hx : x ∈ xs) : ∃ y, f x = .ok y := by
  rw [except_mapM_eq_ok] at h
  induction h with
  | nil => cases hx
  | cons hy _ ih =>
    obtain rfl | hx := mem_cons.1 hx
    · exact ⟨_, hy⟩
    · exact ih hx

lemma option_mapM_eq_some {α β : Type _} {f : α → Option β} {xs : List α} {ys : List β} :
    xs.mapM f = some ys ↔ Forall₂ (fun x y => f x = some y) xs ys := by
  induction xs generalizing ys with
  | nil =>
    rw [mapM_nil, forall₂_nil_left_iff]
    constructor
    · intro h
      cases h
      rfl
    · rintro rfl
      rfl
  | cons x xs ih =>
    rw [mapM_cons]
    simp only [Option.bind_eq_bind, Option.bind_eq_some_iff, forall₂_cons_left_iff, ih]
    constructor
    · rintro ⟨y, hy, zs, hzs, h⟩
      cases h
      exact ⟨y, zs, hy, hzs, rfl⟩
    · rintro ⟨y, zs, hy, hzs, rfl⟩
      exact ⟨y, hy, zs, hzs, rfl⟩

lemma forall₂_getElem? {α β : Type*} {R : α → β → Prop} {xs : List α} {ys : List β}
    (h : Forall₂ R xs ys) {i : ℕ} {x : α} (hx : xs[i]? = some x) :
    ∃ y, ys[i]? = some y ∧ R x y := by
  induction h generalizing i with
  | nil => simp at hx
  | cons hr _ ih =>
    cases i with
    | zero =>
      simp only [getElem?_cons_zero, Option.some.injEq] at hx ⊢
      exact ⟨_, rfl, hx ▸ hr⟩
    | succ i =>
      rw [getElem?_cons_succ] at hx ⊢
      exact ih hx

lemma forall₂_exists_of_mem {α β : Type*} {R : α → β → Prop} {xs : List α} {ys : List β}
    (h : Forall₂ R xs ys) {x : α} (hx : x ∈ xs) : ∃ y ∈ ys, R x y := by
  obtain ⟨i, hi⟩ := mem_iff_getElem?.1 hx
  obtain ⟨y, hy, hr⟩ := forall₂_getElem? h hi
  exact ⟨y, mem_of_getElem? hy, hr⟩

lemma forall₂_exists_of_mem_right {α β : Type*} {R : α → β → Prop} {xs : List α} {ys : List β}
    (h : Forall₂ R xs ys) {y : β} (hy : y ∈ ys) : ∃ x ∈ xs, R x y :=
  forall₂_exists_of_mem h.flip hy

end Lazaret
