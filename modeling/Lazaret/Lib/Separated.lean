import Mathlib.Data.List.Basic

/-!
# Separated items

Items written one after another with a separator between them and a closing mark at the end.  When
each item can be told from what follows it, as long as that begins with the separator or the closing
mark, the list can be told from whatever follows it (`eq_of_append_eq`).
-/

namespace Lazaret.Separated

open List

variable {α β : Type*} {f : α → List β} {sep close : β}

lemma intercalate_cons (x : List β) (xs : List (List β)) :
    intercalate [sep] (x :: xs) = x ++ xs.flatMap (sep :: ·) := by
  induction xs generalizing x with
  | nil => simp [intercalate]
  | cons y ys ih =>
    have hstep : intercalate [sep] (x :: y :: ys) =
        x ++ sep :: intercalate [sep] (y :: ys) := by
      simp [intercalate]
    rw [hstep, ih, flatMap_cons, cons_append]

lemma intercalate_cons_cons (x y : List β) (ys : List (List β)) :
    [sep].intercalate (x :: y :: ys) = x ++ sep :: [sep].intercalate (y :: ys) := by
  rw [intercalate_cons, intercalate_cons, flatMap_cons, cons_append]

variable {xs : List (List β)}

lemma splitOnP_intercalate {p : β → Bool} (hsep : p sep = true) (hne : xs ≠ [])
    (h : ∀ x ∈ xs, ∀ b ∈ x, p b = false) : ([sep].intercalate xs).splitOnP p = xs := by
  induction xs with
  | nil => exact absurd rfl hne
  | cons x xs ih =>
    have hx := h x mem_cons_self
    cases xs with
    | nil =>
      rw [intercalate_cons, flatMap_nil, append_nil]
      exact splitOnP_eq_singleton hx
    | cons y ys =>
      have hrest := ih (cons_ne_nil _ _) fun z hz => h z (mem_cons_of_mem _ hz)
      rw [intercalate_cons_cons, splitOnP_append_cons_of_forall_mem hx sep hsep, hrest]

lemma intercalate_append {ys : List (List β)} (hxs : xs ≠ []) (hys : ys ≠ []) :
    [sep].intercalate (xs ++ ys) = [sep].intercalate xs ++ sep :: [sep].intercalate ys := by
  cases xs with
  | nil => exact absurd rfl hxs
  | cons x xs =>
    cases ys with
    | nil => exact absurd rfl hys
    | cons y ys =>
      rw [cons_append, intercalate_cons, intercalate_cons, intercalate_cons,
        flatMap_append, flatMap_cons, append_assoc, cons_append]

lemma intercalate_append_nil (hne : xs ≠ []) :
    [sep].intercalate (xs ++ [[]]) = [sep].intercalate xs ++ [sep] := by
  rw [intercalate_append hne (cons_ne_nil _ _)]
  rfl

lemma intercalate_eq_nil : [sep].intercalate xs = [] ↔ xs = [] ∨ xs = [[]] := by
  cases xs with
  | nil => exact iff_of_true rfl (.inl rfl)
  | cons x xs =>
    rw [intercalate_cons, append_eq_nil_iff]
    cases xs with
    | nil => simp
    | cons y ys => simp

lemma getLast?_intercalate (sep : β) (hne : xs ≠ []) (h : ∀ x ∈ xs, x ≠ []) :
    ∃ x ∈ xs, ∃ b ∈ x, ([sep].intercalate xs).getLast? = some b := by
  induction xs with
  | nil => exact absurd rfl hne
  | cons x xs ih =>
    cases xs with
    | nil =>
      have hx := h x mem_cons_self
      refine ⟨x, mem_cons_self, x.getLast hx, getLast_mem hx, ?_⟩
      rw [intercalate_cons, flatMap_nil, append_nil, getLast?_eq_some_getLast hx]
    | cons y ys =>
      obtain ⟨z, hz, b, hb, hlast⟩ := ih (cons_ne_nil _ _) fun z hz => h z (mem_cons_of_mem _ hz)
      refine ⟨z, mem_cons_of_mem _ hz, b, hb, ?_⟩
      rw [intercalate_cons_cons, getLast?_append_of_ne_nil _ (cons_ne_nil _ _),
        getLast?_cons, hlast]
      rfl

lemma mem_intercalate {b : β} (h : b ∈ [sep].intercalate xs) : b = sep ∨ ∃ x ∈ xs, b ∈ x := by
  cases xs with
  | nil => cases h
  | cons x xs =>
    rw [intercalate_cons, mem_append, mem_flatMap] at h
    rcases h with h | ⟨y, hy, h⟩
    · exact .inr ⟨x, mem_cons_self, h⟩
    · rcases mem_cons.1 h with rfl | h
      · exact .inl rfl
      · exact .inr ⟨y, mem_cons_of_mem _ hy, h⟩

/-- What begins with the separator or the closing mark. -/
def Stops (sep close : β) (t : List β) : Prop := t.head? = some sep ∨ t.head? = some close

lemma stops_flatMap (xs : List (List β)) (t : List β) :
    Stops sep close (xs.flatMap (sep :: ·) ++ close :: t) := by
  cases xs with
  | nil => exact .inr rfl
  | cons x xs => exact .inl rfl

lemma flatMap_inj (hne : sep ≠ close) {l l' : List α} {t t' : List β}
    (hdec : ∀ a ∈ l, ∀ a' ∈ l', ∀ t t', Stops sep close t → Stops sep close t' →
      f a ++ t = f a' ++ t' → a = a' ∧ t = t')
    (h : (l.map f).flatMap (sep :: ·) ++ close :: t = (l'.map f).flatMap (sep :: ·) ++
      close :: t') :
    l = l' ∧ t = t' := by
  induction l generalizing l' with
  | nil =>
    cases l' with
    | nil => exact ⟨rfl, (cons.inj h).2⟩
    | cons a' l' => exact absurd (cons.inj h).1.symm hne
  | cons a l ih =>
    cases l' with
    | nil => exact absurd (cons.inj h).1 hne
    | cons a' l' =>
      simp only [map_cons, flatMap_cons, cons_append, append_assoc, cons.injEq, true_and] at h
      obtain ⟨rfl, htail⟩ := hdec a mem_cons_self a' mem_cons_self _ _
        (stops_flatMap _ _) (stops_flatMap _ _) h
      obtain ⟨rfl, rfl⟩ := ih (fun b hb b' hb' =>
        hdec b (mem_cons_of_mem _ hb) b' (mem_cons_of_mem _ hb')) htail
      exact ⟨rfl, rfl⟩

theorem eq_of_append_eq (hne : sep ≠ close) {l l' : List α} {t t' : List β}
    (hdec : ∀ a ∈ l, ∀ a' ∈ l', ∀ t t', Stops sep close t → Stops sep close t' →
      f a ++ t = f a' ++ t' → a = a' ∧ t = t')
    (hstart : ∀ a t, (a ∈ l ∨ a ∈ l') → (f a ++ t).head? ≠ some close)
    (h : intercalate [sep] (l.map f) ++ close :: t =
      intercalate [sep] (l'.map f) ++ close :: t') : l = l' ∧ t = t' := by
  cases l with
  | nil =>
    cases l' with
    | nil => exact ⟨rfl, (cons.inj h).2⟩
    | cons a' l' =>
      rw [map_cons, intercalate_cons, append_assoc] at h
      exact absurd (congrArg head? h).symm (hstart a' _ (.inr mem_cons_self))
  | cons a l =>
    cases l' with
    | nil =>
      rw [map_cons, intercalate_cons, append_assoc] at h
      exact absurd (congrArg head? h) (hstart a _ (.inl mem_cons_self))
    | cons a' l' =>
      rw [map_cons, map_cons, intercalate_cons, intercalate_cons] at h
      exact flatMap_inj hne hdec (congrArg (cons sep) h)

end Lazaret.Separated
