import Mathlib.Data.List.Basic

/-!
# Frames in a stream

A stream of items is cut into frames: each has a header of `n` items, and the header says how many
items of payload follow it.  `frames` reads the frames off a stream; the last of them may be cut
short.  A stream that ends with a frame is `Whole`, and the frames of what follows a whole stream
are the frames of the two, one after the other.
-/

namespace Lazaret.Framing

open List

variable {β : Type*} {n : ℕ} {len : List β → ℕ}

/-- The frames of a stream: the header of each, and what there is of its payload. -/
def frames (n : ℕ) (len : List β → ℕ) (s : List β) : List (List β × List β) :=
  if _h : n = 0 ∨ s.length < n then []
  else
    let header := s.take n
    (header, (s.drop n).take (len header)) :: frames n len (s.drop (n + len header))
termination_by s.length
decreasing_by
  rw [List.length_drop]
  omega

inductive Whole (n : ℕ) (len : List β → ℕ) : List β → Prop
  | nil : Whole n len []
  | cons {header payload rest : List β} (hheader : header.length = n)
      (hpayload : payload.length = len header) (hrest : Whole n len rest) :
      Whole n len (header ++ payload ++ rest)

@[simp] lemma frames_nil : frames n len [] = [] := by
  rw [frames, dif_pos]
  rcases Nat.eq_zero_or_pos n with h | h
  · exact Or.inl h
  · exact Or.inr h

lemma frames_cons (hn : 0 < n) {header payload rest : List β} (hheader : header.length = n)
    (hpayload : payload.length = len header) :
    frames n len (header ++ payload ++ rest) = (header, payload) :: frames n len rest := by
  have htake : (header ++ payload ++ rest).take n = header := by
    rw [append_assoc, ← hheader, take_left]
  rw [frames, dif_neg (by rw [length_append, length_append]; omega), htake]
  dsimp only
  congr 2
  · rw [append_assoc, ← hheader, drop_left, ← hpayload, take_left]
  · rw [← hheader, ← hpayload, ← length_append, drop_left]

lemma frames_last (hn : 0 < n) {header part : List β} (hheader : header.length = n)
    (hpart : part.length ≤ len header) :
    frames n len (header ++ part) = [(header, part)] := by
  have htake : (header ++ part).take n = header := by rw [← hheader, take_left]
  rw [frames, dif_neg (by rw [length_append]; omega), htake]
  dsimp only
  rw [← hheader, drop_left, take_of_length_le hpart, ← drop_drop, drop_left,
    drop_of_length_le hpart, frames_nil]

namespace Whole

variable {s t : List β}

lemma append (hs : Whole n len s) (ht : Whole n len t) : Whole n len (s ++ t) := by
  induction hs with
  | nil => exact ht
  | cons hheader hpayload _ ih =>
    rw [append_assoc]
    exact cons hheader hpayload ih

lemma single {header payload : List β} (hheader : header.length = n)
    (hpayload : payload.length = len header) : Whole n len (header ++ payload) := by
  rw [← append_nil (header ++ payload)]
  exact cons hheader hpayload nil

lemma frames_append (hn : 0 < n) (hs : Whole n len s) (t : List β) :
    frames n len (s ++ t) = frames n len s ++ frames n len t := by
  induction hs with
  | nil => rw [nil_append, frames_nil, nil_append]
  | cons hheader hpayload _ ih =>
    rw [append_assoc, frames_cons hn hheader hpayload, ih, frames_cons hn hheader hpayload,
      cons_append]

end Whole

end Lazaret.Framing
