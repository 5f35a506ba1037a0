import Lazaret.Http1.Parser

/-!
# A response, one byte at a time

What a response is, without buffers and pieces: `Scan` reads it one byte at a time, keeps the line
it is in, and stops at the first byte that makes it wrong.  A run over one stretch of bytes and the
next is a run over both (`run_append`), so what a scan makes of a response cannot depend on how it
was cut.
-/

namespace Lazaret.Http1

open List Option

/-- A scan: what is known of the response, the line so far, the body so far, and why it stopped. -/
structure Scan where
  core : Core
  line : List UInt8
  out : List UInt8
  failed : Option Error

variable (cfg : Config)

namespace Scan

def fail (s : Scan) (e : Error) : Scan := { s with failed := some e }

def next (s : Scan) (r : Except Error Core) (out : List UInt8) : Scan :=
  match r with
  | .error e => s.fail e
  | .ok c => { core := c, line := [], out := out, failed := none }

/-- One byte of a line of at most `max` bytes. -/
def lineByte (s : Scan) (max : ℕ) (b : UInt8) : Scan :=
  if b = LF then s.next (stepLine cfg s.core (withoutCr s.line) 0) s.out
  else if max < (withoutCr (s.line ++ [b])).length then s.fail (.Http "header line too long")
  else { s with line := s.line ++ [b] }

/-- One byte of a body of which `left` bytes are to come. -/
def bodyByte (s : Scan) (sized : Bool) (left : ℕ) (b : UInt8) : Scan :=
  { s with
    core := { s.core with
      bodyBytes := s.core.bodyBytes + 1
      state := bodyState sized (left - 1) }
    out := s.out ++ [b] }

def otherByte (s : Scan) (b : UInt8) : Scan :=
  match s.core.state with
  | .Sized left => s.bodyByte true left b
  | .ChunkData left => s.bodyByte false left b
  | .UntilClose => s.next (countUntilClose cfg s.core 1) (s.out ++ [b])
  | _ => { s with core := { s.core with extra := true } }

def byte (s : Scan) (b : UInt8) : Scan :=
  if s.failed.isSome then s
  else match lineMax cfg s.core.state with
    | some max => s.lineByte cfg max b
    | none => s.otherByte cfg b

def run (s : Scan) (bytes : List UInt8) : Scan := bytes.foldl (byte cfg) s

/-- A scan that stands between two lines, or in a body. -/
def at_ (c : Core) (out : List UInt8) : Scan where
  core := c
  line := []
  out := out
  failed := none

end Scan

open Scan

variable {cfg : Config}

@[simp] lemma run_nil (s : Scan) : run cfg s [] = s := rfl

lemma run_cons (s : Scan) (b : UInt8) (bytes : List UInt8) :
    run cfg s (b :: bytes) = run cfg (byte cfg s b) bytes := rfl

lemma run_append (s : Scan) (bytes bytes' : List UInt8) :
    run cfg s (bytes ++ bytes') = run cfg (run cfg s bytes) bytes' := foldl_append

lemma run_of_failed {s : Scan} (h : s.failed.isSome) (bytes : List UInt8) :
    run cfg s bytes = s := by
  induction bytes with
  | nil => rfl
  | cons b bytes ih => rw [run_cons, byte, if_pos h, ih]

/-! ## Lines -/

lemma withoutCr_length_le (line : List UInt8) : (withoutCr line).length ≤ line.length := by
  rw [withoutCr]
  split
  · rw [length_dropLast]
    omega
  · exact le_rfl

lemma withoutCr_length_mono (line : List UInt8) (b : UInt8) :
    (withoutCr line).length ≤ (withoutCr (line ++ [b])).length := by
  refine (withoutCr_length_le line).trans ?_
  rw [withoutCr]
  split
  · rw [dropLast_concat]
  · rw [length_append]
    omega

variable {c : Core}

lemma run_line {max : ℕ} (out : List UInt8) (hmax : lineMax cfg c.state = some max)
    (line : List UInt8) (hline : LF ∉ line) :
    run cfg (at_ c out) line =
      if max < (withoutCr line).length then
        { core := c, line := (run cfg (at_ c out) line).line, out := out,
          failed := some (.Http "header line too long") }
      else { core := c, line := line, out := out, failed := none } := by
  induction line using reverseRecOn with
  | nil => simp [withoutCr, at_]
  | append_singleton line b ih =>
    have hb : b ≠ LF := fun h => hline (by simp [h])
    have hrest := ih fun h => hline (mem_append_left _ h)
    rw [run_append]
    by_cases hlong : max < (withoutCr line).length
    · rw [if_pos hlong] at hrest
      rw [if_pos (hlong.trans_le (withoutCr_length_mono line b)),
        run_of_failed (by rw [hrest]; rfl), hrest]
    · rw [if_neg hlong] at hrest
      rw [hrest, run_cons, byte]
      simp only [isSome_none, Bool.false_eq_true, if_false, hmax, lineByte, if_neg hb,
        run_nil, fail]
      split_ifs <;> rfl

variable {out : List UInt8}

lemma run_wholeLine {max : ℕ}
    (hmax : lineMax cfg c.state = some max) {raw : List UInt8} (hraw : LF ∉ raw)
    (hlen : (withoutCr raw).length ≤ max) :
    run cfg (at_ c out) (raw ++ [LF]) =
      Scan.next { core := c, line := raw, out := out, failed := none }
        (stepLine cfg c (withoutCr raw) 0) out := by
  rw [run_append, run_line out hmax raw hraw, if_neg (not_lt.2 hlen), run_cons, byte]
  simp only [isSome_none, Bool.false_eq_true, if_false, hmax, lineByte, if_true, run_nil]

/-! ## Bodies -/

variable {sized : Bool} {n : ℕ}

lemma lineMax_bodyState (hn : 0 < n) : lineMax cfg (bodyState sized n) = none := by
  cases sized <;> simp [bodyState, ne_of_gt hn, lineMax]

lemma byte_body (hn : 0 < n) (hstate : c.state = bodyState sized n) (b : UInt8) :
    byte cfg (at_ c out) b =
      at_ { c with bodyBytes := c.bodyBytes + 1, state := bodyState sized (n - 1) }
      (out ++ [b]) := by
  have hmax : lineMax cfg (at_ c out).core.state = none := by
    rw [at_, hstate]
    exact lineMax_bodyState hn
  rw [byte, hmax]
  simp only [at_, isSome_none, Bool.false_eq_true, if_false, otherByte, hstate]
  cases sized <;> simp [bodyState, ne_of_gt hn, bodyByte]

lemma run_body (hn : 0 < n)
    (hstate : c.state = bodyState sized n) (bytes : List UInt8) (hle : bytes.length ≤ n) :
    run cfg (at_ c out) bytes =
      at_ { c with
        bodyBytes := c.bodyBytes + bytes.length
        state := bodyState sized (n - bytes.length) } (out ++ bytes) := by
  induction bytes generalizing c out n with
  | nil => simp [← hstate]
  | cons b bytes ih =>
    rw [run_cons, byte_body hn hstate]
    rw [length_cons] at hle
    cases bytes with
    | nil => simp
    | cons b' bytes =>
      rw [length_cons] at hle
      rw [ih (n := n - 1) (by omega) rfl (by rw [length_cons]; omega)]
      have hleft : n - 1 - (bytes.length + 1) = n - (bytes.length + 1 + 1) := by omega
      have hcount : c.bodyBytes + 1 + (bytes.length + 1) =
          c.bodyBytes + (bytes.length + 1 + 1) := by omega
      simp only [length_cons, append_assoc, singleton_append, hleft, hcount]

/-- A body that runs to the end of the connection is too large for the limit. -/
def TooLarge (cfg : Config) (c : Core) (n : ℕ) : Prop :=
  ¬ (c.bodyBytes + n < 2 ^ 64 ∧ c.bodyBytes + n ≤ cfg.limits.maxBodyBytes)

lemma byte_untilClose (hstate : c.state = .UntilClose) (b : UInt8) :
    byte cfg (at_ c out) b = (at_ c out).next (countUntilClose cfg c 1) (out ++ [b]) := by
  have hmax : lineMax cfg (at_ c out).core.state = none := by
    rw [at_, hstate]
    rfl
  rw [byte, hmax]
  simp only [at_, isSome_none, Bool.false_eq_true, if_false, otherByte, hstate]

lemma run_untilClose (hstate : c.state = .UntilClose)
    (bytes : List UInt8) (hsize : ¬ TooLarge cfg c bytes.length) :
    run cfg (at_ c out) bytes =
      at_ { c with bodyBytes := c.bodyBytes + bytes.length } (out ++ bytes) := by
  induction bytes generalizing c out with
  | nil => simp
  | cons b bytes ih =>
    rw [TooLarge, not_not, length_cons] at hsize
    have hone : countUntilClose cfg c 1 = .ok { c with bodyBytes := c.bodyBytes + 1 } :=
      if_pos ⟨by omega, by omega⟩
    have hbyte : byte cfg (at_ c out) b =
        at_ { c with bodyBytes := c.bodyBytes + 1 } (out ++ [b]) := by
      rw [byte_untilClose hstate, hone]
      rfl
    have hrest : ¬ TooLarge cfg { c with bodyBytes := c.bodyBytes + 1 } bytes.length := by
      rw [TooLarge, not_not]
      exact ⟨by dsimp only; omega, by dsimp only; omega⟩
    have hcount : c.bodyBytes + 1 + bytes.length = c.bodyBytes + (bytes.length + 1) := by omega
    rw [run_cons, hbyte, ih (c := { c with bodyBytes := c.bodyBytes + 1 }) hstate hrest]
    simp only [length_cons, append_assoc, singleton_append, hcount]

lemma run_tooLarge (out : List UInt8) (hstate : c.state = .UntilClose)
    (hsmall : ¬ TooLarge cfg c 0) (bytes : List UInt8) (hsize : TooLarge cfg c bytes.length) :
    (run cfg (at_ c out) bytes).failed =
        some (.Http "response body exceeds the configured size limit") ∧
      (run cfg (at_ c out) bytes).core.state = .UntilClose := by
  induction bytes using reverseRecOn with
  | nil => exact absurd hsize hsmall
  | append_singleton bytes b ih =>
    rw [run_append]
    by_cases hlarge : TooLarge cfg c bytes.length
    · rw [run_of_failed (by rw [(ih hlarge).1]; rfl)]
      exact ih hlarge
    · have hone : countUntilClose cfg { c with bodyBytes := c.bodyBytes + bytes.length } 1 =
          .error (.Http "response body exceeds the configured size limit") := by
        refine if_neg ?_
        rw [TooLarge, length_append, length_singleton, ← add_assoc] at hsize
        exact hsize
      rw [run_untilClose hstate bytes hlarge, run_cons, run_nil,
        byte_untilClose (c := { c with bodyBytes := c.bodyBytes + bytes.length }) hstate, hone]
      exact ⟨rfl, hstate⟩

lemma run_done (hstate : c.state = .Done) (bytes : List UInt8) : run cfg (at_ c out) bytes =
      at_ { c with extra := c.extra ∨ bytes ≠ [] } out := by
  induction bytes generalizing c with
  | nil => simp
  | cons b bytes ih =>
    have hbyte : byte cfg (at_ c out) b = at_ { c with extra := true } out := by
      simp [byte, at_, hstate, lineMax, otherByte]
    rw [run_cons, hbyte, ih (c := { c with extra := true }) hstate]
    simp

end Lazaret.Http1
