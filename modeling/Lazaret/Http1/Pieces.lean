import Lazaret.Http1.Cuts

/-!
# A response in pieces

`readResponse` takes the pieces of a response one after the other, some of them straight into the
body, and then the end of the connection.  Whatever the pieces are, it ends as the scan of all the
bytes says (`readPieces_ends`), and therefore as the bytes in one piece do.
-/

namespace Lazaret.Http1

open Scan List Option

variable {cfg : Config}

/-! ## One piece -/

/-- Between two pieces: the parser is where the scan is. -/
structure Reads (cfg : Config) (s : Scan) (p : Parser) (out : List UInt8) : Prop where
  scan_eq : s = run cfg (at_ p.toCore out) p.buf
  settled : Settled cfg p
  proper : Proper cfg p.toCore out

lemma Reads.start (cfg : Config) : Reads cfg (at_ Parser.new.toCore []) Parser.new [] where
  scan_eq := rfl
  settled := by simp [Settled, Parser.new, lineMax, takeLine, withoutCr]
  proper := ⟨rfl, Nat.zero_le _, by decide, Nat.zero_le _, rfl, fun _ => rfl⟩

lemma Follows.reads {s : Scan} {r : Fed} (h : Follows cfg s r) (hok : r.error = none) :
    Reads cfg s r.parser r.out := ⟨(h.ok hok).1, (h.ok hok).2, h.proper⟩

variable {s : Scan} {p : Parser} {out : List UInt8}

lemma Reads.eq_mk (h : Reads cfg s p out) :
    s = { core := p.toCore, line := if p.state = .Done then [] else p.buf, out := out,
          failed := none } := by
  have hsettled := h.settled
  rw [h.scan_eq]
  rw [Settled] at hsettled
  cases hmax : lineMax cfg p.state with
  | some max =>
    rw [hmax] at hsettled
    dsimp only at hsettled
    rw [if_neg (lineMax_ne_done hmax).1]
    rcases takeLine_cases max p.buf with
      ⟨raw, rest, -, -, -, htake⟩ | ⟨hline, hle, -⟩ | ⟨raw, rest, -, -, -, htake⟩
    · rw [htake] at hsettled
      cases hsettled
    · rw [run_line out hmax p.buf hline, if_neg (not_lt.2 hle)]
    · rw [htake] at hsettled
      cases hsettled
  | none =>
    rw [hmax] at hsettled
    rcases hsettled with hbuf | ⟨hdone, hextra⟩
    · rw [hbuf, run_nil, ite_self]
      rfl
    · have hsame : { p.toCore with extra := decide (p.extra = true ∨ p.buf ≠ []) } = p.toCore := by
        rw [decide_eq_true (.inl hextra), ← hextra]
      rw [if_pos hdone, run_done hdone, hsame]
      rfl

lemma Reads.failed_eq (h : Reads cfg s p out) : s.failed = none := by rw [h.eq_mk]

theorem feed_follows (h : Reads cfg s p out) (data : List UInt8) :
    Follows cfg (run cfg s data) (feed cfg p data out) := by
  rw [h.scan_eq, ← run_append]
  exact feedLoop_follows { p with seen := p.seen ∨ data ≠ [] } data out h.proper

lemma follows_direct {n : ℕ} {sized : Bool} {data : List UInt8} (h : Reads cfg s p out)
    (hbuf : p.buf = []) (hn : 0 < n) (hstate : p.state = bodyState sized n)
    (hle : data.length ≤ n) :
    Follows cfg (run cfg s data)
      ⟨none, { p with
        bodyBytes := p.bodyBytes + data.length
        state := bodyState sized (n - data.length) }, out ++ data⟩ := by
  have htake : bodyData p n data = data := by
    rw [bodyData, hbuf, take_nil, length_nil, Nat.sub_zero, take_of_length_le hle]
  have hproper := takeBody_proper data h.proper hn hstate
  rw [takeBody, htake, hbuf, take_nil, length_nil, zero_add, append_nil]
    at hproper
  rw [h.scan_eq, hbuf, run_nil, run_body hn hstate data hle]
  refine ⟨fun _ => ⟨rfl, ?_⟩, fun e he => (by cases he), hproper⟩
  rw [Settled]
  by_cases hend : n - data.length = 0
  · cases sized
    · simp [bodyState, hend, lineMax, takeLine, withoutCr]
    · simp [bodyState, hend, lineMax]
  · rw [lineMax_bodyState (pos_of_ne_zero hend)]
    exact .inl rfl

theorem offer_follows (h : Reads cfg s p out) (piece : Piece) :
    Follows cfg (run cfg s piece.data) (offer cfg p out piece) := by
  rw [offer]
  split
  swap
  · exact feed_follows h piece.data
  rename_i hdirect
  obtain ⟨-, hpos, hle⟩ := hdirect
  have hbuf : p.buf = [] := by
    by_contra hne
    rw [Parser.directWindow, if_pos hne] at hpos
    exact lt_irrefl 0 hpos
  rw [Parser.directWindow, if_neg (not_not.2 hbuf)] at hpos hle
  rw [consumeDirect, if_neg (not_not.2 hbuf)]
  cases hstate : p.state with
  | Sized n =>
    rw [hstate] at hle
    have hn : 0 < n := bodyLeft_pos h.proper.stateOk (.inl hstate)
    have hlen : piece.data.length ≤ n := hle.trans (min_le_left _ _)
    simp only [if_pos hlen]
    exact follows_direct h hbuf hn (by rw [hstate, bodyState_pos hn, if_pos rfl]) hlen
  | ChunkData n =>
    rw [hstate] at hle
    have hn : 0 < n := bodyLeft_pos h.proper.stateOk (.inr hstate)
    have hlen : piece.data.length ≤ n := hle.trans (min_le_left _ _)
    simp only [if_pos hlen]
    exact follows_direct h hbuf hn (by rw [hstate, bodyState_pos hn, if_neg (by simp)]) hlen
  | UntilClose =>
    rw [h.scan_eq, hbuf, run_nil]
    dsimp only
    cases hcount : countUntilClose cfg p.toCore piece.data.length with
    | error e => exact follows_untilClose_error h.proper hstate hcount
    | ok c => exact follows_untilClose_ok h.proper hstate hcount rfl rfl
  | _ =>
    rw [hstate] at hpos
    exact absurd hpos (lt_irrefl 0)

/-! ## The end of the connection -/

def Scan.parser (s : Scan) : Parser := { s.core with buf := s.line, seen := true }

structure Ends (cfg : Config) (s : Scan) (r : Fed) : Prop where
  ok : s.failed = none → r.error = (finishEof cfg s.parser s.out).error ∧
    r.parser.toCore = (finishEof cfg s.parser s.out).parser.toCore ∧
    r.out = (finishEof cfg s.parser s.out).out
  err : ∀ e, s.failed = some e → r.error = some e ∧ r.parser.state ≠ .Done ∧
    (s.core.state ≠ .UntilClose → s.core.head = r.parser.head ∧ s.out = r.out)
  out_le : r.out.length ≤ cfg.limits.maxBodyBytes
  header_le : r.parser.headerBytes ≤ cfg.limits.maxHeaderBytes

lemma finishEof_congr (cfg : Config) (out : List UInt8) {p' : Parser} (hcore : p'.toCore = p.toCore)
    (hbuf : p.state ≠ .Done → p'.buf = p.buf) :
    (finishEof cfg p out).error = (finishEof cfg p' out).error ∧
      (finishEof cfg p out).parser.toCore = (finishEof cfg p' out).parser.toCore ∧
      (finishEof cfg p out).out = (finishEof cfg p' out).out := by
  obtain ⟨c, buf, seen⟩ := p
  obtain ⟨c', buf', seen'⟩ := p'
  obtain rfl : c' = c := hcore
  by_cases hdone : c'.state = .Done
  · simp [finishEof, hdone]
  · obtain rfl : buf' = buf := hbuf hdone
    cases hstate : c'.state with
    | Done => exact absurd hstate hdone
    | UntilClose =>
      simp only [finishEof, hstate]
      cases countUntilClose cfg c' buf'.length <;> simp
    | _ => simp [finishEof, hstate, closedIn]

lemma finishEof_keeps (cfg : Config) (out : List UInt8)
    (hbuf : p.state = .UntilClose → p.buf = []) :
    (finishEof cfg p out).out = out ∧
      (finishEof cfg p out).parser.headerBytes = p.headerBytes := by
  cases hstate : p.state with
  | UntilClose =>
    simp only [finishEof, hstate, hbuf hstate, countUntilClose]
    split <;> rename_i hcount
    · exact ⟨rfl, rfl⟩
    · split at hcount
      · rw [← Except.ok.inj hcount]
        exact ⟨append_nil _, rfl⟩
      · cases hcount
  | _ => simp [finishEof, hstate]

lemma finishEof_ends (h : Reads cfg s p out) : Ends cfg s (finishEof cfg p out) := by
  have hs := h.eq_mk
  have hbuf : p.state = .UntilClose → p.buf = [] := fun hstate => by
    have hsettled := h.settled
    rw [Settled, hstate] at hsettled
    exact hsettled.resolve_right fun hdone => by cases hdone.1
  obtain ⟨hout, hheader⟩ := finishEof_keeps cfg out hbuf
  refine ⟨fun _ => ?_, fun e he => ?_, ?_, ?_⟩
  · have hline : p.state ≠ .Done → s.parser.buf = p.buf := fun hstate => by
      rw [hs]
      exact if_neg hstate
    have hcore : s.parser.toCore = p.toCore := by
      rw [hs]
      rfl
    have hsame := finishEof_congr cfg out hcore hline
    rw [show s.out = out by rw [hs]]
    exact hsame
  · rw [h.failed_eq] at he
    cases he
  · rw [hout]
    exact h.proper.out_eq.trans_le h.proper.body_le
  · rw [hheader]
    exact h.proper.header_le

lemma Follows.ends {r : Fed} (h : Follows cfg s r) {e : Error} (he : r.error = some e) :
    Ends cfg s r where
  ok := fun hfailed => by
    rw [(h.err e he).1] at hfailed
    cases hfailed
  err := fun e' he' => by
    obtain rfl := some.inj ((h.err e he).1.symm.trans he')
    exact ⟨he, (h.err e he).2⟩
  out_le := h.proper.out_eq.trans_le h.proper.body_le
  header_le := h.proper.header_le

theorem readPieces_ends (pieces : List Piece) (h : Reads cfg s p out) :
    Ends cfg (run cfg s (pieces.map Piece.data).flatten) (readPieces cfg pieces p out) := by
  induction pieces generalizing s p out with
  | nil => exact finishEof_ends h
  | cons piece pieces ih =>
    have hfollows := offer_follows h piece
    rw [map_cons, flatten_cons, run_append, readPieces]
    cases hr : (offer cfg p out piece).error with
    | none => exact ih (hfollows.reads hr)
    | some e =>
      -- the scan stopped too, and the bytes that are not read any more do not change it
      have hfailed : (run cfg s piece.data).failed.isSome := by
        rw [(hfollows.err e hr).1]
        rfl
      rw [run_of_failed hfailed]
      exact hfollows.ends hr

/-! ## The lines of the head -/

/-- The bytes of the line that a byte ends, if it is one of the head and it is accepted. -/
def headLine (cfg : Config) (s : Scan) (b : UInt8) : ℕ :=
  if (s.core.state = .StatusLine ∨ s.core.state = .Headers) ∧ b = LF ∧
      (byte cfg s b).failed = none then s.line.length + 1
  else 0

/-- The bytes of the lines of the head, of interim responses and of the final one. -/
def headLines (cfg : Config) : Scan → List UInt8 → ℕ
  | _, [] => 0
  | s, b :: bytes => headLine cfg s b + headLines cfg (byte cfg s b) bytes

lemma length_le_withoutCr (line : List UInt8) : line.length ≤ (withoutCr line).length + 1 := by
  rw [withoutCr]
  split
  · rw [length_dropLast]
    omega
  · exact Nat.le_succ _

lemma byte_proper (h : Proper cfg s.core s.out) (b : UInt8) :
    Proper cfg (byte cfg s b).core (byte cfg s b).out := by
  rw [byte]
  split
  · exact h
  cases hmax : lineMax cfg s.core.state with
  | some max =>
    simp only [lineByte]
    split_ifs
    · cases hstep : stepLine cfg s.core (withoutCr s.line) 0 with
      | error e => exact h
      | ok c =>
        obtain ⟨hheader, hstepped⟩ := stepLine_stepped h hstep
        exact h.step (lineMax_ne_done hmax).1 hheader hstepped
    · exact h
    · exact h
  | none =>
    have hbody {sized : Bool} {n : ℕ} (hn : 0 < n) (hstate : s.core.state = bodyState sized n) :
        Proper cfg (s.bodyByte sized n b).core (s.bodyByte sized n b).out := by
      let p : Parser := { s.core with buf := [b], seen := true }
      have hp : Proper cfg p.toCore s.out := h
      have htake := takeBody_proper [] hp hn hstate
      have hone : [b].take n = [b] := take_of_length_le hn
      simpa [p, takeBody, bodyData, hone, bodyByte] using htake
    simp only [otherByte]
    split
    · rename_i n hstate
      have hn : 0 < n := bodyLeft_pos h.stateOk (.inl hstate)
      exact hbody hn (by rw [hstate, bodyState_pos hn, if_pos rfl])
    · rename_i n hstate
      have hn : 0 < n := bodyLeft_pos h.stateOk (.inr hstate)
      exact hbody hn (by rw [hstate, bodyState_pos hn, if_neg (by simp)])
    · rename_i hstate
      rw [countUntilClose]
      split
      · rename_i hsmall
        refine ⟨?_, hsmall.2, hsmall.1, h.header_le, ?_, h.extra_eq⟩
        · simp [Scan.next, h.out_eq]
        · rw [StateOk, hstate]
          trivial
      · exact h
    · rename_i hsized hchunk huntil
      have hdone : s.core.state = .Done := by
        cases hstate : s.core.state with
        | Done => rfl
        | Sized n => exact absurd hstate (hsized n)
        | ChunkData n => exact absurd hstate (hchunk n)
        | UntilClose => exact absurd hstate huntil
        | _ => simp [hstate, lineMax] at hmax
      exact ⟨h.out_eq, h.body_le, h.body_lt, h.header_le, h.stateOk, fun hne => absurd hdone hne⟩

lemma headLine_counted (h : Proper cfg s.core s.out) (b : UInt8) :
    min (2 ^ 64 - 1) (s.core.headerBytes + headLine cfg s b) ≤ (byte cfg s b).core.headerBytes := by
  have hzero (hline : headLine cfg s b = 0)
      (hsame : (byte cfg s b).core.headerBytes = s.core.headerBytes) :
      min (2 ^ 64 - 1) (s.core.headerBytes + headLine cfg s b) ≤
        (byte cfg s b).core.headerBytes := by
    rw [hline, hsame, add_zero]
    exact min_le_right _ _
  by_cases hfailed : s.failed.isSome
  · have hbyte : byte cfg s b = s := if_pos hfailed
    refine hzero (if_neg fun hline => ?_) (by rw [hbyte])
    rw [hbyte] at hline
    rw [hline.2.2] at hfailed
    cases hfailed
  cases hmax : lineMax cfg s.core.state with
  | none =>
    refine hzero (if_neg fun hline => ?_) ?_
    · rcases hline.1 with hstate | hstate <;> simp [hstate, lineMax] at hmax
    · rw [byte, if_neg hfailed, hmax]
      simp only [otherByte]
      split
      · rfl
      · rfl
      · rw [countUntilClose]
        split <;> rfl
      · rfl
  | some max =>
    have hbyte : byte cfg s b = s.lineByte cfg max b := by
      rw [byte, if_neg hfailed, hmax]
    rw [lineByte] at hbyte
    by_cases hb : b = LF
    · rw [if_pos hb] at hbyte
      cases hstep : stepLine cfg s.core (withoutCr s.line) 0 with
      | error e =>
        rw [hstep, Scan.next, Scan.fail] at hbyte
        exact hzero (if_neg fun hline => by simp [hbyte] at hline) (by rw [hbyte])
      | ok c =>
        have hlen := length_le_withoutCr s.line
        have hheader := (stepLine_stepped h hstep).2.header_eq
        rw [hstep, Scan.next] at hbyte
        by_cases hhead : s.core.state = .StatusLine ∨ s.core.state = .Headers
        · rw [headAfter, if_pos hhead] at hheader
          rw [headLine, if_pos ⟨hhead, hb, by rw [hbyte]⟩, hbyte, hheader]
          omega
        · rw [headAfter, if_neg hhead] at hheader
          exact hzero (if_neg fun hline => hhead hline.1) (by rw [hbyte, hheader])
    · refine hzero (if_neg fun hline => hb hline.2.1) ?_
      rw [hbyte, if_neg hb]
      split <;> rfl

theorem headLines_le (s : Scan) (h : Proper cfg s.core s.out) (bytes : List UInt8) :
    min (2 ^ 64 - 1) (s.core.headerBytes + headLines cfg s bytes) ≤ cfg.limits.maxHeaderBytes := by
  induction bytes generalizing s with
  | nil => exact (min_le_right _ _).trans h.header_le
  | cons b bytes ih =>
    have hone := headLine_counted h b
    have hrest := ih (byte cfg s b) (byte_proper h b)
    rw [headLines]
    omega

/-! ## However it is cut -/

def scan (cfg : Config) (bytes : List UInt8) : Scan := run cfg (at_ Parser.new.toCore []) bytes

/-- The body runs to the end of the connection and is larger than the limit. -/
def Overruns (cfg : Config) (bytes : List UInt8) : Prop :=
  (scan cfg bytes).core.state = .UntilClose ∧ (scan cfg bytes).failed = some sizeError

lemma byte_untilClose_failed (h : s.core.state = .UntilClose → s.failed ≠ none →
    s.failed = some sizeError) (b : UInt8) :
    (byte cfg s b).core.state = .UntilClose → (byte cfg s b).failed ≠ none →
      (byte cfg s b).failed = some sizeError := by
  intro hstate hfails
  by_cases hfailed : s.failed.isSome
  · rw [byte, if_pos hfailed] at hstate hfails ⊢
    exact h hstate hfails
  cases hmax : lineMax cfg s.core.state with
  | some max =>
    -- an error in a line leaves the scan where it was, in a state of lines
    have hne := (lineMax_ne_done hmax).2
    rw [byte, if_neg hfailed, hmax] at hstate hfails
    simp only [lineByte] at hstate hfails
    split_ifs at hstate hfails
    · cases hstep : stepLine cfg s.core (withoutCr s.line) 0 with
      | error e =>
        rw [hstep] at hstate
        exact absurd hstate hne
      | ok c =>
        rw [hstep] at hfails
        exact absurd rfl hfails
    · exact absurd hstate hne
    · exact absurd hstate hne
  | none =>
    rw [byte, if_neg hfailed, hmax] at hfails ⊢
    simp only [otherByte] at hfails ⊢
    split at hfails
    · exact absurd (not_isSome_iff_eq_none.1 hfailed) hfails
    · exact absurd (not_isSome_iff_eq_none.1 hfailed) hfails
    · rw [countUntilClose] at hfails ⊢
      split
      · rename_i hsmall
        rw [if_pos hsmall] at hfails
        exact absurd rfl hfails
      · rfl
    · exact absurd (not_isSome_iff_eq_none.1 hfailed) hfails

lemma run_untilClose_failed (bytes : List UInt8) (h : s.core.state = .UntilClose → s.failed ≠ none →
    s.failed = some sizeError) :
    (run cfg s bytes).core.state = .UntilClose → (run cfg s bytes).failed ≠ none →
      (run cfg s bytes).failed = some sizeError := by
  induction bytes generalizing s with
  | nil => exact h
  | cons b bytes ih => exact ih (byte_untilClose_failed h b)

/-- A response ends the same way however it is cut and whichever bytes are read straight into the
body, unless it is an error for a body that runs to the end of the connection and is too large. -/
theorem cuts_do_not_matter (cfg : Config) (pieces : List Piece) :
    let bytes := (pieces.map Piece.data).flatten
    let r := readResponse cfg pieces
    let whole := readResponse cfg [⟨bytes, false⟩]
    r.error = whole.error ∧
      r.parser.isDone = whole.parser.isDone ∧ r.parser.reusable = whole.parser.reusable ∧
      (¬ Overruns cfg bytes → r.parser.head = whole.parser.head ∧ r.out = whole.out) ∧
      (Overruns cfg bytes → r.error = some sizeError) ∧
      r.out.length ≤ cfg.limits.maxBodyBytes ∧
      r.parser.headerBytes ≤ cfg.limits.maxHeaderBytes ∧
      min (2 ^ 64 - 1) (headLines cfg (at_ Parser.new.toCore []) bytes) ≤
        cfg.limits.maxHeaderBytes := by
  intro bytes r whole
  have hr : Ends cfg (scan cfg bytes) r := readPieces_ends pieces (Reads.start cfg)
  have hwhole : Ends cfg (scan cfg bytes) whole := by
    have hone := readPieces_ends [⟨bytes, false⟩] (Reads.start cfg)
    rw [map_singleton, flatten_singleton] at hone
    exact hone
  have hheader : min (2 ^ 64 - 1) (0 + headLines cfg (at_ Parser.new.toCore []) bytes) ≤
      cfg.limits.maxHeaderBytes :=
        headLines_le (at_ Parser.new.toCore []) (Reads.start cfg).proper bytes
  rw [zero_add] at hheader
  cases hfailed : (scan cfg bytes).failed with
  | none =>
    obtain ⟨herror, hcore, hout⟩ := hr.ok hfailed
    obtain ⟨herror', hcore', hout'⟩ := hwhole.ok hfailed
    have hsame : r.parser.toCore = whole.parser.toCore := hcore.trans hcore'.symm
    refine ⟨herror.trans herror'.symm, congrArg Core.isDone hsame, congrArg Core.reusable hsame,
      fun _ => ⟨congrArg Core.head hsame, hout.trans hout'.symm⟩, fun hover => ?_, hr.out_le,
      hr.header_le, hheader⟩
    exact absurd (hfailed.symm.trans hover.2) (by simp)
  | some e =>
    obtain ⟨herror, hdone, hsame⟩ := hr.err e hfailed
    obtain ⟨herror', hdone', hsame'⟩ := hwhole.err e hfailed
    have hnot {p : Parser} (hdone : p.state ≠ .Done) :
        p.isDone = false ∧ p.reusable = false := by
      simp [Core.isDone, Core.reusable, hdone]
    refine ⟨herror.trans herror'.symm, (hnot hdone).1.trans (hnot hdone').1.symm,
      (hnot hdone).2.trans (hnot hdone').2.symm, fun hover => ?_, fun hover => ?_, hr.out_le,
      hr.header_le, hheader⟩
    · have hstate : (scan cfg bytes).core.state ≠ .UntilClose := fun hstate =>
        hover ⟨hstate, run_untilClose_failed bytes (fun h => by cases h) hstate
          (fun hnone => by cases hfailed.symm.trans hnone)⟩
      exact ⟨(hsame hstate).1.symm.trans (hsame' hstate).1,
        (hsame hstate).2.symm.trans (hsame' hstate).2⟩
    · rw [herror]
      exact hfailed.symm.trans hover.2

/-- Ten bytes after a head that declares no length, where five are allowed. -/
def headThenBody : List Piece :=
  [⟨"HTTP/1.1 200 OK\r\n\r\n".toUTF8.toList, false⟩, ⟨"0123456789".toUTF8.toList, false⟩]

def fiveBytes : Config where
  headRequest := false
  limits := { maxHeaderBytes := 100, maxBodyBytes := 5 }
  debug := String.ofList

/-- In pieces the head is there when the body gets too large; in one piece it is not. -/
theorem cut_after_head_leaves_head :
    ¬ ∀ (cfg : Config) (pieces : List Piece),
      let r := readResponse cfg pieces
      let whole := readResponse cfg [⟨(pieces.map Piece.data).flatten, false⟩]
      r.error = whole.error ∧ r.parser.head = whole.parser.head ∧ r.out = whole.out ∧
        r.parser.isDone = whole.parser.isDone ∧ r.parser.reusable = whole.parser.reusable := by
  intro h
  have hhead := (h fiveBytes headThenBody).2.1
  have hcut : (readResponse fiveBytes headThenBody).parser.head.isSome = true := by
    with_unfolding_all decide
  have hwhole : (readResponse fiveBytes
      [⟨(headThenBody.map Piece.data).flatten, false⟩]).parser.head.isSome = false := by
    with_unfolding_all decide
  rw [hhead, hwhole] at hcut
  cases hcut

end Lazaret.Http1
