import Lazaret.Http1.Scan

/-!
# How a response is cut does not matter

After every call the parser is where a scan of all the bytes so far is (`offer_follows`).  Only what
is left behind by an error differs: a body that runs to the end of the connection and is too large
is found out before any of it is handed out when it comes with the head, and after when it comes
later.
-/

namespace Lazaret.Http1

open Scan List

variable {cfg : Config}

/-! ## What holds of the parser -/

def StateOk (cfg : Config) (c : Core) : Prop :=
  match c.state with
  | .StatusLine | .Headers => c.bodyBytes = 0
  | .Sized n | .ChunkData n =>
    0 < n ∧ c.bodyBytes + n ≤ cfg.limits.maxBodyBytes ∧ c.bodyBytes + n < 2 ^ 64
  | _ => True

/-- The counters are what was read, and within the limits. -/
structure Proper (cfg : Config) (c : Core) (out : List UInt8) : Prop where
  out_eq : out.length = c.bodyBytes
  body_le : c.bodyBytes ≤ cfg.limits.maxBodyBytes
  body_lt : c.bodyBytes < 2 ^ 64
  header_le : c.headerBytes ≤ cfg.limits.maxHeaderBytes
  stateOk : StateOk cfg c
  extra_eq : c.state ≠ .Done → c.extra = false

/-- The bytes of the head after a line of this length. -/
def headAfter (c : Core) (len : ℕ) : ℕ :=
  if c.state = .StatusLine ∨ c.state = .Headers then
    min (2 ^ 64 - 1) (c.headerBytes + min (2 ^ 64 - 1) (len + 2))
  else c.headerBytes

/-- What a line leaves as it was, and what it keeps, its own bytes counted. -/
structure Stepped (cfg : Config) (c c' : Core) (header : ℕ) : Prop where
  body_eq : c'.bodyBytes = c.bodyBytes
  header_eq : c'.headerBytes = header
  stateOk : StateOk cfg c'
  extra_eq : c'.extra = c.extra

lemma Proper.step {c c' : Core} {out : List UInt8} {header : ℕ} (h : Proper cfg c out)
    (hstate : c.state ≠ .Done) (hheader : header ≤ cfg.limits.maxHeaderBytes)
    (hstep : Stepped cfg c c' header) : Proper cfg c' out where
  out_eq := h.out_eq.trans hstep.body_eq.symm
  body_le := hstep.body_eq.trans_le h.body_le
  body_lt := hstep.body_eq.trans_lt h.body_lt
  header_le := hstep.header_eq.trans_le hheader
  stateOk := hstep.stateOk
  extra_eq := fun _ => hstep.extra_eq.trans (h.extra_eq hstate)

lemma countHeadLine_eq_ok {c c' : Core} {len : ℕ}
    (hstate : c.state = .StatusLine ∨ c.state = .Headers)
    (h : countHeadLine cfg c len = .ok c') :
    headAfter c len ≤ cfg.limits.maxHeaderBytes ∧
      c' = { c with headerBytes := headAfter c len } := by
  rw [headAfter, if_pos hstate]
  rw [countHeadLine] at h
  split at h
  · cases h
  · rename_i hle
    exact ⟨not_lt.1 hle, (Except.ok.inj h).symm⟩

lemma contentLengthPart_lt {found : Option ℕ} {part : Text} {n : ℕ}
    (h : contentLengthPart found part = .ok (some n)) : n < 2 ^ 64 := by
  rw [contentLengthPart] at h
  split at h
  · cases h
  · cases hnum : (number 10 part).filter (· < 2 ^ 64) with
    | none =>
      rw [hnum] at h
      cases h
    | some m =>
      rw [hnum] at h
      dsimp only at h
      split at h
      · cases h
      · rw [← Option.some.inj (Except.ok.inj h)]
        exact decide_eq_true_iff.1 (Option.filter_eq_some_iff.1 hnum).2

lemma contentLength_lt {ps : List Text} {found : Option ℕ} {n : ℕ}
    (hfound : ∀ m, found = some m → m < 2 ^ 64)
    (h : ps.foldlM contentLengthPart found = .ok (some n)) : n < 2 ^ 64 := by
  induction ps generalizing found with
  | nil => exact hfound n (Except.ok.inj h)
  | cons part ps ih =>
    rw [foldlM_cons, except_bind_eq_ok] at h
    obtain ⟨found', hone, hrest⟩ := h
    refine ih (fun m hm => ?_) hrest
    subst hm
    exact contentLengthPart_lt hone

lemma beginBody_stepped {c c' : Core} {n : ℕ} (hbody : c.bodyBytes = 0)
    (h : beginBody cfg c n = .ok c') : Stepped cfg c c' c.headerBytes := by
  rw [beginBody] at h
  split at h
  · rw [← Except.ok.inj h]
    exact ⟨rfl, rfl, trivial, rfl⟩
  · split at h
    · split at h
      · cases h
      · rw [← Except.ok.inj h]
        exact ⟨rfl, rfl, trivial, rfl⟩
    · cases hlen : parseContentLength c.headers with
      | error e =>
        rw [hlen] at h
        cases h
      | ok declared =>
        rw [hlen] at h
        cases declared with
        | none =>
          simp only [Except.bind, beginSized] at h
          split at h
          · cases h
          · rw [← Except.ok.inj h]
            exact ⟨rfl, rfl, trivial, rfl⟩
        | some len =>
          simp only [Except.bind, beginSized] at h
          split at h
          · cases h
          · rename_i hle
            have hlt : len < 2 ^ 64 := contentLength_lt (fun m hm => by cases hm) hlen
            rw [← Except.ok.inj h]
            refine ⟨rfl, rfl, ?_, rfl⟩
            by_cases hzero : len = 0
            · simp [StateOk, headDone, hzero]
            · simp only [StateOk, headDone, if_neg hzero, hbody, zero_add]
              exact ⟨pos_of_ne_zero hzero, not_lt.1 hle, hlt⟩

lemma statusLine_stepped {c c' : Core} {text : Text} (hbody : c.bodyBytes = 0)
    (h : statusLine cfg c text = .ok c') : Stepped cfg c c' c.headerBytes := by
  simp only [statusLine] at h
  split at h
  · cases h
  · split at h
    · cases h
    · rw [← Except.ok.inj h]
      exact ⟨rfl, rfl, hbody, rfl⟩

lemma headerLine_stepped {c c' : Core} {line : List UInt8} (hok : StateOk cfg c)
    (h : headerLine c line = .ok c') : Stepped cfg c c' c.headerBytes := by
  simp only [headerLine] at h
  split at h
  · cases h
  · split at h
    · cases h
    · split at h
      · cases h
      · split at h
        · cases h
        · split at h
          · cases h
          · rw [← Except.ok.inj h]
            exact ⟨rfl, rfl, hok, rfl⟩

lemma headEnd_stepped {c c' : Core} {n : ℕ} (hbody : c.bodyBytes = 0)
    (h : headEnd cfg c n = .ok c') : Stepped cfg c c' c.headerBytes := by
  rw [headEnd] at h
  split at h
  · split at h
    · cases h
    · rw [← Except.ok.inj h]
      exact ⟨rfl, rfl, hbody, rfl⟩
  · exact beginBody_stepped hbody h

lemma chunkSize_stepped {c c' : Core} {line : List UInt8}
    (h : chunkSize cfg c line = .ok c') : Stepped cfg c c' c.headerBytes := by
  rw [chunkSize] at h
  split at h
  · cases h
  · split at h
    · cases h
    · split at h
      · cases h
      · split at h
        · rw [← Except.ok.inj h]
          exact ⟨rfl, rfl, trivial, rfl⟩
        · split at h
          · cases h
          · rename_i hzero hsize
            rw [not_or] at hsize
            rw [← Except.ok.inj h]
            exact ⟨rfl, rfl,
              ⟨pos_of_ne_zero hzero, not_lt.1 hsize.2, not_le.1 hsize.1⟩, rfl⟩

lemma trailer_stepped {c c' : Core} {line : List UInt8} {seen : ℕ}
    (h : trailer cfg c seen line = .ok c') : Stepped cfg c c' c.headerBytes := by
  rw [trailer] at h
  split at h
  · rw [← Except.ok.inj h]
    exact ⟨rfl, rfl, trivial, rfl⟩
  · split at h
    · cases h
    · rw [← Except.ok.inj h]
      exact ⟨rfl, rfl, trivial, rfl⟩

lemma stepLine_stepped {c c' : Core} {line : List UInt8} {n : ℕ} {out : List UInt8}
    (hp : Proper cfg c out) (h : stepLine cfg c line n = .ok c') :
    headAfter c line.length ≤ cfg.limits.maxHeaderBytes ∧
      Stepped cfg c c' (headAfter c line.length) := by
  have hok := hp.stateOk
  have hcounted {c₁ : Core}
      (hstep : Stepped cfg { c with headerBytes := headAfter c line.length } c₁
        (headAfter c line.length)) : Stepped cfg c c₁ (headAfter c line.length) :=
    ⟨hstep.body_eq, hstep.header_eq, hstep.stateOk, hstep.extra_eq⟩
  -- outside the head nothing is counted
  have hrest (hhead : ¬ (c.state = .StatusLine ∨ c.state = .Headers))
      (hstep : Stepped cfg c c' c.headerBytes) :
      headAfter c line.length ≤ cfg.limits.maxHeaderBytes ∧
        Stepped cfg c c' (headAfter c line.length) := by
    rw [headAfter, if_neg hhead]
    exact ⟨hp.header_le, hstep⟩
  rw [stepLine] at h
  split at h
  · rename_i hstate
    rw [StateOk, hstate] at hok
    obtain ⟨c₁, hcount, h⟩ := except_bind_eq_ok.1 h
    obtain ⟨htotal, rfl⟩ := countHeadLine_eq_ok (.inl hstate) hcount
    refine ⟨htotal, ?_⟩
    split at h
    · rw [blankLine] at h
      split at h
      · cases h
      · rw [← Except.ok.inj h]
        exact ⟨rfl, rfl, by rw [StateOk]; simpa [hstate] using hok, rfl⟩
    · exact hcounted (statusLine_stepped
        (c := { c with headerBytes := headAfter c line.length }) hok h)
  · rename_i hstate
    rw [StateOk, hstate] at hok
    obtain ⟨c₁, hcount, h⟩ := except_bind_eq_ok.1 h
    obtain ⟨htotal, rfl⟩ := countHeadLine_eq_ok (.inr hstate) hcount
    refine ⟨htotal, ?_⟩
    split at h
    · exact hcounted (headEnd_stepped
        (c := { c with headerBytes := headAfter c line.length }) hok h)
    · refine hcounted (headerLine_stepped ?_ h)
      rw [StateOk]
      simpa [hstate] using hok
  · rename_i hstate
    exact hrest (by simp [hstate]) (chunkSize_stepped h)
  · rename_i hstate
    exact hrest (by simp [hstate]) (trailer_stepped h)
  · rename_i hstate
    refine hrest (by simp [hstate]) ?_
    split at h
    · cases h
    · rw [← Except.ok.inj h]
      exact ⟨rfl, rfl, trivial, rfl⟩
  · rename_i hstatus hheaders _ _ _
    refine hrest (fun hhead => hhead.elim hstatus hheaders) ?_
    rw [← Except.ok.inj h]
    exact ⟨rfl, rfl, hok, rfl⟩

def sizeError : Error := .Http "response body exceeds the configured size limit"

/-- Two outcomes are the same, but that a body that runs to the end of the connection is found too
large in the first, by the `n` bytes that came after its head. -/
def SameButSize (cfg : Config) (n : ℕ) (r r₀ : Except Error Core) : Prop :=
  r = r₀ ∨ r = .error sizeError ∧ cfg.limits.maxBodyBytes < n ∧
    ∃ c', r₀ = .ok c' ∧ c'.state = .UntilClose

lemma beginSized_same (c : Core) (persistent : Bool) (declared : Option ℕ) (n : ℕ) :
    SameButSize cfg n (beginSized cfg c persistent n declared)
      (beginSized cfg c persistent 0 declared) := by
  cases declared with
  | some len => exact .inl rfl
  | none =>
    rw [beginSized, beginSized, if_neg (Nat.not_lt_zero _)]
    by_cases hlt : cfg.limits.maxBodyBytes < n
    · exact .inr ⟨if_pos hlt, hlt, _, rfl, rfl⟩
    · exact .inl (if_neg hlt)

lemma headEnd_same (c : Core) (n : ℕ) :
    SameButSize cfg n (headEnd cfg c n) (headEnd cfg c 0) := by
  simp only [headEnd, beginBody]
  split
  · exact .inl rfl
  · split
    · exact .inl rfl
    · split
      · exact .inl rfl
      · cases parseContentLength c.headers with
        | error e => exact .inl rfl
        | ok declared => exact beginSized_same _ _ declared n

lemma stepLine_same (cfg : Config) (c : Core) (line : List UInt8) (n : ℕ) :
    SameButSize cfg n (stepLine cfg c line n) (stepLine cfg c line 0) := by
  simp only [stepLine]
  split
  · exact .inl rfl
  · cases countHeadLine cfg c line.length with
    | error e => exact .inl rfl
    | ok c₁ =>
      simp only [Except.bind]
      split
      · exact headEnd_same c₁ n
      · exact .inl rfl
  · exact .inl rfl
  · exact .inl rfl
  · exact .inl rfl
  · exact .inl rfl

/-! ## Feeding -/

/-- The parser has done what it can with what it holds. -/
def Settled (cfg : Config) (p : Parser) : Prop :=
  match lineMax cfg p.state with
  | some max => takeLine max p.buf = .ok none
  | none => p.buf = [] ∨ p.state = .Done ∧ p.extra = true

/-- A call leaves the parser where a scan is: without an error, and with the body so far; or with
the same error, and then with the same head and body unless the body runs to the end of the
connection and is too large. -/
structure Follows (cfg : Config) (s : Scan) (r : Fed) : Prop where
  ok : r.error = none → s = run cfg (at_ r.parser.toCore r.out) r.parser.buf ∧
    Settled cfg r.parser
  err : ∀ e, r.error = some e → s.failed = some e ∧ r.parser.state ≠ .Done ∧
    (s.core.state ≠ .UntilClose → s.core.head = r.parser.head ∧ s.out = r.out)
  proper : Proper cfg r.parser.toCore r.out

lemma lineMax_ne_done {c : Core} {max : ℕ} (h : lineMax cfg c.state = some max) :
    c.state ≠ .Done ∧ c.state ≠ .UntilClose := by
  constructor
  all_goals
    intro hstate
    rw [hstate] at h
    cases h

lemma takeLine_cases (max : ℕ) (buf : List UInt8) :
    (∃ raw rest, buf = raw ++ rest ∧ LF ∉ raw ∧ max < (withoutCr raw).length ∧
        takeLine max buf = .error (.Http "header line too long")) ∨
      (LF ∉ buf ∧ (withoutCr buf).length ≤ max ∧ takeLine max buf = .ok none) ∨
      ∃ raw rest, buf = raw ++ LF :: rest ∧ LF ∉ raw ∧ (withoutCr raw).length ≤ max ∧
        takeLine max buf = .ok (some (withoutCr raw, rest)) := by
  have happ := takeWhile_append_dropWhile (p := fun b => decide (b ≠ LF)) (l := buf)
  have hmem : LF ∉ buf.takeWhile fun b => decide (b ≠ LF) := fun hmem => by
    simpa using mem_takeWhile_imp hmem
  by_cases hmax : max < (withoutCr (buf.takeWhile fun b => decide (b ≠ LF))).length
  · refine .inl ⟨_, _, happ.symm, hmem, hmax, ?_⟩
    rw [takeLine, if_pos hmax]
    rfl
  · cases htake : takeLine max buf with
    | error e =>
      rw [takeLine, if_neg hmax] at htake
      split at htake <;> cases htake
    | ok taken =>
      cases taken with
      | none =>
        rw [takeLine, if_neg hmax] at htake
        split at htake
        · rename_i hlen
          have hall : buf.takeWhile (fun b => decide (b ≠ LF)) = buf :=
            ( takeWhile_prefix _).eq_of_length hlen
          rw [hall] at hmem hmax
          exact .inr (.inl ⟨hmem, not_lt.1 hmax, rfl⟩)
        · cases htake
      | some lr =>
        obtain ⟨line, rest⟩ := lr
        obtain ⟨raw, hbuf, hraw, rfl, hlen⟩ := takeLine_eq_some htake
        exact .inr (.inr ⟨raw, rest, hbuf, hraw, hlen, rfl⟩)

section Lines

variable {c : Core} {out buf line rest : List UInt8} {max : ℕ}

lemma run_takeLine_error (out : List UInt8) (hmax : lineMax cfg c.state = some max) {e : Error}
    (h : takeLine max buf = .error e) :
    (run cfg (at_ c out) buf).failed = some e ∧ (run cfg (at_ c out) buf).core = c ∧
      (run cfg (at_ c out) buf).out = out := by
  rcases takeLine_cases max buf with
    ⟨raw, rest, rfl, hraw, hlong, htake⟩ | ⟨-, -, htake⟩ | ⟨raw, rest, -, -, -, htake⟩
  · rw [htake] at h
    have hline := run_line out hmax raw hraw
    rw [if_pos hlong] at hline
    rw [run_append, run_of_failed (by rw [hline]; rfl), hline]
    exact ⟨congrArg some (Except.error.inj h), rfl, rfl⟩
  · rw [htake] at h
    cases h
  · rw [htake] at h
    cases h

lemma run_takeLine_some (out : List UInt8) (hmax : lineMax cfg c.state = some max)
    (h : takeLine max buf = .ok (some (line, rest))) :
    ∃ raw, run cfg (at_ c out) buf =
      run cfg (Scan.next { core := c, line := raw, out := out, failed := none }
        (stepLine cfg c line 0) out) rest := by
  obtain ⟨raw, rfl, hraw, rfl, hlen⟩ := takeLine_eq_some h
  refine ⟨raw, ?_⟩
  rw [← run_wholeLine hmax hraw hlen, ← run_append, append_assoc, singleton_append]

lemma run_stepLine_error (hp : Proper cfg c out) (hmax : lineMax cfg c.state = some max)
    (h : takeLine max buf = .ok (some (line, rest))) {e : Error}
    (hstep : stepLine cfg c line rest.length = .error e) :
    (run cfg (at_ c out) buf).failed = some e ∧
      ((run cfg (at_ c out) buf).core.state ≠ .UntilClose →
        (run cfg (at_ c out) buf).core.head = c.head ∧ (run cfg (at_ c out) buf).out = out) := by
  obtain ⟨raw, hrun⟩ := run_takeLine_some out hmax h
  rw [hrun]
  rcases stepLine_same cfg c line rest.length with hsame | ⟨hsize, hlt, c', hc', hstate⟩
  · rw [← hsame, hstep, Scan.next, run_of_failed rfl]
    exact ⟨rfl, fun _ => ⟨rfl, rfl⟩⟩
  · rw [hsize] at hstep
    obtain ⟨hheader, hstepped⟩ := stepLine_stepped hp hc'
    have hp' := hp.step (lineMax_ne_done hmax).1 hheader hstepped
    rw [hc', Scan.next]
    have hlarge : TooLarge cfg c' rest.length := fun hsmall => by
      omega
    have hsmall : ¬ TooLarge cfg c' 0 := not_not.2 ⟨hp'.body_lt, hp'.body_le⟩
    obtain ⟨hfailed, huntil⟩ := run_tooLarge out hstate hsmall rest hlarge
    exact ⟨hfailed.trans (congrArg some (Except.error.inj hstep)), fun hne => absurd huntil hne⟩

end Lines

section Bodies

variable (p : Parser) (n : ℕ) (data : List UInt8)

lemma body_split : p.buf ++ data =
    (p.buf.take n ++ bodyData p n data) ++
      (p.buf.drop n ++ data.drop (bodyData p n data).length) := by
  rcases le_total n p.buf.length with hle | hle
  · have hnone : bodyData p n data = [] := by
      rw [bodyData, length_take, min_eq_left hle, Nat.sub_self, take_zero]
    rw [hnone, append_nil, length_nil, drop_zero, ← append_assoc, take_append_drop]
  · rw [take_of_length_le hle, drop_of_length_le hle, nil_append, append_assoc]
    congr 1
    rw [bodyData]
    generalize n - (p.buf.take n).length = k
    rw [length_take]
    rcases le_total k data.length with h | h
    · rw [min_eq_left h, take_append_drop]
    · rw [min_eq_right h, take_of_length_le h, drop_length, append_nil]

lemma body_length_le : (p.buf.take n).length + (bodyData p n data).length ≤ n := by
  rw [bodyData, length_take, length_take]
  omega

lemma rest_of_lt (h : (p.buf.take n).length + (bodyData p n data).length < n) :
    p.buf.drop n = [] ∧ data.drop (bodyData p n data).length = [] := by
  rw [bodyData, length_take, length_take] at h
  rw [bodyData, drop_eq_nil_iff, drop_eq_nil_iff, length_take, length_take]
  omega

variable {p n} {out : List UInt8} {sized : Bool}

lemma takeBody_proper (hp : Proper cfg p.toCore out) (hn : 0 < n)
    (hstate : p.state = bodyState sized n) :
    Proper cfg (takeBody p sized n data).toCore (out ++ p.buf.take n ++ bodyData p n data) := by
  have hle := body_length_le p n data
  have hok : p.bodyBytes + n ≤ cfg.limits.maxBodyBytes ∧ p.bodyBytes + n < 2 ^ 64 := by
    have := hp.stateOk
    rw [StateOk, hstate] at this
    cases sized <;> simp only [bodyState, ne_of_gt hn, if_false, if_true] at this <;>
      exact this.2
  have hne : p.state ≠ .Done := by
    rw [hstate]
    cases sized <;> simp [bodyState, ne_of_gt hn]
  refine ⟨?_, ?_, ?_, hp.header_le, ?_, fun _ => hp.extra_eq hne⟩
  · rw [length_append, length_append, hp.out_eq, takeBody, add_assoc]
  · exact (Nat.add_le_add_left hle _).trans hok.1
  · exact (Nat.add_le_add_left hle _).trans_lt hok.2
  · simp only [StateOk, takeBody]
    generalize (p.buf.take n).length + (bodyData p n data).length = taken at hle
    by_cases hend : n - taken = 0
    · cases sized <;> simp [bodyState, hend]
    · cases sized <;> simp only [bodyState, if_neg hend, if_true] <;>
        exact ⟨pos_of_ne_zero hend, by omega, by omega⟩

lemma run_takeBody (hn : 0 < n) (hstate : p.state = bodyState sized n) :
    run cfg (at_ p.toCore out) (p.buf ++ data) =
      run cfg (at_ (takeBody p sized n data).toCore (out ++ p.buf.take n ++ bodyData p n data))
        (p.buf.drop n ++ data.drop (bodyData p n data).length) := by
  have hle := body_length_le p n data
  rw [← length_append] at hle
  rw [body_split p n data, run_append, run_body hn hstate _ hle, length_append, ← append_assoc out]
  rfl

end Bodies

/-! ## The parser follows the scan -/

lemma bodyState_pos {sized : Bool} {n : ℕ} (hn : 0 < n) :
    bodyState sized n = if sized then .Sized n else .ChunkData n := by
  rw [bodyState, if_neg (ne_of_gt hn), if_neg (ne_of_gt hn)]

lemma bodyLeft_pos {c : Core} {n : ℕ} (h : StateOk cfg c)
    (hstate : c.state = .Sized n ∨ c.state = .ChunkData n) : 0 < n := by
  rw [StateOk] at h
  rcases hstate with hstate | hstate
  all_goals
    rw [hstate] at h
    exact h.1

lemma follows_openBody {p : Parser} {n : ℕ} {data out : List UInt8} {sized : Bool}
    (hp : Proper cfg p.toCore out) (hn : 0 < n) (hstate : p.state = bodyState sized n)
    (hopen : (takeBody p sized n data).state ≠ bodyState sized 0) :
    Follows cfg (run cfg (at_ p.toCore out) (p.buf ++ data))
      ⟨none, takeBody p sized n data, out ++ p.buf.take n ++ bodyData p n data⟩ := by
  have hlt : (p.buf.take n).length + (bodyData p n data).length < n := by
    by_contra hge
    rw [takeBody, Nat.sub_eq_zero_of_le (not_lt.1 hge)] at hopen
    exact hopen rfl
  obtain ⟨hbuf, hdata⟩ := rest_of_lt p n data hlt
  refine ⟨fun _ => ⟨?_, ?_⟩, fun e he => (by cases he), takeBody_proper data hp hn hstate⟩
  · rw [run_takeBody data hn hstate, hdata, append_nil]
    rfl
  · have hmax : lineMax cfg (takeBody p sized n data).state = none :=
      lineMax_bodyState (Nat.sub_pos_of_lt hlt)
    rw [Settled, hmax]
    exact .inl hbuf

lemma follows_done {p : Parser} {rest out : List UInt8} {extra : Bool}
    (hp : Proper cfg p.toCore out) (hdone : p.state = .Done)
    (hextra : extra = true ↔ p.extra = true ∨ rest ≠ [] ∨ p.buf ≠ []) :
    Follows cfg (run cfg (at_ p.toCore out) (p.buf ++ rest))
      ⟨none, { p with extra := extra }, out⟩ := by
  refine ⟨fun _ => ⟨?_, ?_⟩, fun e he => (by cases he), ⟨hp.out_eq, hp.body_le, hp.body_lt,
    hp.header_le, hp.stateOk, fun hne => absurd hdone hne⟩⟩
  · have hsame : decide (p.extra = true ∨ p.buf ++ rest ≠ []) =
        decide (extra = true ∨ p.buf ≠ []) := by
      rw [decide_eq_decide, hextra, ne_eq, append_eq_nil_iff, not_and_or]
      tauto
    rw [run_done hdone, hsame]
    exact (run_done (c := { p.toCore with extra := extra }) hdone p.buf).symm
  · have hmax : lineMax cfg p.state = none := by
      rw [hdone]
      rfl
    rw [Settled, hmax]
    by_cases hbuf : p.buf = []
    · exact .inl hbuf
    · exact .inr ⟨hdone, hextra.2 (.inr (.inr hbuf))⟩

section UntilClose

variable {p : Parser} {bytes out : List UInt8}

lemma follows_untilClose_error (hp : Proper cfg p.toCore out) (hstate : p.state = .UntilClose)
    {e : Error} (hcount : countUntilClose cfg p.toCore bytes.length = .error e) :
    Follows cfg (run cfg (at_ p.toCore out) bytes) ⟨some e, p, out⟩ := by
  have hlarge : TooLarge cfg p.toCore bytes.length := fun hsmall => by
    rw [countUntilClose, if_pos hsmall] at hcount
    cases hcount
  obtain ⟨hfailed, huntil⟩ := run_tooLarge out hstate
    (not_not.2 ⟨hp.body_lt, hp.body_le⟩) bytes hlarge
  rw [countUntilClose, if_neg hlarge] at hcount
  refine ⟨fun h => (by cases h), fun e' he => ?_, hp⟩
  obtain rfl := Option.some.inj he
  refine ⟨hfailed.trans (congrArg some (Except.error.inj hcount)), ?_, fun hne =>
    absurd huntil hne⟩
  rw [hstate]
  simp

lemma follows_untilClose_ok (hp : Proper cfg p.toCore out) (hstate : p.state = .UntilClose)
    {c : Core} (hcount : countUntilClose cfg p.toCore bytes.length = .ok c) {p' : Parser}
    (hcore : p'.toCore = c) (hbuf : p'.buf = []) :
    Follows cfg (run cfg (at_ p.toCore out) bytes) ⟨none, p', out ++ bytes⟩ := by
  rw [countUntilClose] at hcount
  split at hcount
  · rename_i hsmall
    obtain rfl := Except.ok.inj hcount
    refine ⟨fun _ => ⟨?_, ?_⟩, fun e he => (by cases he), ?_⟩
    · rw [run_untilClose hstate _ (not_not.2 hsmall), hcore, hbuf, run_nil]
    · have hmax : lineMax cfg p'.state = none := by
        rw [hcore, hstate]
        rfl
      rw [Settled, hmax]
      exact .inl hbuf
    · rw [hcore]
      refine ⟨?_, hsmall.2, hsmall.1, hp.header_le, ?_, hp.extra_eq⟩
      · rw [length_append, hp.out_eq]
      · rw [StateOk, hstate]
        trivial
  · cases hcount

end UntilClose

theorem feedLoop_follows (p : Parser) (data out : List UInt8) (hp : Proper cfg p.toCore out) :
    Follows cfg (run cfg (at_ p.toCore out) (p.buf ++ data)) (feedLoop cfg p data out) := by
  fun_induction feedLoop cfg p data out with
  | case1 p data out max hmax e htake =>
    obtain ⟨hfailed, hcore, hout⟩ := run_takeLine_error out hmax htake
    refine ⟨fun h => (by cases h), fun e' he => ?_, hp⟩
    obtain rfl := Option.some.inj he
    exact ⟨hfailed, (lineMax_ne_done hmax).1, fun _ => ⟨congrArg Core.head hcore, hout⟩⟩
  | case2 p data out max hmax htake =>
    refine ⟨fun _ => ⟨rfl, ?_⟩, fun e he => (by cases he), hp⟩
    rw [Settled, hmax]
    exact htake
  | case3 p data out max hmax line rest htake e hstep =>
    obtain ⟨hfailed, hsame⟩ := run_stepLine_error hp hmax htake hstep
    refine ⟨fun h => (by cases h), fun e' he => ?_, hp⟩
    obtain rfl := Option.some.inj he
    exact ⟨hfailed, (lineMax_ne_done hmax).1, hsame⟩
  | case4 p data out max hmax line rest htake c hstep ih =>
    obtain ⟨hheader, hstepped⟩ := stepLine_stepped hp hstep
    have hp' := hp.step (lineMax_ne_done hmax).1 hheader hstepped
    obtain ⟨raw, hrun⟩ := run_takeLine_some out hmax htake
    have hzero : stepLine cfg p.toCore line 0 = .ok c := by
      rcases stepLine_same cfg p.toCore line rest.length with hsame | ⟨hsize, -⟩
      · exact hsame.symm.trans hstep
      · rw [hsize] at hstep
        cases hstep
    have hrest := ih hp'
    rw [append_nil] at hrest
    rw [hrun, hzero]
    exact hrest
  | case5 p data out hmax n hstate rest =>
    have hn : 0 < n := bodyLeft_pos hp.stateOk (.inl hstate)
    have hbody : p.state = bodyState true n := by rw [hstate, bodyState_pos hn, if_pos rfl]
    rw [endSized]
    split
    · rename_i hend
      have hextra : p.extra = false := hp.extra_eq (by rw [hstate]; simp)
      rw [run_takeBody data hn hbody]
      refine follows_done (takeBody_proper data hp hn hbody) hend ?_
      rw [decide_eq_true_iff, iff_or_self]
      intro h
      rw [takeBody, hextra] at h
      cases h
    · rename_i hopen
      exact follows_openBody hp hn hbody hopen
  | case6 p data out hmax n hstate p' rest out' hend ih =>
    have hn : 0 < n := bodyLeft_pos hp.stateOk (.inr hstate)
    have hbody : p.state = bodyState false n := by rw [hstate, bodyState_pos hn, if_neg (by simp)]
    rw [run_takeBody data hn hbody]
    exact ih (takeBody_proper data hp hn hbody)
  | case7 p data out hmax n hstate p' out' hend =>
    have hn : 0 < n := bodyLeft_pos hp.stateOk (.inr hstate)
    have hbody : p.state = bodyState false n := by rw [hstate, bodyState_pos hn, if_neg (by simp)]
    exact follows_openBody hp hn hbody hend
  | case8 p data out hmax hstate e hcount =>
    rw [← length_append] at hcount
    exact follows_untilClose_error hp hstate hcount
  | case9 p data out hmax hstate c hcount =>
    rw [← length_append] at hcount
    rw [append_assoc]
    exact follows_untilClose_ok hp hstate hcount rfl rfl
  | case10 p data out hmax hsized hchunk huntil =>
    have hdone : p.state = .Done := by
      cases hstate : p.state with
      | Done => rfl
      | Sized n => exact absurd hstate (hsized n)
      | ChunkData n => exact absurd hstate (hchunk n)
      | UntilClose => exact absurd hstate huntil
      | _ => simp [hstate, lineMax] at hmax
    exact follows_done hp hdone (by simp)

end Lazaret.Http1
