import Lazaret.Http1.Message
import Lazaret.Http1.Pieces

/-!
# A connection that is used again

A parser that says its connection is reusable has read one message of the grammar and not a byte
more.  `At` says what the bytes that were scanned are, for each state of the parser; a line keeps it
(`stepLine_at`), so does a byte (`byte_at`), and so it holds of every scan (`run_at`).
-/

namespace Lazaret.Http1

open Scan List

variable {cfg : Config}

/-! ## What was scanned -/

/-- The final head was read, after some interim responses. -/
structure Headed (c : Core) (head : Head) (opened : List UInt8) : Prop where
  parts : ∃ interims first : List UInt8, opened = interims ++ first ∧ Interims interims ∧
    WholeHead c.minor head.status head.reason head.headers first
  not_interim : ¬ IsInterim head.status
  length_eq : ∀ n, head.contentLength = some n → AllLengths head.headers n
  keeps : c.persistent = true → Keeps c.minor head.headers
  head_eq : c.head = some head

structure InChunks (cfg : Config) (c : Core) (head : Head) : Prop where
  body : ¬ NoBody cfg.headRequest head.status
  codings_eq : codings head.headers = ["chunked".toList]
  one_framing : c.persistent = true → headerValues head.headers "content-length" = []

/-- In a chunk, of which `left` bytes are to come. -/
structure InChunk (cfg : Config) (c : Core) (out consumed : List UInt8) (left : ℕ) : Prop where
  parts : ∃ (head : Head) (opened data chunks text line part : List UInt8),
    Headed c head opened ∧ InChunks cfg c head ∧ out = data ++ part ∧
    consumed = opened ++ (chunks ++ (line ++ part)) ∧ Chunks data chunks ∧
    IsChunkSize (part.length + left) text ∧ Line text line ∧ 0 < part.length + left

/-- A whole message, after which the connection may be used again. -/
structure OneMessage (cfg : Config) (c : Core) (head : Head) (out bytes : List UInt8) : Prop where
  message : Message cfg.headRequest c.minor head out bytes
  head_eq : c.head = some head
  keeps : Keeps c.minor head.headers
  one_framing : ¬ NoBody cfg.headRequest head.status → ¬ BothFramings head.headers

/-- What the bytes are that brought the parser where it is. -/
def At (cfg : Config) (c : Core) (out consumed : List UInt8) : Prop :=
  match c.state with
  | .StatusLine => out = [] ∧ ∃ interims blanks, consumed = interims ++ blanks ∧
      Interims interims ∧ c.blankLines ≤ 3 ∧ EmptyLines c.blankLines blanks
  | .Headers => out = [] ∧ ∃ interims opened, consumed = interims ++ opened ∧
      Interims interims ∧ OpenHead c.minor c.status c.reason c.headers opened
  | .Sized left => ∃ head opened, Headed c head opened ∧ consumed = opened ++ out ∧
      ¬ NoBody cfg.headRequest head.status ∧
      headerValues head.headers "transfer-encoding" = [] ∧
      AllLengths head.headers (out.length + left)
  | .ChunkSize => ∃ head opened chunks, Headed c head opened ∧ InChunks cfg c head ∧
      consumed = opened ++ chunks ∧ Chunks out chunks
  | .ChunkData left => InChunk cfg c out consumed left
  | .ChunkEnd => InChunk cfg c out consumed 0
  | .Trailers _ => ∃ head opened chunked, Headed c head opened ∧ InChunks cfg c head ∧
      consumed = opened ++ chunked ∧ OpenChunked out chunked
  | .UntilClose => c.persistent = false
  | .Done => c.persistent = true → c.extra = false → ∃ head, OneMessage cfg c head out consumed

variable {c c' : Core} {out consumed text line : List UInt8} {head : Head}

/-! ## Lines -/

lemma countHeadLine_eq {len : ℕ} (h : countHeadLine cfg c len = .ok c') :
    c' = { c with headerBytes := c'.headerBytes } := by
  simp only [countHeadLine] at h
  split_ifs at h
  · cases h
  · cases h
    rfl

lemma blankLine_at (hstate : c.state = .StatusLine) (hat : At cfg c out consumed)
    (hline : Line [] line) (h : blankLine c = .ok c') : At cfg c' out (consumed ++ line) := by
  rw [At, hstate] at hat
  obtain ⟨hout, interims, blanks, rfl, hinterims, -, hblanks⟩ := hat
  rw [blankLine] at h
  split_ifs at h with hmany
  · cases h
  cases h
  rw [At]
  dsimp only
  rw [hstate]
  exact ⟨hout, interims, blanks ++ line, append_assoc _ _ _, hinterims, by omega,
    hblanks.snoc hline⟩

lemma statusLine_at (hstate : c.state = .StatusLine) (hat : At cfg c out consumed)
    (hline : Line text line) (h : statusLine cfg c (lossy text) = .ok c') :
    At cfg c' out (consumed ++ line) := by
  rw [At, hstate] at hat
  obtain ⟨hout, interims, blanks, rfl, hinterims, hfew, hblanks⟩ := hat
  obtain ⟨hstatus, heq⟩ := statusLine_accepts h
  have hstate' : c'.state = .Headers := by rw [heq]
  have hheaders : c'.headers = [] := by rw [heq]
  rw [At, hstate']
  dsimp only
  refine ⟨hout, interims, blanks ++ line, append_assoc _ _ _, hinterims,
    ⟨c.blankLines, blanks, text, line, [], by rw [append_nil], hfew, hblanks, hstatus, hline, ?_⟩⟩
  rw [hheaders]
  exact Fields.nil

lemma headerLine_at (hstate : c.state = .Headers) (hat : At cfg c out consumed)
    (hline : Line text line) (h : headerLine c text = .ok c') :
    At cfg c' out (consumed ++ line) := by
  rw [At, hstate] at hat
  obtain ⟨hout, interims, opened, rfl, hinterims, n, blanks, first, firstLine, rest, rfl, hfew,
    hblanks, hstatus, hfirst, hfields⟩ := hat
  obtain ⟨field, hfield, rfl⟩ := headerLine_accepts h
  rw [At]
  dsimp only
  rw [hstate]
  refine ⟨hout, interims, blanks ++ (firstLine ++ (rest ++ line)), ?_, hinterims,
    ⟨n, blanks, first, firstLine, rest ++ line, rfl, hfew, hblanks, hstatus, hfirst,
      hfields.snoc hfield hline⟩⟩
  simp only [append_assoc]

variable {opened : List UInt8}

lemma headDone_headed {persistent : Bool} {length : Option ℕ} {state : State}
    (hparts : ∃ interims first : List UInt8, opened = interims ++ first ∧ Interims interims ∧
      WholeHead c.minor c.status c.reason c.headers first)
    (hfinal : ¬ IsInterim c.status) (hlength : ∀ n, length = some n → AllLengths c.headers n)
    (hkeeps : persistent = true → Keeps c.minor c.headers) :
    Headed (headDone c persistent length state) ⟨c.status, c.reason, c.headers, length⟩ opened :=
  ⟨hparts, hfinal, hlength, hkeeps, rfl⟩

lemma headed_done {persistent : Bool} {length : Option ℕ}
    (hheaded : Headed (headDone c persistent length .Done) ⟨c.status, c.reason, c.headers, length⟩
      opened)
    (hbody : Body cfg.headRequest c.status c.headers [] [])
    (hone : ¬ NoBody cfg.headRequest c.status → ¬ BothFramings c.headers) :
    At cfg (headDone c persistent length .Done) [] opened := by
  intro hpersistent _
  obtain ⟨interims, first, rfl, hinterims, hfirst⟩ := hheaded.parts
  refine ⟨_, ⟨⟨interims, first, [], ?_, hinterims, hfirst, hheaded.not_interim, hbody⟩,
    hheaded.length_eq⟩, hheaded.head_eq, hheaded.keeps hpersistent, hone⟩
  rw [append_nil]

lemma parseContentLength_toOption {headers : List (Text × Text)} {n : ℕ}
    (h : (parseContentLength headers).toOption.getD none = some n) : AllLengths headers n := by
  cases hparse : parseContentLength headers with
  | error e =>
    rw [hparse] at h
    cases h
  | ok length =>
    rw [hparse] at h
    have hlength : length = some n := h
    rw [hlength] at hparse
    exact parseContentLength_accepts hparse

variable {buffered : ℕ}

lemma beginBody_at
    (hparts : ∃ interims first : List UInt8, opened = interims ++ first ∧ Interims interims ∧
      WholeHead c.minor c.status c.reason c.headers first)
    (hfinal : ¬ IsInterim c.status) (h : beginBody cfg c buffered = .ok c') :
    At cfg c' [] opened := by
  rw [beginBody] at h
  dsimp only at h
  generalize hpersistent : decide (¬ "close".toList ∈
    (parts (headerValues c.headers "connection")).map lowercase ∧
      (1 ≤ c.minor ∨ "keep-alive".toList ∈
        (parts (headerValues c.headers "connection")).map lowercase)) = persistent at h
  have hkeeps : persistent = true → Keeps c.minor c.headers := by
    rintro rfl
    rw [decide_eq_true_iff] at hpersistent
    exact ⟨hpersistent.1, hpersistent.2⟩
  split at h
  · -- no body, whatever the head says
    rename_i hnone
    cases h
    exact headed_done (headDone_headed hparts hfinal (fun n hn => parseContentLength_toOption hn)
      hkeeps) (Body.none hnone) fun hbody => absurd hnone hbody
  rename_i hbody
  split at h
  · split at h
    · cases h
    rename_i hte hcodings
    cases h
    refine ⟨_, opened, [], headDone_headed hparts hfinal (fun n hn => (by cases hn)) fun hp => ?_,
      ⟨hbody, not_not.1 hcodings, fun hp => ?_⟩, (append_nil _).symm, Chunks.nil⟩
    · exact hkeeps (hpersistent ▸ decide_eq_true (of_decide_eq_true hp).1)
    · exact (of_decide_eq_true hp).2
  · rename_i hte
    have hte' : headerValues c.headers "transfer-encoding" = [] := not_not.1 hte
    have hone : ¬ BothFramings c.headers := fun hboth => hboth.1 hte'
    cases hparse : parseContentLength c.headers with
    | error e =>
      rw [hparse] at h
      cases h
    | ok length =>
      rw [hparse] at h
      change beginSized cfg c persistent buffered length = .ok c' at h
      cases length with
      | none =>
        rw [beginSized] at h
        split_ifs at h
        · cases h
        cases h
        rfl
      | some len =>
        have hlengths := parseContentLength_accepts hparse
        rw [beginSized] at h
        split_ifs at h with hlarge hzero
        · cases h
        · cases h
          subst hzero
          exact headed_done (headDone_headed hparts hfinal
            (fun n hn => Option.some.inj hn ▸ hlengths) hkeeps) (Body.sized hbody hte' hlengths)
            fun _ => hone
        · cases h
          refine ⟨_, opened, headDone_headed hparts hfinal
            (fun n hn => Option.some.inj hn ▸ hlengths) hkeeps, (append_nil _).symm, hbody,
            hte', ?_⟩
          rw [length_nil, zero_add]
          exact hlengths

lemma headEnd_at (hstate : c.state = .Headers) (hat : At cfg c out consumed)
    (hline : Line [] line) (h : headEnd cfg c buffered = .ok c') :
    At cfg c' out (consumed ++ line) := by
  rw [At, hstate] at hat
  obtain ⟨rfl, interims, opened, rfl, hinterims, hopen⟩ := hat
  have hwhole : WholeHead c.minor c.status c.reason c.headers (opened ++ line) :=
    ⟨opened, line, rfl, hopen, hline⟩
  rw [headEnd] at h
  split_ifs at h with hinterim hswitch
  · cases h
  · cases h
    refine ⟨rfl, interims ++ (opened ++ line), [], ?_, hinterims.snoc hwhole hinterim hswitch,
      Nat.zero_le _, EmptyLines.nil⟩
    rw [append_nil, append_assoc]
  · exact beginBody_at ⟨interims, opened ++ line, append_assoc _ _ _, hinterims, hwhole⟩ hinterim h

lemma Headed.withState (h : Headed c head opened) (state : State) :
    Headed { c with state } head opened := ⟨h.parts, h.not_interim, h.length_eq, h.keeps, h.head_eq⟩

lemma InChunks.withState (h : InChunks cfg c head) (state : State) :
    InChunks cfg { c with state } head := ⟨h.body, h.codings_eq, h.one_framing⟩

lemma chunkSize_at (hstate : c.state = .ChunkSize) (hat : At cfg c out consumed)
    (hline : Line text line) (h : chunkSize cfg c text = .ok c') :
    At cfg c' out (consumed ++ line) := by
  rw [At, hstate] at hat
  obtain ⟨head, opened, chunks, hheaded, hin, rfl, hchunks⟩ := hat
  rw [chunkSize] at h
  split at h
  · cases h
  rename_i digits hdigits
  split at h
  · cases h
  rename_i size hsize
  split_ifs at h with hbad hzero hlarge
  · cases h
  · cases h
    rw [not_or] at hbad
    subst hzero
    refine ⟨head, opened, chunks ++ (line ++ []), hheaded.withState _, hin.withState _, ?_,
      ⟨chunks, text, line, [], rfl, hchunks, ⟨digits, hdigits, hbad.1, by omega, hsize⟩, hline,
        Trailers.nil⟩⟩
    rw [append_nil, append_assoc]
  · cases h
  · cases h
    rw [not_or] at hbad
    refine ⟨head, opened, out, chunks, text, line, [], hheaded.withState _, hin.withState _,
      (append_nil _).symm, ?_, hchunks, ⟨digits, hdigits, hbad.1, by omega, ?_⟩, hline, ?_⟩
    · rw [append_nil, append_assoc]
    · rw [length_nil, zero_add]
      exact hsize
    · rw [length_nil, zero_add]
      exact pos_of_ne_zero hzero

lemma chunkEnd_at (hstate : c.state = .ChunkEnd) (hat : At cfg c out consumed)
    (hline : Line [] line) : At cfg { c with state := .ChunkSize } out (consumed ++ line) := by
  rw [At, hstate] at hat
  obtain ⟨head, opened, data, chunks, size, sizeLine, chunk, hheaded, hin, rfl, rfl, hchunks, hsize,
    hsizeLine, hpos⟩ := hat
  rw [add_zero] at hsize hpos
  refine ⟨head, opened, chunks ++ (sizeLine ++ (chunk ++ line)), hheaded.withState _,
    hin.withState _, ?_, hchunks.snoc hsize (ne_nil_of_length_pos hpos) hsizeLine hline⟩
  simp only [append_assoc]

lemma trailer_at {seen : ℕ} (hstate : c.state = .Trailers seen) (hat : At cfg c out consumed)
    (hline : Line text line) (h : trailer cfg c seen text = .ok c') :
    At cfg c' out (consumed ++ line) := by
  rw [At, hstate] at hat
  obtain ⟨head, opened, chunked, hheaded, hin, rfl, hopen⟩ := hat
  rw [trailer] at h
  split_ifs at h with hempty hlarge
  · cases h
    subst hempty
    intro hpersistent _
    obtain ⟨interims, first, rfl, hinterims, hfirst⟩ := hheaded.parts
    have hcl := hin.one_framing hpersistent
    refine ⟨head, ⟨⟨interims, first, chunked ++ line, ?_, hinterims, hfirst, hheaded.not_interim,
      Body.chunked hin.body hin.codings_eq hopen hline⟩, hheaded.length_eq⟩, hheaded.head_eq,
      hheaded.keeps hpersistent, fun _ hboth => hboth.2 hcl⟩
    simp only [append_assoc]
  · cases h
  · cases h
    obtain ⟨chunks, size, sizeLine, trailers, rfl, hchunks, hsize, hsizeLine, htrailers⟩ := hopen
    refine ⟨head, opened, chunks ++ (sizeLine ++ (trailers ++ line)), hheaded.withState _,
      hin.withState _, ?_, ⟨chunks, size, sizeLine, trailers ++ line, rfl, hchunks, hsize,
        hsizeLine, htrailers.snoc hempty hline⟩⟩
    simp only [append_assoc]

lemma stepLine_at {max : ℕ} (hmax : lineMax cfg c.state = some max)
    (hat : At cfg c out consumed) (hline : Line text line)
    (h : stepLine cfg c text buffered = .ok c') : At cfg c' out (consumed ++ line) := by
  rw [stepLine] at h
  cases hstate : c.state with
  | StatusLine =>
    rw [hstate] at h
    obtain ⟨d, hcount, hrest⟩ := except_bind_eq_ok.1 h
    have hd := countHeadLine_eq hcount
    have hat' : At cfg d out consumed := by
      rw [hd, At]
      rw [At, hstate] at hat
      dsimp only
      rw [hstate]
      exact hat
    have hstate' : d.state = .StatusLine := by rw [hd, hstate]
    split_ifs at hrest with hempty
    · subst hempty
      exact blankLine_at hstate' hat' hline hrest
    · exact statusLine_at hstate' hat' hline hrest
  | Headers =>
    rw [hstate] at h
    obtain ⟨d, hcount, hrest⟩ := except_bind_eq_ok.1 h
    have hd := countHeadLine_eq hcount
    have hat' : At cfg d out consumed := by
      rw [hd, At]
      rw [At, hstate] at hat
      dsimp only
      rw [hstate]
      exact hat
    have hstate' : d.state = .Headers := by rw [hd, hstate]
    split_ifs at hrest with hempty
    · subst hempty
      exact headEnd_at hstate' hat' hline hrest
    · exact headerLine_at hstate' hat' hline hrest
  | ChunkSize =>
    rw [hstate] at h
    exact chunkSize_at hstate hat hline h
  | Trailers seen =>
    rw [hstate] at h
    exact trailer_at hstate hat hline h
  | ChunkEnd =>
    rw [hstate] at h
    dsimp only at h
    split_ifs at h with hempty
    · cases h
    rw [not_not] at hempty
    subst hempty
    cases h
    exact chunkEnd_at hstate hat hline
  | Sized | ChunkData | UntilClose | Done =>
    rw [hstate] at hmax
    cases hmax

/-! ## Bytes -/

/-- A scan that goes on has taken what was consumed, and is in a line. -/
structure Scanned (cfg : Config) (s : Scan) (bytes : List UInt8) : Prop where
  parts : ∃ consumed, bytes = consumed ++ s.line ∧ At cfg s.core s.out consumed
  line_ok : LF ∉ s.line
  no_line : lineMax cfg s.core.state = none → s.line = []

variable {s : Scan}

lemma otherByte_at {consumed : List UInt8} (b : UInt8)
    (hproper : Proper cfg s.core s.out) (hat : At cfg s.core s.out consumed)
    (hmax : lineMax cfg s.core.state = none) (hok : (s.otherByte cfg b).failed = none) :
    At cfg (s.otherByte cfg b).core (s.otherByte cfg b).out (consumed ++ [b]) := by
  rw [otherByte] at hok ⊢
  cases hstate : s.core.state with
  | Sized left =>
    have hleft := bodyLeft_pos hproper.stateOk (.inl hstate)
    rw [At, hstate] at hat
    obtain ⟨head, opened, hheaded, rfl, hbody, hte, hlengths⟩ := hat
    dsimp only
    rw [bodyByte, bodyState, if_pos rfl]
    dsimp only
    have hlen : (s.out ++ [b]).length + (left - 1) = s.out.length + left := by
      rw [length_append, length_singleton]
      omega
    split_ifs with hend
    · intro hpersistent _
      obtain ⟨interims, first, rfl, hinterims, hfirst⟩ := hheaded.parts
      have hlengths' : AllLengths head.headers (s.out ++ [b]).length := by
        rw [← hlen, hend, add_zero] at hlengths
        exact hlengths
      refine ⟨head, ⟨⟨interims, first, s.out ++ [b], ?_, hinterims, hfirst, hheaded.not_interim,
        Body.sized hbody hte hlengths'⟩, hheaded.length_eq⟩, hheaded.head_eq,
        hheaded.keeps hpersistent, fun _ hboth => hboth.1 hte⟩
      simp only [append_assoc]
    · refine ⟨head, opened, ⟨hheaded.parts, hheaded.not_interim, hheaded.length_eq, hheaded.keeps,
        hheaded.head_eq⟩, append_assoc _ _ _, hbody, hte, ?_⟩
      rw [hlen]
      exact hlengths
  | ChunkData left =>
    have hleft := bodyLeft_pos hproper.stateOk (.inr hstate)
    rw [At, hstate] at hat
    obtain ⟨head, opened, data, chunks, size, sizeLine, chunk, hheaded, hin, hout, rfl, hchunks,
      hsize, hsizeLine, hpos⟩ := hat
    have hlen : (chunk ++ [b]).length + (left - 1) = chunk.length + left := by
      rw [length_append, length_singleton]
      omega
    have hnext : ∀ state : State, InChunk cfg { s.core with
        bodyBytes := s.core.bodyBytes + 1
        state := state } (s.out ++ [b]) (opened ++ (chunks ++ (sizeLine ++ chunk)) ++ [b])
        (left - 1) := by
      intro state
      refine ⟨head, opened, data, chunks, size, sizeLine, chunk ++ [b], ⟨hheaded.parts,
        hheaded.not_interim, hheaded.length_eq, hheaded.keeps, hheaded.head_eq⟩,
        ⟨hin.body, hin.codings_eq, hin.one_framing⟩, ?_, ?_, hchunks, ?_, hsizeLine, ?_⟩
      · rw [hout, append_assoc]
      · simp only [append_assoc]
      · rw [hlen]
        exact hsize
      · rw [hlen]
        exact hpos
    dsimp only
    rw [bodyByte, bodyState, if_neg (by decide)]
    split_ifs with hend
    · have hzero := hnext .ChunkEnd
      rw [hend] at hzero
      exact hzero
    · exact hnext (.ChunkData (left - 1))
  | UntilClose =>
    rw [At, hstate] at hat
    rw [hstate] at hok
    dsimp only at hok ⊢
    rw [countUntilClose] at hok ⊢
    split_ifs at hok ⊢ with hsmall
    · rw [Scan.next, At]
      dsimp only
      rw [hstate]
      exact hat
    · cases hok
  | Done =>
    dsimp only
    rw [At]
    dsimp only
    rw [hstate]
    intro _ hextra
    cases hextra
  | StatusLine | Headers | ChunkSize | ChunkEnd | Trailers =>
    rw [hstate] at hmax
    cases hmax

lemma byte_at {bytes : List UInt8} (b : UInt8) (hproper : Proper cfg s.core s.out)
    (hs : Scanned cfg s bytes) (hok : (byte cfg s b).failed = none) :
    Scanned cfg (byte cfg s b) (bytes ++ [b]) := by
  obtain ⟨⟨consumed, rfl, hat⟩, hline, hno⟩ := hs
  have hgoes : s.failed.isSome = false := by
    by_contra hfailed
    rw [Bool.not_eq_false] at hfailed
    rw [byte, if_pos hfailed] at hok
    rw [hok] at hfailed
    cases hfailed
  rw [byte, hgoes, if_neg (by decide)] at hok ⊢
  cases hmax : lineMax cfg s.core.state with
  | some max =>
    rw [hmax] at hok
    dsimp only at hok ⊢
    rw [lineByte] at hok ⊢
    by_cases hb : b = LF
    · subst hb
      rw [if_pos rfl] at hok ⊢
      cases hstep : stepLine cfg s.core (withoutCr s.line) 0 with
      | error e =>
        rw [hstep] at hok
        cases hok
      | ok c =>
        refine ⟨⟨consumed ++ (s.line ++ [LF]), ?_,
          stepLine_at hmax hat (line_withoutCr hline) hstep⟩, not_mem_nil, fun _ => rfl⟩
        rw [Scan.next, append_nil, append_assoc]
    · rw [if_neg hb] at hok ⊢
      split_ifs at hok ⊢
      · cases hok
      · refine ⟨⟨consumed, append_assoc _ _ _, hat⟩, ?_, fun hnone => ?_⟩
        · simpa [hline] using fun h : LF = b => hb h.symm
        · rw [hmax] at hnone
          cases hnone
  | none =>
    rw [hmax] at hok
    dsimp only at hok ⊢
    have hnil := hno hmax
    rw [hnil, append_nil]
    have hline' : (s.otherByte cfg b).line = [] := by
      rw [otherByte] at hok ⊢
      split
      · exact hnil
      · exact hnil
      · rename_i hstate
        rw [hstate] at hok
        dsimp only at hok
        rw [countUntilClose] at hok ⊢
        split_ifs at hok ⊢
        · rfl
        · cases hok
      · exact hnil
    refine ⟨⟨consumed ++ [b], ?_, otherByte_at b hproper hat hmax hok⟩, ?_, fun _ => hline'⟩
    · rw [hline', append_nil]
    · rw [hline']
      exact not_mem_nil

lemma scan_proper (cfg : Config) (bytes : List UInt8) :
    Proper cfg (scan cfg bytes).core (scan cfg bytes).out := by
  induction bytes using reverseRecOn with
  | nil => exact (Reads.start cfg).proper
  | append_singleton bytes b ih =>
    rw [scan, run_append]
    exact byte_proper ih b

theorem scan_at (cfg : Config) (bytes : List UInt8) (hok : (scan cfg bytes).failed = none) :
    Scanned cfg (scan cfg bytes) bytes := by
  induction bytes using reverseRecOn with
  | nil =>
    exact ⟨⟨[], rfl, rfl, [], [], rfl, Interims.nil, Nat.zero_le _, EmptyLines.nil⟩,
      not_mem_nil, fun _ => rfl⟩
  | append_singleton bytes b ih =>
    have hrun : scan cfg (bytes ++ [b]) = byte cfg (scan cfg bytes) b := by
      rw [scan, run_append]
      rfl
    rw [hrun] at hok ⊢
    refine byte_at b (scan_proper cfg bytes) (ih ?_) hok
    by_contra hfailed
    have hsome := Option.isSome_iff_ne_none.2 hfailed
    rw [byte, if_pos hsome] at hok
    exact hfailed hok

/-! ## A connection that is reusable -/

def offerPieces (cfg : Config) : List Piece → Parser → List UInt8 → Fed
  | [], p, out => ⟨none, p, out⟩
  | piece :: rest, p, out =>
    let r := offer cfg p out piece
    if r.error.isSome then r else offerPieces cfg rest r.parser r.out

def fed (cfg : Config) (pieces : List Piece) : Fed := offerPieces cfg pieces Parser.new []

lemma offerPieces_follows {p : Parser} (pieces : List Piece) (h : Reads cfg s p out) :
    Follows cfg (run cfg s (pieces.map Piece.data).flatten) (offerPieces cfg pieces p out) := by
  induction pieces generalizing s p out with
  | nil => exact ⟨fun _ => ⟨h.scan_eq, h.settled⟩, fun e he => (by cases he), h.proper⟩
  | cons piece pieces ih =>
    have hfollows := offer_follows h piece
    rw [map_cons, flatten_cons, run_append, offerPieces]
    cases hr : (offer cfg p out piece).error with
    | none => exact ih (hfollows.reads hr)
    | some e =>
      have hfailed : (run cfg s piece.data).failed.isSome := by
        rw [(hfollows.err e hr).1]
        rfl
      rw [run_of_failed hfailed]
      exact hfollows

lemma fed_follows (cfg : Config) (pieces : List Piece) :
    Follows cfg (scan cfg (pieces.map Piece.data).flatten) (fed cfg pieces) :=
  offerPieces_follows pieces (Reads.start cfg)

lemma fed_eq_scan {pieces : List Piece} (hok : (fed cfg pieces).error = none) :
    (scan cfg (pieces.map Piece.data).flatten).failed = none ∧
      (scan cfg (pieces.map Piece.data).flatten).core = (fed cfg pieces).parser.toCore ∧
      (scan cfg (pieces.map Piece.data).flatten).out = (fed cfg pieces).out := by
  have hs := ((fed_follows cfg pieces).reads hok).eq_mk
  exact ⟨by rw [hs], by rw [hs], by rw [hs]⟩

lemma scan_done_append {bytes more : List UInt8} (hok : (scan cfg bytes).failed = none)
    (hdone : (scan cfg bytes).core.state = .Done) (hmore : more ≠ []) :
    (scan cfg (bytes ++ more)).failed = none ∧ (scan cfg (bytes ++ more)).core.extra = true := by
  have hline := (scan_at cfg bytes hok).no_line (by rw [hdone]; rfl)
  have hs : scan cfg bytes = at_ (scan cfg bytes).core (scan cfg bytes).out := by
    rw [at_, ← hline, ← hok]
  rw [scan, run_append]
  change (run cfg (scan cfg bytes) more).failed = none ∧
    (run cfg (scan cfg bytes) more).core.extra = true
  rw [hs, run_done hdone]
  exact ⟨rfl, decide_eq_true (.inr hmore)⟩

/-- A connection that is used again is never out of step: what was fed to a parser that says so is
some interim responses, one final response and nothing after it. -/
theorem reusable_after_one_message (cfg : Config) (pieces : List Piece)
    (hok : (fed cfg pieces).error = none) (hreusable : (fed cfg pieces).parser.reusable = true) :
    (∃ head, OneMessage cfg (fed cfg pieces).parser.toCore head (fed cfg pieces).out
      (pieces.map Piece.data).flatten) ∧
    ∀ more ≠ [], ∀ pieces' : List Piece,
      (pieces'.map Piece.data).flatten = (pieces.map Piece.data).flatten ++ more →
        (fed cfg pieces').parser.reusable = false := by
  obtain ⟨hgoes, hcore, hout⟩ := fed_eq_scan hok
  obtain ⟨hdone, hpersistent, hextra⟩ : (fed cfg pieces).parser.state = .Done ∧
      (fed cfg pieces).parser.persistent = true ∧ (fed cfg pieces).parser.extra = false := by
    simpa [Core.reusable] using hreusable
  have hscanned := scan_at cfg _ hgoes
  rw [← hcore] at hdone hpersistent hextra
  constructor
  · obtain ⟨consumed, hbytes, hat⟩ := hscanned.parts
    rw [hscanned.no_line (by rw [hdone]; rfl), append_nil] at hbytes
    rw [At, hdone, hcore, hout, ← hbytes] at hat
    rw [hcore] at hpersistent hextra
    exact hat hpersistent hextra
  · intro more hmore pieces' hpieces'
    obtain ⟨hgoes', hextra'⟩ := scan_done_append hgoes hdone hmore
    have hfollows := fed_follows cfg pieces'
    rw [hpieces'] at hfollows
    cases herror : (fed cfg pieces').error with
    | some e =>
      rw [(hfollows.err e herror).1] at hgoes'
      cases hgoes'
    | none =>
      obtain ⟨-, hcore', -⟩ := fed_eq_scan herror
      rw [hpieces'] at hcore'
      rw [hcore'] at hextra'
      simp [Core.reusable, hextra']

def smallClient (headRequest : Bool) : Config := ⟨headRequest, ⟨200, 200⟩, fun _ => ""⟩

def bytesOf (s : String) : List UInt8 := s.toList.map fun c => UInt8.ofNat c.toNat

/-- An interim response, and a final one in chunks, cut in the middle of its head and of a chunk. -/
def chunkedPieces : List Piece :=
  [⟨bytesOf "HTTP/1.1 100 Continue\r\n\r\nHTTP/1.1 200 OK\r\nTransfer-", false⟩,
    ⟨bytesOf "Encoding: chunked\r\n\r\n3;x\r\nab", false⟩, ⟨bytesOf "c", true⟩,
    ⟨bytesOf "\r\n0\r\n\r\n", false⟩]

theorem reusable_after_one_message_chunked :
    (fed (smallClient false) chunkedPieces).out = bytesOf "abc" ∧
      ∃ head, OneMessage (smallClient false)
        (fed (smallClient false) chunkedPieces).parser.toCore head
        (fed (smallClient false) chunkedPieces).out (chunkedPieces.map Piece.data).flatten :=
  ⟨by with_unfolding_all decide,
    (reusable_after_one_message (smallClient false) chunkedPieces (by with_unfolding_all decide)
      (by with_unfolding_all decide)).1⟩

/-- A response to HEAD may name both framings, and empty lines may come before a response: in both
cases the connection is reusable. -/
theorem reusable_with_both_framings :
    (¬ ∀ (cfg : Config) (pieces : List Piece), (fed cfg pieces).error = none →
      (fed cfg pieces).parser.reusable = true →
      ∀ head, (fed cfg pieces).parser.head = some head → ¬ BothFramings head.headers) ∧
    ¬ ∀ (cfg : Config) (pieces : List Piece), (fed cfg pieces).error = none →
      (fed cfg pieces).parser.reusable = true →
      ∃ text line rest, (pieces.map Piece.data).flatten = line ++ rest ∧ Line text line ∧
        text ≠ [] := by
  constructor
  · intro h
    exact h (smallClient true)
      [⟨bytesOf "HTTP/1.1 200 OK\r\nContent-Length: 5\r\nTransfer-Encoding: chunked\r\n\r\n",
      false⟩]
      (by with_unfolding_all decide)
      (by with_unfolding_all decide)
      ⟨200, "OK".toList, [("Content-Length".toList, "5".toList),
        ("Transfer-Encoding".toList, "chunked".toList)], some 5⟩ (by with_unfolding_all decide)
      ⟨by decide, by decide⟩
  · intro h
    obtain ⟨text, line, rest, hbytes, ⟨hlf, hline⟩, hne⟩ := h (smallClient false)
      [⟨bytesOf "\nHTTP/1.1 204 No Content\r\n\r\n", false⟩] (by with_unfolding_all decide)
      (by with_unfolding_all decide)
    -- the first line ends at the first byte
    have hhead : (line ++ rest).head? = some LF := by
      rw [← hbytes]
      decide
    cases text with
    | nil => exact hne rfl
    | cons b text =>
      have hb : b = LF := by
        rcases hline with rfl | ⟨rfl, -⟩
        · exact Option.some.inj hhead
        · exact Option.some.inj hhead
      exact hlf (hb ▸ mem_cons_self)

end Lazaret.Http1
