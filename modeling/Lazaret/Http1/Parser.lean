import Lazaret.Http1.Text
import Lazaret.Lib.Outcome

/-!
# The incremental HTTP/1.1 response parser

`ResponseParser` (`http/parser.rs`): fed the bytes of a response in pieces of any size, it frames
the status line, the headers, and the body by Content-Length, by chunks or to the end of the
connection.  The lines go through a buffer (`buf` is `buf[pos..]` of the source) and the body bytes
go where the caller wants them; while the next bytes are all body, the caller may read them straight
from the transport (`consumeDirect`).
-/

namespace Lazaret.Http1

open List

inductive Error
  | Http (what : String)
  | Eof (what : String)
deriving DecidableEq

def httpErr {α : Type} (what : String) : Except Error α := .error (.Http what)

structure Limits where
  maxHeaderBytes : ℕ
  maxBodyBytes : ℕ

/-- What a parser is made with, and Rust's `{:?}` of a text, which its messages use. -/
structure Config where
  headRequest : Bool
  limits : Limits
  debug : Text → String

inductive State
  | StatusLine
  | Headers
  | Sized (left : ℕ)
  | ChunkSize
  | ChunkData (left : ℕ)
  | ChunkEnd
  | Trailers (seen : ℕ)
  | UntilClose
  | Done
deriving DecidableEq

/-- The status line and headers of the final response. -/
structure Head where
  status : ℕ
  reason : Text
  headers : List (Text × Text)
  contentLength : Option ℕ
deriving DecidableEq

structure Core where
  state : State
  headerBytes : ℕ
  blankLines : ℕ
  minor : ℕ
  status : ℕ
  reason : Text
  headers : List (Text × Text)
  head : Option Head
  headComplete : Bool
  bodyBytes : ℕ
  persistent : Bool
  extra : Bool
  continued : Bool

/-- `ResponseParser`: `buf` holds the bytes received but not consumed. -/
structure Parser extends Core where
  buf : List UInt8
  seen : Bool

def Parser.new : Parser where
  state := .StatusLine
  headerBytes := 0
  blankLines := 0
  minor := 1
  status := 0
  reason := []
  headers := []
  head := none
  headComplete := false
  bodyBytes := 0
  persistent := false
  extra := false
  continued := false
  buf := []
  seen := false

def Core.isDone (c : Core) : Bool := c.state = .Done

def Core.reusable (c : Core) : Bool := c.state = .Done ∧ c.persistent ∧ c.extra = false

def CR : UInt8 := 13
def LF : UInt8 := 10

/-! ## Fields of the head -/

def headerValues (headers : List (Text × Text)) (name : String) : List Text :=
  (headers.filter fun e => lowercase e.1 = lowercase name.toList).map Prod.snd

/-- The comma-separated parts of some values, trimmed. -/
def parts (values : List Text) : List Text := (values.flatMap (·.splitOn ',')).map trim

/-- One part of a Content-Length, after what was found before it. -/
def contentLengthPart (found : Option ℕ) (part : Text) : Except Error (Option ℕ) :=
  if part = [] ∨ part.any fun c => ¬ ('0' ≤ c ∧ c ≤ '9') then httpErr "invalid Content-Length"
  else match (number 10 part).filter (· < 2 ^ 64) with
    | none => httpErr "invalid Content-Length"
    | some n =>
      if found.any (· ≠ n) then httpErr "conflicting Content-Length values" else .ok (some n)

def parseContentLength (headers : List (Text × Text)) : Except Error (Option ℕ) :=
  (parts (headerValues headers "content-length")).foldlM contentLengthPart none

def isTokenChar (c : Char) : Bool :=
  ('0' ≤ c ∧ c ≤ '9') ∨ ('a' ≤ c ∧ c ≤ 'z') ∨ ('A' ≤ c ∧ c ≤ 'Z') ∨
    c ∈ "!#$%&'*+-.^_".toList ∨ c.toNat = 0x60 ∨ c ∈ "|~".toList

def isValidHeaderName (name : Text) : Bool := name ≠ [] ∧ name.all isTokenChar

/-! ## Lines -/

variable (cfg : Config)

/-- `count_head_line`: a line of the head and its CRLF, counted against one budget. -/
def countHeadLine (c : Core) (len : ℕ) : Except Error Core :=
  let total := min (2 ^ 64 - 1) (c.headerBytes + min (2 ^ 64 - 1) (len + 2))
  if cfg.limits.maxHeaderBytes < total then httpErr "response headers too large"
  else .ok { c with headerBytes := total }

/-- An empty line before the status line: a few are let pass. -/
def blankLine (c : Core) : Except Error Core :=
  if 4 ≤ c.blankLines + 1 then httpErr "malformed response: no status line"
  else .ok { c with blankLines := c.blankLines + 1 }

def statusLine (c : Core) (text : Text) : Except Error Core :=
  let version := (splitOnce ' ' text).1
  let rest := splitOnce ' ' ((splitOnce ' ' text).2.getD [])
  if version.take 7 ≠ "HTTP/1.".toList ∨ version.length ≠ 8 ∨
      ¬ (version.drop 7).all fun d => '0' ≤ d ∧ d ≤ '9' then
    httpErr s!"malformed status line: {cfg.debug (text.take 60)}"
  else if rest.1.length ≠ 3 ∨ ¬ rest.1.all fun d => '0' ≤ d ∧ d ≤ '9' then
    httpErr "malformed status code"
  else .ok { c with
    minor := (number 10 (version.drop 7)).getD 0
    status := (number 10 rest.1).getD 0
    reason := rest.2.getD []
    headers := []
    state := .Headers }

def headerLine (c : Core) (line : List UInt8) : Except Error Core :=
  let name := line.takeWhile (· ≠ 0x3a)
  if line.head? = some 0x20 ∨ line.head? = some 0x09 then
    httpErr "obsolete header line folding is not accepted"
  else if name.length = line.length then httpErr "malformed header line"
  else match fromUtf8 name with
    | none => httpErr "non-ASCII header name"
    | some name' =>
      if isValidHeaderName name' = false then httpErr "invalid header name"
      else if 0 ∈ line.drop (name.length + 1) then httpErr "NUL byte in header value"
      else .ok { c with
        headers := c.headers ++ [(name', trimMatches (fun c => c = ' ' ∨ c = '\t')
          (lossy (line.drop (name.length + 1))))] }

/-- The head is made available, and the body is framed as the state says. -/
def headDone (c : Core) (persistent : Bool) (contentLength : Option ℕ) (state : State) : Core :=
  { c with
    persistent := persistent
    state := state
    head := some
      { status := c.status, reason := c.reason, headers := c.headers, contentLength }
    headComplete := true
    reason := []
    headers := [] }

/-- A body of a declared length, or one that runs to the end of the connection; `buffered`: how many
bytes came after the head. -/
def beginSized (c : Core) (persistent : Bool) (buffered : ℕ) :
    Option ℕ → Except Error Core
  | some len =>
    if cfg.limits.maxBodyBytes < len then
      httpErr "response body exceeds the configured size limit"
    else .ok (headDone c persistent (some len) (if len = 0 then .Done else .Sized len))
  | none =>
    if cfg.limits.maxBodyBytes < buffered then
      httpErr "response body exceeds the configured size limit"
    else .ok (headDone c false none .UntilClose)

/-- `begin_body`: how the body is framed and whether the connection can be used again. -/
def beginBody (c : Core) (buffered : ℕ) : Except Error Core :=
  let connection := (parts (headerValues c.headers "connection")).map lowercase
  let close := "close".toList ∈ connection
  let keepAlive := "keep-alive".toList ∈ connection
  let persistent := ¬ close ∧ (1 ≤ c.minor ∨ keepAlive)
  let te := headerValues c.headers "transfer-encoding"
  if cfg.headRequest ∨ c.status = 204 ∨ c.status = 304 then
    .ok (headDone c persistent ((parseContentLength c.headers).toOption.getD none) .Done)
  else if te ≠ [] then
    if (parts te).map lowercase ≠ ["chunked".toList] then
      let encodings := String.ofList (List.intercalate ", ".toList te)
      httpErr s!"unsupported Transfer-Encoding: {encodings}"
    else
      -- a message with both framings is read, and the connection is not used again
      .ok (headDone c (persistent ∧ headerValues c.headers "content-length" = []) none .ChunkSize)
  else
    (parseContentLength c.headers).bind (beginSized cfg c persistent buffered)

/-- The empty line after the headers: of an interim response, or of the final one. -/
def headEnd (c : Core) (buffered : ℕ) : Except Error Core :=
  if 100 ≤ c.status ∧ c.status < 200 then
    if c.status = 101 then httpErr "unexpected protocol switch (101)"
    else .ok { c with
      continued := c.continued ∨ c.status = 100
      blankLines := 0
      state := .StatusLine }
  else beginBody cfg c buffered

def chunkSize (c : Core) (line : List UInt8) : Except Error Core :=
  match (fromUtf8 (line.takeWhile (· ≠ 0x3b))).map trim with
  | none => httpErr "bad chunk size"
  | some sizeStr =>
    match number 16 sizeStr with
    | none => httpErr "bad chunk size"
    | some size =>
      if sizeStr = [] ∨ 16 < sizeStr.length then httpErr "bad chunk size"
      else if size = 0 then .ok { c with state := .Trailers 0 }
      else if 2 ^ 64 ≤ c.bodyBytes + size ∨ cfg.limits.maxBodyBytes < c.bodyBytes + size then
        httpErr "response body exceeds the configured size limit"
      else .ok { c with state := .ChunkData size }

def trailer (c : Core) (seen : ℕ) (line : List UInt8) : Except Error Core :=
  if line = [] then .ok { c with state := .Done }
  else if cfg.limits.maxHeaderBytes < seen + line.length then
    httpErr "chunked trailers too large"
  else .ok { c with state := .Trailers (seen + line.length) }

/-- The longest line of a state, `none` for the states that read no lines. -/
def lineMax : State → Option ℕ
  | .StatusLine | .Headers | .Trailers _ => some cfg.limits.maxHeaderBytes
  | .ChunkSize => some 4096
  | .ChunkEnd => some 8
  | _ => none

/-- `step_line`, for one whole line; `buffered`: how many bytes came after it. -/
def stepLine (c : Core) (line : List UInt8) (buffered : ℕ) : Except Error Core :=
  match c.state with
  | .StatusLine =>
    (countHeadLine cfg c line.length).bind fun c =>
      if line = [] then blankLine c else statusLine cfg c (lossy line)
  | .Headers =>
    (countHeadLine cfg c line.length).bind fun c =>
      if line = [] then headEnd cfg c buffered else headerLine c line
  | .ChunkSize => chunkSize cfg c line
  | .Trailers seen => trailer cfg c seen line
  | .ChunkEnd =>
    if line ≠ [] then httpErr "missing CRLF after chunk data"
    else .ok { c with state := .ChunkSize }
  | _ => .ok c

def withoutCr (line : List UInt8) : List UInt8 :=
  if line.getLast? = some CR then line.dropLast else line

/-- `take_line`: a whole line and what comes after it, if one is there.  A line that is too long is
an error, complete or not. -/
def takeLine (max : ℕ) (buf : List UInt8) :
    Except Error (Option (List UInt8 × List UInt8)) :=
  let line := buf.takeWhile (· ≠ LF)
  if max < (withoutCr line).length then httpErr "header line too long"
  else if line.length = buf.length then .ok none
  else .ok (some (withoutCr line, buf.drop (line.length + 1)))

lemma takeLine_eq_some {max : ℕ} {buf line rest : List UInt8}
    (h : takeLine max buf = .ok (some (line, rest))) :
    ∃ raw, buf = raw ++ LF :: rest ∧ LF ∉ raw ∧ line = withoutCr raw ∧ line.length ≤ max := by
  rw [takeLine] at h
  split_ifs at h with hmax hlen
  · cases h
  · cases h
  · simp only [Except.ok.injEq, Option.some.injEq, Prod.mk.injEq] at h
    obtain ⟨rfl, rfl⟩ := h
    have happ := takeWhile_append_dropWhile (p := fun b => decide (b ≠ LF)) (l := buf)
    have hhead := List.head?_dropWhile_not (fun b => decide (b ≠ LF)) buf
    have hmem : LF ∉ buf.takeWhile fun b => decide (b ≠ LF) := fun hmem => by
      simpa using mem_takeWhile_imp hmem
    refine ⟨_, ?_, hmem, rfl, not_lt.1 hmax⟩
    generalize buf.takeWhile (fun b => decide (b ≠ LF)) = raw at *
    cases htail : buf.dropWhile fun b => decide (b ≠ LF) with
    | nil =>
      rw [htail, append_nil] at happ
      exact absurd (congrArg List.length happ) hlen
    | cons b tail =>
      rw [htail] at happ hhead
      have hb : b = LF := by simpa using hhead
      rw [← happ, hb]
      simp

lemma takeLine_length {max : ℕ} {buf line rest : List UInt8}
    (h : takeLine max buf = .ok (some (line, rest))) : rest.length < buf.length := by
  obtain ⟨raw, rfl, -⟩ := takeLine_eq_some h
  simp only [length_append, length_cons]
  omega

/-! ## Feeding -/

/-- What a call leaves behind: the error it returned, the parser, and the body bytes. -/
structure Fed where
  error : Option Error
  parser : Parser
  out : List UInt8

def countUntilClose (c : Core) (n : ℕ) : Except Error Core :=
  if c.bodyBytes + n < 2 ^ 64 ∧ c.bodyBytes + n ≤ cfg.limits.maxBodyBytes then
    .ok { c with bodyBytes := c.bodyBytes + n }
  else httpErr "response body exceeds the configured size limit"

/-- The state after some bytes of a sized body or of a chunk, of which `left` are to come. -/
def bodyState (sized : Bool) (left : ℕ) : State :=
  if sized then if left = 0 then .Done else .Sized left
  else if left = 0 then .ChunkEnd else .ChunkData left

/-- The bytes of `data` that go into a body of which `n` bytes are to come: what the buffer holds
goes first. -/
def bodyData (p : Parser) (n : ℕ) (data : List UInt8) : List UInt8 :=
  data.take (n - (p.buf.take n).length)

def takeBody (p : Parser) (sized : Bool) (n : ℕ) (data : List UInt8) : Parser :=
  let taken := (p.buf.take n).length + (bodyData p n data).length
  { p with
    buf := p.buf.drop n
    bodyBytes := p.bodyBytes + taken
    state := bodyState sized (n - taken) }

/-- At the end of a sized body it is told whether more bytes came. -/
def endSized (p : Parser) (rest : List UInt8) : Parser :=
  if p.state = .Done then { p with extra := rest ≠ [] ∨ p.buf ≠ [] } else p

/-- The loop of `feed` with the one of `step_line`: one line, or all there is of a body, at a
time. -/
def feedLoop (p : Parser) (data out : List UInt8) : Fed :=
  match lineMax cfg p.state with
  | some max =>
    -- everything goes through the buffer
    match _h : takeLine max (p.buf ++ data) with
    | .error e => ⟨some e, { p with buf := p.buf ++ data }, out⟩
    | .ok none => ⟨none, { p with buf := p.buf ++ data }, out⟩
    | .ok (some (line, rest)) =>
      match stepLine cfg p.toCore line rest.length with
      | .error e => ⟨some e, { p with buf := rest }, out⟩
      | .ok c => feedLoop { c with buf := rest, seen := p.seen } [] out
  | none =>
    match _hstate : p.state with
    | .Sized n =>
      let rest := data.drop (bodyData p n data).length
      ⟨none, endSized (takeBody p true n data) rest, out ++ p.buf.take n ++ bodyData p n data⟩
    | .ChunkData n =>
      let p' := takeBody p false n data
      let rest := data.drop (bodyData p n data).length
      let out := out ++ p.buf.take n ++ bodyData p n data
      if _hend : p'.state = .ChunkEnd then feedLoop p' rest out else ⟨none, p', out⟩
    | .UntilClose =>
      match countUntilClose cfg p.toCore (p.buf.length + data.length) with
      | .error e => ⟨some e, p, out⟩
      | .ok c => ⟨none, { c with buf := [], seen := p.seen }, out ++ p.buf ++ data⟩
    | _ => ⟨none, { p with extra := p.extra ∨ data ≠ [] ∨ p.buf ≠ [] }, out⟩
termination_by 2 * (p.buf.length + data.length) + if p.state = .ChunkEnd then 0 else 1
decreasing_by
  · have hlen := takeLine_length _h
    rw [List.length_append] at hlen
    simp only [List.length_nil, Nat.add_zero]
    split <;> split <;> omega
  · rw [if_pos _hend, if_neg (by rw [_hstate]; simp)]
    have hbuf : (p.buf.drop n).length ≤ p.buf.length := by
      rw [List.length_drop]
      exact Nat.sub_le _ _
    have hrest : (data.drop (bodyData p n data).length).length ≤ data.length := by
      rw [List.length_drop]
      exact Nat.sub_le _ _
    exact Nat.lt_succ_of_le (Nat.mul_le_mul_left 2 (Nat.add_le_add hbuf hrest))

def feed (p : Parser) (data out : List UInt8) : Fed :=
  feedLoop cfg { p with seen := p.seen ∨ data ≠ [] } data out

/-- `direct_window`: how many of the next bytes are body bytes that need no parsing. -/
def Parser.directWindow (p : Parser) : ℕ :=
  if p.buf ≠ [] then 0
  else match p.state with
    | .Sized n | .ChunkData n => min n (2 ^ 64 - 1)
    | .UntilClose => 2 ^ 64 - 1
    | _ => 0

/-- `consume_direct`: body bytes were read straight from the transport. -/
def consumeDirect (p : Parser) (n : ℕ) : Except Error Core :=
  let unexpected : Except Error Core :=
    httpErr "body bytes were read directly while the parser was not expecting body data"
  if p.buf ≠ [] then unexpected
  else match p.state with
    | .Sized left =>
      if n ≤ left then
        .ok { p.toCore with
          bodyBytes := p.bodyBytes + n
          state := bodyState true (left - n) }
      else unexpected
    | .ChunkData left =>
      if n ≤ left then
        .ok { p.toCore with
          bodyBytes := p.bodyBytes + n
          state := bodyState false (left - n) }
      else unexpected
    | .UntilClose => countUntilClose cfg p.toCore n
    | _ => unexpected

/-- The message of an end of the connection inside a line, or between two. -/
def closedIn (p : Parser) (closed : String) : Error :=
  .Eof (if p.buf ≠ [] then "connection closed in the middle of a line" else closed)

def finishEof (p : Parser) (out : List UInt8) : Fed :=
  match p.state with
  | .Done => ⟨none, p, out⟩
  | .UntilClose =>
    match countUntilClose cfg p.toCore p.buf.length with
    | .error e => ⟨some e, p, out⟩
    | .ok c => ⟨none, { c with state := .Done, buf := [], seen := p.seen }, out ++ p.buf⟩
  | .StatusLine => ⟨some (closedIn p "connection closed before a response arrived"), p, out⟩
  | .Headers => ⟨some (closedIn p "connection closed inside the response headers"), p, out⟩
  | .ChunkSize => ⟨some (closedIn p "connection closed inside a chunked body"), p, out⟩
  | .Trailers _ => ⟨some (closedIn p "connection closed inside chunked trailers"), p, out⟩
  | .ChunkEnd =>
    ⟨some (if p.buf ≠ [] then .Eof "connection closed in the middle of a line"
      else .Http "missing CRLF after chunk data"), p, out⟩
  | .Sized _ | .ChunkData _ =>
    ⟨some (.Eof "connection closed before the full body arrived"), p, out⟩

/-! ## A response in pieces -/

/-- A piece of the response, and whether its bytes are read straight into the body where the parser
expects nothing else. -/
structure Piece where
  data : List UInt8
  direct : Bool

/-- One piece: where it falls inside the direct window, its bytes may be put where the body goes and
only their number told to the parser. -/
def offer (p : Parser) (out : List UInt8) (piece : Piece) : Fed :=
  if piece.direct ∧ 0 < p.directWindow ∧ piece.data.length ≤ p.directWindow then
    match consumeDirect cfg p piece.data.length with
    | .error e => ⟨some e, p, out⟩
    | .ok c => ⟨none, { p with toCore := c }, out ++ piece.data⟩
  else feed cfg p piece.data out

/-- Piece after piece, up to the first error, and the end of the connection. -/
def readPieces : List Piece → Parser → List UInt8 → Fed
  | [], p, out => finishEof cfg p out
  | piece :: rest, p, out =>
    let r := offer cfg p out piece
    if r.error.isSome then r else readPieces rest r.parser r.out

def readResponse (pieces : List Piece) : Fed := readPieces cfg pieces Parser.new []

end Lazaret.Http1
