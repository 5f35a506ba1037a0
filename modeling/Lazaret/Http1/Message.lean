import Lazaret.Http1.Parser

/-!
# What a response is

The grammar of HTTP/1.1 responses, as relations between what is said and the bytes that say it:
lines, heads, interim responses, and the three framings of a body.  `Message` is a final response
after any interim ones.  Nothing here reads from left to right; that the parser's line readers only
accept lines of the grammar is shown at the end, one lemma for each.
-/

namespace Lazaret.Http1

open List Option

/-! ## Lines -/

def Line (text bytes : List UInt8) : Prop :=
  LF ∉ text ∧ (bytes = text ++ [CR, LF] ∨ bytes = text ++ [LF] ∧ text.getLast? ≠ some CR)

inductive EmptyLines : ℕ → List UInt8 → Prop
  | nil : EmptyLines 0 []
  | snoc {n : ℕ} {bytes line : List UInt8} (hlines : EmptyLines n bytes) (hline : Line [] line) :
      EmptyLines (n + 1) (bytes ++ line)

def isDigit (c : Char) : Bool := '0' ≤ c ∧ c ≤ '9'

def digit (c : Char) : ℕ := c.toNat - '0'.toNat

/-- `HTTP/1.d ddd`, and a reason after another space. -/
structure IsStatusLine (minor status : ℕ) (reason : Text) (line : List UInt8) : Prop where
  parts : ∃ d a b c : Char, ∃ tail : Text,
    lossy line = "HTTP/1.".toList ++ [d, ' ', a, b, c] ++ tail ∧
    (isDigit d ∧ isDigit a ∧ isDigit b ∧ isDigit c) ∧
    minor = digit d ∧ status = (digit a * 10 + digit b) * 10 + digit c ∧
    (tail = [] ∧ reason = [] ∨ tail = ' ' :: reason)

/-- A header: a name, a colon and a value, without the blanks at its ends. -/
structure IsField (field : Text × Text) (line : List UInt8) : Prop where
  parts : ∃ name value : List UInt8, line = name ++ 0x3a :: value ∧ 0x3a ∉ name ∧
    fromUtf8 name = some field.1 ∧ isValidHeaderName field.1 ∧ 0 ∉ value ∧
    field.2 = trimMatches (fun c => c = ' ' ∨ c = '\t') (lossy value)

inductive Fields : List (Text × Text) → List UInt8 → Prop
  | nil : Fields [] []
  | snoc {fields : List (Text × Text)} {bytes : List UInt8} {field : Text × Text}
      {text line : List UInt8} (hfields : Fields fields bytes) (hfield : IsField field text)
      (hline : Line text line) : Fields (fields ++ [field]) (bytes ++ line)

/-! ## Heads -/

/-- A head but for the empty line at its end; up to three empty lines before it are let pass. -/
structure OpenHead (minor status : ℕ) (reason : Text) (fields : List (Text × Text))
    (bytes : List UInt8) : Prop where
  parts : ∃ (n : ℕ) (blanks text line rest : List UInt8), bytes = blanks ++ (line ++ rest) ∧
    n ≤ 3 ∧ EmptyLines n blanks ∧ IsStatusLine minor status reason text ∧ Line text line ∧
    Fields fields rest

structure WholeHead (minor status : ℕ) (reason : Text) (fields : List (Text × Text))
    (bytes : List UInt8) : Prop where
  parts : ∃ opened line : List UInt8, bytes = opened ++ line ∧
    OpenHead minor status reason fields opened ∧ Line [] line

def IsInterim (status : ℕ) : Prop := 100 ≤ status ∧ status < 200

inductive Interims : List UInt8 → Prop
  | nil : Interims []
  | snoc {bytes head : List UInt8} {minor status : ℕ} {reason : Text}
      {fields : List (Text × Text)} (hinterims : Interims bytes)
      (hhead : WholeHead minor status reason fields head) (hstatus : IsInterim status)
      (hswitch : status ≠ 101) : Interims (bytes ++ head)

/-! ## Bodies -/

def codings (fields : List (Text × Text)) : List Text :=
  (parts (headerValues fields "transfer-encoding")).map lowercase

/-- The options of the connection that a head names. -/
def options (fields : List (Text × Text)) : List Text :=
  (parts (headerValues fields "connection")).map lowercase

structure AllLengths (fields : List (Text × Text)) (n : ℕ) : Prop where
  some_part : parts (headerValues fields "content-length") ≠ []
  each : ∀ part ∈ parts (headerValues fields "content-length"),
    part ≠ [] ∧ part.all isDigit ∧ number 10 part = some n

/-- The size of a chunk, before a semicolon and what is after it. -/
structure IsChunkSize (n : ℕ) (line : List UInt8) : Prop where
  parts : ∃ digits : Text, (fromUtf8 (line.takeWhile (· ≠ 0x3b))).map trim = some digits ∧
    digits ≠ [] ∧ digits.length ≤ 16 ∧ number 16 digits = some n

inductive Chunks : List UInt8 → List UInt8 → Prop
  | nil : Chunks [] []
  | snoc {data bytes chunk text line ending : List UInt8} (hchunks : Chunks data bytes)
      (hsize : IsChunkSize chunk.length text) (hpos : chunk ≠ []) (hline : Line text line)
      (hending : Line [] ending) : Chunks (data ++ chunk) (bytes ++ (line ++ (chunk ++ ending)))

inductive Trailers : List UInt8 → Prop
  | nil : Trailers []
  | snoc {bytes text line : List UInt8} (htrailers : Trailers bytes) (hpos : text ≠ [])
      (hline : Line text line) : Trailers (bytes ++ line)

/-- A body in chunks, but for the empty line at its end. -/
structure OpenChunked (data bytes : List UInt8) : Prop where
  parts : ∃ chunks text line trailers : List UInt8, bytes = chunks ++ (line ++ trailers) ∧
    Chunks data chunks ∧ IsChunkSize 0 text ∧ Line text line ∧ Trailers trailers

/-- A response that has no body, whatever its head says. -/
def NoBody (headRequest : Bool) (status : ℕ) : Prop :=
  headRequest = true ∨ status = 204 ∨ status = 304

/-- The body of a response with a head: what it says and its bytes. -/
inductive Body (headRequest : Bool) (status : ℕ) (fields : List (Text × Text)) :
    List UInt8 → List UInt8 → Prop
  | none (hnone : NoBody headRequest status) : Body headRequest status fields [] []
  | chunked {data opened ending : List UInt8} (hbody : ¬ NoBody headRequest status)
      (hcodings : codings fields = ["chunked".toList]) (hchunks : OpenChunked data opened)
      (hending : Line [] ending) : Body headRequest status fields data (opened ++ ending)
  | sized {data : List UInt8} (hbody : ¬ NoBody headRequest status)
      (hcodings : headerValues fields "transfer-encoding" = [])
      (hlength : AllLengths fields data.length) : Body headRequest status fields data data

/-! ## Responses -/

/-- A final response after some interim ones: its head, the data of its body, and all the bytes. -/
structure Message (headRequest : Bool) (minor : ℕ) (head : Head) (data bytes : List UInt8) :
    Prop where
  parts : ∃ interims first body : List UInt8, bytes = interims ++ first ++ body ∧
    Interims interims ∧ WholeHead minor head.status head.reason head.headers first ∧
    ¬ IsInterim head.status ∧ Body headRequest head.status head.headers data body
  length_eq : ∀ n, head.contentLength = some n → AllLengths head.headers n

structure Keeps (minor : ℕ) (fields : List (Text × Text)) : Prop where
  not_close : "close".toList ∉ options fields
  version : 1 ≤ minor ∨ "keep-alive".toList ∈ options fields

def BothFramings (fields : List (Text × Text)) : Prop :=
  headerValues fields "transfer-encoding" ≠ [] ∧ headerValues fields "content-length" ≠ []

/-! ## What the readers accept -/

variable {cfg : Config} {c c' : Core}

lemma line_withoutCr {raw : List UInt8} (h : LF ∉ raw) : Line (withoutCr raw) (raw ++ [LF]) := by
  rw [withoutCr]
  split_ifs with hcr
  · obtain ⟨text, rfl⟩ := getLast?_eq_some_iff.1 hcr
    rw [dropLast_concat]
    refine ⟨fun hmem => h (mem_append_left _ hmem), .inl ?_⟩
    rw [append_assoc]
    rfl
  · exact ⟨h, .inr ⟨rfl, hcr⟩⟩

lemma splitOnce_cases (sep : Char) (s : Text) :
    (splitOnce sep s = (s, none)) ∨
      ∃ before after, s = before ++ sep :: after ∧ splitOnce sep s = (before, some after) := by
  have happ := takeWhile_append_dropWhile (p := fun c => decide (c ≠ sep)) (l := s)
  rw [splitOnce]
  cases hdrop : s.dropWhile (fun c => decide (c ≠ sep)) with
  | nil =>
    rw [hdrop, append_nil] at happ
    rw [happ]
    exact .inl rfl
  | cons d after =>
    have hd : d = sep := by
      have hhead := head?_dropWhile_not (fun c => decide (c ≠ sep)) s
      rw [hdrop] at hhead
      simpa using hhead
    subst hd
    rw [hdrop] at happ
    exact .inr ⟨_, after, happ.symm, rfl⟩

lemma digit_lt {c : Char} (h : isDigit c = true) : digit c < 10 := by
  simp only [isDigit, Bool.decide_and, Bool.and_eq_true, decide_eq_true_eq, Char.le_def,
    UInt32.le_iff_toNat_le] at h
  have h9 : ('9' : Char).val.toNat = 57 := rfl
  have h0 : ('0' : Char).toNat = 48 := rfl
  have hc : c.toNat = c.val.toNat := rfl
  rw [digit, h0, hc]
  omega

lemma number_digits {ds : List Char} (h : ds.all isDigit = true) :
    number 10 ds = some (ds.foldl (fun n c => n * 10 + digit c) 0) := by
  rw [number]
  generalize (0 : ℕ) = n
  induction ds generalizing n with
  | nil => rfl
  | cons d ds ih =>
    rw [all_cons, Bool.and_eq_true] at h
    have hd : '0' ≤ d ∧ d ≤ '9' := by simpa [isDigit] using h.1
    have hlt : d.toNat - '0'.toNat < 10 := digit_lt h.1
    rw [foldlM_cons, if_pos hd]
    dsimp only
    rw [if_pos hlt, bind_eq_bind, bind_some, foldl_cons]
    exact ih h.2 _

lemma statusLine_accepts {line : List UInt8} (h : statusLine cfg c (lossy line) = .ok c') :
    IsStatusLine c'.minor c'.status c'.reason line ∧
      c' = { c with
        minor := c'.minor
        status := c'.status
        reason := c'.reason
        headers := []
        state := .Headers } := by
  simp only [statusLine] at h
  split_ifs at h with hversion hcode
  · cases h
  · cases h
  simp only [not_or, not_not] at hversion hcode
  obtain ⟨htake, hlen, hdigit⟩ := hversion
  obtain ⟨hlen3, hdigits⟩ := hcode
  have hkeep := Except.ok.inj h
  subst hkeep
  refine ⟨⟨?_⟩, rfl⟩
  dsimp only
  generalize hfirst : splitOnce ' ' (lossy line) = first at *
  generalize hsecond : splitOnce ' ' (first.2.getD []) = second at *
  -- the version is its seven characters and a digit
  obtain ⟨d, hd⟩ : ∃ d, first.1.drop 7 = [d] := by
    rw [← length_eq_one_iff, length_drop, hlen]
  have hversion : first.1 = "HTTP/1.".toList ++ [d] := by
    rw [← htake, ← hd, take_append_drop]
  obtain ⟨a, b, e, habe⟩ : ∃ a b e, second.1 = [a, b, e] := length_eq_three.1 hlen3
  rw [hd] at hdigit ⊢
  rw [habe] at hdigits ⊢
  have hd' : isDigit d = true := by simpa [isDigit] using hdigit
  have habe' : isDigit a = true ∧ isDigit b = true ∧ isDigit e = true := by
    simpa [isDigit] using hdigits
  have hnum1 : (number 10 [d]).getD 0 = digit d := by
    rw [number_digits (by simp [hd'])]
    simp
  have hnum3 : (number 10 [a, b, e]).getD 0 = (digit a * 10 + digit b) * 10 + digit e := by
    rw [number_digits (by simp [habe'])]
    simp
  rcases splitOnce_cases ' ' (lossy line) with hnone | ⟨before, after, htext, hsome⟩
  · rw [hnone] at hfirst
    subst hfirst
    have : second = ([], none) := hsecond.symm
    rw [this] at habe
    cases habe
  · rw [hsome] at hfirst
    subst hfirst
    dsimp only at hversion hsecond
    rw [getD_some] at hsecond
    subst hversion
    rcases splitOnce_cases ' ' after with hnone | ⟨before, reason, hafter, hsome'⟩
    · rw [hnone] at hsecond
      subst hsecond
      dsimp only at habe
      refine ⟨d, a, b, e, [], ?_, ⟨hd', habe'⟩, hnum1, hnum3, .inl ⟨rfl, rfl⟩⟩
      rw [htext, habe]
      simp
    · rw [hsome'] at hsecond
      subst hsecond
      dsimp only at habe
      refine ⟨d, a, b, e, ' ' :: reason, ?_, ⟨hd', habe'⟩, hnum1, hnum3, .inr rfl⟩
      rw [htext, hafter, habe]
      simp

lemma headerLine_accepts {line : List UInt8} (h : headerLine c line = .ok c') :
    ∃ field, IsField field line ∧ c' = { c with headers := c.headers ++ [field] } := by
  simp only [headerLine] at h
  split at h
  · cases h
  split at h
  · cases h
  rename_i hcolon
  split at h
  · cases h
  · rename_i name hname
    split at h
    · cases h
    rename_i hvalid
    split at h
    · cases h
    rename_i hnul
    cases h
    have happ := takeWhile_append_dropWhile (p := fun b => decide (b ≠ 0x3a)) (l := line)
    have hhead := head?_dropWhile_not (fun b => decide (b ≠ 0x3a)) line
    have hmem : 0x3a ∉ line.takeWhile fun b => decide (b ≠ 0x3a) := fun hmem => by
      simpa using mem_takeWhile_imp hmem
    generalize line.takeWhile (fun b => decide (b ≠ 0x3a)) = name' at *
    cases hdrop : line.dropWhile (fun b => decide (b ≠ 0x3a)) with
    | nil =>
      rw [hdrop, append_nil] at happ
      exact absurd (congrArg List.length happ) hcolon
    | cons b value =>
      rw [hdrop] at happ hhead
      have hb : b = 0x3a := by simpa using hhead
      subst hb
      have hvalue : line.drop (name'.length + 1) = value := by
        rw [← happ]
        simp
      rw [hvalue] at hnul ⊢
      exact ⟨_, ⟨name', value, happ.symm, hmem, hname, by simpa using hvalid, hnul, rfl⟩, rfl⟩

lemma parseContentLength_accepts {headers : List (Text × Text)} {n : ℕ}
    (h : parseContentLength headers = .ok (some n)) : AllLengths headers n := by
  have key : ∀ (ls : List Text) (found : Option ℕ),
      ls.foldlM contentLengthPart found = .ok (some n) →
        (∀ m, found = some m → m = n) ∧ (ls = [] → found = some n) ∧
        ∀ part ∈ ls, part ≠ [] ∧ part.all isDigit ∧ number 10 part = some n := by
    intro ls
    induction ls with
    | nil =>
      intro found hfound
      have : found = some n := Except.ok.inj hfound
      exact ⟨fun m hm => some.inj (hm.symm.trans this), fun _ => this, by simp⟩
    | cons part ls ih =>
      intro found hfold
      rw [foldlM_cons, except_bind_eq_ok] at hfold
      obtain ⟨found', hpart, hrest⟩ := hfold
      obtain ⟨hsame, -, hparts⟩ := ih found' hrest
      rw [contentLengthPart] at hpart
      split_ifs at hpart with hbad
      · cases hpart
      rw [not_or] at hbad
      split at hpart
      · cases hpart
      · rename_i m hm
        split_ifs at hpart with hconflict
        · cases hpart
        cases hpart
        obtain rfl := hsame m rfl
        rw [filter_eq_some_iff] at hm
        refine ⟨fun m' hm' => ?_, fun hnil => (by cases hnil), ?_⟩
        · subst hm'
          simpa using hconflict
        · intro p hp
          rcases mem_cons.1 hp with rfl | hp
          · refine ⟨hbad.1, ?_, hm.1⟩
            simpa [isDigit] using hbad.2
          · exact hparts p hp
  obtain ⟨-, hnil, hparts⟩ := key _ _ h
  exact ⟨fun hempty => (by cases hnil hempty), hparts⟩

end Lazaret.Http1
