import Lazaret.Baseline.Fingerprint
import Mathlib.Data.Nat.Bitwise

/-!
# Signatures

The signature of a report over its findings' fingerprints: HMAC-SHA256 with the key over the sorted,
distinct fingerprints as ASCII JSON (`baseline.rs`, `sign` and `verify`).  It depends on the set of
the fingerprints alone (`sign_congr`), and with HMAC taken as injective it determines how JSON
writes them (`written_of_sign`).
-/

namespace Lazaret.Baseline

open List

variable {F : Type} (H : Host F)

/-! ## JSON texts -/

/-- One character in a JSON text: what is not printable ASCII is escaped. -/
def escape (c : ℕ) : PyStr :=
  if c = 0x22 then [92, 0x22]
  else if c = 0x5c then [92, 92]
  else if c = 0x0a then [92, 110]
  else if c = 0x0d then [92, 114]
  else if c = 0x09 then [92, 116]
  else if c = 0x08 then [92, 98]
  else if c = 0x0c then [92, 102]
  else if 0x20 ≤ c ∧ c ≤ 0x7e then [c]
  else if c < 0x10000 then 92 :: 117 :: hex 4 c
  else 92 :: 117 :: hex 4 (0xd800 + (c - 0x10000) / 1024) ++
    92 :: 117 :: hex 4 (0xdc00 + (c - 0x10000) % 1024)

/-- `write_str`: a text as JSON writes it, in quotes. -/
def writeStr (s : PyStr) : PyStr := 0x22 :: (s.flatMap escape ++ [0x22])

def joined : List PyStr → PyStr
  | [] => []
  | [w] => w
  | w :: ws => w ++ 44 :: joined ws

/-- The canonical form of some fingerprints: sorted and distinct, as a JSON list. -/
def canonical (fps : List PyStr) : PyStr :=
  91 :: joined (((fps.dedup).insertionSort (· ≤ ·)).map writeStr) ++ [93]

/-! ## The signature -/

def DOMAIN : List UInt8 := (u "lazaret-baseline-v1\n").map UInt8.ofNat

/-- The UTF-8 of a character, or the three bytes of a lone surrogate. -/
def utf8 (c : ℕ) : List UInt8 :=
  if c < 0x80 then [UInt8.ofNat c]
  else if c < 0x800 then [UInt8.ofNat (0xc0 + c / 64), UInt8.ofNat (0x80 + c % 64)]
  else if c < 0x10000 then
    [UInt8.ofNat (0xe0 + c / 4096), UInt8.ofNat (0x80 + c / 64 % 64), UInt8.ofNat (0x80 + c % 64)]
  else [UInt8.ofNat (0xf0 + c / 262144), UInt8.ofNat (0x80 + c / 4096 % 64),
    UInt8.ofNat (0x80 + c / 64 % 64), UInt8.ofNat (0x80 + c % 64)]

/-- `key_bytes`: a byte that the environment could not decode is that byte. -/
def keyBytes (key : PyStr) : List UInt8 :=
  key.flatMap fun c => if 0xdc80 ≤ c ∧ c ≤ 0xdcff then [UInt8.ofNat (c - 0xdc00)] else utf8 c

def hexText (bytes : List UInt8) : PyStr := bytes.flatMap fun b => hex 2 b.toNat

def sign (fps : List PyStr) (key : PyStr) : PyStr :=
  hexText (H.hmacSha256 (keyBytes key) (DOMAIN ++ (canonical fps).map UInt8.ofNat))

/-- The comparison in constant time: the differences of all characters, put together. -/
def sameText (want got : PyStr) : Bool :=
  got.length = want.length ∧ (want.zip got).foldl (fun acc p => acc ||| (p.1 ^^^ p.2)) 0 = 0

def SIGNATURE_FIELD : String := "baselineSignature"

def SIGNATURE_ALG : String := "HMAC-SHA256"

/-- `verify`: nothing, or why the signature of a report does not verify. -/
def verify (doc : PyVal F) (issues : List (PyVal F)) (key : PyStr) : Except String Unit :=
  match doc.get SIGNATURE_FIELD with
  | some (.dict items) =>
    match (PyVal.dict items).get "value" with
    | some (.str value) =>
      match (PyVal.dict items).get "alg" with
      | some (.str alg) =>
        if alg ≠ u SIGNATURE_ALG then .error "unsupported signature algorithm"
        else if sameText (sign H (fingerprints H issues).1 key) value then .ok ()
        else .error ("its signature does not verify with $LAZARET_BASELINE_KEY " ++
          "(forged, edited, or signed with another key)")
      | _ => .error "unsupported signature algorithm"
    | _ => .error "it carries no baseline signature"
  | _ => .error "it carries no baseline signature"

/-- The value of a report's signature, if it carries one. -/
def signatureValue (doc : PyVal F) : Option PyStr :=
  match doc.get SIGNATURE_FIELD with
  | some (.dict items) =>
    match (PyVal.dict items).get "value" with
    | some (.str value) => some value
    | _ => none
  | _ => none

/-! ## What a signature is over -/

lemma sameText_iff {want got : PyStr} : sameText want got = true ↔ want = got := by
  have hzero : ∀ (l : List (ℕ × ℕ)) (acc : ℕ),
      l.foldl (fun acc p => acc ||| (p.1 ^^^ p.2)) acc = 0 ↔ acc = 0 ∧ ∀ p ∈ l, p.1 = p.2 := by
    intro l
    induction l with
    | nil => simp
    | cons p l ih =>
      intro acc
      rw [foldl_cons, ih, Nat.or_eq_zero_iff, Nat.xor_eq_zero_iff, forall_mem_cons, and_assoc]
  rw [sameText, decide_eq_true_eq, hzero]
  constructor
  · rintro ⟨hlen, -, hall⟩
    apply ext_getElem hlen.symm
    intro i h1 h2
    have hmem : (want[i], got[i]) ∈ want.zip got := by
      have hi : i < (want.zip got).length := by
        rw [length_zip]
        exact lt_min h1 h2
      have hget := getElem_mem hi
      rwa [getElem_zip] at hget
    exact hall _ hmem
  · rintro rfl
    refine ⟨rfl, rfl, fun p hp => ?_⟩
    obtain ⟨i, hi, rfl⟩ := getElem_of_mem hp
    rw [getElem_zip]

lemma canonical_congr {fps fps' : List PyStr} (h : ∀ f, f ∈ fps ↔ f ∈ fps') :
    canonical fps = canonical fps' := by
  have hsorted : (fps.dedup).insertionSort (· ≤ ·) = (fps'.dedup).insertionSort (· ≤ ·) := by
    apply Perm.eq_of_pairwise' (r := (· ≤ ·)) (pairwise_insertionSort _ _)
      (pairwise_insertionSort _ _)
    refine (perm_insertionSort _ _).trans (.trans ?_ (perm_insertionSort _ _).symm)
    rw [perm_ext_iff_of_nodup (nodup_dedup _) (nodup_dedup _)]
    intro f
    rw [mem_dedup, mem_dedup, h]
  rw [canonical, hsorted, canonical]

theorem sign_congr {fps fps' : List PyStr} (h : ∀ f, f ∈ fps ↔ f ∈ fps') (key : PyStr) :
    sign H fps key = sign H fps' key := by
  rw [sign, canonical_congr h, sign]

/-! ## What a signature tells of them -/

/-- A character that stands inside a JSON text as it is: no quote and no backslash. -/
def Plain (c : ℕ) : Prop := c ≠ 0x22 ∧ c ≠ 92

/-- The rest of a JSON text, from after its first quote to its last, and what follows it. -/
def scan : PyStr → PyStr × PyStr
  | [] => ([], [])
  | c :: rest =>
    if c = 0x22 then ([0x22], rest)
    else if c = 92 then
      match rest with
      | [] => ([92], [])
      | d :: rest => (92 :: d :: (scan rest).1, (scan rest).2)
    else (c :: (scan rest).1, (scan rest).2)

lemma scan_plain {l : PyStr} (h : ∀ c ∈ l, Plain c) (rest : PyStr) :
    scan (l ++ rest) = (l ++ (scan rest).1, (scan rest).2) := by
  induction l with
  | nil => rfl
  | cons c l ih =>
    obtain ⟨⟨hquote, hslash⟩, hl⟩ := forall_mem_cons.1 h
    rw [cons_append, scan.eq_def]
    dsimp only
    rw [if_neg hquote, if_neg hslash, ih hl, cons_append]

lemma scan_escaped (d : ℕ) (rest : PyStr) :
    scan (92 :: d :: rest) = (92 :: d :: (scan rest).1, (scan rest).2) := rfl

lemma hexDigit_plain {n : ℕ} (h : n < 16) : Plain (hexDigit n) := by
  unfold hexDigit Plain
  split <;> omega

lemma hex_plain (n c : ℕ) : ∀ d ∈ hex n c, Plain d := by
  induction n with
  | zero => simp [hex]
  | succ n ih =>
    rw [hex, forall_mem_cons]
    exact ⟨hexDigit_plain (Nat.mod_lt _ (by decide)), ih⟩

lemma scan_escape (c : ℕ) (rest : PyStr) :
    scan (escape c ++ rest) = (escape c ++ (scan rest).1, (scan rest).2) := by
  unfold escape
  split_ifs with h1 h2 h3 h4 h5 h6 h7 h8 h9
  iterate 7
    · exact scan_escaped _ rest
  · exact scan_plain (by simp [Plain, h1, h2]) rest
  · rw [cons_append, cons_append, scan_escaped, scan_plain (hex_plain _ _)]
    rfl
  · rw [append_assoc, cons_append, cons_append, cons_append, cons_append,
      scan_escaped, scan_plain (hex_plain _ _), scan_escaped, scan_plain (hex_plain _ _)]
    simp

lemma scan_writeStr (s rest : PyStr) :
    scan ((writeStr s).tail ++ rest) = ((writeStr s).tail, rest) := by
  show scan ((s.flatMap escape ++ [0x22]) ++ rest) = (s.flatMap escape ++ [0x22], rest)
  induction s with
  | nil =>
    show scan (0x22 :: rest) = ([0x22], rest)
    rw [scan.eq_def]
    dsimp only
    rw [if_pos rfl]
  | cons c s ih =>
    rw [flatMap_cons, append_assoc, append_assoc, scan_escape, ← append_assoc, ih, append_assoc]

lemma joined_injective {l l' : List PyStr}
    (h : joined (l.map writeStr) ++ [93] = joined (l'.map writeStr) ++ [93]) :
    l.map writeStr = l'.map writeStr := by
  have hcons : ∀ (s : PyStr) (rest : List PyStr), ∃ after,
      joined ((s :: rest).map writeStr) ++ [93] = 0x22 :: ((writeStr s).tail ++ after) ∧
      (rest = [] ∧ after = [93] ∨
        rest ≠ [] ∧ after = 44 :: (joined (rest.map writeStr) ++ [93])) := by
    intro s rest
    cases rest with
    | nil => exact ⟨[93], rfl, .inl ⟨rfl, rfl⟩⟩
    | cons t rest =>
      refine ⟨44 :: (joined ((t :: rest).map writeStr) ++ [93]), ?_, .inr ⟨by simp, rfl⟩⟩
      show (writeStr s ++ 44 :: joined ((t :: rest).map writeStr)) ++ [93] = _
      rw [append_assoc]
      rfl
  induction l generalizing l' with
  | nil =>
    cases l' with
    | nil => rfl
    | cons s rest =>
      obtain ⟨after, heq, -⟩ := hcons s rest
      rw [heq] at h
      cases h
  | cons s rest ih =>
    obtain ⟨after, heq, hafter⟩ := hcons s rest
    cases l' with
    | nil =>
      rw [heq] at h
      cases h
    | cons s' rest' =>
      obtain ⟨after', heq', hafter'⟩ := hcons s' rest'
      rw [heq, heq', cons.injEq] at h
      have hscan := congrArg scan h.2
      rw [scan_writeStr, scan_writeStr, Prod.mk.injEq] at hscan
      obtain ⟨hs, hrest⟩ := hscan
      have hhead : writeStr s = writeStr s' := congrArg (0x22 :: ·) hs
      have htail : rest.map writeStr = rest'.map writeStr := by
        obtain ⟨rfl, hend⟩ | ⟨-, hmore⟩ := hafter
        · obtain ⟨rfl, -⟩ | ⟨-, hmore'⟩ := hafter'
          · rfl
          · rw [hend, hmore'] at hrest
            cases hrest
        · obtain ⟨rfl, hend'⟩ | ⟨-, hmore'⟩ := hafter'
          · rw [hmore, hend'] at hrest
            cases hrest
          · rw [hmore, hmore', cons.injEq] at hrest
            exact ih hrest.2
      rw [map_cons, map_cons, hhead, htail]

lemma hexDigit_injective {m n : ℕ} (hm : m < 16) (hn : n < 16) (h : hexDigit m = hexDigit n) :
    m = n := by
  unfold hexDigit at h
  split at h <;> split at h <;> omega

lemma hexText_injective : Function.Injective hexText := by
  intro a b h
  induction a generalizing b with
  | nil =>
    cases b with
    | nil => rfl
    | cons y b => simp [hexText, hex] at h
  | cons x a ih =>
    cases b with
    | nil => simp [hexText, hex] at h
    | cons y b =>
      have hcons : ∀ (z : UInt8) (l : List UInt8), hexText (z :: l) =
          hexDigit (z.toNat / 16 % 16) :: hexDigit (z.toNat % 16) :: hexText l := by
        intro z l
        simp [hexText, hex]
      rw [hcons, hcons, cons.injEq, cons.injEq] at h
      obtain ⟨h1, h2, h3⟩ := h
      have hx := hexDigit_injective (Nat.mod_lt _ (by decide)) (Nat.mod_lt _ (by decide)) h1
      have hy := hexDigit_injective (Nat.mod_lt _ (by decide)) (Nat.mod_lt _ (by decide)) h2
      have hxy : x = y := by
        apply UInt8.toNat_inj.1
        have := x.toNat_lt
        have := y.toNat_lt
        omega
      rw [hxy, ih h3]

lemma hex_lt (n c : ℕ) : ∀ d ∈ hex n c, d < 128 := by
  induction n with
  | zero => simp [hex]
  | succ n ih =>
    rw [hex, forall_mem_cons]
    refine ⟨?_, ih⟩
    have := Nat.mod_lt (c / 16 ^ n) (show 16 > 0 by decide)
    unfold hexDigit
    split <;> omega

lemma escape_lt (c : ℕ) : ∀ d ∈ escape c, d < 128 := by
  intro d hd
  unfold escape at hd
  split_ifs at hd with h1 h2 h3 h4 h5 h6 h7 h8 h9
  all_goals simp only [mem_cons, mem_append, not_mem_nil, or_false] at hd
  · omega
  · omega
  · omega
  · omega
  · omega
  · omega
  · omega
  · omega
  · rcases hd with rfl | rfl | hd
    · decide
    · decide
    · exact hex_lt _ _ d hd
  · rcases hd with (rfl | rfl | hd) | rfl | rfl | hd
    · decide
    · decide
    · exact hex_lt _ _ d hd
    · decide
    · decide
    · exact hex_lt _ _ d hd

lemma canonical_lt (fps : List PyStr) : ∀ d ∈ canonical fps, d < 128 := by
  have hwrite : ∀ (s : PyStr), ∀ d ∈ writeStr s, d < 128 := by
    intro s d hd
    simp only [writeStr, mem_cons, mem_append, mem_flatMap, not_mem_nil, or_false] at hd
    rcases hd with rfl | ⟨c, -, hd⟩ | rfl
    · decide
    · exact escape_lt c d hd
    · decide
  have hjoined : ∀ (l : List PyStr), ∀ d ∈ joined (l.map writeStr), d < 128 := by
    intro l
    induction l with
    | nil => simp [joined]
    | cons s rest ih =>
      cases rest with
      | nil => exact hwrite s
      | cons t rest =>
        intro d hd
        rw [map_cons, map_cons, joined, mem_append, mem_cons] at hd
        · rcases hd with hd | rfl | hd
          · exact hwrite s d hd
          · decide
          · exact ih d hd
        · simp
  intro d hd
  rw [canonical, mem_append, mem_cons, mem_singleton] at hd
  rcases hd with (rfl | hd) | rfl
  · decide
  · exact hjoined _ d hd
  · decide

theorem written_of_sign {key : PyStr} (hinj : Function.Injective (H.hmacSha256 (keyBytes key)))
    {fps fps' : List PyStr} (h : sign H fps key = sign H fps' key) (w : PyStr) :
    w ∈ fps.map writeStr ↔ w ∈ fps'.map writeStr := by
  have hbytes := append_cancel_left (hinj (hexText_injective h))
  have hback : ∀ l : List PyStr,
      ((canonical l).map UInt8.ofNat).map UInt8.toNat = canonical l := by
    intro l
    rw [map_map]
    conv_rhs => rw [← map_id (canonical l)]
    refine map_congr_left fun d hd => ?_
    have hlt := canonical_lt l d hd
    exact UInt8.toNat_ofNat_of_lt' (hlt.trans (by decide))
  have hcanon : canonical fps = canonical fps' := by
    rw [← hback fps, hbytes, hback fps']
  have hjoin := joined_injective (by simpa [canonical] using hcanon)
  have hmem : ∀ l : List PyStr, w ∈ l.map writeStr ↔
      w ∈ ((l.dedup).insertionSort (· ≤ ·)).map writeStr := by
    intro l
    simp only [mem_map, mem_insertionSort, mem_dedup]
  rw [hmem fps, hmem fps', hjoin]

end Lazaret.Baseline
