import Lazaret.H2.Effects
import Mathlib.Algebra.Order.BigOperators.Group.List

/-!
# What goes over the wire

The two directions of a connection as bytes.  From what this endpoint has written one reads the
credit it has granted; from what it has taken in of the server's bytes one reads the DATA that
counts against the windows and the body of each stream.  `At t i` says where in its frames the
taken bytes end.
-/

namespace Lazaret.H2

open List

def headerOf (f : Bytes × Bytes) : Header := Header.parse f.1

/-! ### Credit -/

/-- What a frame grants to the stream `id`, or to the connection if that is 0: the increment as it
is written, in 32 bits. -/
def grant (id : ℕ) (f : Bytes × Bytes) : ℕ :=
  if (headerOf f).kind = kind.WINDOW_UPDATE ∧ (headerOf f).stream = id then fromBe f.2 else 0

/-- The increments of all the WINDOW_UPDATE frames for `id`. -/
def granted (id : ℕ) (wire : Bytes) : ℕ := ((frames wire).map (grant id)).sum

@[simp] lemma granted_nil (id : ℕ) : granted id [] = 0 := by
  rw [granted, frames, Framing.frames_nil, map_nil, sum_nil]

lemma grant_le_granted {f : Bytes × Bytes} {wire : Bytes} (hf : f ∈ frames wire) (id : ℕ) :
    grant id f ≤ granted id wire :=
  List.le_sum_of_mem (mem_map_of_mem hf)

lemma granted_append {a : Bytes} (ha : Whole a) (b : Bytes) (id : ℕ) :
    granted id (a ++ b) = granted id a + granted id b := by
  rw [granted, frames_append ha, map_append, sum_append, granted, granted]

variable {stream : ℕ}

lemma granted_start {length : ℕ} {payload : Bytes} {k : UInt8} (flags : UInt8)
    (hlength : length < 2 ^ 24) (hstream : stream < 2 ^ 31) (hpayload : payload.length = length)
    (id : ℕ) :
    granted id (start length k flags stream ++ payload) =
      if k = kind.WINDOW_UPDATE ∧ stream = id then fromBe payload else 0 := by
  rw [granted, frames_start k flags hlength hstream hpayload, map_singleton,
    sum_singleton, grant, headerOf, start, Header.parse_write hlength hstream]

def Silent (bytes : Bytes) : Prop := Whole bytes ∧ ∀ id, granted id bytes = 0

lemma Silent.append {a b : Bytes} (ha : Silent a) (hb : Silent b) : Silent (a ++ b) :=
  ⟨ha.1.append hb.1, fun id => by rw [granted_append ha.1, ha.2, hb.2]⟩

lemma silent_start {length : ℕ} {payload : Bytes} {k : UInt8} (flags : UInt8)
    (hk : k ≠ kind.WINDOW_UPDATE) (hlength : length < 2 ^ 24) (hstream : stream < 2 ^ 31)
    (hpayload : payload.length = length) : Silent (start length k flags stream ++ payload) :=
  ⟨whole_start k flags hlength hstream hpayload, fun id => by
    rw [granted_start flags hlength hstream hpayload, if_neg (fun h => hk h.1)]⟩

lemma whole_writeWindowUpdate (hstream : stream < 2 ^ 31) (n : ℕ) :
    Whole (writeWindowUpdate stream n) :=
  whole_start kind.WINDOW_UPDATE 0 (by omega) hstream rfl

lemma granted_writeWindowUpdate {n : ℕ} (hstream : stream < 2 ^ 31) (hn : n < 2 ^ 32)
    (id : ℕ) : granted id (writeWindowUpdate stream n) = if stream = id then n else 0 := by
  have hlen : (toBe n).length = 4 := rfl
  rw [writeWindowUpdate, granted_start 0 (by omega) hstream hlen, fromBe_toBe, Nat.mod_eq_of_lt hn]
  simp only [true_and]

lemma silent_writeSettings {values : List (ℕ × ℕ)} (h : values.length * 6 < 2 ^ 24) :
    Silent (writeSettings values) := by
  refine silent_start 0 (by decide) h (by omega) ?_
  induction values with
  | nil => rfl
  | cons v values ih =>
    rw [length_cons] at h
    rw [flatMap_cons, length_append, ih (by omega), length_cons]
    simp only [toBe, drop_succ_cons, drop_zero, cons_append, nil_append, length_cons, length_nil]
    omega

lemma silent_writeSettingsAck : Silent writeSettingsAck := by
  have h : writeSettingsAck = start 0 kind.SETTINGS flag.ACK 0 ++ [] := (append_nil _).symm
  rw [h]
  exact silent_start _ (by decide) (by omega) (by omega) rfl

lemma silent_writePing (ack : Bool) {data : Bytes} (h : data.length = 8) :
    Silent (writePing ack data) := silent_start _ (by decide) (by omega) (by omega) h

lemma silent_writeRstStream (hstream : stream < 2 ^ 31) (code : ErrorCode) :
    Silent (writeRstStream stream code) := silent_start _ (by decide) (by omega) hstream rfl

lemma silent_writeData (hstream : stream < 2 ^ 31) (end_stream : Bool) {data : Bytes}
    (h : data.length < 2 ^ 24) : Silent (writeData stream end_stream data) :=
  silent_start _ (by decide) h hstream rfl

lemma FrameSize.lt (m : FrameSize) : m.size < 2 ^ 24 :=
  m.le.trans_lt (by decide)

lemma silent_writeDataRest (hstream : stream < 2 ^ 31) (finish : Bool) (m : FrameSize)
    (rest : Bytes) : Silent (Connection.writeDataRest stream finish m rest) := by
  have hm := m.lt
  fun_induction Connection.writeDataRest stream finish m rest with
  | case1 rest h => exact silent_writeData hstream _ (by omega)
  | case2 rest h ih =>
    exact (silent_writeData hstream _ (by rw [length_take]; omega)).append ih

lemma silent_writeHeaderBlockRest (hstream : stream < 2 ^ 31) (end_stream : Bool)
    (m : FrameSize) (first : Bool) (rest : Bytes) :
    Silent (writeHeaderBlockRest stream end_stream m first rest) := by
  have hm := m.lt
  have hkind : (if first then kind.HEADERS else kind.CONTINUATION) ≠ kind.WINDOW_UPDATE := by
    cases first <;> decide
  fun_induction writeHeaderBlockRest stream end_stream m first rest with
  | case1 first rest k h =>
    exact silent_start _ hkind (by omega) hstream rfl
  | case2 first rest k h ih =>
    refine (silent_start _ hkind (by omega) hstream ?_).append (ih (by decide))
    rw [length_take]
    omega

/-! ### DATA -/

/-- What a frame takes from the window of `id`, or of the connection if that is 0. -/
def flow (id : ℕ) (f : Bytes × Bytes) : ℕ :=
  if (headerOf f).kind = kind.DATA ∧ (id = 0 ∨ (headerOf f).stream = id) then f.2.length else 0

/-- All the DATA that counts against the window of `id`; of a frame that is cut short, as much of
it as there is. -/
def flowed (id : ℕ) (taken : Bytes) : ℕ := ((frames taken).map (flow id)).sum

/-- Where the bytes that were taken in end: with a frame, or in the DATA frame that is arriving. -/
def At (taken : Bytes) : Option Incoming → Prop
  | none => Whole taken
  | some i => ∃ whole header part, taken = whole ++ (header ++ part) ∧ Whole whole ∧
      header.length = HEADER_LEN ∧ (Header.parse header).kind = kind.DATA ∧
      (Header.parse header).has flag.PADDED = false ∧ (Header.parse header).stream = i.stream ∧
      part.length + i.remaining = (Header.parse header).length ∧ 0 < i.remaining

lemma frames_frame {whole header part : Bytes} (hwhole : Whole whole)
    (hheader : header.length = HEADER_LEN) (hpart : part.length ≤ (Header.parse header).length) :
    frames (whole ++ (header ++ part)) = frames whole ++ [(header, part)] := by
  rw [frames_append hwhole]
  congr 1
  exact Framing.frames_last (by decide) hheader hpart

section Frames

variable {whole header part : Bytes} (hwhole : Whole whole) (hheader : header.length = HEADER_LEN)

include hwhole hheader

lemma whole_frame (hpart : part.length = (Header.parse header).length) :
    Whole (whole ++ (header ++ part)) :=
  hwhole.append (Framing.Whole.single hheader hpart)

lemma flowed_frame (hpart : part.length ≤ (Header.parse header).length) (id : ℕ) :
    flowed id (whole ++ (header ++ part)) = flowed id whole + flow id (header, part) := by
  rw [flowed, frames_frame hwhole hheader hpart, map_append, sum_append, flowed,
    map_singleton, sum_singleton]

end Frames

@[simp] lemma flowed_nil (id : ℕ) : flowed id [] = 0 := by
  rw [flowed, frames, Framing.frames_nil, map_nil, sum_nil]

namespace At

variable {taken more : Bytes} {i : Incoming}

lemma arrive (h : At taken (some i)) (hmore : more.length < i.remaining) :
    At (taken ++ more) (some { i with remaining := i.remaining - more.length }) := by
  obtain ⟨whole, header, part, rfl, hwhole, hheader, hkind, hpad, hstream, hlen, hpos⟩ := h
  refine ⟨whole, header, part ++ more, by simp, hwhole, hheader, hkind, hpad, hstream, ?_, ?_⟩
  · rw [length_append]
    dsimp only
    omega
  · dsimp only
    omega

lemma arriveLast (h : At taken (some i)) (hmore : more.length = i.remaining) :
    At (taken ++ more) none := by
  obtain ⟨whole, header, part, rfl, hwhole, hheader, hkind, hpad, hstream, hlen, hpos⟩ := h
  have heq : whole ++ (header ++ part) ++ more = whole ++ (header ++ (part ++ more)) := by simp
  rw [heq]
  exact whole_frame hwhole hheader (by rw [length_append]; omega)

lemma flowed_append (h : At taken (some i)) (hmore : more.length ≤ i.remaining) (id : ℕ) :
    flowed id (taken ++ more) =
      flowed id taken + if id = 0 ∨ i.stream = id then more.length else 0 := by
  obtain ⟨whole, header, part, rfl, hwhole, hheader, hkind, hpad, hstream, hlen, hpos⟩ := h
  have heq : whole ++ (header ++ part) ++ more = whole ++ (header ++ (part ++ more)) := by simp
  rw [heq, flowed_frame hwhole hheader (by rw [length_append]; omega),
    flowed_frame hwhole hheader (by omega), flow, flow, headerOf, headerOf]
  simp only [hkind, hstream, true_and, length_append]
  split_ifs <;> omega

end At

end Lazaret.H2
