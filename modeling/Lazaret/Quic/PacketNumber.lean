import Lazaret.Quic.Wire

/-!
# Packet numbers

A packet number is sent truncated, in enough bytes to tell it from every number that may be in
flight (`packet_number_len`), and recovered as the number nearest to the next one expected
(`decode_packet_number`), both of `pratique/src/quic/wire.rs`.  Nothing that a peer sends makes the
recovery overflow.
-/

namespace Lazaret.Quic.Wire

open Option

/-! ## Arithmetic on `u64` -/

def U64_MAX : ℕ := 2 ^ 64 - 1

def saturatingAdd (a b : ℕ) : ℕ := min (a + b) U64_MAX

def saturatingMul (a b : ℕ) : ℕ := min (a * b) U64_MAX

def checkedAdd (a b : ℕ) : Option ℕ := if a + b ≤ U64_MAX then some (a + b) else none

/-! ## Sending and recovering -/

def MAX_PACKET_NUMBER_LEN : ℕ := 4

/-- How many packet numbers are sent and not yet acknowledged. -/
def unacked (pn : ℕ) (largestAcked : Option ℕ) : ℕ :=
  match largestAcked with
  | some acked => pn - acked
  | none => saturatingAdd pn 1

/-- `packet_number_len`: how many bytes to send a packet number in. -/
def packetNumberLen (pn : ℕ) (largestAcked : Option ℕ) : Option ℕ :=
  let range := saturatingMul (unacked pn largestAcked) 2
  (List.range' 1 MAX_PACKET_NUMBER_LEN).find? fun n => range < 1 <<< (8 * n)

def expectedNext (largest : Option ℕ) : ℕ :=
  match largest with
  | none => 0
  | some l => saturatingAdd l 1

/-- `decode_packet_number`: the packet number that was sent truncated; none where it panics, on a
length that is not 1 to 4 or an overflow. -/
def decodePacketNumber (largest : Option ℕ) (truncated nbytes : ℕ) : Option ℕ :=
  if 1 ≤ nbytes ∧ nbytes ≤ MAX_PACKET_NUMBER_LEN then
    let expected := expectedNext largest
    let win := 1 <<< (8 * nbytes)
    let half := win / 2
    let mask := win - 1
    let candidate := (expected &&& (U64_MAX ^^^ mask)) ||| (truncated &&& mask)
    if saturatingAdd candidate half ≤ expected ∧ candidate < (1 <<< 62) - win then
      checkedAdd candidate win
    else if candidate > saturatingAdd expected half ∧ candidate ≥ win then some (candidate - win)
    else some candidate
  else none

/-! ## The candidate -/

lemma expectedNext_lt (largest : Option ℕ) : expectedNext largest < 2 ^ 64 := by
  cases largest with
  | none => decide
  | some l =>
    rw [expectedNext, saturatingAdd, U64_MAX]
    omega

lemma candidate_eq {expected : ℕ} (h : expected < 2 ^ 64) (truncated : ℕ) {k : ℕ} (hk : k ≤ 64) :
    (expected &&& (U64_MAX ^^^ (1 <<< k - 1))) ||| (truncated &&& (1 <<< k - 1)) =
      expected / 2 ^ k * 2 ^ k + truncated % 2 ^ k := by
  have hhigh : expected &&& (U64_MAX ^^^ (2 ^ k - 1)) = expected / 2 ^ k * 2 ^ k := by
    apply Nat.eq_of_testBit_eq
    intro i
    rw [U64_MAX, Nat.testBit_and, Nat.testBit_xor, Nat.testBit_two_pow_sub_one,
      Nat.testBit_two_pow_sub_one, Nat.testBit_mul_two_pow, Nat.testBit_div_two_pow]
    by_cases hi : k ≤ i
    · by_cases h64 : i < 64
      · have hback : i - k + k = i := by omega
        simp [hi, h64, hback]
      · have hbit : expected.testBit i = false :=
          Nat.testBit_lt_two_pow (h.trans_le (Nat.pow_le_pow_right (by decide) (by omega)))
        have hback : i - k + k = i := by omega
        simp [hback, hbit]
    · have hlow : i < k := by omega
      have h64 : i < 64 := by omega
      simp [hi, hlow, h64]
  rw [Nat.one_shiftLeft, hhigh, Nat.and_two_pow_sub_one_eq_mod, ← Nat.shiftLeft_eq,
    Nat.shiftLeft_add_eq_or_of_lt (Nat.mod_lt _ (Nat.two_pow_pos k))]

lemma nearest {win half e pn : ℕ} (hwin : win = 2 * half) (hhalf : 0 < half)
    (hahead : pn < e + half) (hbehind : e < pn + half) :
    pn = e / win * win + pn % win ∨ pn = e / win * win + pn % win + win ∨
      pn + win = e / win * win + pn % win := by
  have he := Nat.div_add_mod' e win
  have hpn := Nat.div_add_mod' pn win
  have hemod : e % win < win := Nat.mod_lt e (by omega)
  have hpmod : pn % win < win := Nat.mod_lt pn (by omega)
  obtain hlt | heq | hgt := lt_trichotomy (pn / win) (e / win)
  · right; right
    obtain hnext | hfar := Nat.eq_or_lt_of_le hlt
    · have hnext' : e / win * win = (pn / win + 1) * win := by rw [← hnext]
      rw [Nat.add_mul, one_mul] at hnext'
      omega
    · have htwo : (pn / win + 2) * win ≤ e / win * win := Nat.mul_le_mul_right win hfar
      rw [Nat.add_mul] at htwo
      omega
  · left
    rw [← heq]
    omega
  · right; left
    obtain hnext | hfar := Nat.eq_or_lt_of_le hgt
    · have hnext' : pn / win * win = (e / win + 1) * win := by rw [← hnext]
      rw [Nat.add_mul, one_mul] at hnext'
      omega
    · have htwo : (e / win + 2) * win ≤ pn / win * win := Nat.mul_le_mul_right win hfar
      rw [Nat.add_mul] at htwo
      omega

section Decode

variable {largest : Option ℕ} {truncated n : ℕ}

lemma decodePacketNumber_eq (h : 1 ≤ n ∧ n ≤ MAX_PACKET_NUMBER_LEN) :
    decodePacketNumber largest truncated n =
      let e := expectedNext largest
      let c := e / 2 ^ (8 * n) * 2 ^ (8 * n) + truncated % 2 ^ (8 * n)
      if saturatingAdd c (2 ^ (8 * n) / 2) ≤ e ∧ c < 2 ^ 62 - 2 ^ (8 * n) then
        checkedAdd c (2 ^ (8 * n))
      else if c > saturatingAdd e (2 ^ (8 * n) / 2) ∧ c ≥ 2 ^ (8 * n) then some (c - 2 ^ (8 * n))
      else some c := by
  have hk : 8 * n ≤ 64 := by
    rw [MAX_PACKET_NUMBER_LEN] at h
    omega
  rw [decodePacketNumber, if_pos h]
  dsimp only
  rw [candidate_eq (expectedNext_lt largest) truncated hk]
  simp only [Nat.one_shiftLeft]

lemma decodePacketNumber_congr (h : 1 ≤ n ∧ n ≤ MAX_PACKET_NUMBER_LEN) :
    ∃ pn, decodePacketNumber largest truncated n = some pn ∧ pn < 2 ^ 64 ∧
      pn % 2 ^ (8 * n) = truncated % 2 ^ (8 * n) := by
  have he := expectedNext_lt largest
  rw [decodePacketNumber_eq h]
  generalize expectedNext largest = e at he ⊢
  have hdiv : e / 2 ^ (8 * n) * 2 ^ (8 * n) + truncated % 2 ^ (8 * n) < 2 ^ 64 := by
    obtain ⟨m, hm⟩ : ∃ m, 64 = m + 8 * n := ⟨64 - 8 * n, by
      rw [MAX_PACKET_NUMBER_LEN] at h
      omega⟩
    have hq : e / 2 ^ (8 * n) < 2 ^ m := by
      rw [Nat.div_lt_iff_lt_mul (Nat.two_pow_pos _), ← pow_add, ← hm]
      exact he
    have hmod := Nat.mod_lt truncated (Nat.two_pow_pos (8 * n))
    calc _ < e / 2 ^ (8 * n) * 2 ^ (8 * n) + 2 ^ (8 * n) := by omega
      _ = (e / 2 ^ (8 * n) + 1) * 2 ^ (8 * n) := by ring
      _ ≤ 2 ^ m * 2 ^ (8 * n) := Nat.mul_le_mul_right _ hq
      _ = 2 ^ 64 := by rw [← pow_add, ← hm]
  have hmod : (e / 2 ^ (8 * n) * 2 ^ (8 * n) + truncated % 2 ^ (8 * n)) % 2 ^ (8 * n) =
      truncated % 2 ^ (8 * n) := by
    rw [Nat.add_comm, Nat.add_mul_mod_self_right, Nat.mod_mod]
  dsimp only
  generalize e / 2 ^ (8 * n) * 2 ^ (8 * n) + truncated % 2 ^ (8 * n) = c at hdiv hmod ⊢
  split_ifs with hup hdown
  · have hfits : c + 2 ^ (8 * n) ≤ U64_MAX := by
      rw [U64_MAX]
      omega
    refine ⟨_, if_pos hfits, by rw [U64_MAX] at hfits; omega, ?_⟩
    rw [Nat.add_mod_right, hmod]
  · refine ⟨_, rfl, by omega, ?_⟩
    rw [← hmod, ← Nat.mod_eq_sub_mod hdown.2]
  · exact ⟨c, rfl, hdiv, hmod⟩

lemma decodePacketNumber_nearest {pn : ℕ} (h : 1 ≤ n ∧ n ≤ MAX_PACKET_NUMBER_LEN)
    (hpn : pn < 2 ^ 62) (hahead : pn < expectedNext largest + 2 ^ (8 * n - 1))
    (hbehind : expectedNext largest < pn + 2 ^ (8 * n - 1)) :
    decodePacketNumber largest (pn % 2 ^ (8 * n)) n = some pn := by
  have hwin : 2 ^ (8 * n) = 2 * 2 ^ (8 * n - 1) := by
    rw [← Nat.pow_succ']
    congr 1
    omega
  have hmax : 2 ^ (8 * n) ≤ 2 ^ 32 := Nat.pow_le_pow_right (by decide) (by
    rw [MAX_PACKET_NUMBER_LEN] at h
    omega)
  have hnear := nearest hwin (Nat.two_pow_pos _) hahead hbehind
  rw [decodePacketNumber_eq h, Nat.mod_mod]
  dsimp only
  generalize expectedNext largest = e at *
  generalize e / 2 ^ (8 * n) * 2 ^ (8 * n) + pn % 2 ^ (8 * n) = c at *
  generalize 2 ^ (8 * n) = win at *
  generalize 2 ^ (8 * n - 1) = half at *
  rw [saturatingAdd, saturatingAdd, checkedAdd, U64_MAX]
  split_ifs <;> congr 1 <;> omega

end Decode

lemma packetNumberLen_eq_some {pn n : ℕ} {largestAcked : Option ℕ} (hpn : pn < 2 ^ 62)
    (h : packetNumberLen pn largestAcked = some n) :
    (1 ≤ n ∧ n ≤ MAX_PACKET_NUMBER_LEN) ∧
      pn < largestAcked.getD 0 + 2 ^ (8 * n - 1) := by
  rw [packetNumberLen] at h
  have hmem := List.mem_of_find?_eq_some h
  have hlt := List.find?_some h
  rw [List.mem_range'_1, MAX_PACKET_NUMBER_LEN] at hmem
  have hwin : 2 ^ (8 * n) = 2 * 2 ^ (8 * n - 1) := by
    rw [← Nat.pow_succ']
    congr 1
    omega
  refine ⟨⟨hmem.1, by rw [MAX_PACKET_NUMBER_LEN]; omega⟩, ?_⟩
  have hmax : 2 ^ (8 * n) ≤ 2 ^ 32 := Nat.pow_le_pow_right (by decide) (by omega)
  rw [decide_eq_true_eq, Nat.one_shiftLeft, saturatingMul, U64_MAX] at hlt
  cases largestAcked with
  | none =>
    rw [unacked, saturatingAdd, U64_MAX] at hlt
    rw [getD_none]
    omega
  | some a =>
    rw [unacked] at hlt
    rw [getD_some]
    omega

/-- A packet number is recovered from the length chosen for it, by every receiver that has received
what was acknowledged and does not expect a number half a window past it. -/
theorem packet_numbers_recovered :
    (∀ pn largestAcked largest n, pn < 2 ^ 62 → (∀ a ∈ largestAcked, a ≤ pn) →
      (largest = none → largestAcked = none) → packetNumberLen pn largestAcked = some n →
      (∀ a ∈ largestAcked, ∀ l ∈ largest, a ≤ l) →
      (∀ l ∈ largest, l + 1 < pn + 2 ^ (8 * n - 1)) →
      decodePacketNumber largest (pn % 2 ^ (8 * n)) n = some pn) ∧
    ∀ largest truncated n, 1 ≤ n ∧ n ≤ MAX_PACKET_NUMBER_LEN →
      ∃ pn, decodePacketNumber largest truncated n = some pn ∧ pn < 2 ^ 64 ∧
        pn % 2 ^ (8 * n) = truncated % 2 ^ (8 * n) := by
  refine ⟨?_, fun _ _ _ h => decodePacketNumber_congr h⟩
  intro pn largestAcked largest n hpn _ hnone hlen hacked hbehind
  obtain ⟨hn, hroom⟩ := packetNumberLen_eq_some hpn hlen
  have hhalf : 2 ^ (8 * n - 1) ≤ 2 ^ 31 := Nat.pow_le_pow_right (by decide) (by
    rw [MAX_PACKET_NUMBER_LEN] at hn
    omega)
  have hpos : 0 < 2 ^ (8 * n - 1) := Nat.two_pow_pos _
  cases largest with
  | none =>
    rw [hnone rfl, getD_none] at hroom
    have he : expectedNext none = 0 := rfl
    exact decodePacketNumber_nearest hn hpn (by rw [he]; exact hroom) (by rw [he]; omega)
  | some l =>
    have hl := hbehind l rfl
    have he : expectedNext (some l) = l + 1 := by
      rw [expectedNext, saturatingAdd, U64_MAX]
      omega
    have hahead : pn < l + 1 + 2 ^ (8 * n - 1) := by
      cases largestAcked with
      | none =>
        rw [getD_none] at hroom
        omega
      | some a =>
        have hle := hacked a rfl l rfl
        rw [getD_some] at hroom
        omega
    exact decodePacketNumber_nearest hn hpn (by rw [he]; exact hahead) (by rw [he]; exact hl)

theorem packet_numbers_recovered_rfc :
    (packetNumberLen 0xac5c02 (some 0xabe8b3) = some 2 ∧
      decodePacketNumber (some 0xabe8b3) (0xac5c02 % 2 ^ (8 * 2)) 2 = some 0xac5c02) ∧
    ∃ pn, decodePacketNumber (some U64_MAX) 7 1 = some pn ∧ pn < 2 ^ 64 ∧ pn % 2 ^ 8 = 7 % 2 ^ 8 :=
  ⟨⟨by decide, packet_numbers_recovered.1 0xac5c02 (some 0xabe8b3) (some 0xabe8b3) 2 (by decide)
    (by decide) (by decide) (by decide) (by decide) (by decide)⟩,
    packet_numbers_recovered.2 (some U64_MAX) 7 1 (by decide)⟩

end Lazaret.Quic.Wire
