import PekerOS.Net.Segments

/-!
# The checksums of the network code

`calculate_checksum` and `tcp_checksum` add up words as the machine reads them, low byte first, in an
`unsigned int`; the protocols define the checksum on words in network order, with one's complement
addition. The two agree up to the order of the two bytes, which is what is wanted, as the result is
stored low byte first as well.

## Main definitions

* `checksumLoop`: the loop of both functions over a byte string
* `tcpPseudoHeader`: what the checksum of a segment covers besides the segment

## Main results

* `calculateChecksum_eq`, `tcpChecksum_eq`: both functions compute the Internet checksum
* `calculateChecksum_store`: a stored checksum makes the next one 0
* `checksums_internet`: all of it, with the sums that fit in an `unsigned int`
-/

namespace PekerOS.Net

open Checksum

/-- `while (count > 1) { sum += *ptr++; count -= 2; }` and the byte that is left, if there is one. -/
def checksumLoop (sum : Word) : List Byte → Word
  | [] => sum
  | [b] => sum + BitVec.ofNat 32 b.toNat
  | b :: c :: bs => checksumLoop (sum + BitVec.ofNat 32 (b.toNat + 256 * c.toNat)) bs

/-- The pseudo-header of a segment, in network order. -/
def tcpPseudoHeader (srcIp destIp : Word) (protocol : Byte) (len : BitVec 16) : List Byte :=
  ipBytes srcIp ++ ipBytes destIp ++ [0#8, protocol] ++ be16 len

section Loop

variable {sum : Word} {bytes : List Byte}

/-- As long as the sum fits, the loop adds up the words. -/
theorem checksumLoop_toNat (h : sum.toNat + wordSum bytes < 2 ^ 32) :
    (checksumLoop sum bytes).toNat = sum.toNat + wordSum bytes := by
  induction bytes using wordSum.induct generalizing sum with
  | case1 => rfl
  | case2 b =>
    rw [wordSum] at h ⊢
    rw [checksumLoop, BitVec.toNat_add, BitVec.toNat_ofNat, Nat.mod_eq_of_lt (by omega : b.toNat < 2 ^ 32)]
    exact Nat.mod_eq_of_lt h
  | case3 b c bytes ih =>
    rw [wordSum] at h ⊢
    have hword : (sum + BitVec.ofNat 32 (b.toNat + 256 * c.toNat)).toNat =
        sum.toNat + (b.toNat + 256 * c.toNat) := by
      rw [BitVec.toNat_add, BitVec.toNat_ofNat]
      omega
    rw [checksumLoop, ih (by omega), hword]
    omega

/-- The sum of up to 65535 bytes fits. -/
theorem wordSum_lt_of_length (h : bytes.length ≤ 65535) : wordSum bytes ≤ 4278124800 := by
  have := wordSum_lt bytes
  omega

end Loop

section Swap

theorem htons_toNat (v : BitVec 16) : (htons v).toNat = v.toNat % 256 * 256 + v.toNat / 256 := by
  have hlt := v.isLt
  rw [← wordSum_be16]
  simp only [be16, wordSum, BitVec.toNat_setWidth, BitVec.toNat_ushiftRight, Nat.shiftRight_eq_div_pow]
  omega

/-- The sum of the words with their bytes swapped, complemented and swapped. -/
theorem complement_eq_htons {n : ℕ} {v : BitVec 16} (h : n < 2 ^ 32)
    (hv : v.toNat = 65535 - fold (256 * n)) : complement n = htons v := by
  have hlt := fold_lt n
  have hmod := fold_mod n
  -- swapping the bytes of the folded sum multiplies it by 256
  have hswap : fold (256 * n) = fold n % 256 * 256 + fold n / 256 := by
    have hzero : fold n = 0 ↔ n = 0 := fold_eq_zero
    exact fold_unique (by omega) (by omega) (by omega)
  apply BitVec.eq_of_toNat_eq
  rw [complement_toNat h, htons_toNat, hv, hswap]
  omega

/-- Only the remainder of a positive sum matters. -/
theorem fold_netSum (bytes : List Byte) : fold (netSum bytes) = fold (256 * wordSum bytes) := by
  have hpos := netSum_pos_iff bytes
  refine fold_unique (fold_lt _) ?_ ?_
  · rw [fold_mod, netSum_mod]
  · rw [fold_eq_zero]
    omega

end Swap

section Results

variable {bytes : List Byte}

/-- **`calculate_checksum`** is the Internet checksum, with its bytes swapped. -/
theorem calculateChecksum_eq (h : bytes.length ≤ 65535) :
    calculateChecksum bytes = htons (internetChecksum bytes) := by
  have hsum := wordSum_lt_of_length h
  exact complement_eq_htons (by omega) (by rw [internetChecksum_toNat, fold_netSum])

/-- What adds up once a checksum is stored in a field that was zero. -/
theorem wordSum_store {front back : List Byte} (heven : front.length % 2 = 0)
    (h : (front ++ [0#8, 0#8] ++ back).length ≤ 65535) :
    wordSum (front ++ le16 (calculateChecksum (front ++ [0#8, 0#8] ++ back)) ++ back) =
      wordSum (front ++ [0#8, 0#8] ++ back) + (65535 - fold (wordSum (front ++ [0#8, 0#8] ++ back))) := by
  have hlt := wordSum_lt_of_length h
  rw [← complement_toNat (by omega), ← calculateChecksum, ← wordSum_le16]
  exact wordSum_field heven _ _ back

/-- A second checksum over it is 0. -/
theorem calculateChecksum_store {front back : List Byte} (heven : front.length % 2 = 0)
    (h : (front ++ [0#8, 0#8] ++ back).length ≤ 65535) :
    calculateChecksum (front ++ le16 (calculateChecksum (front ++ [0#8, 0#8] ++ back)) ++ back) = 0#16 := by
  have hlt := wordSum_lt_of_length h
  apply BitVec.eq_of_toNat_eq
  rw [calculateChecksum, wordSum_store heven h, complement_toNat (by omega), fold_store]
  rfl

/-- The receiver finds it right. -/
theorem stored_verifies {front back : List Byte} (heven : front.length % 2 = 0)
    (h : (front ++ [0#8, 0#8] ++ back).length ≤ 65535) :
    fold (netSum (front ++ le16 (calculateChecksum (front ++ [0#8, 0#8] ++ back)) ++ back)) = 65535 :=
  netSum_store (wordSum_store heven h)

theorem length_tcpPseudoHeader (srcIp destIp : Word) (protocol : Byte) (len : BitVec 16) :
    (tcpPseudoHeader srcIp destIp protocol len).length = 12 := rfl

/-- What `tcp_checksum` adds up. -/
theorem wordSum_tcpPseudoHeader (srcIp destIp : Word) (protocol : Byte) (len : BitVec 16)
    (segment : List Byte) :
    wordSum (tcpPseudoHeader srcIp destIp protocol len ++ segment) =
      wordSum (ipBytes srcIp) + wordSum (ipBytes destIp) + (htons (protocol.setWidth 16)).toNat +
        (htons len).toNat + wordSum segment := by
  rw [wordSum_append (by rw [length_tcpPseudoHeader]), tcpPseudoHeader, wordSum_pseudo]

theorem wordSum_tcpPseudoHeader_lt (srcIp destIp : Word) (protocol : Byte) (len : BitVec 16)
    {segment : List Byte} (h : segment.length ≤ 65535) :
    wordSum (tcpPseudoHeader srcIp destIp protocol len ++ segment) < 2 ^ 32 := by
  have hlt := wordSum_lt (tcpPseudoHeader srcIp destIp protocol len ++ segment)
  rw [List.length_append, length_tcpPseudoHeader] at hlt
  omega

/-- **`tcp_checksum`** is the Internet checksum of the pseudo-header and the segment, with its bytes
swapped. -/
theorem tcpChecksum_eq (srcIp destIp : Word) (protocol : Byte) {segment : List Byte}
    (h : segment.length ≤ 65535) :
    tcpChecksum srcIp destIp protocol segment (BitVec.ofNat 16 segment.length) =
      htons (internetChecksum
        (tcpPseudoHeader srcIp destIp protocol (BitVec.ofNat 16 segment.length) ++ segment)) := by
  have hlt := wordSum_tcpPseudoHeader_lt srcIp destIp protocol (BitVec.ofNat 16 segment.length) h
  rw [tcpChecksum, ← wordSum_tcpPseudoHeader]
  exact complement_eq_htons hlt (by rw [internetChecksum_toNat, fold_netSum])

end Results

/-- **The checksums**: for every byte string of up to 65535 bytes the sum fits in an `unsigned int`, the
result is the Internet checksum with its bytes swapped, and storing it in a zeroed field at an even
place makes the next result 0; and the checksum of a segment is that of the pseudo-header and the
segment. -/
theorem checksums_internet :
    (∀ bytes : List Byte, bytes.length ≤ 65535 →
      (checksumLoop 0#32 bytes).toNat = wordSum bytes ∧
        calculateChecksum bytes = htons (internetChecksum bytes)) ∧
    (∀ front back : List Byte, front.length % 2 = 0 → (front ++ [0#8, 0#8] ++ back).length ≤ 65535 →
      calculateChecksum
        (front ++ le16 (calculateChecksum (front ++ [0#8, 0#8] ++ back)) ++ back) = 0#16) ∧
    ∀ (srcIp destIp : Word) (protocol : Byte) (segment : List Byte), segment.length ≤ 65535 →
      let pseudo := tcpPseudoHeader srcIp destIp protocol (BitVec.ofNat 16 segment.length)
      (checksumLoop (BitVec.ofNat 32 (wordSum pseudo)) segment).toNat = wordSum (pseudo ++ segment) ∧
        tcpChecksum srcIp destIp protocol segment (BitVec.ofNat 16 segment.length) =
          htons (internetChecksum (pseudo ++ segment)) := by
  refine ⟨fun bytes h => ⟨?_, calculateChecksum_eq h⟩, fun front back heven h => ?_,
    fun srcIp destIp protocol segment h => ?_⟩
  · have hsum := wordSum_lt_of_length h
    have hzero : (0#32).toNat = 0 := rfl
    rw [checksumLoop_toNat (by omega), hzero, Nat.zero_add]
  · exact calculateChecksum_store heven h
  · refine ⟨?_, tcpChecksum_eq srcIp destIp protocol h⟩
    have hlt := wordSum_tcpPseudoHeader_lt srcIp destIp protocol (BitVec.ofNat 16 segment.length) h
    rw [wordSum_append (by rw [length_tcpPseudoHeader])] at hlt ⊢
    have hstart : (BitVec.ofNat 32 (wordSum (tcpPseudoHeader srcIp destIp protocol
        (BitVec.ofNat 16 segment.length)))).toNat =
          wordSum (tcpPseudoHeader srcIp destIp protocol (BitVec.ofNat 16 segment.length)) := by
      rw [BitVec.toNat_ofNat, Nat.mod_eq_of_lt (by omega)]
    rw [checksumLoop_toNat (by omega), hstart]

end PekerOS.Net
