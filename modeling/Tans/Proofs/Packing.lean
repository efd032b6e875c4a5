import Tans.Bits.Lemmas

/-!
# Bits in bytes

A bit sequence is stored in whole bytes, the last one filled up with zeros. So the bits of the
stored bytes are the sequence with zeros behind it.

* `Bits.ofBytes_takeBytes`: bytes hold the bits that they were packed from.
* `Bits.take_ofBytes_toBytes`: the length is all that is needed to unpack them.
-/

namespace Tans.Bits

/-- The first `n` bits of a sequence, zeros where it has ended. -/
def zeroExtend (n : Nat) (bits : Bits) : Bits := (bits.take n ++ List.replicate n false).take n

/-- Extending to `n` bits gives `n` bits. -/
@[simp]
theorem length_zeroExtend (n : Nat) (bits : Bits) : (zeroExtend n bits).length = n := by
  rw [zeroExtend, List.length_take, List.length_append, List.length_replicate]
  omega

/-- Bit by bit, a sequence is extended by zeros and by nothing else. -/
theorem getElem?_zeroExtend (n : Nat) (bits : Bits) (i : Nat) :
    (zeroExtend n bits)[i]? = if i < n then some (bits[i]?.getD false) else none := by
  rw [zeroExtend, List.getElem?_take]
  split
  · -- Below `n` the index is in the bits, or in the zeros behind them.
    next hi =>
    rw [List.getElem?_append, List.length_take]
    split
    · next hlt =>
      have hlen : i < bits.length := by omega
      rw [List.getElem?_take_of_lt hi, List.getElem?_eq_getElem hlen]
      rfl
    · next hge =>
      have hnone : bits[i]? = none := List.getElem?_eq_none (by omega)
      rw [List.getElem?_replicate, if_pos (by omega), hnone]
      rfl
  · rfl

/-- A sequence is extended piece by piece. -/
theorem zeroExtend_append (m n : Nat) (bits : Bits) :
    zeroExtend m bits ++ zeroExtend n (bits.drop m) = zeroExtend (m + n) bits := by
  apply List.ext_getElem?
  intro i
  rw [List.getElem?_append, length_zeroExtend, getElem?_zeroExtend, getElem?_zeroExtend,
    getElem?_zeroExtend, List.getElem?_drop]
  -- The index is in the first piece, in the second one, or behind both.
  by_cases hi : i < m
  · rw [if_pos hi, if_pos hi, if_pos (by omega)]
  · rw [if_neg hi, Nat.add_sub_cancel' (by omega)]
    by_cases hi' : i < m + n
    · rw [if_pos hi', if_pos (by omega)]
    · rw [if_neg hi', if_neg (by omega)]

/-- The sequence stands at the front of what it was extended to. -/
theorem take_zeroExtend {n : Nat} {bits : Bits} (h : bits.length ≤ n) :
    (zeroExtend n bits).take bits.length = bits := by
  rw [zeroExtend, List.take_of_length_le h, List.take_take, Nat.min_eq_left h, List.take_left]

/-- Eight bits are the bits of one byte. -/
theorem ofNat_toNat_byte {bits : Bits} (h : bits.length = 8) :
    ofNat 8 (UInt8.ofNat (toNat bits)).toNat = bits := by
  have hlt : toNat bits < UInt8.size := by
    have := toNat_lt bits
    rwa [h] at this
  rw [UInt8.toNat_ofNat_of_lt' hlt, ← h, ofNat_toNat]

/-- Bytes hold the bits that they were packed from, with zeros behind them. -/
theorem ofBytes_takeBytes (n : Nat) (bits : Bits) :
    ofBytes (takeBytes n bits) = zeroExtend (8 * n) bits := by
  -- Each byte takes eight bits off the front.
  induction n generalizing bits with
  | zero => simp [takeBytes, ofBytes, zeroExtend]
  | succ n ih =>
    show ofNat 8 (UInt8.ofNat (toNat (zeroExtend 8 bits))).toNat ++
      ofBytes (takeBytes n (bits.drop 8)) = _
    rw [ofNat_toNat_byte (length_zeroExtend 8 bits), ih, zeroExtend_append, Nat.mul_add,
      Nat.add_comm]

/-- There are enough bytes for all bits. -/
theorem length_le_byteCount (n : Nat) : n ≤ 8 * byteCount n := by
  unfold byteCount
  omega

/-- A sequence is stored in the least number of bytes that hold it. -/
@[simp]
theorem length_toBytes (bits : Bits) : (toBytes bits).length = byteCount bits.length := by
  rw [toBytes, length_takeBytes]

/-- Unpacking gives back what was packed. -/
theorem take_ofBytes_toBytes (bits : Bits) : (ofBytes (toBytes bits)).take bits.length = bits := by
  rw [toBytes, ofBytes_takeBytes, take_zeroExtend (length_le_byteCount _)]

end Tans.Bits
