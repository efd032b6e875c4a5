import Tans.Block
import Tans.Proofs.Packing

/-!
# What bit vectors do to their bits

Each operation on a vector in memory is one on the sequence that the vector stands for, whatever its
bytes hold besides. The proofs look at the bits of all the bytes: writing replaces a stretch of them,
and the vector is the stretch behind its head.

* `Bits.ofBytes_overwrite`: the bits of bytes that were written to.
* `BitVector.bits_resize`, `BitVector.bits_store`: growing and storing.
* `BitVector.toBytes_setUninitialized`: the bytes of a vector once all bits outside are cleared.
* `Block.toBytes_eq`: the bytes that a block is stored in.
-/

namespace Tans

namespace Bits

/-- Bytes in a row are unpacked one after the other. -/
theorem ofBytes_append (bytes bytes' : List UInt8) :
    ofBytes (bytes ++ bytes') = ofBytes bytes ++ ofBytes bytes' :=
  List.flatMap_append

/-- Packing undoes unpacking, so bytes are determined by their bits. -/
theorem takeBytes_ofBytes (bytes : List UInt8) : takeBytes bytes.length (ofBytes bytes) = bytes := by
  induction bytes with
  | nil => rfl
  | cons b bytes ih =>
    -- The first eight bits are those of the first byte, the others are unpacked from the rest.
    have hbyte : zeroExtend 8 (ofBytes (b :: bytes)) = ofNat 8 b.toNat := by
      rw [ofBytes, List.flatMap_cons, zeroExtend, List.take_left' (length_ofNat 8 b.toNat),
        List.take_left' (length_ofNat 8 b.toNat)]
    have hrest : (ofBytes (b :: bytes)).drop 8 = ofBytes bytes := by
      rw [ofBytes, List.flatMap_cons, List.drop_left' (length_ofNat 8 b.toNat)]
      rfl
    show UInt8.ofNat (toNat (zeroExtend 8 (ofBytes (b :: bytes)))) ::
      takeBytes bytes.length ((ofBytes (b :: bytes)).drop 8) = _
    rw [hbyte, hrest, ih, toNat_ofNat, Nat.mod_eq_of_lt b.toNat_lt, UInt8.ofNat_toNat]

/-- Different bytes have different bits. -/
theorem ofBytes_inj {bytes bytes' : List UInt8} (h : ofBytes bytes = ofBytes bytes') :
    bytes = bytes' := by
  have hlen := congrArg List.length h
  rw [length_ofBytes, length_ofBytes] at hlen
  rw [← takeBytes_ofBytes bytes, ← takeBytes_ofBytes bytes', h,
    Nat.eq_of_mul_eq_mul_left (by decide) hlen]

/-- Whole bytes are eight bits each, from the front too. -/
theorem ofBytes_take (bytes : List UInt8) (k : Nat) :
    ofBytes (bytes.take k) = (ofBytes bytes).take (8 * k) := by
  by_cases h : k ≤ bytes.length
  · have hlen : (ofBytes (bytes.take k)).length = 8 * k := by
      rw [length_ofBytes, List.length_take, Nat.min_eq_left h]
    conv_rhs => rw [← List.take_append_drop k bytes]
    rw [ofBytes_append, List.take_left' hlen]
  · have hle : bytes.length ≤ k := Nat.le_of_not_le h
    rw [List.take_of_length_le hle, List.take_of_length_le (by rw [length_ofBytes]; omega)]

/-- Extending adds zeros at the end. -/
theorem zeroExtend_of_length_le {n : Nat} {bits : Bits} (h : bits.length ≤ n) :
    zeroExtend n bits = bits ++ List.replicate (n - bits.length) false := by
  rw [zeroExtend, List.take_of_length_le h, List.take_append, List.take_of_length_le h,
    List.take_replicate, Nat.min_eq_left (Nat.sub_le _ _)]

/-- Writing replaces a stretch of the bits and nothing else. -/
theorem ofBytes_overwrite {bytes : List UInt8} {p : Nat} {bits : Bits}
    (h : p + bits.length ≤ 8 * bytes.length) :
    ofBytes (overwrite bytes p bits) =
      (ofBytes bytes).take p ++ bits ++ (ofBytes bytes).drop (p + bits.length) := by
  -- The position splits into the bytes in front of it and its place in the byte that has it.
  obtain ⟨front, rest, rfl, hfront⟩ : ∃ front rest, bytes = front ++ rest ∧ front.length = p / 8 :=
    ⟨_, _, (List.take_append_drop (p / 8) bytes).symm, List.length_take_of_le (by omega)⟩
  have hp : p = (ofBytes front).length + p % 8 := by
    rw [length_ofBytes, hfront, Nat.div_add_mod]
  rw [List.length_append] at h
  -- What replaces the bits of `rest` is as long, so it is packed into as many bytes.
  have hlen : ((ofBytes rest).take (p % 8) ++ bits ++
      (ofBytes rest).drop (p % 8 + bits.length)).length = 8 * rest.length := by
    rw [List.length_append, List.length_append, List.length_take, List.length_drop, length_ofBytes]
    omega
  rw [overwrite, List.take_left' hfront, List.drop_left' hfront, ofBytes_append, ofBytes_takeBytes,
    zeroExtend_of_length_le (Nat.le_of_eq hlen), hlen, Nat.sub_self, List.replicate_zero,
    List.append_nil, ofBytes_append]
  conv_rhs => rw [hp, Nat.add_assoc, List.take_length_add_append, List.drop_length_add_append]
  simp only [List.append_assoc]

end Bits

namespace BitVector

open Bits

/-- A vector has as many bits as its length says, since they all lie inside its bytes. -/
@[simp]
theorem length_bits (v : BitVector) : v.bits.length = v.length := by
  have := v.fits
  rw [bits, List.length_take, List.length_drop, length_ofBytes]
  omega

/-- A vector of bits has these bits, and none of those that fill up its last byte. -/
@[simp]
theorem bits_ofBits (bits : Bits) : (ofBits bits).bits = bits := take_ofBytes_toBytes bits

/-- Cutting off leaves bytes and head alone. -/
theorem bits_truncate (v : BitVector) (n : Nat) : (v.truncate n).bits = v.bits.take n := by
  rw [bits, bits, List.take_take]
  rfl

/-! ### Writing -/

/-- The vector in bytes that were written to behind its head. -/
theorem drop_ofBytes_overwrite {bytes : List UInt8} {head start : Nat} {xs : Bits}
    (h : head + start + xs.length ≤ 8 * bytes.length) :
    (Bits.ofBytes (overwrite bytes (head + start) xs)).drop head =
      ((Bits.ofBytes bytes).drop head).take start ++ xs ++
        (Bits.ofBytes bytes).drop (head + start + xs.length) := by
  have hlen : head ≤ ((Bits.ofBytes bytes).take (head + start)).length := by
    rw [List.length_take, length_ofBytes]
    omega
  rw [ofBytes_overwrite h, List.append_assoc, List.drop_append_of_le_length hlen, List.drop_take,
    Nat.add_sub_cancel_left, List.append_assoc]

/-- A vector is cut off or filled up. -/
theorem bits_resize (v : BitVector) (n : Nat) (value : Bool) :
    (v.resize n value).bits = v.bits.take n ++ List.replicate (n - v.length) value := by
  rw [resize]
  split
  · next hle => rw [bits_truncate, Nat.sub_eq_zero_of_le hle, List.replicate_zero, List.append_nil]
  · next hlt =>
    have hfits := v.fits
    have hhead : v.head ≤ (Bits.ofBytes v.bytes).length := by
      rw [length_ofBytes]
      omega
    have hbytes : v.length ≤ ((Bits.ofBytes v.bytes).drop v.head).length := by
      rw [List.length_drop, length_ofBytes]
      omega
    -- The bits of the vector and the new ones are as many as are kept.
    have hlen : (v.bits ++ List.replicate (n - v.length) value).length = n := by
      rw [List.length_append, length_bits, List.length_replicate]
      omega
    have hall : v.bits.take n = v.bits :=
      List.take_of_length_le (by rw [length_bits]; omega)
    show ((Bits.ofBytes (overwrite _ (v.head + v.length) _)).drop v.head).take n = _
    rw [drop_ofBytes_overwrite, ofBytes_append, List.drop_append_of_le_length hhead,
      List.take_append_of_le_length hbytes, hall]
    · exact List.take_left' hlen
    · rw [List.length_replicate, List.length_append, List.length_replicate, byteCount]
      omega

/-- Storing a value fills the vector from `start` on. -/
theorem bits_store {v : BitVector} {start : Nat} (h : start ≤ v.length) (value : Nat) :
    (v.store start value).bits = v.bits.take start ++ ofNat (v.length - start) value := by
  -- The bits behind the vector stay in memory, but are not part of it.
  have hfits := v.fits
  show ((Bits.ofBytes (overwrite v.bytes (v.head + start) _)).drop v.head).take v.length = _
  rw [drop_ofBytes_overwrite (by rw [length_ofNat]; omega), bits, List.take_take,
    Nat.min_eq_left h]
  apply List.take_left'
  rw [List.length_append, List.length_take, List.length_drop, length_ofBytes, length_ofNat]
  omega

/-! ### Bits outside -/

/-- All bits of the bytes once those outside of the vector have one value. -/
theorem ofBytes_setUninitialized (v : BitVector) (value : Bool) :
    Bits.ofBytes (v.setUninitialized value).bytes =
      List.replicate v.head value ++ v.bits ++
        List.replicate (8 * v.bytes.length - (v.head + v.length)) value := by
  have hfits := v.fits
  -- The bits before the head are written first.
  have hfront : Bits.ofBytes (overwrite v.bytes 0 (List.replicate v.head value)) =
      List.replicate v.head value ++ (Bits.ofBytes v.bytes).drop v.head := by
    rw [ofBytes_overwrite (by rw [List.length_replicate]; omega), List.take_zero, List.nil_append,
      List.length_replicate, Nat.zero_add]
  -- The head and the vector are in front of what is written second, and nothing is behind it.
  have hkept : (List.replicate v.head value ++ (Bits.ofBytes v.bytes).drop v.head).take
      (v.head + v.length) = List.replicate v.head value ++ v.bits := by
    rw [List.take_append, List.length_replicate, List.take_replicate,
      Nat.min_eq_right (Nat.le_add_right _ _), Nat.add_sub_cancel_left]
    rfl
  have hnone : (List.replicate v.head value ++ (Bits.ofBytes v.bytes).drop v.head).drop
      (v.head + v.length + (8 * v.bytes.length - (v.head + v.length))) = [] := by
    apply List.drop_of_length_le
    rw [List.length_append, List.length_replicate, List.length_drop, length_ofBytes]
    omega
  show Bits.ofBytes (overwrite (overwrite v.bytes 0 _) (v.head + v.length) _) = _
  rw [ofBytes_overwrite (by rw [List.length_replicate, length_overwrite]; omega), hfront, hkept,
    List.length_replicate, hnone, List.append_nil]

/-- Once the bits outside are cleared, a vector is stored as its bits are, with zeros in front for
its head. Neither the bits nor the bytes that were left behind its end are stored. -/
theorem toBytes_setUninitialized (v : BitVector) :
    (v.setUninitialized false).toBytes =
      Bits.toBytes (List.replicate v.head false ++ v.bits) := by
  have hfits := v.fits
  have hlen : (List.replicate v.head false ++ v.bits).length = v.head + v.length := by
    rw [List.length_append, List.length_replicate, length_bits]
  have hcount := length_le_byteCount (v.head + v.length)
  have hcount' : 8 * byteCount (v.head + v.length) ≤ 8 * v.bytes.length := by
    -- The vector lies inside its bytes, so these are not too few.
    rw [byteCount]
    omega
  -- Bytes are compared by their bits: both sides are the head, the vector and zeros.
  apply ofBytes_inj
  rw [Bits.toBytes, ofBytes_takeBytes, hlen, zeroExtend_of_length_le (by rw [hlen]; exact hcount),
    hlen]
  show Bits.ofBytes ((v.setUninitialized false).bytes.take (byteCount (v.head + v.length))) = _
  rw [ofBytes_take, ofBytes_setUninitialized, List.take_append, hlen,
    List.take_of_length_le (by rw [hlen]; exact hcount), List.take_replicate, Nat.min_eq_left]
  omega

end BitVector

namespace Block

/-- A block has as many bits as its vector. -/
@[simp]
theorem length_bits (b : Block) : b.bits.length = b.bitLength := BitVector.length_bits b.vector

/-- A block that is made from bits has these bits. -/
@[simp]
theorem bits_ofBits (bits : Bits) : (ofBits bits).bits = bits := BitVector.bits_ofBits bits

@[simp]
theorem bitLength_ofBits (bits : Bits) : (ofBits bits).bitLength = bits.length := rfl

/-- Blocks that are made from bits are equal when the bits are. -/
theorem ofBits_inj {bits bits' : Bits} : ofBits bits = ofBits bits' ↔ bits = bits' := by
  constructor
  · intro h
    rw [← bits_ofBits bits, h, bits_ofBits]
  · intro h
    rw [h]

/-- The vector of the block starts with the first bit of its first byte. -/
def Aligned (b : Block) : Prop := b.vector.head = 0

/-- A block that is made from bits starts with its first byte. -/
theorem aligned_ofBits (bits : Bits) : (ofBits bits).Aligned := rfl

/-- A block is stored as its bits are, behind as many zeros as its vector has bits in front of it. -/
theorem toBytes_eq (b : Block) :
    b.toBytes = Bits.toBytes (List.replicate b.vector.head false ++ b.bits) :=
  b.vector.toBytes_setUninitialized

/-- An aligned block is stored as its bits are, with zeros at the end of the last byte only. -/
theorem Aligned.toBytes_eq {b : Block} (h : b.Aligned) : b.toBytes = b.bits.toBytes := by
  rw [Block.toBytes_eq, h, List.replicate_zero, List.nil_append]

end Block

end Tans
