/-!
# Little-endian numbers

Numbers stored in a fixed count of bytes, the least significant byte first.
-/

namespace Tans.LittleEndian

/-- The low bytes of a number, least significant first. -/
def ofNat : (size value : Nat) → List UInt8
  | 0, _ => []
  | size + 1, value => UInt8.ofNat value :: ofNat size (value / 256)

/-- The number that bytes show, least significant first. -/
def toNat (bytes : List UInt8) : Nat := bytes.foldr (fun b n => b.toNat + 256 * n) 0

@[simp]
theorem length_ofNat (size value : Nat) : (ofNat size value).length = size := by
  induction size generalizing value with
  | zero => rfl
  | succ size ih => simp [ofNat, ih]

end Tans.LittleEndian
