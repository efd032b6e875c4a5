import Tans.Alphabet
import Tans.Bits.Lemmas
import Tans.Frame
import Tans.LittleEndian.Lemmas
import Tans.Proofs.FrameSafety
import Tans.Proofs.Alphabet
import Tans.Proofs.RoundTrip
import Tans.Proofs.Comparison
import Tans.Proofs.Limit
import Tans.Proofs.Concatenation
import Tans.Proofs.Truncation
import Tans.Proofs.Expansion
import Tans.Proofs.Consistency
import Tans.Proofs.FrequencyOrder
import Tans.Proofs.Proportions
import Tans.Proofs.Cost
import Tans.Proofs.BlockRefusal
import Tans.Proofs.Fields
import Tans.Proofs.Numbering
import Tans.Proofs.Storage
import Tans.Proofs.NextStates
import Tans.Proofs.Splitting
import Tans.Proofs.Counting
