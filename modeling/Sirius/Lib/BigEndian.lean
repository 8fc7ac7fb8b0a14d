import Mathlib.Tactic.Ring
import Sirius.Lib.ByteWord

/-! # Numbers as bytes, the most significant byte first

    `beBytes n v` spells a number with `n` bytes.  Reading byte after byte into an
    accumulator (`beRead`) shifts what was there before out of the way. -/

namespace Sirius.Lib

/-- The last `n` bytes of a number. -/
def beBytes : ℕ → ℕ → List Byte
  | 0, _ => []
  | n + 1, v => BitVec.ofNat 8 (v / 256 ^ n) :: beBytes n v

def beRead (acc : ℕ) (bs : List Byte) : ℕ := bs.foldl (fun v b => v * 256 + b.toNat) acc

end Sirius.Lib
