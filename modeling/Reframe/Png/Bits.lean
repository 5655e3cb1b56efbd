/-!
# Bits

Packed data is read bit by bit, the lowest bit of every byte first.

* `Halt`: why reading stops.
* `bitsOf`: bytes as bits.
* `readBits`: a number from the front of a sequence of bits.
-/

namespace Reframe.Png

/-- Why reading bits stops. -/
inductive Halt where
  | short
  | invalid
  deriving DecidableEq, Repr

/-- The bits of a byte, lowest first. -/
def byteBits (b : UInt8) : List Bool :=
  (List.range 8).map fun i => b.toNat.testBit i

/-- The bits of some bytes. -/
def bitsOf (bytes : List UInt8) : List Bool :=
  bytes.flatMap byteBits

/-- The value of some bits, lowest first. -/
def bitsValue : List Bool → Nat
  | [] => 0
  | bit :: bits => bit.toNat + 2 * bitsValue bits

/-- The value of the first `n` bits, and the bits after them. -/
def readBits (n : Nat) (bits : List Bool) : Except Halt (Nat × List Bool) :=
  let head := bits.take n
  if head.length = n then .ok (bitsValue head, bits.drop n) else .error .short

end Reframe.Png
