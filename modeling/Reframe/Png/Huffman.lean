import Reframe.Png.Bits

/-!
# Prefix codes

A prefix code gives every symbol a sequence of bits, none of which starts another.
In the canonical code shorter sequences come first and equally long ones are in
the order of their symbols, so that the lengths alone fix the code. A code is
complete when every long enough sequence of bits starts with one of its own.

* `Huffman.ofLengths`: the code of a list of lengths.
* `Huffman.complete`: the same, if the code is complete.
* `Huffman.decode`: one symbol from the front of a sequence of bits.
-/

namespace Reframe.Png

-- powers of integers are those of the core library, whatever else is known of them
attribute [local instance (2000)] instPowNat

-- a sum of naturals starts at the core library's zero, whatever else is known of it
attribute [local instance (2000)] Zero.ofOfNat0

/-- A canonical prefix code. -/
structure Huffman where
  counts : Array Nat
  /-- The symbols, by the order of their sequences. -/
  symbols : Array Nat
  deriving DecidableEq, Repr

namespace Huffman

/-- The longest sequence. -/
def maxLength : Nat :=
  15

/-- The part of all sequences of the longest length that starts with a sequence of one
of these lengths, in units of one such sequence; 0 means that there is none. -/
def used (lengths : List Nat) : Nat :=
  (lengths.map fun n => if n = 0 then 0 else 2 ^ (maxLength - n)).sum

/-- The code in which symbol `i` has a sequence of the `i`-th length, or none if that is
0. -/
def ofLengths (lengths : List Nat) : Huffman :=
  let symbols := (List.range maxLength).flatMap fun n =>
    lengths.zipIdx.filterMap fun p => if p.1 = n + 1 then some p.2 else none
  { counts := Array.ofFn fun n : Fin (maxLength + 1) => lengths.count n.val
    symbols := symbols.toArray }

/-- The code of some lengths if it is complete. -/
def complete (lengths : List Nat) : Except Halt Huffman :=
  if used lengths = 2 ^ maxLength then .ok (ofLengths lengths) else .error .invalid

/-- The code of some lengths if it is complete, or has no sequence at all, or has a
single one that is one bit long. -/
def completeOrSmall (lengths : List Nat) : Except Halt Huffman :=
  match lengths.filter (· ≠ 0) with
  | [] | [1] => .ok (ofLengths lengths)
  | _ => complete lengths

/-- Reads on from a sequence of `length - 1` bits with the value `code / 2`; the first
sequence of this length has the value `first` and the symbol at `index`. -/
def walk (h : Huffman) (length code first index : Nat) :
    List Bool → Except Halt (Nat × List Bool)
  | [] => .error .short
  | bit :: bits =>
    let code := code + bit.toNat
    let count := h.counts.getD length 0
    if code < first + count then
      .ok (h.symbols.getD (index + (code - first)) 0, bits)
    else if length < maxLength then
      h.walk (length + 1) (2 * code) (2 * (first + count)) (index + count) bits
    else .error .invalid

/-- The first symbol, and the bits after it. -/
def decode (h : Huffman) (bits : List Bool) : Except Halt (Nat × List Bool) :=
  h.walk 1 0 0 0 bits

end Huffman

end Reframe.Png
