import Reframe.Png.Huffman

/-!
# Unpacking

Packed data is a sequence of blocks: stored bytes, or symbols of two prefix codes
that stand for bytes and for repetitions of what was written before. The codes are
fixed, or come at the head of the block, packed themselves.

How many bytes are needed is known beforehand. Once there are as many, nothing is
unpacked any more, and the data may break off; only where a block ends there, the
head of the next one must not be wrong.

* `inflate`: the bytes that packed data stands for.
* `unwrap`: the same for data with the usual two bytes in front.
* `unwrapPieces`: the same for data in pieces.
-/

namespace Reframe.Png

/-- The codes of a block: one for bytes and lengths, one for distances. -/
structure Codes where
  /-- For bytes and lengths. -/
  literals : Huffman
  /-- For distances. -/
  distances : Huffman

/-- Least length and extra bits of the symbols from 257 on. -/
def lengthTable : Array (Nat × Nat) :=
  #[(3, 0), (4, 0), (5, 0), (6, 0), (7, 0), (8, 0), (9, 0), (10, 0), (11, 1), (13, 1), (15, 1),
    (17, 1), (19, 2), (23, 2), (27, 2), (31, 2), (35, 3), (43, 3), (51, 3), (59, 3), (67, 4),
    (83, 4), (99, 4), (115, 4), (131, 5), (163, 5), (195, 5), (227, 5), (258, 0)]

/-- Least distance and extra bits of the symbols for distances. -/
def distanceTable : Array (Nat × Nat) :=
  #[(1, 0), (2, 0), (3, 0), (4, 0), (5, 1), (7, 1), (9, 2), (13, 2), (17, 3), (25, 3), (33, 4),
    (49, 4), (65, 5), (97, 5), (129, 6), (193, 6), (257, 7), (385, 7), (513, 8), (769, 8),
    (1025, 9), (1537, 9), (2049, 10), (3073, 10), (4097, 11), (6145, 11), (8193, 12),
    (12289, 12), (16385, 13), (24577, 13)]

/-- The order in which the lengths of the code for lengths are given. -/
def lengthOrder : List Nat :=
  [16, 17, 18, 0, 8, 7, 9, 6, 10, 5, 11, 4, 12, 3, 13, 2, 14, 1, 15]

/-- The fixed codes. -/
def fixedCodes : Codes where
  literals := .ofLengths <| List.replicate 144 8 ++ List.replicate 112 9 ++
    List.replicate 24 7 ++ List.replicate 8 8
  distances := .ofLengths (List.replicate 32 5)

/-- Reads a value whose range a table gives for a symbol. -/
def readRange (table : Array (Nat × Nat)) (symbol : Nat) (bits : List Bool) :
    Except Halt (Nat × List Bool) :=
  match table[symbol]? with
  | none => .error .invalid
  | some (least, extra) => do
    let (more, bits) ← readBits extra bits
    return (least + more, bits)

/-- Reads three bits for each place of a list, at most `n`. -/
def readOrder : Nat → List Nat → List Bool → Except Halt (List (Nat × Nat) × List Bool)
  | 0, _, bits => .ok ([], bits)
  | _ + 1, [], bits => .ok ([], bits)
  | n + 1, place :: places, bits => do
    let (length, bits) ← readBits 3 bits
    let (rest, bits) ← readOrder n places bits
    return ((place, length) :: rest, bits)

/-- What a symbol that repeats lengths repeats, how often at least, and how many bits
say how often more. The first such symbol repeats the length before it. -/
def repetition (previous : Option Nat) (symbol : Nat) : Except Halt (Nat × Nat × Nat) :=
  match symbol, previous with
  | 16, some length => .ok (length, 3, 2)
  | 16, none => .error .invalid
  | 17, _ => .ok (0, 3, 3)
  | _, _ => .ok (0, 11, 7)

/-- Reads code lengths until there are `wanted`; each symbol gives at least one. The
lengths are collected last first. -/
def readLengths (h : Huffman) (wanted : Nat) :
    (fuel : Nat) → List Nat → List Bool → Except Halt (List Nat × List Bool)
  | 0, _, _ => .error .invalid
  | fuel + 1, lengths, bits =>
    if wanted < lengths.length then .error .invalid
    else if lengths.length = wanted then .ok (lengths.reverse, bits)
    else do
      let (symbol, bits) ← h.decode bits
      if symbol < 16 then readLengths h wanted fuel (symbol :: lengths) bits
      else
        let (value, least, extra) ← repetition lengths.head? symbol
        let (more, bits) ← readBits extra bits
        readLengths h wanted fuel (List.replicate (least + more) value ++ lengths) bits

/-- Reads the codes at the head of a block. There are at most 286 symbols for bytes and
lengths and 30 for distances, and the one that ends the block has a sequence. -/
def readCodes (bits : List Bool) : Except Halt (Codes × List Bool) := do
  let (literals, bits) ← readBits 5 bits
  let (distances, bits) ← readBits 5 bits
  let (orders, bits) ← readBits 4 bits
  if 286 < literals + 257 ∨ 30 < distances + 1 then throw .invalid
  else
    let (given, bits) ← readOrder (orders + 4) lengthOrder bits
    let code ← Huffman.complete ((List.range 19).map fun i => (given.lookup i).getD 0)
    let wanted := literals + 257 + (distances + 1)
    let (all, bits) ← readLengths code wanted (wanted + 1) [] bits
    if all.getD 256 0 = 0 then throw .invalid
    else
      let literalCode ← Huffman.complete (all.take (literals + 257))
      let distanceCode ← Huffman.completeOrSmall (all.drop (literals + 257))
      return (⟨literalCode, distanceCode⟩, bits)

/-- Repeats `length` bytes from `distance` bytes back, one after the other. -/
def repeatBack (out : Array UInt8) (distance : Nat) : (length : Nat) → Array UInt8
  | 0 => out
  | length + 1 => repeatBack (out.push (out.getD (out.size - distance) 0)) distance length

/-- What has been unpacked after a block. -/
structure Unpacked where
  out : Array UInt8
  /-- The bits after the block, or none if there is no room for the rest of it. -/
  rest : Option (List Bool)

/-- Unpacks the symbols of a block, up to `limit` bytes in all. Each symbol takes at
least one bit. -/
def readSymbols (codes : Codes) (limit : Nat) :
    (fuel : Nat) → Array UInt8 → List Bool → Except Halt Unpacked
  | 0, _, _ => .error .short
  | fuel + 1, out, bits =>
    if limit ≤ out.size then .ok ⟨out, none⟩
    else do
      let (symbol, bits) ← codes.literals.decode bits
      if symbol < 256 then readSymbols codes limit fuel (out.push (.ofNat symbol)) bits
      else if symbol = 256 then return ⟨out, some bits⟩
      else
        let (length, bits) ← readRange lengthTable (symbol - 257) bits
        let (far, bits) ← codes.distances.decode bits
        let (distance, bits) ← readRange distanceTable far bits
        if out.size < distance then throw .invalid
        else
          let out := repeatBack out distance (min length (limit - out.size))
          readSymbols codes limit fuel out bits

/-- Appends the bytes that start at the front of some bits. -/
def appendBytes (out : Array UInt8) (bits : List Bool) : (n : Nat) → Array UInt8
  | 0 => out
  | n + 1 => appendBytes (out.push (.ofNat (bitsValue (bits.take 8)))) (bits.drop 8) n

/-- Reads the bytes of a stored block, which starts at a byte, up to `limit` bytes in
all. -/
def readStored (limit : Nat) (out : Array UInt8) (bits : List Bool) : Except Halt Unpacked := do
  let bits := bits.drop (bits.length % 8)
  let (length, bits) ← readBits 16 bits
  let (check, bits) ← readBits 16 bits
  let part := min length (limit - out.size)
  if length + check ≠ 0xFFFF then throw .invalid
  else if bits.length < 8 * part then throw .short
  else
    let rest := if part = length then some (bits.drop (8 * length)) else none
    return ⟨appendBytes out bits part, rest⟩

/-- The fewest bits of a block: three at its head, and seven for the symbol that ends a
block with the fixed codes. -/
def minBlock : Nat :=
  10

/-- Reads one block, up to `limit` bytes in all, and whether it is marked as the last.
A block that holds nothing needs no room. -/
def readBlock (limit : Nat) (out : Array UInt8) (bits : List Bool) :
    Except Halt (Bool × Unpacked) := do
  if bits.length < minBlock then throw .short
  else
    let (last, bits) ← readBits 1 bits
    let (kind, bits) ← readBits 2 bits
    let unpacked ←
      match kind with
      | 0 => readStored limit out bits
      | 1 =>
        if bits.take 7 = List.replicate 7 false then .ok ⟨out, some (bits.drop 7)⟩
        else readSymbols fixedCodes limit (bits.length + 1) out bits
      | 2 => do
        let (codes, bits) ← readCodes bits
        readSymbols codes limit (bits.length + 1) out bits
      | _ => .error .invalid
    return (last = 1, unpacked)

/-- Unpacks blocks until there are `limit` bytes, or up to the one that is marked as the
last; a checksum of four bytes follows that one, of which the value is not looked at. -/
def readBlocks (limit : Nat) :
    (fuel : Nat) → Array UInt8 → List Bool → Except Halt (Array UInt8)
  | 0, _, _ => .error .short
  | fuel + 1, out, bits =>
    match readBlock limit out bits with
    | .error halt => if halt = .short ∧ limit ≤ out.size then .ok out else .error halt
    | .ok (_, ⟨out, none⟩) => .ok out
    | .ok (false, ⟨out, some bits⟩) => readBlocks limit fuel out bits
    | .ok (true, ⟨out, some bits⟩) =>
      if limit ≤ out.size ∨ 4 ≤ bits.length / 8 then .ok out else .error .short

/-- The bytes that packed data stands for, up to `limit`. -/
def inflate (limit : Nat) (bytes : List UInt8) : Except Halt (Array UInt8) :=
  let bits := bitsOf bytes
  readBlocks limit (bits.length + 1) #[] bits

/-- The bytes that packed data with the usual two bytes in front stands for, up to
`limit`. -/
def unwrap (limit : Nat) : List UInt8 → Except Halt (Array UInt8)
  | method :: flags :: rest =>
    let fits := method.toNat % 16 = 8 ∧ method.toNat / 16 ≤ 7 ∧
      (256 * method.toNat + flags.toNat) % 31 = 0 ∧ ¬ flags.toNat.testBit 5
    if fits then inflate limit rest else .error .invalid
  | _ => .error .short

/-- The same for data in pieces. A piece is looked at only if those before it, joined
to `front`, are too short. -/
def unwrapPieces (limit : Nat) : (front : List UInt8) → (pieces : List (List UInt8)) →
    Except Halt (Array UInt8)
  | _, [] => .error .short
  | front, piece :: pieces =>
    match unwrap limit (front ++ piece) with
    | .error .short => unwrapPieces limit (front ++ piece) pieces
    | result => result

end Reframe.Png
