import Reframe.Png.Fault

/-!
# Chunks

A file is a signature and a sequence of chunks: a length, a name of four letters,
as many bytes, and a checksum of name and bytes. A chunk whose name starts with a
capital is needed to read the picture. The first chunk is the header, and the data
is one unbroken run of chunks; what follows it does not matter.

* `crc`: the checksum.
* `Chunk.read`: one chunk from the front of some bytes.
* `Parts.ofFile`: the chunks of a file as far as they matter.
-/

namespace Reframe.Png

/-- One byte into the checksum. -/
def crcStep (crc : UInt32) (b : UInt8) : UInt32 :=
  (List.range 8).foldl
    (fun (c : UInt32) _ => if c &&& 1 = 1 then (0xEDB88320 : UInt32) ^^^ (c >>> 1) else c >>> 1)
    (crc ^^^ b.toUInt32)

/-- The cyclic checksum of some bytes. -/
def crc (bytes : List UInt8) : UInt32 :=
  bytes.foldl crcStep 0xFFFFFFFF ^^^ 0xFFFFFFFF

/-- The value of some bytes, highest first. -/
def bigEndian (bytes : List UInt8) : Nat :=
  bytes.foldl (fun n b => 256 * n + b.toNat) 0

/-- A part of a file. -/
structure Chunk where
  /-- Its name, four letters. -/
  name : List UInt8
  bytes : List UInt8
  deriving DecidableEq, Repr

namespace Chunk

/-- The name of the header. -/
def header : List UInt8 :=
  "IHDR".toUTF8.toList

/-- The name of the palette. -/
def palette : List UInt8 :=
  "PLTE".toUTF8.toList

/-- The name of the transparency. -/
def transparency : List UInt8 :=
  "tRNS".toUTF8.toList

/-- The name of the description of a frame. -/
def frameControl : List UInt8 :=
  "fcTL".toUTF8.toList

/-- The name of the data of a later frame. -/
def frameData : List UInt8 :=
  "fdAT".toUTF8.toList

/-- The name of the data. -/
def data : List UInt8 :=
  "IDAT".toUTF8.toList

/-- The chunk cannot be passed over: its name starts with a capital, or it is the data
of a frame. -/
def isNeeded (c : Chunk) : Bool :=
  c.name == frameData || c.name.head?.any fun first => !first.toNat.testBit 5

/-- The name of the chunk that starts here. -/
def nameAt (bytes : List UInt8) : Except Fault (List UInt8) :=
  if bytes.length < 8 then .error .truncated else .ok ((bytes.drop 4).take 4)

/-- The chunk that starts here, whether its checksum is right, and the bytes after it. -/
def read (bytes : List UInt8) : Except Fault (Chunk × Bool × List UInt8) :=
  let length := bigEndian (bytes.take 4)
  let name := (bytes.drop 4).take 4
  let body := (bytes.drop 8).take length
  let check := (bytes.drop (8 + length)).take 4
  if check.length < 4 then .error .truncated
  else .ok (⟨name, body⟩, bigEndian check == (crc (name ++ body)).toNat, bytes.drop (12 + length))

/-- The chunks before the data, and the bytes from the data on. A chunk that can be
passed over is left out when its checksum is wrong. -/
def readLeading : (fuel : Nat) → List UInt8 → Except Fault (List Chunk × List UInt8)
  | 0, _ => .error .truncated
  | fuel + 1, bytes => do
    let name ← nameAt bytes
    if name = data then return ([], bytes)
    else
      let (chunk, intact, rest) ← read bytes
      if intact then
        let (chunks, rest) ← readLeading fuel rest
        return (chunk :: chunks, rest)
      else if chunk.isNeeded then throw .checksum
      else readLeading fuel rest

/-- The bytes of each of the chunks of data that follow each other from here on. There
must be a chunk after them, of which the length and the name are enough. -/
def readData : (fuel : Nat) → List UInt8 → Except Fault (List (List UInt8))
  | 0, _ => .error .truncated
  | fuel + 1, bytes => do
    let name ← nameAt bytes
    if name = data then
      let (chunk, intact, rest) ← read bytes
      if intact then
        let more ← readData fuel rest
        return chunk.bytes :: more
      else throw .checksum
    else return []

end Chunk

/-- The parts of a file that matter for its picture. -/
structure Parts where
  header : List UInt8
  /-- The chunks between the header and the data. -/
  leading : List Chunk
  data : List (List UInt8)
  deriving DecidableEq, Repr

namespace Parts

/-- The first bytes of every file. -/
def signature : List UInt8 :=
  [137, 80, 78, 71, 13, 10, 26, 10]

/-- The parts of a file. -/
def ofFile (file : List UInt8) : Except Fault Parts :=
  if file.take 8 = signature then do
    let (first, intact, rest) ← Chunk.read (file.drop 8)
    if first.name ≠ Chunk.header then throw .missing
    else if !intact then throw .checksum
    else
      let (leading, rest) ← Chunk.readLeading file.length rest
      let data ← Chunk.readData file.length rest
      return ⟨first.bytes, leading, data⟩
  else .error .unknownFormat

end Parts

end Reframe.Png
