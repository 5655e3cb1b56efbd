import Reframe.Png.Header

/-!
# What comes before the data

Between the header and the data a file may give a palette, say which colours are
clear, and describe the picture as the first frame of several. Chunks that mean
nothing here and can be passed over are passed over.

* `Tables.add`: one chunk into what is known.
* `Tables.ofChunks`: what the chunks before the data say.
-/

namespace Reframe.Png

/-- What a file says before its data. -/
structure Tables where
  /-- The colours of the palette, three bytes each. -/
  palette : Option (Array UInt8)
  /-- The opacities of the first colours of the palette, or the bytes of the samples of
  the one colour that is clear. -/
  transparency : Option (List UInt8)
  frames : Nat
  deriving DecidableEq, Repr

namespace Tables

/-- Nothing has been said. -/
def empty : Tables :=
  ⟨none, none, 0⟩

/-- The number of colours of the palette. -/
def colours (t : Tables) : Nat :=
  (t.palette.getD #[]).size / 3

/-- The bytes may be a palette: up to 256 colours of three bytes, and at least one. -/
def IsPalette (bytes : List UInt8) : Prop :=
  bytes.length % 3 = 0 ∧ 1 ≤ bytes.length ∧ bytes.length ≤ 3 * 256

instance (bytes : List UInt8) : Decidable (IsPalette bytes) :=
  inferInstanceAs (Decidable (_ ∧ _))

/-- What the bytes of a transparency mean, if they mean something. After a palette they
are opacities; if there are more of them than colours, none of them counts. Otherwise
every sample of the clear colour has two bytes: the second one counts where samples
have at most 8 bits, and all bytes where they have 16. -/
def transparencyOf (h : Header) (t : Tables) (bytes : List UInt8) : Option (List UInt8) :=
  if bytes.length < 1 ∨ 256 < bytes.length then none
  else match h.colour with
    | .indexed =>
      if t.palette.isNone then none
      else if t.colours < bytes.length then some []
      else some bytes
    | .gray | .rgb =>
      if bytes.length < 2 * h.colour.channels then none
      else if h.depth = 16 then some bytes
      else some ((List.range h.colour.channels).map fun k => bytes.getD (2 * k + 1) 0)
    | .grayAlpha | .rgba => none

/-- The words that describe frame number `n` when it is the whole picture: the number,
the size, and no offset. -/
def wholeFrame (h : Header) (n : Nat) : List Nat :=
  [n, h.extent.width, h.extent.height, 0, 0]

/-- The bytes describe frame number `n`, and it is the whole picture. After a pause of
any length come two bytes on how the frame is shown, each with a few values. -/
def IsWholeFrame (h : Header) (n : Nat) (bytes : List UInt8) : Prop :=
  bytes.length = 26 ∧
    (List.range 5).map (fun k => bigEndian ((bytes.drop (4 * k)).take 4)) = wholeFrame h n ∧
    bytes.getD 24 0 ≤ 2 ∧ bytes.getD 25 0 ≤ 1

instance (h : Header) (n : Nat) (bytes : List UInt8) : Decidable (IsWholeFrame h n bytes) :=
  inferInstanceAs (Decidable (_ ∧ _))

/-- One chunk more. There is one palette at most. Of several transparencies the first
one that means something counts. -/
def add (h : Header) (t : Tables) (c : Chunk) : Except Fault Tables :=
  if c.name = Chunk.palette then
    if t.palette.isSome then .error .unexpected
    else if IsPalette c.bytes then .ok { t with palette := some c.bytes.toArray }
    else .error .palette
  else if c.name = Chunk.transparency then
    .ok { t with transparency := t.transparency <|> transparencyOf h t c.bytes }
  else if c.name = Chunk.frameControl then
    if IsWholeFrame h t.frames c.bytes then .ok { t with frames := t.frames + 1 }
    else .error .frame
  else if c.isNeeded then .error .unexpected
  else .ok t

/-- What chunks say, in order. A picture of palette places needs a palette. -/
def ofChunks (h : Header) (chunks : List Chunk) : Except Fault Tables := do
  let t ← chunks.foldlM (add h) empty
  if h.colour = .indexed ∧ t.palette.isNone then throw .missing
  else return t

end Tables

end Reframe.Png
