/-!
# What can be wrong with a file

* `Png.Fault`, `Png.Fault.message`: the reasons why bytes are no picture.
-/

namespace Reframe.Png

/-- Why bytes are no picture. -/
inductive Fault where
  | unknownFormat
  | truncated
  | checksum
  | header
  | missing
  /-- A part comes where it must not, or its meaning is unknown. -/
  | unexpected
  /-- The palette has no colour, too many, or a piece of one. -/
  | palette
  /-- A frame is described that is not the whole picture. -/
  | frame
  /-- The compressed data cannot be unpacked. -/
  | data
  deriving DecidableEq, Repr

/-- The text of a fault. -/
def Fault.message : Fault → String
  | unknownFormat => "the image format could not be determined"
  | truncated => "unexpected end of file"
  | checksum => "checksum mismatch"
  | header => "invalid header"
  | missing => "missing chunk"
  | unexpected => "unexpected chunk"
  | palette => "invalid palette"
  | frame => "invalid frame"
  | data => "corrupt image data"

end Reframe.Png
