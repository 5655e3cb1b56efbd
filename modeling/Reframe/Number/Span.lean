import Reframe.Number.Decimal

/-!
# Spans of time

A span is a whole number of nanoseconds. Its text uses the largest of seconds,
milliseconds, microseconds and nanoseconds that gives it a whole part, with the
exact fraction after a point and no zeros at the end: `1.5s`, `20.5ms`, `0ns`.

* `Span.horizon`: the last time that a common clock can tell.
* `Span.text`: the text.
-/

namespace Reframe

-- powers of integers are those of the core library, whatever else is known of them
attribute [local instance (2000)] instPowNat

/-- A span of time. -/
structure Span where
  /-- Its length in nanoseconds. -/
  nanos : Nat
  deriving DecidableEq, Repr, Inhabited

namespace Span

instance : Add Span := ⟨fun a b => ⟨a.nanos + b.nanos⟩⟩
instance : LE Span := ⟨fun a b => a.nanos ≤ b.nanos⟩
instance : LT Span := ⟨fun a b => a.nanos < b.nanos⟩
instance : DecidableLE Span := fun a b => inferInstanceAs (Decidable (a.nanos ≤ b.nanos))
instance : DecidableLT Span := fun a b => inferInstanceAs (Decidable (a.nanos < b.nanos))
instance : Max Span := ⟨fun a b => ⟨max a.nanos b.nanos⟩⟩
instance : OfNat Span 0 := ⟨⟨0⟩⟩

/-- Whole milliseconds. -/
def ofMillis (n : Nat) : Span :=
  ⟨n * 10 ^ (6 : Nat)⟩

/-- Seconds and nanoseconds. -/
def ofSeconds (seconds nanos : Nat) : Span :=
  ⟨seconds * 10 ^ (9 : Nat) + nanos⟩

/-- The last time that a clock can tell which counts seconds in 64 bits with a sign. -/
def horizon : Span :=
  .ofSeconds (2 ^ (63 : Nat) - 1) (10 ^ (9 : Nat) - 1)

/-- The digits after the point of `nanos / 10 ^ places`, without zeros at the end. -/
def fraction (places nanos : Nat) : List Char :=
  let digits := Nat.toDigits 10 (10 ^ places + nanos % 10 ^ places)
  ((digits.drop 1).reverse.dropWhile (· == '0')).reverse

/-- The units a text may use: nanoseconds as a power of ten, and the mark. -/
def units : List (Nat × String) :=
  [(9, "s"), (6, "ms"), (3, "µs"), (0, "ns")]

/-- The text in one unit. -/
def textIn (s : Span) (places : Nat) (mark : String) : String :=
  let whole := Decimal.digitText (s.nanos / 10 ^ places)
  match fraction places s.nanos with
  | [] => whole ++ mark
  | digits => whole ++ "." ++ String.ofList digits ++ mark

/-- The text, in the largest unit that leaves a whole part. -/
def text (s : Span) : String :=
  match units.find? fun u => 10 ^ u.1 ≤ s.nanos with
  | some (places, mark) => s.textIn places mark
  | none => s.textIn 0 "ns"

end Span

end Reframe
