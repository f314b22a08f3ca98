/-!
# Durations

A duration is a whole number of nanoseconds.  Its text uses the largest unit of
seconds, milliseconds, microseconds and nanoseconds that has a whole part, and
all digits of the fraction that are needed: `1.5ms`, `1.000000001s`, `999ns`.

* `ofParts_text_zero`: the empty duration is written `0ns`.
-/

namespace ShardSweep

/-- A length of time in whole nanoseconds. -/
structure Duration where
  nanos : Nat
  deriving DecidableEq, Repr

namespace Duration

/-- Seconds, and nanoseconds on top of them. -/
def ofParts (seconds nanos : Nat) : Duration :=
  ⟨seconds * 1000000000 + nanos⟩

/-- Whole seconds. -/
def ofSeconds (seconds : Nat) : Duration :=
  ofParts seconds 0

/-- Whole milliseconds. -/
def ofMillis (millis : Nat) : Duration :=
  ⟨millis * 1000000⟩

/-- The whole seconds of a duration. -/
def seconds (d : Duration) : Nat :=
  d.nanos / 1000000000

/-- The nanoseconds past the last whole second. -/
def subsecondNanos (d : Duration) : Nat :=
  d.nanos % 1000000000

/-- Seconds and nanoseconds make up the duration. -/
theorem ofParts_seconds_subsecondNanos (d : Duration) :
    ofParts d.seconds d.subsecondNanos = d := by
  cases d with
  | mk n => simp only [ofParts, seconds, subsecondNanos, mk.injEq]; omega

/-- The digits of a fraction of `places` places, without the zeros at its end and
with its point; nothing for a fraction of zero. -/
def fractionText (places fraction : Nat) : String :=
  let digits := Nat.toDigits 10 fraction
  let padded := List.replicate (places - digits.length) '0' ++ digits
  match (padded.reverse.dropWhile (· == '0')).reverse with
  | [] => ""
  | kept => "." ++ String.ofList kept

/-- A duration in a unit of `size` nanoseconds, whose fractions have at most `places` places. -/
def inUnit (d : Duration) (size places : Nat) (unit : String) : String :=
  toString (d.nanos / size) ++ fractionText places (d.nanos % size) ++ unit

/-- The duration in the largest unit that has a whole part. -/
def text (d : Duration) : String :=
  if 1000000000 ≤ d.nanos then d.inUnit 1000000000 9 "s"
  else if 1000000 ≤ d.nanos then d.inUnit 1000000 6 "ms"
  else if 1000 ≤ d.nanos then d.inUnit 1000 3 "µs"
  else d.inUnit 1 0 "ns"

/-- The empty duration is written in the smallest unit. -/
theorem ofParts_text_zero : (ofParts 0 0).text = "0ns" := by
  cbv

example : (ofParts 0 1500000).text = "1.5ms" := by cbv
example : (ofParts 1 1).text = "1.000000001s" := by cbv
example : (ofParts 0 999).text = "999ns" := by cbv
example : (ofParts 0 1010).text = "1.01µs" := by cbv

end Duration

end ShardSweep
