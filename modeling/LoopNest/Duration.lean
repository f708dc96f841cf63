import LoopNest.Text.Decimal

/-!
LoopNest.Duration — spans of time, to the nanosecond.
-/

namespace LoopNest

/-- A span of time. -/
structure Duration where
  nanoseconds : Nat
deriving DecidableEq, Repr, Inhabited

namespace Duration

/-- So many whole seconds and nanoseconds. -/
def ofSeconds (seconds : Nat) (nanoseconds : Nat) : Duration :=
  ⟨seconds * Nat.pow 10 9 + nanoseconds⟩

/-- So many milliseconds. -/
def ofMilliseconds (n : Nat) : Duration := ⟨n * Nat.pow 10 6⟩

/-- The span in the largest unit that leaves at least one whole. -/
def text (d : Duration) : String :=
  let n := d.nanoseconds
  if Nat.pow 10 9 ≤ n then shortText 9 n ++ "s"
  else if Nat.pow 10 6 ≤ n then shortText 6 n ++ "ms"
  else if Nat.pow 10 3 ≤ n then shortText 3 n ++ "µs"
  else shortText 0 n ++ "ns"

/-- The span in seconds, as a sum of whole seconds and a fraction each
taken to 53 bits, the sum taken to 53 bits again. -/
def seconds (d : Duration) : Quotient :=
  binaryNearest
    (Quotient.add (binaryNearest ⟨d.nanoseconds / Nat.pow 10 9, 1⟩)
      (binaryNearest ⟨d.nanoseconds % Nat.pow 10 9, Nat.pow 10 9⟩))

example : (ofMilliseconds 20).text = "20ms" := by decide
example : (ofMilliseconds 0).text = "0ns" := by decide

end Duration

end LoopNest
