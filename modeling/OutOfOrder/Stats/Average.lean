/-!
# Running means

A running mean keeps a sum and a count. Values arrive as doubles and are added
in the order in which they are sampled, so the sum is exact as long as it fits
53 bits.
-/

namespace OutOfOrder

structure Average where
  sum : Float := 0
  count : Nat := 0

namespace Average

/-- Adds a sample if sampling is on. -/
def sample (a : Average) (value : Float) (enabled : Bool) : Average :=
  if enabled then { sum := a.sum + value, count := a.count + 1 } else a

/-- The mean of the samples; 0 if there are none. -/
def mean (a : Average) : Float :=
  if a.count = 0 then 0 else a.sum / Float.ofNat a.count

end Average

end OutOfOrder
