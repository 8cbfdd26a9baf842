import Interlock.Json.Record

/-!
# Estimates

An estimates document is a mapping with a mean, which is a mapping with a point estimate. All other
names are passed over.
-/

namespace Interlock.Bench

/-- The mean of an estimates document. -/
def estimate : Json.Record Float where
  name := "Estimate"
  field := "point_estimate"
  item := Json.readFloat
  absent := none

def estimates : Json.Record Float where
  name := "Estimates"
  field := "mean"
  item := estimate.read
  absent := none

end Interlock.Bench
