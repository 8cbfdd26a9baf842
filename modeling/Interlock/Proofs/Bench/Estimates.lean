import Interlock.Bench.Estimates
import Interlock.Proofs.Json.Float

/-!
# Estimates documents

An estimates document is a record of a mean, which is a record of a point estimate, which is a
number. This is said of its characters (`Document`): the readers take exactly these texts, and read
them as the float of the number.
-/

namespace Interlock.Bench

/-- The text is an estimates document with the given mean. -/
def Document (text : String) (mean : Float) : Prop :=
  Json.Recorded "mean" (Json.Recorded "point_estimate" Json.Literal) text.toList mean

theorem ofText_estimates_eq_ok_iff {text : String} {mean : Float} :
    estimates.ofText text = .ok mean ↔ Document text mean :=
  estimates.ofText_eq_ok_iff (estimate.takes_read Json.readFloat_takes rfl) rfl

end Interlock.Bench
