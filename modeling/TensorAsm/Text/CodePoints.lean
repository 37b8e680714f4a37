/-!
A set of characters is given by the lengths of the runs of code points that are in turn outside and
inside of it. The last run has no end.
-/

namespace TensorAsm.Text

/-- Whether a code point is inside, if the first run is or is not. -/
def inRuns (first : Bool) : List Nat → Nat → Bool
  | [], _ => first
  | run :: runs, n => if n < run then first else inRuns (!first) runs (n - run)

end TensorAsm.Text
