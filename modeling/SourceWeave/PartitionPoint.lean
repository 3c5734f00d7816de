/-!
The place where an array stops satisfying a test, found by halving. On an array
whose elements satisfy the test up to some place and fail it from there on, this
is the number of elements that satisfy it.
-/

set_option autoImplicit false

namespace SourceWeave

/-- Search between `low` and `high`: everything before `low` passes, nothing
from `high` on does. -/
def partitionPointBetween {α : Type} (passes : α → Bool) (items : Array α) (low high : Nat) : Nat :=
  if low < high then
    let middle := low + (high - low) / 2
    if items[middle]?.any passes then partitionPointBetween passes items (middle + 1) high
    else partitionPointBetween passes items low middle
  else
    low
termination_by high - low
decreasing_by all_goals omega

def partitionPoint {α : Type} (passes : α → Bool) (items : Array α) : Nat :=
  partitionPointBetween passes items 0 items.size

end SourceWeave
