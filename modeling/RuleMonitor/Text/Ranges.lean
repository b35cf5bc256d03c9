/-!
# Character classes as ranges

A class outside ASCII is a table of ranges of code points, ends included, in increasing order.

* `inRanges`: membership in such a table.
-/

namespace RuleMonitor.Text

/-- The code point `n` lies in one of the ranges of the table. -/
def inRanges (table : List (Nat × Nat)) (n : Nat) : Bool :=
  table.any fun range => range.1 ≤ n && n ≤ range.2

end RuleMonitor.Text
