/-!
# Faults

What can go wrong when charts are handled item by item. Parsing itself runs into none of these: they
answer calls that name a place that does not exist or break the rule of where an item belongs.
-/

namespace ChartParser

/-- Why an operation on items or charts is refused. -/
inductive Fault
  /-- A dot is set behind the end of its alternative. -/
  | dotPastEnd (dot length : Nat)
  /-- An item is filed under another column than the one where it ends. -/
  | misfiled (current column : Nat)
  /-- A column, an item or a slot is named that does not exist. -/
  | outOfRange
  /-- A search used up the steps that its size allows. -/
  | exhausted
deriving DecidableEq, Repr

/-- The wording of a fault. -/
def Fault.message : Fault → String
  | dotPastEnd dot length =>
    "dot " ++ toString dot ++ " past end of " ++ toString length ++ " symbols"
  | misfiled current column =>
    "item ends at " ++ toString current ++ " but is filed under column " ++ toString column
  | outOfRange => "index out of range"
  | exhausted => "out of steps"

end ChartParser
