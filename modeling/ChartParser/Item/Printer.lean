import ChartParser.Item.Basic

/-!
# Items as text

A dotted rule is written `S → NP • VP [0, 1]`. The detailed form of an item names every part, the
children included.
-/

namespace ChartParser

/-- A dotted rule on one line, its span at the end. -/
def DottedRule.text (r : DottedRule) : String :=
  r.lhs ++ " →" ++ String.join ((r.rhs.take r.dot ++ "•" :: r.rhs.drop r.dot).map (" " ++ ·)) ++
    " [" ++ toString r.origin ++ ", " ++ toString r.current ++ "]"

namespace Slot

/-- The children of a slot, parted by commas. -/
def text (slot : Slot) : String := String.intercalate ", " (slot.ids.map toString)

/-- The slots that have children, each behind its position, parted by commas. -/
def rowText (row : List Slot) : String :=
  String.intercalate ", " ((row.zipIdx.filter fun entry => ! entry.1.isEmpty).map fun entry =>
    toString entry.2 ++ ": [" ++ entry.1.text ++ "]")

/-- The children of a slot in full detail. -/
def detail (slot : Slot) : String :=
  "\x7b" ++ String.intercalate ", " (slot.ids.map fun id => "ItemId(" ++ toString id ++ ")") ++ "\x7d"

end Slot

namespace Item

/-- An item behind its number, followed by the children of those slots that have any. -/
def numberedText (id : ItemId) (item : Item) : String :=
  "(id: " ++ toString id ++ ") " ++ item.text ++
    if item.isLeaf then "" else " \x7b" ++ Slot.rowText item.slots ++ "\x7d"

/-- An item in full detail. -/
def detail (item : Item) : String :=
  "Item \x7b lhs: " ++ Symbol.detail item.lhs ++ ", rhs: " ++ Symbol.details item.rhs ++
    ", dot: " ++ toString item.dot ++ ", origin: " ++ toString item.origin ++
    ", current: " ++ toString item.current ++
    ", backpointers: [" ++ String.intercalate ", " (item.slots.map Slot.detail) ++ "] \x7d"

/-- An item behind its number, in full detail. -/
def numberedDetail (id : ItemId) (item : Item) : String :=
  "ItemRef(" ++ toString id ++ ", " ++ item.detail ++ ")"

end Item

end ChartParser
