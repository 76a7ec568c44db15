import ChartParser.Chart.Basic
import ChartParser.Item.Printer

/-!
# Charts as text

A chart is written column by column, each item on a line of its own with its number and its children.
The log tells of each filing.
-/

namespace ChartParser

/-- What a filing changed, on one line. -/
def Filing.text : Filing → String
  | added id item => "added " ++ toString id ++ ": " ++ item.text
  | merged id item => "merged into " ++ toString id ++ ": " ++ item.text

namespace Chart

/-- An item with its number and its children. -/
def itemText (chart : Chart) (id : ItemId) : Except Fault String :=
  (chart.item id).map fun item => item.numberedText id

/-- The items of the chart, in order of their numbers. -/
def itemTexts (chart : Chart) : List String :=
  chart.items.toList.zipIdx.map fun entry => entry.1.numberedText entry.2

/-- The lines of a column: its number, then its items. -/
def columnLines (chart : Chart) (i : Nat) (ids : List ItemId) : List String :=
  ("Column " ++ toString i ++ ":") ::
    ids.filterMap fun id => chart.items[id]?.map fun item => "  " ++ item.numberedText id

/-- A column as text; every line ends with a line end. -/
def columnText (chart : Chart) (i : Nat) : Except Fault String :=
  (chart.column i).map fun ids => String.join ((chart.columnLines i ids).map fun line => line ++ "\n")

/-- All columns as text. -/
def text (chart : Chart) : String :=
  String.join (chart.columns.toList.zipIdx.flatMap fun entry =>
    (chart.columnLines entry.2 entry.1.toList).map fun line => line ++ "\n")

end Chart

end ChartParser
