import ChartParser.Chart.Basic

/-!
# Charts with indexes

A chart finds the item with a given dotted rule by going through the column where it ends. An index
beside each column spares that: it keeps the dotted rule under which each number was given out. Such a
chart tells the same story three times, in its items, its columns and its indexes, and a filing has to
change them in step. It is therefore said change by change here, so that the state which a refused call
leaves behind is part of what it does.
-/

namespace ChartParser

/-- The numbers that a column lists, in order of filing, and an index of them by dotted rule. -/
structure IndexedColumn where
  ids : Array ItemId
  index : List (DottedRule × ItemId)

namespace IndexedColumn

/-- The column without items. -/
def empty : IndexedColumn := ⟨#[], []⟩

/-- The number that the index has for a dotted rule. -/
def find? (column : IndexedColumn) (r : DottedRule) : Option ItemId := column.index.lookup r

/-- Lists a number and enters it in the index. -/
def add (column : IndexedColumn) (r : DottedRule) (id : ItemId) : IndexedColumn :=
  ⟨column.ids.push id, (r, id) :: column.index⟩

end IndexedColumn

/-- The items of a parse by number, and the numbers by column, with an index for each column. -/
structure IndexedChart where
  items : Array Item
  columns : Array IndexedColumn

namespace IndexedChart

/-- The chart without items for the given number of tokens. -/
def empty (tokens : Nat) : IndexedChart := ⟨#[], Array.replicate (tokens + 1) .empty⟩

/-- The chart without its indexes. -/
def toChart (chart : IndexedChart) : Chart := ⟨chart.items, chart.columns.map IndexedColumn.ids⟩

/-- Stores an item behind all others. -/
def store (item : Item) (chart : IndexedChart) : IndexedChart :=
  { chart with items := chart.items.push item }

/-- Lists a number in a column and enters it in the index there. -/
def list (i : Nat) (r : DottedRule) (id : ItemId) (chart : IndexedChart) : IndexedChart :=
  { chart with columns := chart.columns.modify i fun column => column.add r id }

/-- Puts an item in the place of the one with a number. -/
def replace (id : ItemId) (item : Item) (chart : IndexedChart) : IndexedChart :=
  { chart with items := chart.items.setIfInBounds id item }

/-- Files an item in a column. The index decides whether the item is merged into one that is there or
stored, listed and indexed. -/
def file (item : Item) (i : Nat) : EStateM Fault IndexedChart (Option Filing) := do
  if item.current ≠ i then throw (.misfiled item.current i)
  match (← get).columns[i]? with
  | none => throw .outOfRange
  | some column =>
    match column.find? item.toDottedRule with
    | some id =>
      match (← get).items[id]? with
      | none => throw .outOfRange
      | some known =>
        let (merged, changed) := known.absorb item.slots
        modify (replace id merged)
        return if changed then some (.merged id item) else none
    | none =>
      let id := (← get).items.size
      modify (store item)
      modify (list i item.toDottedRule id)
      return some (.added id item)

/-- The chart that a call leaves behind, whether it was refused or not. -/
def after : EStateM.Result Fault IndexedChart (Option Filing) → IndexedChart
  | .ok _ chart => chart
  | .error _ chart => chart

/-- Files items in the columns given with them, each in the chart that the call before left behind. -/
def fileEach (chart : IndexedChart) (calls : List (Item × Nat)) : IndexedChart :=
  calls.foldl (fun chart call => after ((file call.1 call.2).run chart)) chart

end IndexedChart

end ChartParser
