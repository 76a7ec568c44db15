import ChartParser.Item.Basic

/-!
# Charts

A chart has one column per boundary between tokens, and each column lists the items that end there, in
order of filing. No column lists two items with the same dotted rule: filing such an item merges its
children into the one that is there. Items are numbered through the whole chart in order of first
filing, and columns and slots hold numbers only.

What a filing did is recorded, so that a run can be logged and retold; a filing that changed nothing
leaves no record.
-/

namespace ChartParser

/-- The items of a parse by number, and the numbers by column. -/
structure Chart where
  items : Array Item
  columns : Array (Array ItemId)
deriving DecidableEq

/-- What the filing of an item changed. -/
inductive Filing
  /-- The item was new and got this number. -/
  | added (id : ItemId) (item : Item)
  /-- The item with this number gained children from an item with the same dotted rule. -/
  | merged (id : ItemId) (item : Item)
deriving DecidableEq

namespace Chart

/-! ## Reading -/

/-- The chart without items for the given number of tokens. -/
def empty (tokens : Nat) : Chart := ⟨#[], Array.replicate (tokens + 1) #[]⟩

/-- The number of columns, one more than that of the tokens. -/
def length (chart : Chart) : Nat := chart.columns.size

/-- The chart has no items. -/
def isEmpty (chart : Chart) : Bool := chart.items.isEmpty

/-- The item with a number. -/
def item (chart : Chart) (id : ItemId) : Except Fault Item :=
  match chart.items[id]? with
  | some item => .ok item
  | none => .error .outOfRange

/-- The numbers of the items in a column, in order of filing. -/
def column (chart : Chart) (i : Nat) : Except Fault (List ItemId) :=
  match chart.columns[i]? with
  | some ids => .ok ids.toList
  | none => .error .outOfRange

/-- The item with this number has the given dotted rule. -/
def holds (chart : Chart) (r : DottedRule) (id : ItemId) : Bool :=
  match chart.items[id]? with
  | some item => item.toDottedRule = r
  | none => false

/-- The number among `ids` whose item has the given dotted rule. -/
def idOf? (chart : Chart) (ids : Array ItemId) (r : DottedRule) : Option ItemId :=
  ids.find? (chart.holds r)

/-- The children recorded for one position of an item. -/
def children (chart : Chart) (id : ItemId) (position : Nat) : Except Fault (List ItemId) := do
  match (← chart.item id).slots[position]? with
  | some slot => .ok slot.ids
  | none => .error .outOfRange

/-! ## Filing -/

/-- Adds an item behind all others, and its number to a column. -/
def push (chart : Chart) (item : Item) (i : Nat) : Chart :=
  let id := chart.items.size
  { items := chart.items.push item, columns := chart.columns.modify i fun ids => ids.push id }

/-- The chart with children merged into the item with a number. -/
def mergeAt (chart : Chart) (id : ItemId) (row : List Slot) : Chart :=
  { chart with items := chart.items.modify id fun item => item.merge row }

/-- Has the item with a number absorb children, and tells whether one of them was missing. -/
def absorbAt (chart : Chart) (id : ItemId) (row : List Slot) : Chart × Bool :=
  match chart.items[id]? with
  | some known =>
    let (item, changed) := known.absorb row
    ({ chart with items := chart.items.setIfInBounds id item }, changed)
  | none => (chart, false)

/-- Files an item in a column that exists: merges it into the item with the same dotted rule, or adds
it if there is none. -/
def place (chart : Chart) (item : Item) (i : Nat) (ids : Array ItemId) : Chart × Option Filing :=
  match chart.idOf? ids item.toDottedRule with
  | some id =>
    let (chart, changed) := chart.absorbAt id item.slots
    (chart, if changed then some (.merged id item) else none)
  | none =>
    let id := chart.items.size
    (chart.push item i, some (.added id item))

/-- Files an item in a column. The item has to end at that column, and the column has to exist; an item
that ends elsewhere is refused for that even if the column does not exist. -/
def file (chart : Chart) (item : Item) (i : Nat) : Except Fault (Chart × Option Filing) :=
  if item.current ≠ i then .error (.misfiled item.current i)
  else match chart.columns[i]? with
    | none => .error .outOfRange
    | some ids => .ok (chart.place item i ids)

/-- Files items one after the other, each in the column where it ends. -/
def fileAll (chart : Chart) : List Item → Except Fault (Chart × List Filing)
  | [] => .ok (chart, [])
  | item :: rest => do
    let (chart, filing) ← chart.file item item.current
    let (chart, filings) ← fileAll chart rest
    return (chart, filing.toList ++ filings)

/-! ## Completion -/

/-- The items with the given numbers. -/
def itemsOf (chart : Chart) (ids : List ItemId) : Except Fault (List Item) := ids.mapM chart.item

/-- The items that wait for a complete item where it starts, each advanced over it. An item that is not
complete has none. -/
def completions (chart : Chart) (g : Grammar) (id : ItemId) (item : Item) :
    Except Fault (List Item) :=
  if item.isComplete then do
    let column ← chart.itemsOf (← chart.column item.origin)
    (column.filter fun waiting => waiting.next? = some item.lhs).mapM fun waiting =>
      waiting.advance id item.current g
  else .ok []

/-! ## Finished roots -/

/-- The item is a complete one for `root` that spans the input from its start. -/
def isFinished (chart : Chart) (root : Symbol) (id : ItemId) : Bool :=
  chart.items[id]?.any fun item => item.isComplete && item.origin == 0 && item.lhs == root

/-- The complete items for `root` that span the whole input, in order of filing: one per alternative of
the root that derived it. -/
def finishedRoots (chart : Chart) (root : Symbol) : List ItemId :=
  (chart.columns.back?.getD #[]).toList.filter (chart.isFinished root)

/-- The first complete item for `root` that spans the whole input. -/
def finishedRoot? (chart : Chart) (root : Symbol) : Option ItemId := (chart.finishedRoots root).head?

/-- The whole input was derived from `root`. -/
def accepts (chart : Chart) (root : Symbol) : Bool := (chart.finishedRoot? root).isSome

end Chart

end ChartParser
