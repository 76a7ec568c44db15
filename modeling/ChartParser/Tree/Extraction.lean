import ChartParser.Chart.Basic
import ChartParser.Tree.Basic

/-!
# The trees of an item

The slots of an item hold the children of all its derivations at once. Its trees are the rows that take
one tree of one child from each slot with children, each tree starting where the one before it ends.
A child that is already on the path from the root is passed over, so that a cyclic derivation adds
nothing instead of going on forever.

An item has exponentially many trees in the worst case, and every one of them is built.
-/

namespace ChartParser

namespace ParseTree

/-! ## Chains -/

/-- A tree can stand behind the trees chosen so far, of which the last comes first. -/
def follows (chosen : List ParseTree) (t : ParseTree) : Bool :=
  match chosen with
  | [] => true
  | last :: _ => last.right == t.left

/-- Adds to `found` every row that goes on from the trees chosen so far, the last of them first, with
one tree of each list, each starting where the one before it ends. -/
def addChains : List (List ParseTree) → List ParseTree → Array (List ParseTree) →
    Array (List ParseTree)
  | [], chosen, found => found.push chosen.reverse
  | choices :: rest, chosen, found =>
    choices.foldl (fun found t => if follows chosen t then addChains rest (t :: chosen) found else found)
      found

/-- The rows of one tree of each list in which each tree starts where the one before it ends, in
lexicographic order. -/
def chains (choices : List (List ParseTree)) : List (List ParseTree) :=
  (addChains choices [] #[]).toList

end ParseTree

/-! ## Reading trees out of a chart -/

/-- The tree of an item without children: its symbol over what it matched. A scanned token spans one
position; an empty alternative spans none and matched nothing, whatever epsilon markers it has. -/
def Item.leafTree (item : Item) : ParseTree :=
  let words := if item.origin = item.current then [] else item.rhs
  ⟨.symbol item.lhs, item.origin, item.current, [⟨.matched words, item.origin, item.current, []⟩]⟩

/-- The tree of an item with the given subtrees. -/
def Item.node (item : Item) (subtrees : List ParseTree) : ParseTree :=
  ⟨.symbol item.lhs, item.origin, item.current, subtrees⟩

namespace Chart

/-- The trees of an item that is reached along `path`, in at most `steps` further steps down. -/
def treesAlong (chart : Chart) (steps : Nat) (path : List ItemId) (id : ItemId) :
    Except Fault (List ParseTree) :=
  match chart.items[id]? with
  | none => .error .outOfRange
  | some item =>
    if item.isLeaf then .ok [item.leafTree]
    else match steps with
      | 0 => .error .exhausted
      | steps + 1 => do
        let choices ← (item.slots.filter fun slot => ! slot.isEmpty).mapM fun slot => do
          let found ← (slot.ids.filter fun child => child ∉ id :: path).mapM fun child =>
            chart.treesAlong steps (id :: path) child
          return found.flatten
        return (ParseTree.chains choices).map item.node

/-- The trees of an item. No path is longer than the chart has items, so these steps suffice. -/
def treesOf (chart : Chart) (id : ItemId) : Except Fault (List ParseTree) :=
  chart.treesAlong chart.items.size [] id

/-- The trees of the input, over all finished items of `root`. -/
def trees (chart : Chart) (root : Symbol) : Except Fault (List ParseTree) := do
  return (← (chart.finishedRoots root).mapM chart.treesOf).flatten

end Chart

end ChartParser
