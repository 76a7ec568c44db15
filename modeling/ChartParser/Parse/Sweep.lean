import ChartParser.Chart.Basic

/-!
# Settling a column

A column grows by three rules: a complete item advances the items that wait for it, an item before a
symbol with rules predicts that symbol, and an item before a terminal scans the next token. A sweep
applies the rules to every item of a column in order, those filed meanwhile included. A column is
settled once a sweep changes nothing. The repetition matters for symbols that derive the empty text:
such a symbol may be complete before the item that waits for it is there.

A column can hold one item for each alternative, dot and origin, and a slot only numbers of items, so
both the length of a sweep and the number of sweeps are bounded; the budgets say by how much.
-/

namespace ChartParser.Parse

/-! ## Sweeping -/

/-- What the rules propose for an item. -/
def proposals (g : Grammar) (tokens : List Token) (chart : Chart) (id : ItemId) :
    Except Fault (List Item) :=
  match chart.items[id]? with
  | none => .error .outOfRange
  | some item =>
    if item.isComplete then chart.completions g id item
    else if item.expectsNonterminal g then .ok (item.predictions g)
    else .ok (item.scan g tokens[item.current]?).toList

/-- Applies the rules to the items of column `i` from place `j` on, those filed meanwhile included, and
tells what changed. -/
def sweepFrom (g : Grammar) (tokens : List Token) (i : Nat) :
    (steps : Nat) → (j : Nat) → Chart → Except Fault (Chart × List Filing)
  | 0, _, _ => .error .exhausted
  | steps + 1, j, chart =>
    match chart.columns[i]? with
    | none => .error .outOfRange
    | some ids =>
      match ids[j]? with
      | none => .ok (chart, [])
      | some id => do
        let (chart, filings) ← chart.fileAll (← proposals g tokens chart id)
        let (chart, later) ← sweepFrom g tokens i steps (j + 1) chart
        return (chart, filings ++ later)

/-! ## Budgets -/

/-- The number of ways to set a dot into an alternative of the grammar. -/
def dottings (g : Grammar) : Nat :=
  (g.rules.entries.flatMap Prod.snd).foldr (fun rhs count => rhs.length + 1 + count) 0

/-- The number of terminals that the token before column `i` satisfies. -/
def terminalsBefore (g : Grammar) (tokens : List Token) (i : Nat) : Nat :=
  match i with
  | 0 => 0
  | i + 1 => ((tokens[i]?.map fun token => (g.terminalsFor token).length).getD 0)

/-- The number of items that column `i` can hold: one per dotted alternative and origin, and one per
terminal. -/
def columnCapacity (g : Grammar) (tokens : List Token) (i : Nat) : Nat :=
  (i + 1) * dottings g + terminalsBefore g tokens i

/-- The number of changes while column `i` is settled. They add items to this column and the next one,
each item once, and each slot of such an item gains each item of the chart at most once. -/
def changeCapacity (g : Grammar) (tokens : List Token) (i : Nat) (chart : Chart) : Nat :=
  let room := columnCapacity g tokens i + columnCapacity g tokens (i + 1)
  room * (1 + dottings g * (chart.items.size + room))

/-! ## Settling -/

/-- One sweep over column `i`. -/
def sweep (g : Grammar) (tokens : List Token) (i : Nat) (chart : Chart) :
    Except Fault (Chart × List Filing) :=
  sweepFrom g tokens i (columnCapacity g tokens i + 1) 0 chart

/-- Sweeps column `i` until a sweep changes nothing, and tells what each sweep changed, the last one
included. -/
def settleWithin (g : Grammar) (tokens : List Token) (i : Nat) :
    (steps : Nat) → Chart → Except Fault (Chart × List (List Filing))
  | 0, _ => .error .exhausted
  | steps + 1, chart => do
    let (chart, filings) ← sweep g tokens i chart
    if filings.isEmpty then return (chart, [filings])
    let (chart, later) ← settleWithin g tokens i steps chart
    return (chart, filings :: later)

/-- Settles column `i`. -/
def settle (g : Grammar) (tokens : List Token) (i : Nat) (chart : Chart) :
    Except Fault (Chart × List (List Filing)) :=
  settleWithin g tokens i (changeCapacity g tokens i chart + 1) chart

end ChartParser.Parse
