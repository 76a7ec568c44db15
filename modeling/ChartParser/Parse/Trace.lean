import ChartParser.Chart.History
import ChartParser.Parse.Sweep

/-!
# Parsing

A parse files the alternatives of the root under the first column and then settles the columns from left
to right. Its trace keeps what each sweep changed and the chart as it stood when each column was
settled; the chart of the last stage is the chart of the parse.
-/

namespace ChartParser

/-- One column of a parse, settled. -/
structure Stage where
  /-- The number of the column. -/
  column : Nat
  /-- What each sweep over the column changed. The last sweep changed nothing. -/
  sweeps : List (List Filing)
  /-- The chart once the column was settled. -/
  chart : Chart

/-- A parse from its first filing on. -/
structure Trace where
  tokens : List Token
  root : Symbol
  /-- The root has rules. -/
  isRooted : Bool
  /-- What filing the alternatives of the root changed. -/
  seeds : List Filing
  /-- The chart with the alternatives of the root alone. -/
  start : Chart
  stages : List Stage

namespace Trace

/-- The chart that a parse ends with. -/
def chart (trace : Trace) : Chart :=
  match trace.stages.getLast? with
  | some stage => stage.chart
  | none => trace.start

/-- The number of sweeps over all columns. -/
def sweepCount (trace : Trace) : Nat :=
  trace.stages.foldr (fun stage count => stage.sweeps.length + count) 0

/-- What was changed, from the first filing to the last. -/
def filings (trace : Trace) : List Filing :=
  trace.seeds ++ trace.stages.flatMap fun stage => stage.sweeps.flatten

/-- Every chart that the parse went through, the empty one first. -/
def moments (trace : Trace) : List Chart :=
  (Chart.empty trace.tokens.length).moments trace.filings

/-- What an observer makes of each column and of the chart as it stood once the column was settled. -/
def observe {α : Type} (trace : Trace) (observer : Nat → Chart → α) : List α :=
  trace.stages.map fun stage => observer stage.column stage.chart

end Trace

namespace Parse

/-- The alternatives of the root, not yet begun, at the start of the input. -/
def seedItems (g : Grammar) (root : Symbol) : List Item :=
  ((g.alternatives? root).getD []).map fun rhs => Item.bare (.predicted g root rhs 0)

/-- Settles the columns of a list one after the other. -/
def stagesFrom (g : Grammar) (tokens : List Token) : List Nat → Chart → Except Fault (List Stage)
  | [], _ => .ok []
  | i :: rest, chart => do
    let (chart, sweeps) ← settle g tokens i chart
    let stages ← stagesFrom g tokens rest chart
    return ⟨i, sweeps, chart⟩ :: stages

end Parse

open Parse in
/-- Parses the tokens from the root and keeps a record of it. -/
def trace (g : Grammar) (tokens : List Token) (root : Symbol) : Except Fault Trace := do
  let (start, seeds) ← (Chart.empty tokens.length).fileAll (seedItems g root)
  let stages ← stagesFrom g tokens (List.range (tokens.length + 1)) start
  return ⟨tokens, root, g.isNonterminal root, seeds, start, stages⟩

/-- The chart of the tokens, parsed from the root. -/
def parse (g : Grammar) (tokens : List Token) (root : Symbol) : Except Fault Chart :=
  (trace g tokens root).map Trace.chart

end ChartParser
