import ChartParser.Chart.Printer
import ChartParser.Parse.Trace

/-!
# The log of a parse

The log tells in order what was filed, on request how each column looked once it was settled, and at the
end how much work it was.
-/

namespace ChartParser

/-- How closely a message of the log follows the work. -/
inductive LogLevel
  | trace
  | debug
deriving DecidableEq, Repr

/-- A message of the log. -/
structure LogEntry where
  level : LogLevel
  text : String
deriving DecidableEq, Repr

/-- What the log shows besides the filings and the summary. It never changes the chart. -/
structure LogOptions where
  /-- Each column is shown once it is settled. -/
  columns : Bool := false
deriving DecidableEq, Repr

namespace Trace

/-- The message about a filing. -/
def filingEntry (filing : Filing) : LogEntry := ⟨.trace, filing.text⟩

/-- The messages about the start: the root is unknown, or its alternatives are filed. -/
def seedEntries (trace : Trace) : List LogEntry :=
  if trace.isRooted then trace.seeds.map filingEntry
  else [⟨.debug, "root symbol `" ++ trace.root ++ "` has no rules"⟩]

/-- The messages about a column. -/
def stageEntries (options : LogOptions) (stage : Stage) : Except Fault (List LogEntry) := do
  let filings := stage.sweeps.flatten.map filingEntry
  if options.columns then
    return filings ++ [⟨.debug, ← stage.chart.columnText stage.column⟩]
  else return filings

/-- The message about the whole parse. -/
def summary (trace : Trace) : LogEntry :=
  ⟨.debug, "parsed " ++ toString trace.tokens.length ++ " tokens in " ++
    toString trace.sweepCount ++ " passes; " ++ toString trace.chart.items.size ++ " items"⟩

/-- All messages of a parse, in order. -/
def log (trace : Trace) (options : LogOptions) : Except Fault (List LogEntry) := do
  let stages ← trace.stages.mapM (stageEntries options)
  return trace.seedEntries ++ stages.flatten ++ [trace.summary]

end Trace

end ChartParser
