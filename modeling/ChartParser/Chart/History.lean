import ChartParser.Chart.Lemmas

/-!
# Retelling filings

The record of a filing is enough to file again, so the record of a parse tells every chart that it went
through.

Main statement: filing an item does to a chart what its record says (`eq_redoAll_of_file`).
-/

namespace ChartParser.Chart

/-- Does again what a record says. -/
def redo (chart : Chart) : Filing → Chart
  | .added _ item => chart.push item item.current
  | .merged id item => chart.mergeAt id item.slots

/-- Does again what the records say, in order. -/
def redoAll (chart : Chart) (filings : List Filing) : Chart := filings.foldl redo chart

/-- The charts before, between and after the filings. -/
def moments (chart : Chart) : List Filing → List Chart
  | [] => [chart]
  | filing :: rest => chart :: moments (chart.redo filing) rest

/-- Files items in the columns given with them; an item that is refused leaves the chart as it is. -/
def fileEach (chart : Chart) (calls : List (Item × Nat)) : Chart :=
  calls.foldl (fun chart call =>
    match chart.file call.1 call.2 with
    | .ok (chart, _) => chart
    | .error _ => chart) chart

/-- A filing does what its record says, and nothing if there is none. -/
theorem eq_redoAll_of_file {chart chart' : Chart} {item : Item} {i : Nat} {filing : Option Filing}
    (h : chart.file item i = .ok (chart', filing)) : chart' = chart.redoAll filing.toList := by
  obtain ⟨rfl, ids, _, hplace⟩ := place_of_file h
  rcases chart.place_cases item item.current ids with
    ⟨_, _, _, _, _, hknown⟩ | ⟨_, _, _, _, _, hmerged⟩ | ⟨_, hadded⟩
  · cases hknown.symm.trans hplace
    rfl
  · cases hmerged.symm.trans hplace
    rfl
  · cases hadded.symm.trans hplace
    rfl

end ChartParser.Chart
