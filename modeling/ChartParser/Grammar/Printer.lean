import ChartParser.Grammar.Declaration

/-!
# Grammar text

A grammar is written back one left-hand symbol per line, in the notation that is read. Neither the
epsilon marker nor the classifier shows there. The detailed form shows the marker and whether there is
a classifier, all in one line.
-/

namespace ChartParser.Grammar

/-- An entry of the rule table as a line of rule text. -/
def ruleLine (entry : Symbol × List Alternative) : String :=
  entry.1 ++ " -> " ++ String.intercalate " | " (entry.2.map Symbol.line)

/-- The rules of a grammar, one line per left-hand symbol. -/
def render (g : Grammar) : String :=
  String.join (g.rules.entries.map fun entry => ruleLine entry ++ "\n")

/-- An entry of the rule table in full detail. -/
def entryDetail (entry : Symbol × List Alternative) : String :=
  Symbol.detail entry.1 ++ ": [" ++ String.intercalate ", " (entry.2.map Symbol.details) ++ "]"

/-- The grammar in full detail, on one line. -/
def detail (g : Grammar) : String :=
  let classifier := if g.classifier.isSome then "Some(\"<classifier>\")" else "None"
  "Grammar \x7b rules: \x7b" ++ String.intercalate ", " (g.rules.entries.map entryDetail) ++
    "\x7d, epsilon: " ++ Symbol.detail g.epsilon ++ ", classifier: " ++ classifier ++ " \x7d"

end ChartParser.Grammar
