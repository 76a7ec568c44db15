import ChartParser.FormatError
import ChartParser.Symbol
import ChartParser.Text.Pattern
import ChartParser.Text.Words

/-!
# Rule text

A rule is written `LHS -> A B | C`: one left-hand symbol, the first arrow, and the alternatives, parted
by bars. The symbols of an alternative are parted by white space, which means nothing else, line ends
included; an alternative may be empty. Only the first arrow counts, later ones are symbols.

The two sides are found by a pattern, and it is left to the search for patterns which of several arrows
counts and which run takes how much of the white space.
-/

namespace ChartParser

/-- A left-hand symbol with the alternatives that one rule gives it. -/
structure Rule where
  lhs : Symbol
  alternatives : List Alternative
deriving DecidableEq, Repr

namespace Rule

/-- The mark between the two sides of a rule. -/
def arrow : List Char := ['-', '>']

/-- The mark between two alternatives. -/
def bar : Char := '|'

/-- The alternatives that the right-hand side of a rule spells. -/
def alternativesOf (text : List Char) : List Alternative :=
  (text.splitOn bar).map fun part => (Text.words part).map String.ofList

/-- The shape of a rule: the left-hand symbol, as short as the rest of the shape allows, an arrow behind
it, and all that follows, line ends included. White space around the left-hand symbol does not belong to
it. In the usual notation this is `(?s)^\s*(?P<lhs>.*?)\s*->(?P<rhs>.*)$`, where `\s` is assumed to stand
for what has the property White_Space. -/
def shape : List Text.Part :=
  [.start, .run Text.isBlank .most none, .run (fun _ => true) .fewest (some "lhs"),
    .run Text.isBlank .most none, .literal arrow, .run (fun _ => true) .most (some "rhs"), .stop]

/-- Reads the two sides of a rule; `text` is the whole rule, for the refusal. One word has to stand on the
left. -/
def ofSides (text : String) (lhs rhs : List Char) : Except FormatError Rule :=
  if lhs = [] then .error (.emptyLeftHandSide text)
  else if (Text.words lhs)[1]?.isSome then .error (.multipleLeftHandSymbols text)
  else .ok ⟨String.ofList lhs, alternativesOf rhs⟩

/-- Reads a rule. -/
def ofText (text : String) : Except FormatError Rule :=
  match Text.captures? shape text.toList with
  | none => .error (.missingArrow text)
  | some groups => ofSides text (Text.held groups "lhs") (Text.held groups "rhs")

end Rule

end ChartParser
