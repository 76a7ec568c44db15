import ChartParser.Text.Quoted

/-!
# Symbols and tokens

A grammar speaks of symbols, an input is a list of tokens. Both are texts: a token satisfies at least
the symbol that is spelled like it.
-/

namespace ChartParser

/-- A symbol of a grammar, known by its spelling. -/
abbrev Symbol := String

/-- A piece of input, already cut out. -/
abbrev Token := String

/-- One right-hand side: what a left-hand symbol may stand for. -/
abbrev Alternative := List Symbol

/-- The symbols that a token satisfies besides its own spelling. -/
abbrev Classifier := Token → List Symbol

namespace Symbol

/-- The symbols in one line, a space between two of them. -/
def line (symbols : List Symbol) : String := String.intercalate " " symbols

/-- The symbols in the order of their code points, equal ones once. -/
def sorted (symbols : List Symbol) : List Symbol :=
  symbols.eraseDups.mergeSort fun a b => decide (a ≤ b)

/-- The symbol in full detail: marked as a symbol, with its spelling quoted. -/
def detail (s : Symbol) : String := "Symbol(" ++ Text.quoted s ++ ")"

/-- The details of an alternative. -/
def details (alternative : Alternative) : String :=
  "[" ++ String.intercalate ", " (alternative.map detail) ++ "]"

end Symbol

end ChartParser
