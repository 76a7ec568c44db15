/-!
# What can be wrong with a grammar text

The causes for which a rule, a lexicon line or a grammar file is refused, and the wording of each.
-/

namespace ChartParser

/-- Why a rule or a lexicon line is refused. Each cause carries the offending text as it was given. -/
inductive FormatError
  | missingArrow (rule : String)
  | emptyLeftHandSide (rule : String)
  | multipleLeftHandSymbols (rule : String)
  | missingCategorySeparator (line : String)
deriving DecidableEq, Repr

/-- The wording of a refusal. -/
def FormatError.message : FormatError → String
  | missingArrow rule => "rule `" ++ rule ++ "` has no `->` separator"
  | emptyLeftHandSide rule => "rule `" ++ rule ++ "` has nothing before `->`"
  | multipleLeftHandSymbols rule => "rule `" ++ rule ++ "` has more than one symbol before `->`"
  | missingCategorySeparator line => "lexicon line `" ++ line ++ "` has no `:` separator"

/-- Why a grammar file is refused: there is no text to be had from it, or the text is no grammar. -/
inductive LoadError
  | unreadable
  | format (cause : FormatError)
deriving DecidableEq, Repr

/-- The wording of a refusal. What the file system says about an unreadable file is not part of it. -/
def LoadError.message : LoadError → String
  | unreadable => "grammar io error"
  | format cause => "grammar format error: " ++ cause.message

end ChartParser
