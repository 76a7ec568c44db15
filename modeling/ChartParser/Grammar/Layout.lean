import ChartParser.Grammar.Rule

/-!
# Layouts of a rule

A rule can be laid out in many ways: any white space may stand around its left-hand symbol, its
alternatives and their symbols, as long as some parts one symbol from the next. A layout is one of these
texts; reading a rule is to find out of which rule the text is a layout.
-/

namespace ChartParser.Rule

/-- White space or nothing. -/
def IsGap (gap : List Char) : Prop := ∀ c ∈ gap, Text.isBlank c = true

/-- Something, without white space. -/
def IsWord (word : List Char) : Prop := word ≠ [] ∧ ∀ c ∈ word, Text.isBlank c = false

/-- The text spells the words with white space between them, and maybe around them. -/
inductive Spaced : List (List Char) → List Char → Prop
  | nil {gap : List Char} : IsGap gap → Spaced [] gap
  | cons {gap word rest : List Char} {words : List (List Char)} :
      IsGap gap → IsWord word → (∀ c ∈ rest.head?, Text.isBlank c = true) →
      Spaced words rest →
      Spaced (word :: words) (gap ++ word ++ rest)

/-- The text spells the alternatives, parted by bars. -/
inductive Barred : List Alternative → List Char → Prop
  | last {alternative : Alternative} {text : List Char} :
      Spaced (alternative.map String.toList) text → bar ∉ text →
      Barred [alternative] text
  | cons {alternative : Alternative} {alternatives : List Alternative} {text rest : List Char} :
      Spaced (alternative.map String.toList) text → bar ∉ text →
      Barred alternatives rest →
      Barred (alternative :: alternatives) (text ++ bar :: rest)

/-- The text is a layout of the rule. -/
inductive Layout : Rule → List Char → Prop
  | intro {r : Rule} {before after right : List Char} :
      IsGap before → IsWord r.lhs.toList → ¬ arrow <:+: r.lhs.toList → IsGap after →
      Barred r.alternatives right →
      Layout r (before ++ r.lhs.toList ++ after ++ arrow ++ right)

end ChartParser.Rule
