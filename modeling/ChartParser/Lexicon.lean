import ChartParser.FormatError
import ChartParser.Symbol
import ChartParser.Table
import ChartParser.Text.Words

/-!
# Lexicons

A word list: which categories a token has. It is written one category per line, `N: fish | fork`, and
kept by token. A category that comes again for the same token counts once, at its first place.

Main statement: recording categories for one token changes no other (`categories_insert`).
-/

namespace ChartParser

/-- The categories of each known token, in order of first mention. -/
structure Lexicon where
  words : Table (List Symbol)

namespace Lexicon

/-- The lexicon without words. -/
def empty : Lexicon := ⟨Table.empty⟩

/-- The categories of a token; an unknown token has none. -/
def categories (lexicon : Lexicon) (token : Token) : List Symbol :=
  (lexicon.words.get? token).getD []

/-- The categories after one more is mentioned. -/
def mention (known : List Symbol) (category : Symbol) : List Symbol :=
  if category ∈ known then known else known ++ [category]

/-- Records categories for a token, behind those that it has. A token without any is known as well. -/
def insert (lexicon : Lexicon) (token : Token) (categories : List Symbol) : Lexicon :=
  ⟨lexicon.words.update token fun known => categories.foldl mention (known.getD [])⟩

theorem categories_insert (lexicon : Lexicon) (token token' : Token) (added : List Symbol) :
    (lexicon.insert token added).categories token' =
      if token' = token then added.foldl mention (lexicon.categories token)
      else lexicon.categories token' := by
  simp only [categories, insert, Table.get?_update]
  split <;> simp

/-! ## Lexicon text -/

/-- What a line says: a category, and the words parted by bars or white space. -/
def ofLine (line : List Char) : Except FormatError (Symbol × List Token) :=
  match Text.cut [':'] line with
  | none => .error (.missingCategorySeparator (String.ofList line))
  | some (category, words) =>
    .ok (String.ofList (Text.trim category),
      (words.splitOn '|').flatMap fun part => (Text.words part).map String.ofList)

/-- Records one category for several words. -/
def addLine (lexicon : Lexicon) (line : Symbol × List Token) : Lexicon :=
  line.2.foldl (fun known word => known.insert word [line.1]) lexicon

/-- Reads a lexicon, one category per line; empty lines and lines that start with a number sign are
left out. -/
def ofText (text : String) : Except FormatError Lexicon := do
  let lines ← (Text.significantLines text.toList).mapM ofLine
  return lines.foldl addLine empty

/-- Two lexicons know the same words with the same categories. The order of the words does not count,
the order of the categories of one word does. -/
def agrees (a b : Lexicon) : Bool := a.words.sameEntries b.words

end Lexicon

end ChartParser
