/-!
# White space

The characters that part symbols, words and lines from what surrounds them: the 25 code points with
the Unicode property `White_Space`. Patterns, words and trimming all mean these.
-/

namespace ChartParser.Text

/-- A character lies in one of the closed ranges of code points. -/
def inRanges (ranges : List (Nat × Nat)) (c : Char) : Bool :=
  ranges.any fun range => range.1 ≤ c.toNat && c.toNat ≤ range.2

/-- The code points of white space, as closed ranges in increasing order. -/
def blankRanges : List (Nat × Nat) :=
  [(0x09, 0x0D), (0x20, 0x20), (0x85, 0x85), (0xA0, 0xA0), (0x1680, 0x1680), (0x2000, 0x200A),
    (0x2028, 0x2029), (0x202F, 0x202F), (0x205F, 0x205F), (0x3000, 0x3000)]

/-- White space of any script, line ends and the no-break spaces included. -/
def isBlank (c : Char) : Bool := inRanges blankRanges c

/-- The ranges hold 25 code points. -/
example :
    blankRanges.foldr (fun range count => range.2 + 1 - range.1 + count) 0 = 25 := by
  decide

end ChartParser.Text
