/-!
# Patterns

A pattern is a row of parts that a text has to show one behind the other: its start or its end, given
characters, or a run of characters of one kind, whose length the pattern leaves open. What a match says is
which characters the runs with a name hold.

A pattern can match a text in many ways, and one of them counts. What reading a rule assumes of the search
for patterns is stated by the definitions here. It is the leftmost-first rule: the match that starts
leftmost counts, and of several that start there the one that is met first if each run, from the first to
the last, tries its lengths in the order that it prefers, and goes on to the next length when the rest of
the pattern does not match behind it.
-/

namespace ChartParser.Text

/-- Which lengths a run tries first. -/
inductive Preference
  | fewest
  | most

/-- The lengths up to a bound, in the order in which they are tried. -/
def Preference.lengths : Preference → Nat → List Nat
  | .fewest, bound => List.range (bound + 1)
  | .most, bound => (List.range (bound + 1)).reverse

/-- A part of a pattern. -/
inductive Part
  /-- The start of the text. -/
  | start
  /-- The end of the text. -/
  | stop
  /-- These characters. -/
  | literal (mark : List Char)
  /-- Characters that satisfy the test, as many as there are or fewer. -/
  | run (test : Char → Bool) (preference : Preference) (name : Option String)

/-- What the runs with a name hold, in order. -/
abbrev Groups := List (String × List Char)

/-- Keeps what a run holds, if the run has a name. -/
def keep (name : Option String) (held : List Char) (groups : Groups) : Groups :=
  match name with
  | some name => (name, held) :: groups
  | none => groups

/-- What the run with a name holds. A pattern without a run of that name holds nothing under it. -/
def held (groups : Groups) (name : String) : List Char := (groups.lookup name).getD []

/-- The first way in which the parts match at a place of a text, where `rest` is what lies behind the
place and `atStart` tells whether nothing lies before it. -/
def matchHere : List Part → Bool → List Char → Option Groups
  | [], _, _ => some []
  | .start :: parts, atStart, rest => if atStart then matchHere parts atStart rest else none
  | .stop :: parts, atStart, rest => if rest.isEmpty then matchHere parts atStart rest else none
  | .literal mark :: parts, atStart, rest =>
    if mark.isPrefixOf rest then
      matchHere parts (atStart && mark.isEmpty) (rest.drop mark.length)
    else none
  | .run test preference name :: parts, atStart, rest =>
    -- The first length that lets the other parts match behind the run settles it.
    (preference.lengths (rest.takeWhile test).length).findSome? fun length =>
      (matchHere parts (atStart && length == 0) (rest.drop length)).map
        (keep name (rest.take length))

/-- The first way to match at the leftmost place where there is one. -/
def search (parts : List Part) (atStart : Bool) (rest : List Char) : Option Groups :=
  match matchHere parts atStart rest, rest with
  | some groups, _ => some groups
  | none, [] => none
  | none, _ :: rest => search parts false rest

/-- What a pattern captures in a text, if it matches anywhere. -/
def captures? (parts : List Part) (text : List Char) : Option Groups := search parts true text

end ChartParser.Text
