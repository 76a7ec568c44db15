import ChartParser.Text.Hidden

/-!
# Quoted text

A text between double quotes in which every character can be told: quotes, backslashes and line controls
are escaped by a letter, characters that do not show by themselves are given by number, as `\u` with
hexadecimal digits in braces, and all others stand for themselves.
-/

namespace ChartParser.Text

/-- The letter that escapes a character, if it has one. -/
def escapeLetter? : Char → Option Char
  | '\x00' => some '0'
  | '\t' => some 't'
  | '\n' => some 'n'
  | '\r' => some 'r'
  | '"' => some '"'
  | '\\' => some '\\'
  | _ => none

/-- A character as it stands in a quoted text. -/
def escaped (c : Char) : List Char :=
  match escapeLetter? c with
  | some letter => ['\\', letter]
  | none =>
    if isHidden c then ['\\', 'u', '\x7b'] ++ Nat.toDigits 16 c.toNat ++ ['\x7d'] else [c]

/-- A text in double quotes. -/
def quoted (text : String) : String :=
  String.ofList ('"' :: text.toList.flatMap escaped ++ ['"'])

end ChartParser.Text
