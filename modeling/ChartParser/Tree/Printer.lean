import ChartParser.Tree.Basic

/-!
# Trees as text

Two forms. The bracketed form, `S(A("a") B("b"))`, fits on one line and leaves the spans out. The
outline has one node per line, indented by depth, each with its span:

    S [0, 2)
      A [0, 1)
        "a" [0, 1)

A symbol is written as it is, matched input in double quotes, in both forms.
-/

namespace ChartParser

/-- A symbol as it is, matched input in double quotes. -/
def Label.text : Label → String
  | .symbol name => name
  | .matched words => "\"" ++ Symbol.line words ++ "\""

theorem Label.toList_text_matched (words : List Symbol) :
    (Label.matched words).text.toList = '"' :: ((Symbol.line words).toList ++ ['"']) := by
  simp [Label.text]

namespace ParseTree

/-! ## The bracketed form -/

mutual

/-- The label, followed by the subtrees in brackets if there are any. -/
def bracketed : ParseTree → String
  | ⟨root, _, _, []⟩ => root.text
  | ⟨root, _, _, t :: rest⟩ =>
    root.text ++ "(" ++ String.intercalate " " (t.bracketed :: bracketedEach rest) ++ ")"

/-- Each tree of a forest in brackets. -/
def bracketedEach : List ParseTree → List String
  | [] => []
  | t :: rest => t.bracketed :: bracketedEach rest

end

theorem bracketedEach_eq_map (forest : List ParseTree) :
    bracketedEach forest = forest.map bracketed := by
  induction forest with
  | nil => rfl
  | cons t rest ih => simp [bracketedEach, ih]

theorem bracketed_eq (t : ParseTree) :
    t.bracketed = if t.subtrees = [] then t.root.text
      else t.root.text ++ "(" ++ String.intercalate " " (t.subtrees.map bracketed) ++ ")" := by
  obtain ⟨root, left, right, subtrees⟩ := t
  cases subtrees <;> simp [bracketed, bracketedEach_eq_map]

/-! ## The outline -/

/-- The line of a node at a depth: two spaces for each level, the label, the span. -/
def outlineLine (depth : Nat) (root : Label) (left right : Nat) : String :=
  String.ofList (List.replicate (2 * depth) ' ') ++ root.text ++
    " [" ++ toString left ++ ", " ++ toString right ++ ")"

mutual

/-- The lines of a tree whose root is at the given depth, in preorder. -/
def outlineLines (depth : Nat) : ParseTree → List String
  | ⟨root, left, right, subtrees⟩ =>
    outlineLine depth root left right :: forestLines (depth + 1) subtrees

/-- The lines of a forest whose roots are at the given depth. -/
def forestLines (depth : Nat) : List ParseTree → List String
  | [] => []
  | t :: rest => t.outlineLines depth ++ forestLines depth rest

end

/-- A tree as an outline; every line ends with a line end. -/
def outline (t : ParseTree) : String :=
  String.join ((t.outlineLines 0).map fun line => line ++ "\n")

/-- The outlines of a forest, an empty line between two of them. -/
def outlines (forest : List ParseTree) : String := String.intercalate "\n" (forest.map outline)

end ParseTree

end ChartParser
