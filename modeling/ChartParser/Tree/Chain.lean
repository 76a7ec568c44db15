import ChartParser.Tree.Extraction

/-!
# Chains, the long way round

The rows that tree extraction builds, said without its search: of all rows with one tree of each list,
those in which each tree starts where the one before it ends.
-/

namespace ChartParser.ParseTree

/-- All rows with one tree of each list, in lexicographic order. -/
def rows : List (List ParseTree) → List (List ParseTree)
  | [] => [[]]
  | choices :: rest => choices.flatMap fun t => (rows rest).map (t :: ·)

/-- Each tree of the row starts where the one before it ends. -/
def isChain : List ParseTree → Bool
  | [] => true
  | [_] => true
  | t :: next :: rest => t.right == next.left && isChain (next :: rest)

/-- The row goes from one position to another without a gap. -/
def Joins (left : Nat) : List ParseTree → Nat → Prop
  | [], right => left = right
  | t :: rest, right => t.left = left ∧ Joins t.right rest right

/-- At every node of the tree, each subtree starts where the one before it ends. -/
inductive Seamless : ParseTree → Prop
  | intro {t : ParseTree} : isChain t.subtrees = true → (∀ s ∈ t.subtrees, Seamless s) → Seamless t

/-- A row without gaps is a chain. -/
theorem Joins.isChain {left right : Nat} {row : List ParseTree} (h : Joins left row right) :
    isChain row = true := by
  induction row generalizing left with
  | nil => rfl
  | cons t rest ih =>
    cases rest with
    | nil => rfl
    | cons next rest =>
      have hnext : next.left = t.right := h.2.1
      simp only [ParseTree.isChain, Bool.and_eq_true, beq_iff_eq]
      exact ⟨hnext.symm, ih h.2⟩

/-- A row without gaps in two parts meets somewhere. -/
theorem joins_append_iff {left right : Nat} {first second : List ParseTree} :
    Joins left (first ++ second) right ↔
      ∃ middle, Joins left first middle ∧ Joins middle second right := by
  induction first generalizing left with
  | nil => simp [Joins]
  | cons t rest ih => simp [Joins, ih, and_assoc]

end ChartParser.ParseTree
