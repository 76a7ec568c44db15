import ChartParser.Grammar.Markers
import ChartParser.Tree.Chain

/-!
# Derivations

A derivation says for each stretch of the input which alternative derived it. Its parse tree forgets the
alternatives: it leaves the epsilon markers out and shows an alternative without other symbols as empty
matched input. A derivation is free of repetition if no path from its root down uses the same
alternative over the same stretch twice.

Beside it stands what it takes for a parse tree to show some derivation, node by node.
-/

namespace ChartParser

/-- How a symbol derives a stretch of the input. -/
inductive Derivation
  /-- The token at a position satisfies the symbol. -/
  | token (name : Symbol) (word : Token) (position : Nat)
  /-- One alternative of the symbol derives the stretch; there is one part for each symbol of the
  alternative that is not the epsilon marker. -/
  | production (lhs : Symbol) (rhs : Alternative) (left right : Nat) (parts : List Derivation)

namespace Derivation

/-- The derived symbol. -/
def symbol : Derivation → Symbol
  | token name _ _ => name
  | production lhs _ _ _ _ => lhs

/-- Where the stretch starts. -/
def left : Derivation → Nat
  | token _ _ position => position
  | production _ _ left _ _ => left

/-- Where the stretch ends. -/
def right : Derivation → Nat
  | token _ _ position => position + 1
  | production _ _ _ right _ => right

/-! ## Trees of derivations -/

mutual

/-- The parse tree of a derivation. -/
def tree : Derivation → ParseTree
  | token name word position =>
    ⟨.symbol name, position, position + 1, [⟨.matched [word], position, position + 1, []⟩]⟩
  | production lhs _ left right [] =>
    ⟨.symbol lhs, left, right, [⟨.matched [], left, right, []⟩]⟩
  | production lhs _ left right (part :: parts) =>
    ⟨.symbol lhs, left, right, part.tree :: treeEach parts⟩

/-- The parse trees of a row of derivations. -/
def treeEach : List Derivation → List ParseTree
  | [] => []
  | part :: parts => part.tree :: treeEach parts

end

theorem treeEach_eq_map (parts : List Derivation) : treeEach parts = parts.map tree := by
  induction parts with
  | nil => rfl
  | cons part parts ih => simp [treeEach, ih]

theorem tree_left (d : Derivation) : d.tree.left = d.left := by
  rcases d with _ | ⟨_, _, _, _, _ | _⟩ <;> rfl

theorem tree_right (d : Derivation) : d.tree.right = d.right := by
  rcases d with _ | ⟨_, _, _, _, _ | _⟩ <;> rfl

theorem tree_root (d : Derivation) : d.tree.root = .symbol d.symbol := by
  rcases d with _ | ⟨_, _, _, _, _ | _⟩ <;> rfl

/-! ## Derivations by a grammar -/

/-- Every step of the derivation is one that the grammar allows on this input. -/
inductive By (g : Grammar) (tokens : List Token) : Derivation → Prop
  | token {name : Symbol} {word : Token} {position : Nat} :
      g.alternatives? name = none → tokens[position]? = some word → name ∈ g.terminalsFor word →
      By g tokens (.token name word position)
  | production {lhs : Symbol} {alternatives : List Alternative} {rhs : Alternative} {left right : Nat}
      {parts : List Derivation} :
      g.alternatives? lhs = some alternatives → rhs ∈ alternatives →
      parts.map symbol = g.solid rhs →
      ParseTree.Joins left (parts.map tree) right →
      (∀ part ∈ parts, By g tokens part) →
      By g tokens (.production lhs rhs left right parts)

/-! ## Repetition -/

/-- An alternative of a symbol over a stretch. -/
structure Use where
  lhs : Symbol
  rhs : Alternative
  left : Nat
  right : Nat
deriving DecidableEq

mutual

/-- No path from the root down repeats a use, nor makes one of those above. -/
def isFresh (above : List Use) : Derivation → Bool
  | token _ _ _ => true
  | production lhs rhs left right parts =>
    decide (⟨lhs, rhs, left, right⟩ ∉ above) &&
      areFresh (⟨lhs, rhs, left, right⟩ :: above) parts

/-- The same of every derivation of a row. -/
def areFresh (above : List Use) : List Derivation → Bool
  | [] => true
  | part :: parts => part.isFresh above && areFresh above parts

end

end Derivation

/-! ## Trees that show a derivation -/

/-- Each node of the tree that carries a symbol is one of three kinds: a terminal over its token, a
symbol over nothing, or a symbol over the trees of one of its alternatives, the markers left out. -/
inductive ParseTree.Shows (g : Grammar) (tokens : List Token) : ParseTree → Prop
  | token {name : Symbol} {word : Token} {position : Nat} :
      g.alternatives? name = none → tokens[position]? = some word → name ∈ g.terminalsFor word →
      Shows g tokens
        ⟨.symbol name, position, position + 1, [⟨.matched [word], position, position + 1, []⟩]⟩
  | nothing {lhs : Symbol} {alternatives : List Alternative} {rhs : Alternative} {position : Nat} :
      g.alternatives? lhs = some alternatives → rhs ∈ alternatives → g.solid rhs = [] →
      Shows g tokens ⟨.symbol lhs, position, position, [⟨.matched [], position, position, []⟩]⟩
  | row {lhs : Symbol} {alternatives : List Alternative} {rhs : Alternative} {left right : Nat}
      {subtrees : List ParseTree} :
      g.alternatives? lhs = some alternatives → rhs ∈ alternatives → subtrees ≠ [] →
      subtrees.map ParseTree.root = (g.solid rhs).map Label.symbol →
      ParseTree.Joins left subtrees right →
      (∀ t ∈ subtrees, Shows g tokens t) →
      Shows g tokens ⟨.symbol lhs, left, right, subtrees⟩

end ChartParser
