import ChartParser.Fault
import ChartParser.Grammar.Basic
import ChartParser.Item.Slot

/-!
# Items

An item records how far an alternative has been matched: the symbols before its dot matched the input
from `origin` to `current`. Two items say the same if they agree in their dotted rule; the slots, which
hold the children, come on top of that.

An item moves in three ways. It predicts an item for each alternative of the symbol after its dot, it
scans a token that satisfies that symbol, or it advances over that symbol once a child has completed it.
No move leaves the dot before an epsilon marker.
-/

namespace ChartParser

/-! ## Dotted rules -/

/-- An alternative of a left-hand symbol, matched up to its dot. -/
structure DottedRule where
  lhs : Symbol
  rhs : Alternative
  /-- The number of symbols matched so far, the epsilon markers among them included. -/
  dot : Nat
  /-- The position in the input where the match starts. -/
  origin : Nat
  /-- The position in the input up to which the match goes. -/
  current : Nat
  dot_le : dot ≤ rhs.length
deriving DecidableEq

namespace DottedRule

/-- All symbols are matched. -/
def isComplete (r : DottedRule) : Bool := r.dot == r.rhs.length

/-- The symbol after the dot. -/
def next? (r : DottedRule) : Option Symbol := r.rhs[r.dot]?

/-- The symbol after the dot has rules. -/
def expectsNonterminal (r : DottedRule) (g : Grammar) : Bool := r.next?.any g.isNonterminal

theorem isComplete_eq_true_iff {r : DottedRule} : r.isComplete = true ↔ r.dot = r.rhs.length := by
  rw [isComplete, beq_iff_eq]

/-- A symbol is left to match exactly while the rule is not complete. -/
theorem next?_eq_none_iff {r : DottedRule} : r.next? = none ↔ r.isComplete = true := by
  have := r.dot_le
  rw [next?, List.getElem?_eq_none_iff, isComplete_eq_true_iff]
  omega

/-- The alternative of a symbol at a position where none of it is matched, its leading epsilon markers
apart. -/
def predicted (g : Grammar) (lhs : Symbol) (rhs : Alternative) (position : Nat) : DottedRule where
  lhs := lhs
  rhs := rhs
  dot := g.skipMarkers rhs 0
  origin := position
  current := position
  dot_le := g.skipMarkers_le (Nat.zero_le _)

/-- A token matched as the terminal `lhs`. -/
def scanned (lhs : Symbol) (token : Token) (position : Nat) : DottedRule where
  lhs := lhs
  rhs := [token]
  dot := 1
  origin := position
  current := position + 1
  dot_le := Nat.le_refl 1

end DottedRule

/-! ## Items -/

/-- A dotted rule with the children that matched its symbols, one slot per symbol. -/
structure Item extends DottedRule where
  slots : List Slot
  slots_length : slots.length = rhs.length
deriving DecidableEq

namespace Item

/-- A dotted rule without children. -/
def bare (r : DottedRule) : Item where
  toDottedRule := r
  slots := List.replicate r.rhs.length Slot.empty
  slots_length := List.length_replicate

/-- An item without children; its dot has to be within its alternative. -/
def make (lhs : Symbol) (rhs : Alternative) (dot origin current : Nat) : Except Fault Item :=
  if h : dot ≤ rhs.length then .ok (bare ⟨lhs, rhs, dot, origin, current, h⟩)
  else .error (.dotPastEnd dot rhs.length)

/-- No slot has a child: a scanned token, or an empty alternative. -/
def isLeaf (item : Item) : Bool := item.slots.all Slot.isEmpty

/-- A dot past the end is the one thing that an item without children cannot have. -/
theorem make_eq_error_iff {lhs : Symbol} {rhs : Alternative} {dot origin current : Nat}
    {fault : Fault} :
    make lhs rhs dot origin current = .error fault ↔
      rhs.length < dot ∧ fault = .dotPastEnd dot rhs.length := by
  rw [make]
  split
  · rename_i h
    simp [Nat.not_lt.2 h]
  · rename_i h
    simp [Nat.lt_of_not_le h, eq_comm]

/-! ## Children -/

/-- Records the children of a row at the same positions, and tells whether one of them was missing.
Positions that the item lacks are left out. -/
def absorb (item : Item) (row : List Slot) : Item × Bool :=
  let recorded := Slot.recordRow false item.slots row
  ({ toDottedRule := item.toDottedRule
     slots := recorded.1
     slots_length := by
      simp only [recorded, Slot.recordRow_eq, Slot.length_unionRow, item.slots_length] },
    recorded.2)

/-- Every child in the row is recorded at the same position of the item. -/
def includes (item : Item) (row : List Slot) : Bool := Slot.rowIncludes item.slots row

/-- The item with its row united with another one. -/
def merge (item : Item) (row : List Slot) : Item where
  toDottedRule := item.toDottedRule
  slots := Slot.unionRow item.slots row
  slots_length := by rw [Slot.length_unionRow, item.slots_length]

/-- Merging changes nothing exactly when every child is recorded already. -/
theorem merge_eq_self_iff {item : Item} {row : List Slot} :
    item.merge row = item ↔ item.includes row = true := by
  rw [includes, ← Slot.unionRow_eq_self_iff]
  constructor
  · exact congrArg Item.slots
  · intro h
    obtain ⟨rule, slots, slots_length⟩ := item
    simp only [merge, mk.injEq, true_and]
    exact h

/-- What an item absorbs is merged into it, and it tells so exactly when something was missing. -/
theorem absorb_eq (item : Item) (row : List Slot) :
    item.absorb row = (item.merge row, ! item.includes row) := by
  simp only [absorb, merge, includes, Slot.recordRow_eq, Bool.false_or]

/-! ## Moves -/

/-- An item for each alternative of the symbol after the dot, starting where this item has come to. -/
def predictions (item : Item) (g : Grammar) : List Item :=
  match item.next? with
  | none => []
  | some s => ((g.alternatives? s).getD []).map fun rhs => bare (.predicted g s rhs item.current)

/-- The token as the symbol after the dot, if it satisfies that symbol. There is no token past the end
of the input. -/
def scan (item : Item) (g : Grammar) (token : Option Token) : Option Item :=
  match item.next?, token with
  | some s, some word =>
    if s ∈ g.terminalsFor word then some (bare (.scanned s word item.current)) else none
  | _, _ => none

/-- The item with the dot moved over its next symbol and the epsilon markers after it, where `child`
matched that symbol up to the position `current`. A complete item has no slot for the child. -/
def advance (item : Item) (child : ItemId) (current : Nat) (g : Grammar) : Except Fault Item :=
  if h : item.dot < item.rhs.length then
    .ok {
      lhs := item.lhs
      rhs := item.rhs
      dot := g.skipMarkers item.rhs (item.dot + 1)
      origin := item.origin
      current := current
      dot_le := g.skipMarkers_le h
      slots := item.slots.modify item.dot fun slot => slot.insert child
      slots_length := by rw [List.length_modify, item.slots_length] }
  else .error .outOfRange

/-- Every item but a complete one can advance. -/
theorem advance_eq_error_iff {item : Item} {child : ItemId} {current : Nat} {g : Grammar}
    {fault : Fault} :
    item.advance child current g = .error fault ↔
      item.isComplete = true ∧ fault = .outOfRange := by
  have := item.dot_le
  rw [advance, DottedRule.isComplete_eq_true_iff]
  split
  · rename_i h
    simp [Nat.ne_of_lt h]
  · rename_i h
    have hdot : item.dot = item.rhs.length := by omega
    simp [hdot, eq_comm]

end Item

end ChartParser
