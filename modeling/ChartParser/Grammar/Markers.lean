import ChartParser.Grammar.Basic

/-!
# Grammars without markers

Epsilon markers only show where nothing is to be matched. The same grammar can be written without them:
an alternative of nothing but markers is then an empty one. What a parse tree shows of an alternative is
what is left of it without markers, so it matters whether alternatives can still be told apart then.
-/

namespace ChartParser

namespace Grammar

/-- The symbols of an alternative that are to be matched. -/
def solid (g : Grammar) (rhs : Alternative) : Alternative := rhs.filter fun s => ! g.isEpsilon s

/-- The same grammar with every marker deleted from every alternative. -/
def eraseMarkers (g : Grammar) : Grammar :=
  { g with rules := g.rules.map fun alternatives => alternatives.map g.solid }

theorem solid_marker_cons (g : Grammar) (rest : Alternative) :
    g.solid (g.epsilon :: rest) = g.solid rest :=
  List.filter_cons_of_neg (by simp)

theorem solid_cons_of_ne {g : Grammar} {s : Symbol} (h : s ≠ g.epsilon) (rest : Alternative) :
    g.solid (s :: rest) = s :: g.solid rest := by
  have hsolid : (! g.isEpsilon s) = true := by
    rw [Bool.not_eq_true', ← Bool.not_eq_true, isEpsilon_eq_true_iff]
    exact h
  exact List.filter_cons_of_pos hsolid

theorem mem_solid_iff {g : Grammar} {rhs : Alternative} {s : Symbol} :
    s ∈ g.solid rhs ↔ s ∈ rhs ∧ s ≠ g.epsilon := by
  rw [solid, List.mem_filter, Bool.not_eq_true', ← Bool.not_eq_true, isEpsilon_eq_true_iff]

/-- No symbol has two different alternatives that are the same once their markers are deleted. -/
def HasDistinctSolids (g : Grammar) : Prop :=
  ∀ entry ∈ g.rules.entries, ∀ rhs ∈ entry.2, ∀ rhs' ∈ entry.2, g.solid rhs = g.solid rhs' → rhs = rhs'

instance (g : Grammar) : Decidable g.HasDistinctSolids :=
  inferInstanceAs (Decidable (∀ entry ∈ g.rules.entries, ∀ rhs ∈ entry.2, ∀ rhs' ∈ entry.2,
    g.solid rhs = g.solid rhs' → rhs = rhs'))

@[simp] theorem alternatives?_eraseMarkers (g : Grammar) (s : Symbol) :
    g.eraseMarkers.alternatives? s =
      (g.alternatives? s).map fun alternatives => alternatives.map g.solid :=
  Table.get?_map ..

end Grammar

end ChartParser
