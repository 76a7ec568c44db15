import ChartParser.Grammar.Declaration
import ChartParser.Grammar.Derivation
import ChartParser.Grammar.Markers

/-!
# Grammars within others

A grammar is within another one that has the same left-hand symbols and the same marker if the other
one has each of its alternatives, and a token satisfies with the other one whatever it satisfies with
this one. Then the other one derives whatever this one derives. The left-hand symbols have to be the
same, since a symbol that gets rules is no longer matched as a terminal.

The order in which a grammar is declared has no part in this. Lists of rules that give each symbol the
same alternatives make grammars that are within each other, however often and in however many rules
they say so.
-/

namespace ChartParser.Grammar

/-- Some alternative of the symbol is this one. -/
def HasRule (g : Grammar) (s : Symbol) (rhs : Alternative) : Prop :=
  ∃ alternatives, g.alternatives? s = some alternatives ∧ rhs ∈ alternatives

/-- The first grammar says nothing that the second does not say. -/
structure IsWithin (g g' : Grammar) : Prop where
  epsilon : g'.epsilon = g.epsilon
  keys : ∀ s, s ∈ g.rules.keys ↔ s ∈ g'.rules.keys
  hasRule : ∀ s rhs, g.HasRule s rhs → g'.HasRule s rhs
  terminals : ∀ token, g.terminalsFor token ⊆ g'.terminalsFor token

variable {g g' : Grammar} {tokens : List Token} {root s : Symbol} {symbols : List Symbol} {i j : Nat}

/-! ## What the other grammar does as well -/

theorem alternatives?_eq_none_iff : g.alternatives? s = none ↔ s ∉ g.rules.keys := by
  rw [← Table.contains_eq_true_iff, Table.contains, ← alternatives?, Bool.not_eq_true,
    Option.isSome_eq_false_iff, Option.isNone_iff_eq_none]

theorem IsWithin.alternatives?_eq_none_iff (h : g.IsWithin g') :
    g'.alternatives? s = none ↔ g.alternatives? s = none := by
  rw [Grammar.alternatives?_eq_none_iff, Grammar.alternatives?_eq_none_iff, h.keys]

theorem IsWithin.isNonterminal_eq (h : g.IsWithin g') (s : Symbol) :
    g'.isNonterminal s = g.isNonterminal s := by
  rw [Bool.eq_iff_iff, isNonterminal, isNonterminal, Table.contains_eq_true_iff,
    Table.contains_eq_true_iff, h.keys]

theorem IsWithin.solid_eq (h : g.IsWithin g') (rhs : Alternative) : g'.solid rhs = g.solid rhs := by
  simp only [solid, isEpsilon, h.epsilon]

theorem Derives.mono (h : g.IsWithin g') (hderives : g.Derives tokens symbols i j) :
    g'.Derives tokens symbols i j := by
  induction hderives with
  | nil i => exact .nil i
  | marker _ ih =>
    rw [← h.epsilon]
    exact .marker ih
  | terminal hne hnone hword hmem _ ih =>
    exact .terminal (h.epsilon ▸ hne) (h.alternatives?_eq_none_iff.2 hnone) hword
      (h.terminals _ hmem) ih
  | rule hne halternatives hrhs _ _ ihrhs ihrest =>
    obtain ⟨alternatives', halternatives', hrhs'⟩ := h.hasRule _ _ ⟨_, halternatives, hrhs⟩
    exact .rule (h.epsilon ▸ hne) halternatives' hrhs' ihrhs ihrest

/-- What is due somewhere by the first grammar is due there by the second. -/
theorem Predicted.mono (h : g.IsWithin g') (hpredicted : g.Predicted tokens root s i) :
    g'.Predicted tokens root s i := by
  induction hpredicted with
  | root => exact .root
  | next _ halternatives hrhs hne hnonterminal hderives ih =>
    obtain ⟨alternatives', halternatives', hrhs'⟩ := h.hasRule _ _ ⟨_, halternatives, hrhs⟩
    exact .next ih halternatives' hrhs' (h.epsilon ▸ hne)
      ((h.isNonterminal_eq _).trans hnonterminal) (hderives.mono h)

/-! ## Declarations in another order -/

/-- The symbols that a classifier gives a token, if there is one. -/
def classesOf (classifier : Option Classifier) (token : Token) : List Symbol :=
  (classifier.map fun classify => classify token).getD []

/-- A token satisfies the symbols that the classifier gives it and its own spelling, the marker apart. -/
theorem mem_terminalsFor_iff {token : Token} :
    s ∈ g.terminalsFor token ↔ token ≠ g.epsilon ∧
      (s = token ∨ (s ∈ classesOf g.classifier token ∧ s ≠ g.epsilon)) := by
  obtain ⟨classes, hdef⟩ :
      ∃ classes, classes = (classesOf g.classifier token).filter fun s => ! g.isEpsilon s := ⟨_, rfl⟩
  have hclasses : ∀ s, s ∈ classes ↔ s ∈ classesOf g.classifier token ∧ s ≠ g.epsilon := by
    intro s
    rw [hdef, List.mem_filter, Bool.not_eq_true', ← Bool.not_eq_true, isEpsilon_eq_true_iff]
  have hterminals : g.terminalsFor token =
      if g.isEpsilon token then []
      else if token ∈ classes then classes else classes ++ [token] := by
    rw [hdef]
    rfl
  rw [hterminals, ← hclasses]
  by_cases hmarker : token = g.epsilon
  · rw [if_pos (isEpsilon_eq_true_iff.2 hmarker)]
    simp [hmarker]
  · rw [if_neg (mt isEpsilon_eq_true_iff.1 hmarker), and_iff_right hmarker]
    split
    · -- The spelling is among the classes, so it adds nothing.
      rename_i hmem
      exact ⟨Or.inr, fun h => h.elim (fun he => he ▸ hmem) id⟩
    · rw [List.mem_append, List.mem_singleton, or_comm]

/-- The rules give the same symbols the same alternatives. -/
structure SameRules (rules rules' : List Rule) : Prop where
  lhs : ∀ s, s ∈ rules.map Rule.lhs ↔ s ∈ rules'.map Rule.lhs
  alternatives : ∀ s rhs, (∃ r ∈ rules, r.lhs = s ∧ rhs ∈ r.alternatives) ↔
    ∃ r ∈ rules', r.lhs = s ∧ rhs ∈ r.alternatives

theorem SameRules.symm {rules rules' : List Rule} (h : SameRules rules rules') :
    SameRules rules' rules :=
  ⟨fun s => (h.lhs s).symm, fun s rhs => (h.alternatives s rhs).symm⟩

variable {rules rules' : List Rule} {epsilon : Symbol} {classifier classifier' : Option Classifier}

/-- A symbol has the alternatives that the rules give it. -/
theorem hasRule_gather_iff {rhs : Alternative} :
    (⟨gather rules, epsilon, classifier⟩ : Grammar).HasRule s rhs ↔
      ∃ r ∈ rules, r.lhs = s ∧ rhs ∈ r.alternatives := by
  show (∃ alternatives, (gather rules).get? s = some alternatives ∧ rhs ∈ alternatives) ↔ _
  -- Gathering puts the alternatives of all rules of the symbol together.
  rw [get?_gather]
  constructor
  · rintro ⟨alternatives, halternatives, hrhs⟩
    split at halternatives
    · obtain rfl := Option.some.inj halternatives
      obtain ⟨r, hr, hrhs⟩ := List.mem_flatMap.1 hrhs
      obtain ⟨hmem, hlhs⟩ := List.mem_filter.1 hr
      exact ⟨r, hmem, beq_iff_eq.1 hlhs, hrhs⟩
    · cases halternatives
  · rintro ⟨r, hr, rfl, hrhs⟩
    rw [if_pos (List.mem_map_of_mem hr)]
    exact ⟨_, rfl, List.mem_flatMap.2 ⟨r, List.mem_filter.2 ⟨hr, beq_self_eq_true _⟩, hrhs⟩⟩

/-- Neither the order of declaration nor repetition matters. -/
theorem isWithin_gather (hrules : SameRules rules rules')
    (hclasses : ∀ token s, s ∈ classesOf classifier token ↔ s ∈ classesOf classifier' token) :
    (⟨gather rules, epsilon, classifier⟩ : Grammar).IsWithin ⟨gather rules', epsilon, classifier'⟩ where
  epsilon := rfl
  keys s := by
    show s ∈ (gather rules).keys ↔ s ∈ (gather rules').keys
    rw [mem_keys_gather_iff, mem_keys_gather_iff, hrules.lhs]
  hasRule s rhs h := hasRule_gather_iff.2 ((hrules.alternatives s rhs).1 (hasRule_gather_iff.1 h))
  terminals token s hs := by
    obtain ⟨hne, hs⟩ := mem_terminalsFor_iff.1 hs
    -- The spelling of the token counts for both, so only the classes matter.
    refine mem_terminalsFor_iff.2 ⟨hne, hs.imp_right fun hmem => ?_⟩
    exact ⟨(hclasses token s).1 hmem.1, hmem.2⟩

end ChartParser.Grammar
