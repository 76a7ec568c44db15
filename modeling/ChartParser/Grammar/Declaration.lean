import ChartParser.Grammar.Basic
import ChartParser.Grammar.Rule

/-!
# Building grammars

A grammar is declared piece by piece: rules one at a time, several at once or as lines of a text, an
epsilon marker, a classifier. Rules of one left-hand symbol are gathered in the order of declaration,
wherever they stand; the first rule that cannot be read decides the refusal; of several markers or
classifiers the last one holds.

Main statements: gathering keeps the order of the alternatives (`alternatives?_gather`) and of the
left-hand symbols (`keys_gather_append`).
-/

namespace ChartParser

/-- One step in the declaration of a grammar. -/
inductive Declaration
  | rule (line : String)
  | rules (lines : List String)
  /-- One rule per line; empty lines and lines that start with a number sign are left out. -/
  | text (lines : String)
  | epsilon (marker : Symbol)
  | classifier (classify : Classifier)

namespace Declaration

/-- The rules that a step declares, as written. -/
def ruleTexts : Declaration → List String
  | .rule line => [line]
  | .rules lines => lines
  | .text lines => (Text.significantLines lines.toList).map String.ofList
  | .epsilon _ => []
  | .classifier _ => []

/-- The marker that a step declares. -/
def epsilon? : Declaration → Option Symbol
  | .epsilon marker => some marker
  | _ => none

/-- The classifier that a step declares. -/
def classifier? : Declaration → Option Classifier
  | .classifier classify => some classify
  | _ => none

end Declaration

namespace Grammar

/-! ## Gathering rules -/

/-- Adds the alternatives of a rule behind those that its left-hand symbol has. -/
def addRule (rules : Table (List Alternative)) (r : Rule) : Table (List Alternative) :=
  rules.update r.lhs fun known => known.getD [] ++ r.alternatives

/-- The rules as a table, gathered by left-hand symbol. -/
def gather (rules : List Rule) : Table (List Alternative) := rules.foldl addRule Table.empty

theorem alternatives?_foldl_addRule (rules : List Rule) (known : Table (List Alternative))
    (s : Symbol) :
    (rules.foldl addRule known).get? s =
      if s ∈ known.keys ∨ s ∈ rules.map Rule.lhs then
        some ((known.get? s).getD [] ++
          (rules.filter fun r => r.lhs == s).flatMap Rule.alternatives)
      else none := by
  induction rules generalizing known with
  | nil =>
    have hmem : known.contains s = true ↔ s ∈ known.keys := Table.contains_eq_true_iff
    rw [Table.contains] at hmem
    cases h : known.get? s with
    | none => simp_all
    | some alternatives => simp_all
  | cons r rest ih =>
    rw [List.foldl_cons, ih, addRule, Table.keys_update, Table.get?_update]
    by_cases hs : s = r.lhs
    · subst hs
      split <;> simp_all
    · have hne : ¬ r.lhs = s := fun e => hs e.symm
      split <;> simp [hs, hne]

/-- A symbol has the alternatives of all rules for it, in order. -/
theorem get?_gather (rules : List Rule) (s : Symbol) :
    (gather rules).get? s =
      if s ∈ rules.map Rule.lhs then
        some ((rules.filter fun r => r.lhs == s).flatMap Rule.alternatives)
      else none := by
  simp [gather, alternatives?_foldl_addRule]

theorem mem_keys_gather_iff {rules : List Rule} {s : Symbol} :
    s ∈ (gather rules).keys ↔ s ∈ rules.map Rule.lhs := by
  rw [← Table.contains_eq_true_iff, Table.contains, get?_gather]
  split <;> simp_all

/-- A rule adds its left-hand symbol at the end, unless an earlier rule has it. -/
theorem keys_gather_append (rules : List Rule) (r : Rule) :
    (gather (rules ++ [r])).keys =
      if r.lhs ∈ (gather rules).keys then (gather rules).keys
      else (gather rules).keys ++ [r.lhs] := by
  rw [gather, List.foldl_append, List.foldl_cons, List.foldl_nil, addRule, Table.keys_update]
  rfl

/-! ## Building -/

/-- Builds a grammar from its declaration. -/
def build (steps : List Declaration) : Except FormatError Grammar := do
  let rules ← (steps.flatMap Declaration.ruleTexts).mapM Rule.ofText
  return {
    rules := gather rules
    epsilon := (steps.filterMap Declaration.epsilon?).getLast?.getD defaultEpsilon
    classifier := (steps.filterMap Declaration.classifier?).getLast? }

/-- The grammar of the given rules, with the default epsilon marker and no classifier. -/
def ofRules (rules : List String) : Except FormatError Grammar := build [.rules rules]

/-- The grammar of a text with one rule per line. -/
def ofText (text : String) : Except FormatError Grammar := build [.text text]

/-- The grammar of a file: the bytes of its content, if it has one, are the text in UTF-8. -/
def ofContent (content : Option ByteArray) : Except LoadError Grammar :=
  match content.bind String.fromUTF8? with
  | none => .error .unreadable
  | some text => (ofText text).mapError .format

end Grammar

end ChartParser
