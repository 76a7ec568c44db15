import ChartParser.Symbol
import ChartParser.Table

/-!
# Grammars

A context-free grammar gives each left-hand symbol its alternatives. A symbol without rules is a
terminal. One symbol, the epsilon marker, stands for the empty text and is stepped over wherever it
would have to be matched. A classifier, if there is one, says which terminals a token satisfies
besides its own spelling.

Main statements: stepping over markers never moves backwards nor out of the alternative, passes
markers only, and stops at none.
-/

namespace ChartParser

/-- A context-free grammar. -/
structure Grammar where
  /-- The alternatives of each left-hand symbol, both in order of declaration. -/
  rules : Table (List Alternative)
  /-- The symbol that stands for the empty text. -/
  epsilon : Symbol
  classifier : Option Classifier

namespace Grammar

/-- The epsilon marker of a grammar that declares none. -/
def defaultEpsilon : Symbol := "_EPSILON_"

/-- The alternatives of a symbol; a terminal has none. -/
def alternatives? (g : Grammar) (s : Symbol) : Option (List Alternative) := g.rules.get? s

/-- The symbol has rules. -/
def isNonterminal (g : Grammar) (s : Symbol) : Bool := g.rules.contains s

/-- The symbol is the epsilon marker. -/
def isEpsilon (g : Grammar) (s : Symbol) : Bool := g.epsilon == s

@[simp] theorem isEpsilon_eq_true_iff {g : Grammar} {s : Symbol} :
    g.isEpsilon s = true ↔ s = g.epsilon := by
  rw [isEpsilon, beq_iff_eq, eq_comm]

/-! ## Stepping over epsilon markers -/

/-- The first position from `dot` on whose symbol is not the epsilon marker. A position at or past
the end stays where it is. -/
def skipMarkers (g : Grammar) (rhs : Alternative) (dot : Nat) : Nat :=
  dot + ((rhs.drop dot).takeWhile g.isEpsilon).length

theorem le_skipMarkers (g : Grammar) (rhs : Alternative) (dot : Nat) :
    dot ≤ g.skipMarkers rhs dot :=
  Nat.le_add_right _ _

theorem skipMarkers_le (g : Grammar) {rhs : Alternative} {dot : Nat} (h : dot ≤ rhs.length) :
    g.skipMarkers rhs dot ≤ rhs.length := by
  have hle := (List.takeWhile_sublist g.isEpsilon (l := rhs.drop dot)).length_le
  rw [List.length_drop] at hle
  rw [skipMarkers]
  omega

theorem skipMarkers_of_length_le (g : Grammar) {rhs : Alternative} {dot : Nat}
    (h : rhs.length ≤ dot) : g.skipMarkers rhs dot = dot := by
  simp [skipMarkers, List.drop_eq_nil_of_le h]

theorem of_lt_length_takeWhile {p : Symbol → Bool} {l : List Symbol} {k : Nat} {s : Symbol}
    (hlt : k < (l.takeWhile p).length) (hs : l[k]? = some s) : p s = true := by
  induction l generalizing k with
  | nil => simp at hs
  | cons a rest ih =>
    by_cases ha : p a = true
    · cases k with
      | zero => simp_all
      | succ k => exact ih (by simpa [ha] using hlt) (by simpa using hs)
    · simp [ha] at hlt

theorem of_getElem?_length_takeWhile {p : Symbol → Bool} {l : List Symbol} {s : Symbol}
    (hs : l[(l.takeWhile p).length]? = some s) : p s = false := by
  induction l with
  | nil => simp at hs
  | cons a rest ih =>
    by_cases ha : p a = true
    · exact ih (by simpa [ha] using hs)
    · simp_all

/-- Only markers are stepped over. -/
theorem eq_epsilon_of_lt_skipMarkers (g : Grammar) {rhs : Alternative} {dot k : Nat} {s : Symbol}
    (hle : dot ≤ k) (hlt : k < g.skipMarkers rhs dot) (hs : rhs[k]? = some s) : s = g.epsilon := by
  refine isEpsilon_eq_true_iff.1 (of_lt_length_takeWhile (l := rhs.drop dot) (k := k - dot) ?_ ?_)
  · rw [skipMarkers] at hlt
    omega
  · rwa [List.getElem?_drop, Nat.add_sub_cancel' hle]

/-- The place after stepping carries no marker. -/
theorem ne_epsilon_of_getElem?_skipMarkers (g : Grammar) {rhs : Alternative} {dot : Nat}
    {s : Symbol} (hs : rhs[g.skipMarkers rhs dot]? = some s) : s ≠ g.epsilon := by
  rw [skipMarkers, ← List.getElem?_drop] at hs
  intro he
  have hfalse := of_getElem?_length_takeWhile hs
  rw [isEpsilon_eq_true_iff.2 he] at hfalse
  exact Bool.noConfusion hfalse

/-! ## Terminals of a token -/

/-- The terminals that a token satisfies: those of its classification, in order, and its own spelling
unless the classification names it. The epsilon marker is never among them, and a token that is
spelled like the marker satisfies nothing. -/
def terminalsFor (g : Grammar) (token : Token) : List Symbol :=
  if g.isEpsilon token then []
  else
    let classes := ((g.classifier.map fun classify => classify token).getD []).filter
      fun s => ! g.isEpsilon s
    if token ∈ classes then classes else classes ++ [token]

theorem epsilon_not_mem_terminalsFor (g : Grammar) (token : Token) :
    g.epsilon ∉ g.terminalsFor token := by
  rw [terminalsFor]
  split
  · simp
  · rename_i h
    have hne : ¬ g.epsilon = token := fun e => h (by simp [e])
    dsimp only
    split <;> simp [hne]

end Grammar

end ChartParser
