import ChartParser.Grammar.Basic

/-!
# What a grammar derives

The meaning of a grammar, said without any chart. The epsilon marker derives the empty stretch at every
position. Any other symbol with rules derives what one of its alternatives derives, symbol by symbol
over stretches that follow each other. Any other symbol without rules derives the stretch of one token
that satisfies it.

Main statement: a row of symbols in two parts derives a stretch exactly if the stretch falls into two
that the parts derive (`derives_append_iff`).
-/

namespace ChartParser.Grammar

/-- The symbols derive the tokens from the first position up to the second. -/
inductive Derives (g : Grammar) (tokens : List Token) : List Symbol → Nat → Nat → Prop
  | nil (i : Nat) : Derives g tokens [] i i
  | marker {rest : List Symbol} {i j : Nat} :
      Derives g tokens rest i j →
      Derives g tokens (g.epsilon :: rest) i j
  | terminal {s : Symbol} {rest : List Symbol} {i j : Nat} {token : Token} :
      s ≠ g.epsilon → g.alternatives? s = none →
      tokens[i]? = some token → s ∈ g.terminalsFor token →
      Derives g tokens rest (i + 1) j →
      Derives g tokens (s :: rest) i j
  | rule {s : Symbol} {alternatives : List Alternative} {rhs : Alternative} {rest : List Symbol}
      {i k j : Nat} :
      s ≠ g.epsilon → g.alternatives? s = some alternatives → rhs ∈ alternatives →
      Derives g tokens rhs i k → Derives g tokens rest k j →
      Derives g tokens (s :: rest) i j

/-- A derived stretch does not end before it starts. -/
theorem Derives.le {g : Grammar} {tokens : List Token} {symbols : List Symbol} {i j : Nat}
    (h : Derives g tokens symbols i j) : i ≤ j := by
  induction h with
  | nil => exact Nat.le_refl _
  | marker _ ih => exact ih
  | terminal _ _ _ _ _ ih => omega
  | rule _ _ _ _ _ ihrhs ihrest => omega

theorem Derives.append {g : Grammar} {tokens : List Token} {first second : List Symbol}
    {i k j : Nat} (hfirst : Derives g tokens first i k) (hsecond : Derives g tokens second k j) :
    Derives g tokens (first ++ second) i j := by
  induction hfirst with
  | nil => exact hsecond
  | marker _ ih => exact .marker (ih hsecond)
  | terminal hne hterminal htoken hmem _ ih => exact .terminal hne hterminal htoken hmem (ih hsecond)
  | rule hne halternatives hmem hrhs _ _ ih => exact .rule hne halternatives hmem hrhs (ih hsecond)

/-- A row in two parts derives a stretch exactly if the stretch falls into two that the parts derive. -/
theorem derives_append_iff {g : Grammar} {tokens : List Token} {first second : List Symbol}
    {i j : Nat} :
    Derives g tokens (first ++ second) i j ↔
      ∃ k, Derives g tokens first i k ∧ Derives g tokens second k j := by
  constructor
  · intro h
    induction first generalizing i with
    | nil => exact ⟨i, .nil i, h⟩
    | cons s rest ih =>
      cases h with
      | marker hrest =>
        obtain ⟨k, hfirst, hsecond⟩ := ih hrest
        exact ⟨k, .marker hfirst, hsecond⟩
      | terminal hne hterminal htoken hmem hrest =>
        obtain ⟨k, hfirst, hsecond⟩ := ih hrest
        exact ⟨k, .terminal hne hterminal htoken hmem hfirst, hsecond⟩
      | rule hne halternatives hmem hrhs hrest =>
        obtain ⟨k, hfirst, hsecond⟩ := ih hrest
        exact ⟨k, .rule hne halternatives hmem hrhs hfirst, hsecond⟩
  · rintro ⟨k, hfirst, hsecond⟩
    exact hfirst.append hsecond

/-- The symbol can start at the position in a derivation from `root` that goes from the top down. -/
inductive Predicted (g : Grammar) (tokens : List Token) (root : Symbol) : Symbol → Nat → Prop
  | root : Predicted g tokens root root 0
  | next {a b : Symbol} {alternatives : List Alternative} {before after : List Symbol} {j i : Nat} :
      Predicted g tokens root a j →
      g.alternatives? a = some alternatives → before ++ b :: after ∈ alternatives →
      b ≠ g.epsilon → g.isNonterminal b = true →
      Derives g tokens before j i →
      Predicted g tokens root b i

/-- The symbol has an alternative of nothing but epsilon markers and symbols of this kind. -/
inductive Nullable (g : Grammar) : Symbol → Prop
  | intro {s : Symbol} {alternatives : List Alternative} {rhs : Alternative} :
      g.alternatives? s = some alternatives → rhs ∈ alternatives →
      (∀ t ∈ rhs, t ≠ g.epsilon → Nullable g t) →
      Nullable g s

end ChartParser.Grammar
