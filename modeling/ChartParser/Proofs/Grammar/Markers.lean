import ChartParser.Grammar.Markers
import ChartParser.Proofs.Grammar.Parts

/-!
# Deleting the markers

A grammar without its markers derives what the grammar derives. Its alternatives show all there is of
them, so it has no two that show the same.
-/

namespace ChartParser.Grammar

variable {g : Grammar} {tokens : List Token} {i j : Nat}

/-! ## Derivations -/

/-- What is left of a row without its markers derives the same. -/
theorem derives_solid_iff {symbols : List Symbol} :
    g.Derives tokens (g.solid symbols) i j ↔ g.Derives tokens symbols i j := by
  -- A marker at the front derives nothing and is deleted, any other symbol stays in front.
  induction symbols generalizing i with
  | nil => rfl
  | cons s rest ih =>
    by_cases hs : s = g.epsilon
    · subst hs
      rw [solid_marker_cons, derives_cons_iff, ih]
      simp only [derives_marker_iff, exists_eq_left']
    · rw [solid_cons_of_ne hs, derives_cons_iff, derives_cons_iff]
      simp only [ih]

theorem alternatives?_eraseMarkers_eq_some_iff {s : Symbol} {alternatives : List Alternative} :
    g.eraseMarkers.alternatives? s = some alternatives ↔
      ∃ before, g.alternatives? s = some before ∧ before.map g.solid = alternatives := by
  simp

@[simp] theorem isNonterminal_eraseMarkers (g : Grammar) (s : Symbol) :
    g.eraseMarkers.isNonterminal s = g.isNonterminal s := by
  show (g.eraseMarkers.alternatives? s).isSome = (g.alternatives? s).isSome
  simp

/-- Deleting the markers of a grammar changes nothing in what it derives. -/
theorem derives_eraseMarkers_iff {symbols : List Symbol} :
    g.eraseMarkers.Derives tokens symbols i j ↔ g.Derives tokens symbols i j := by
  constructor
  · -- The rules are the same but for the markers in their alternatives, so each step of a derivation is
    -- one of the other grammar.
    intro h
    induction h with
    | nil i => exact .nil i
    | marker _ ih => exact .marker ih
    | terminal hne hnone hword hmem _ ih =>
      exact .terminal hne (by simpa using hnone) hword hmem ih
    | rule hne halternatives hrhs _ _ ihrhs ihrest =>
      obtain ⟨before, hbefore, rfl⟩ := alternatives?_eraseMarkers_eq_some_iff.1 halternatives
      obtain ⟨rhs, hmem, rfl⟩ := List.mem_map.1 hrhs
      exact .rule hne hbefore hmem (derives_solid_iff.1 ihrhs) ihrest
  · intro h
    induction h with
    | nil i => exact .nil i
    | marker _ ih => exact .marker ih
    | terminal hne hnone hword hmem _ ih =>
      exact .terminal hne (by simpa using hnone) hword hmem ih
    | rule hne halternatives hrhs _ _ ihrhs ihrest =>
      refine .rule hne (alternatives?_eraseMarkers_eq_some_iff.2 ⟨_, halternatives, rfl⟩)
        (List.mem_map_of_mem hrhs) ?_ ihrest
      -- Deleting markers keeps what is a marker, so the fact holds for the new grammar as well.
      exact (derives_solid_iff (g := g.eraseMarkers)).2 ihrhs

/-- Some alternative of a symbol derives a stretch with the markers exactly if one does without. -/
theorem exists_alternative_eraseMarkers_iff {s : Symbol} :
    (∃ alternatives, g.eraseMarkers.alternatives? s = some alternatives ∧
      ∃ rhs ∈ alternatives, g.eraseMarkers.Derives tokens rhs i j) ↔
    ∃ alternatives, g.alternatives? s = some alternatives ∧
      ∃ rhs ∈ alternatives, g.Derives tokens rhs i j := by
  simp only [derives_eraseMarkers_iff]
  constructor
  · rintro ⟨_, halternatives, _, hrhs, hderives⟩
    obtain ⟨before, hbefore, rfl⟩ := alternatives?_eraseMarkers_eq_some_iff.1 halternatives
    obtain ⟨rhs, hmem, rfl⟩ := List.mem_map.1 hrhs
    exact ⟨before, hbefore, rhs, hmem, derives_solid_iff.1 hderives⟩
  · rintro ⟨alternatives, halternatives, rhs, hrhs, hderives⟩
    exact ⟨alternatives.map g.solid, alternatives?_eraseMarkers_eq_some_iff.2 ⟨_, halternatives, rfl⟩,
      g.solid rhs, List.mem_map_of_mem hrhs, derives_solid_iff.2 hderives⟩

/-! ## Alternatives -/

@[simp] theorem solid_solid (g : Grammar) (rhs : Alternative) : g.solid (g.solid rhs) = g.solid rhs := by
  simp [solid]

/-- Without markers, no two alternatives of a symbol show the same. -/
theorem hasDistinctSolids_eraseMarkers (g : Grammar) : g.eraseMarkers.HasDistinctSolids := by
  rintro entry hentry rhs hrhs rhs' hrhs' hsame
  obtain ⟨⟨s, alternatives⟩, _, rfl⟩ := List.mem_map.1 hentry
  obtain ⟨before, _, rfl⟩ := List.mem_map.1 hrhs
  obtain ⟨before', _, rfl⟩ := List.mem_map.1 hrhs'
  -- Nothing is left to delete, so what the two show is what they are.
  show g.solid before = g.solid before'
  rw [← solid_solid g before, ← solid_solid g before']
  exact hsame

end ChartParser.Grammar
