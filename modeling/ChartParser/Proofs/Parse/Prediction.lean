import ChartParser.Proofs.Parse.Backpointers

/-!
# What a parse predicts

A parse works from the top down: it begins an alternative only where some derivation from the root has
a use for its symbol, and it begins all alternatives of the symbol there. Which uses there are depends
on what the symbols before it derive, and what they derive is found out by the same parse, in the same
column if it is the empty stretch; but the chart that comes out has exactly the beginnings that the
grammar and the input call for.
-/

namespace ChartParser.Parse

variable {g : Grammar} {tokens : List Token} {root : Symbol} {chart : Chart}

/-! ## Where symbols are due -/

/-- A symbol with rules is due wherever one of its items starts. -/
theorem Sound.predicted {item : Item} (h : Sound g tokens root chart item)
    (hnonterminal : g.isNonterminal item.lhs = true) :
    g.Predicted tokens root item.lhs item.origin :=
  (h.fromRule_iff.2 hnonterminal).predicted

/-- An alternative is begun exactly where its symbol is due, in the column of that position. -/
theorem Converged.begun_iff_predicted (h : Converged g tokens root chart) {s : Symbol}
    {alternatives : List Alternative} (halternatives : g.alternatives? s = some alternatives)
    {rhs : Alternative} (hrhs : rhs ∈ alternatives) {i : Nat} :
    (∃ ids id item, chart.columns[i]? = some ids ∧ id ∈ ids ∧ chart.items[id]? = some item ∧
      item.toDottedRule = .predicted g s rhs i) ↔ g.Predicted tokens root s i := by
  constructor
  · rintro ⟨_, id, item, _, _, hitem, hrule⟩
    have hlhs : item.lhs = s := by rw [hrule]; rfl
    have horigin : item.origin = i := by rw [hrule]; rfl
    rw [← hlhs, ← horigin]
    refine (h.sound hitem).predicted (Grammar.isNonterminal_eq_true_iff.2 ⟨alternatives, ?_⟩)
    rwa [hlhs]
  · intro hpredicted
    obtain ⟨id, item, hitem, hrule⟩ := h.exists_predicted hpredicted halternatives hrhs
    -- A beginning spans nothing, so it is listed in the column where it starts.
    obtain ⟨ids, hids, hmem⟩ := h.wellFormed.filed hitem
    rw [hrule] at hids
    exact ⟨ids, id, item, hids, hmem, hitem, hrule⟩

/-! ## Exact prediction -/

/-- The alternatives of a symbol are begun at exactly the positions where the symbol can start in a
derivation from the root that goes from the top down, and no item of the symbol starts anywhere
else. -/
theorem parse_predicts_exactly (g : Grammar) (tokens : List Token) (root : Symbol) :
    ∃ chart, parse g tokens root = .ok chart ∧
      ∀ s alternatives, g.alternatives? s = some alternatives →
        (∀ rhs ∈ alternatives, ∀ i,
          (∃ ids id item, chart.columns[i]? = some ids ∧ id ∈ ids ∧ chart.items[id]? = some item ∧
            item.toDottedRule = .predicted g s rhs i) ↔ g.Predicted tokens root s i) ∧
        ∀ (id : ItemId) (item : Item), chart.items[id]? = some item → item.lhs = s →
          g.Predicted tokens root s item.origin := by
  obtain ⟨chart, hparse, h⟩ := exists_parse g tokens root
  refine ⟨chart, hparse, fun s alternatives halternatives => ⟨fun rhs hrhs i => ?_, ?_⟩⟩
  · exact h.begun_iff_predicted halternatives hrhs
  · rintro id item hitem rfl
    exact (h.sound hitem).predicted (Grammar.isNonterminal_eq_true_iff.2 ⟨alternatives, halternatives⟩)

end ChartParser.Parse
