import ChartParser.Proofs.Tree.Completeness

/-!
# Every complete item has a tree

An extraction passes over the children on its path, and with them it may pass over all children in some
slot. It never passes over every tree of an item, though. Where a derivation repeats a use on a path,
the lower part can stand in for the upper one, which makes the derivation smaller and leaves the use at
its root as it is. So a smallest derivation by an item repeats no use, and its tree is found.
-/

namespace ChartParser

open Grammar

variable {g : Grammar} {tokens : List Token}

namespace Derivation

/-! ## Derivations of what is derived -/

/-- Symbols that derive a stretch do so by a row of derivations, one for each that is not a marker. -/
theorem exists_row_of_derives {symbols : List Symbol} {i j : Nat}
    (h : g.Derives tokens symbols i j) :
    ∃ parts : List Derivation, parts.map symbol = g.solid symbols ∧ ParseTree.Joins i (parts.map tree) j ∧
      ∀ part ∈ parts, By g tokens part := by
  induction h with
  | nil i => exact ⟨[], rfl, rfl, fun _ hpart => absurd hpart List.not_mem_nil⟩
  | marker _ ih =>
    obtain ⟨parts, hsymbols, hjoins, hparts⟩ := ih
    refine ⟨parts, ?_, hjoins, hparts⟩
    rw [hsymbols, solid_marker_cons]
  | @terminal s rest i j word hne hnone hword hmem _ ih =>
    obtain ⟨parts, hsymbols, hjoins, hparts⟩ := ih
    refine ⟨token s word i :: parts, ?_, ⟨rfl, hjoins⟩, List.forall_mem_cons.2 ⟨?_, hparts⟩⟩
    · rw [List.map_cons, hsymbols, solid_cons_of_ne hne]
      rfl
    · exact .token hnone hword hmem
  | @rule s alternatives rhs rest i k j hne halternatives hrhs _ _ ihrhs ihrest =>
    obtain ⟨below, hsymbols, hjoins, hbelow⟩ := ihrhs
    obtain ⟨parts, hsymbols', hjoins', hparts⟩ := ihrest
    -- The row of the alternative becomes the parts of one production.
    refine ⟨production s rhs i k below :: parts, ?_, ⟨tree_left _, ?_⟩,
      List.forall_mem_cons.2 ⟨?_, hparts⟩⟩
    · rw [List.map_cons, hsymbols', solid_cons_of_ne hne]
      rfl
    · rwa [tree_right]
    · exact .production halternatives hrhs hsymbols hjoins hbelow

/-! ## Exchanging parts -/

variable {lhs : Symbol} {rhs : Alternative} {l r : Nat}
variable {before after parts : List Derivation} {part part' : Derivation}

/-- A production with parts counts for these and one node more. -/
theorem size_tree_production (hparts : parts ≠ []) :
    (production lhs rhs l r parts).tree.size = 1 + ParseTree.forestSize (parts.map tree) := by
  rw [tree_production, if_neg hparts, ParseTree.size_eq]

theorem forestSize_exchange (before after : List Derivation) (part part' : Derivation) :
    ParseTree.forestSize ((before ++ part :: after).map tree) + part'.tree.size =
      ParseTree.forestSize ((before ++ part' :: after).map tree) + part.tree.size := by
  simp only [List.map_append, List.map_cons, ParseTree.forestSize_append, ParseTree.forestSize]
  omega

/-- A part is smaller than the whole. -/
theorem size_tree_lt (hpart : part ∈ parts) :
    part.tree.size < (production lhs rhs l r parts).tree.size := by
  rw [size_tree_production (List.ne_nil_of_mem hpart)]
  obtain ⟨before, after, rfl⟩ := List.append_of_mem hpart
  simp only [List.map_append, List.map_cons, ParseTree.forestSize_append, ParseTree.forestSize]
  omega

/-- A part can be exchanged for any other derivation of the same symbol over the same stretch. -/
theorem By.exchange (h : By g tokens (.production lhs rhs l r (before ++ part :: after)))
    (hpart' : By g tokens part') (hrule : part'.rule = part.rule) :
    By g tokens (.production lhs rhs l r (before ++ part' :: after)) := by
  have hsymbol : part'.symbol = part.symbol := by rw [← rule_lhs, hrule, rule_lhs]
  have hleft : part'.tree.left = part.tree.left := by
    rw [tree_left, tree_left, ← rule_origin, hrule, rule_origin]
  have hright : part'.tree.right = part.tree.right := by
    rw [tree_right, tree_right, ← rule_current, hrule, rule_current]
  cases h with
  | production halternatives hrhs hsymbols hjoins hparts =>
    refine .production halternatives hrhs ?_ ?_ fun d hd => ?_
    · rw [← hsymbols, List.map_append, List.map_append, List.map_cons, List.map_cons, hsymbol]
    · rw [List.map_append, List.map_cons, ParseTree.joins_append_iff] at hjoins ⊢
      simpa only [ParseTree.Joins, hleft, hright] using hjoins
    · rcases List.mem_append.1 hd with hd | hd
      · exact hparts d (List.mem_append_left _ hd)
      rcases List.mem_cons.1 hd with rfl | hd
      · exact hpart'
      · exact hparts d (List.mem_append_right _ (List.mem_cons_of_mem _ hd))

/-! ## Smallest derivations -/

/-- No derivation by the same item has fewer nodes. -/
structure IsSmallest (g : Grammar) (tokens : List Token) (d : Derivation) : Prop where
  by_grammar : By g tokens d
  size_le : ∀ {d' : Derivation}, By g tokens d' → d'.rule = d.rule → d.tree.size ≤ d'.tree.size

theorem By.exists_isSmallest {d : Derivation} (h : By g tokens d) :
    ∃ d', IsSmallest g tokens d' ∧ d'.rule = d.rule := by
  -- As long as some derivation by the same item is smaller, go on with that one.
  induction hn : d.tree.size using Nat.strong_induction_on generalizing d with
  | _ n ih =>
    by_cases hsmaller : ∃ d', By g tokens d' ∧ d'.rule = d.rule ∧ d'.tree.size < d.tree.size
    · obtain ⟨d', hby, hrule, hlt⟩ := hsmaller
      obtain ⟨d'', hsmallest, hrule'⟩ := ih _ (hn ▸ hlt) hby rfl
      exact ⟨d'', hsmallest, hrule'.trans hrule⟩
    · exact ⟨d, ⟨h, fun hby hrule => Nat.le_of_not_lt fun hlt => hsmaller ⟨_, hby, hrule, hlt⟩⟩, rfl⟩

/-- The parts of a smallest derivation are smallest, since each could be exchanged. -/
theorem IsSmallest.of_mem (h : IsSmallest g tokens (production lhs rhs l r parts))
    (hpart : part ∈ parts) : IsSmallest g tokens part := by
  have hby : By g tokens part := by
    cases h.by_grammar with
    | production _ _ _ _ hparts => exact hparts part hpart
  refine ⟨hby, fun {part'} hby' hrule => ?_⟩
  obtain ⟨before, after, rfl⟩ := List.append_of_mem hpart
  have hle := h.size_le (h.by_grammar.exchange hby' hrule) rfl
  rw [size_tree_production (by simp), size_tree_production (by simp)] at hle
  have hsize := forestSize_exchange before after part part'
  omega

/-- A smallest derivation repeats no use on a path. What is carried down is that every derivation by a
use above is greater, so none of these uses is made again. -/
theorem IsSmallest.isFresh {d : Derivation} (h : IsSmallest g tokens d) {above : List Use}
    (habove : ∀ use ∈ above, ∀ parts,
      By g tokens (production use.lhs use.rhs use.left use.right parts) →
      d.tree.size < (production use.lhs use.rhs use.left use.right parts).tree.size) :
    d.isFresh above = true := by
  have hby := h.by_grammar
  induction hby generalizing above with
  | token => rfl
  | @production lhs alternatives rhs l r parts _ _ _ _ _ ih =>
    rw [Derivation.isFresh, Bool.and_eq_true, decide_eq_true_eq, Parse.areFresh_eq_true_iff]
    constructor
    · -- Made again, the use would have a derivation that is no greater, namely this one.
      intro huse
      exact Nat.lt_irrefl _ (habove _ huse parts h.by_grammar)
    · intro part hpart
      refine ih part hpart (h.of_mem hpart) fun use huse parts' hby' => ?_
      have hlt : part.tree.size < (production lhs rhs l r parts).tree.size := size_tree_lt hpart
      rcases List.mem_cons.1 huse with rfl | huse
      · -- The use of the whole: its derivations are no smaller than this one.
        exact Nat.lt_of_lt_of_le hlt (h.size_le hby' rfl)
      · exact Nat.lt_trans hlt (habove use huse parts' hby')

/-- Where there is a derivation, there is one by the same item that repeats no use on a path. -/
theorem By.exists_isFresh {d : Derivation} (h : By g tokens d) :
    ∃ d', By g tokens d' ∧ d'.rule = d.rule ∧ d'.isFresh [] = true := by
  obtain ⟨d', hsmallest, hrule⟩ := h.exists_isSmallest
  refine ⟨d', hsmallest.by_grammar, hrule, hsmallest.isFresh fun use huse => ?_⟩
  exact absurd huse List.not_mem_nil

end Derivation

namespace Parse

open ChartParser.Derivation

variable {root : Symbol} {chart : Chart} {id : ItemId} {item : Item} {trees : List ParseTree}

/-! ## Trees of complete items -/

/-- A complete item stands for some derivation. -/
theorem Sound.exists_derivation (h : Sound g tokens root chart item)
    (hcomplete : item.isComplete = true) : ∃ d, By g tokens d ∧ d.rule = item.toDottedRule := by
  rcases h.source with hrule | htoken
  · -- The symbols before the dot are the whole alternative.
    obtain ⟨alternatives, halternatives, hrhs⟩ := hrule.rule
    have hdot := DottedRule.isComplete_eq_true_iff.1 hcomplete
    have hderives := hrule.derives
    rw [hdot, Alternative.part_zero_length] at hderives
    obtain ⟨parts, hsymbols, hjoins, hparts⟩ := exists_row_of_derives hderives
    exact ⟨production item.lhs item.rhs item.origin item.current parts,
      .production halternatives hrhs hsymbols hjoins hparts, DottedRule.ext rfl rfl hdot.symm rfl rfl⟩
  · obtain ⟨word, hword, hmem, hr⟩ := htoken.scanned
    exact ⟨token item.lhs word item.origin, .token htoken.terminal hword hmem, hr.symm⟩

/-- An extraction from a complete item finds some tree. -/
theorem Converged.trees_ne_nil (h : Converged g tokens root chart)
    (hitem : chart.items[id]? = some item) (hcomplete : item.isComplete = true)
    (htrees : chart.treesOf id = .ok trees) : trees ≠ [] := by
  obtain ⟨d, hby, hrule⟩ := (h.sound hitem).exists_derivation hcomplete
  obtain ⟨d', hby', hrule', hfresh⟩ := hby.exists_isFresh
  have hmem : d'.tree ∈ trees :=
    h.tree_mem .nil hitem hby' (hrule'.trans hrule).symm hfresh htrees
  exact List.ne_nil_of_mem hmem

/-- Passing over children never loses the last tree: every complete item of a parse has one. So there
are trees of the input for a symbol exactly if the input is accepted for it. -/
theorem parse_has_trees (g : Grammar) (tokens : List Token) (root : Symbol) :
    ∃ chart, parse g tokens root = .ok chart ∧
      (∀ (id : ItemId) (item : Item), chart.items[id]? = some item → item.isComplete = true →
        ∃ trees, chart.treesOf id = .ok trees ∧ trees ≠ []) ∧
      ∀ q, ∃ trees, chart.trees q = .ok trees ∧ (chart.accepts q = true ↔ trees ≠ []) := by
  obtain ⟨chart, hparse, h⟩ := exists_parse g tokens root
  refine ⟨chart, hparse, fun id item hitem hcomplete => ?_, fun q => ?_⟩
  · obtain ⟨trees, htrees⟩ := h.exists_treesOf hitem
    exact ⟨trees, htrees, h.trees_ne_nil hitem hcomplete htrees⟩
  · obtain ⟨trees, htrees⟩ := h.exists_trees q
    refine ⟨trees, htrees, ?_⟩
    rw [accepts_eq_true_iff]
    constructor
    · rintro ⟨id, hid⟩
      -- The trees of any finished root are among those of the input.
      obtain ⟨item, hitem, hcomplete, _⟩ := h.mem_finishedRoots_iff.1 hid
      obtain ⟨found, hfound⟩ := h.exists_treesOf hitem
      obtain ⟨t, ht⟩ := List.exists_mem_of_ne_nil _ (h.trees_ne_nil hitem hcomplete hfound)
      exact List.ne_nil_of_mem ((Chart.mem_trees_iff htrees).2 ⟨id, hid, found, hfound, ht⟩)
    · intro hne
      obtain ⟨t, ht⟩ := List.exists_mem_of_ne_nil _ hne
      obtain ⟨id, hid, _⟩ := (Chart.mem_trees_iff htrees).1 ht
      exact ⟨id, hid⟩

end Parse

end ChartParser
