import ChartParser.Proofs.Tree.Soundness

/-!
# No tree is found twice

A tree shows what is left of an alternative once its markers are deleted. If no symbol has two
alternatives of which the same is left, then the tree of a derivation tells which item the derivation
is by: two items have no tree in common. So the children in a slot have no trees in common, nor have
the finished roots, and since a slot holds no child twice, no row of trees comes up twice either.
-/

namespace ChartParser

variable {g : Grammar} {tokens : List Token}

/-- Alternatives of one symbol that show the same are the same. -/
theorem Grammar.HasDistinctSolids.rhs_eq (h : g.HasDistinctSolids) {s : Symbol}
    {alternatives : List Alternative} (hs : g.alternatives? s = some alternatives)
    {rhs rhs' : Alternative} (hrhs : rhs ∈ alternatives) (hrhs' : rhs' ∈ alternatives)
    (hsame : g.solid rhs = g.solid rhs') : rhs = rhs' :=
  h (s, alternatives) (Parse.mem_entries_of_alternatives? hs) rhs hrhs rhs' hrhs' hsame

namespace Derivation

/-- The symbols of the parts of a production can be read off its tree. -/
theorem symbols_of_tree (lhs : Symbol) (rhs : Alternative) (left right : Nat)
    (parts : List Derivation) :
    ((production lhs rhs left right parts).tree.subtrees.filterMap fun t => t.root.symbol?) =
      parts.map symbol := by
  rw [tree_production]
  split
  · -- Matched input is no symbol.
    rename_i hnil
    simp [hnil, Label.symbol?]
  · simp [List.filterMap_map, tree_root, Label.symbol?]

/-- The tree of a derivation tells which item the derivation is by. -/
theorem By.rule_eq_of_tree_eq (hdistinct : g.HasDistinctSolids) {d d' : Derivation}
    (h : By g tokens d) (h' : By g tokens d') (htree : d.tree = d'.tree) : d.rule = d'.rule := by
  -- Symbol and span stand at the root of the tree.
  have hsymbol : d.symbol = d'.symbol := by
    have hroot := congrArg ParseTree.root htree
    rw [tree_root, tree_root] at hroot
    exact Label.symbol.inj hroot
  have hleft : d.left = d'.left := by rw [← tree_left, htree, tree_left]
  have hright : d.right = d'.right := by rw [← tree_right, htree, tree_right]
  cases h with
  | @token name word position hnone hword =>
    obtain rfl : name = d'.symbol := hsymbol
    obtain rfl : position = d'.left := hleft
    cases h' with
    | token _ hword' =>
      obtain rfl := Option.some.inj (hword.symm.trans hword')
      rfl
    | production halternatives' =>
      -- What has rules is no terminal.
      rw [symbol, halternatives'] at hnone
      cases hnone
  | @production lhs alternatives rhs l r parts halternatives hrhs hsymbols =>
    cases h' with
    | token hnone' =>
      obtain rfl : lhs = _ := hsymbol
      rw [halternatives] at hnone'
      cases hnone'
    | @production lhs' alternatives' rhs' l' r' parts' halternatives' hrhs' hsymbols' =>
      obtain rfl : lhs = lhs' := hsymbol
      obtain rfl : l = l' := hleft
      obtain rfl : r = r' := hright
      obtain rfl := Option.some.inj (halternatives.symm.trans halternatives')
      -- Both alternatives show the symbols below the root, so they are one.
      have hsolid : g.solid rhs = g.solid rhs' := by
        rw [← hsymbols, ← hsymbols', ← symbols_of_tree lhs rhs l r parts,
          ← symbols_of_tree lhs rhs' l r parts', htree]
      obtain rfl := hdistinct.rhs_eq halternatives hrhs hrhs' hsolid
      rfl

end Derivation

namespace Parse

open ChartParser.Derivation

variable {root : Symbol} {chart : Chart} {id id' : ItemId} {item : Item} {path : List ItemId}
variable {above above' : List Use} {steps : Nat} {trees : List ParseTree} {t : ParseTree}

/-! ## Trees of different items -/

/-- Two items have no tree in common, wherever they are reached. -/
theorem IsDerived.id_eq (hdistinct : g.HasDistinctSolids) (hwf : chart.WellFormed)
    (h : IsDerived g tokens chart above id t) (h' : IsDerived g tokens chart above' id' t) :
    id = id' := by
  obtain ⟨d, hby, hholds, _, htree⟩ := h
  obtain ⟨d', hby', hholds', _, htree'⟩ := h'
  obtain ⟨item, hitem, hrule⟩ := Chart.holds_eq_true_iff.1 hholds
  obtain ⟨item', hitem', hrule'⟩ := Chart.holds_eq_true_iff.1 hholds'
  -- One tree means one dotted rule, and no dotted rule has two numbers.
  have hsame := hby.rule_eq_of_tree_eq hdistinct hby' (htree.trans htree'.symm)
  exact hwf.distinct hitem hitem' (hrule.trans (hsame.trans hrule'.symm))

/-! ## Trees of one item -/

theorem node_injective (item : Item) : Function.Injective item.node := fun _ _ h =>
  congrArg ParseTree.subtrees h

theorem nodup_of_isLeaf (hitem : chart.items[id]? = some item) (hleaf : item.isLeaf = true)
    (htrees : chart.treesAlong steps path id = .ok trees) : trees.Nodup := by
  rw [Chart.treesAlong_of_isLeaf hitem hleaf] at htrees
  cases htrees
  exact List.nodup_singleton _

/-- A slot offers no tree twice if each of its children offers none twice. -/
theorem Converged.nodup_slotTrees (h : Converged g tokens root chart)
    (hdistinct : g.HasDistinctSolids) (hpath : PathUses g chart path above) {slot : Slot}
    (hchildren : ∀ child ∈ slot.ids, ∃ item : Item, chart.items[child]? = some item ∧
      item.isComplete = true)
    (hnodup : ∀ child ∈ slot.ids, child ∉ path → ∀ found,
      chart.treesAlong steps path child = .ok found → found.Nodup)
    (htrees : slot.collect path (chart.treesAlong steps path) = .ok trees) : trees.Nodup := by
  obtain ⟨found, hfound, rfl⟩ := Slot.collect_eq_ok_iff.1 htrees
  have hmem : ∀ {child}, child ∈ slot.ids.filter (fun child => child ∉ path) →
      child ∈ slot.ids ∧ child ∉ path := by
    intro child hchild
    simpa using hchild
  refine nodup_flatten_of_mapM_eq_ok hfound (slot.ids_nodup.filter _) (fun child hchild => ?_) ?_
  · exact hnodup child (hmem hchild).1 (hmem hchild).2
  · -- Two children that share a tree are one.
    intro child hchild child' hchild' trees trees' htrees htrees' t ht ht'
    obtain ⟨item, hitem, hcomplete⟩ := hchildren child (hmem hchild).1
    obtain ⟨item', hitem', hcomplete'⟩ := hchildren child' (hmem hchild').1
    exact (h.isDerived hpath hitem hcomplete (hmem hchild).2 htrees ht).id_eq hdistinct h.wellFormed
      (h.isDerived hpath hitem' hcomplete' (hmem hchild').2 htrees' ht')

/-- An extraction from a complete item finds no tree twice. -/
theorem Converged.nodup_treesAlong (h : Converged g tokens root chart)
    (hdistinct : g.HasDistinctSolids) (hpath : PathUses g chart path above)
    (hitem : chart.items[id]? = some item) (hcomplete : item.isComplete = true)
    (htrees : chart.treesAlong steps path id = .ok trees) : trees.Nodup := by
  induction steps generalizing path above id item trees with
  | zero =>
    cases hleaf : item.isLeaf with
    | true => exact nodup_of_isLeaf hitem hleaf htrees
    | false => exact absurd htrees (Chart.treesAlong_zero_ne_ok hitem hleaf)
  | succ steps ih =>
    cases hleaf : item.isLeaf with
    | true => exact nodup_of_isLeaf hitem hleaf htrees
    | false =>
      have hnonterminal := h.isNonterminal_of_not_isLeaf hitem hleaf
      have hrule := (h.sound hitem).fromRule_iff.2 hnonterminal
      have hpath' : PathUses g chart (id :: path) (item.use :: above) :=
        .cons ⟨item, hitem, hcomplete, hnonterminal, rfl⟩ hpath
      obtain ⟨choices, hchoices, rfl⟩ := (Chart.treesAlong_succ_eq_ok_iff hitem hleaf).1 htrees
      -- A row is chosen in one way only if no list to choose from holds a tree twice.
      refine (ParseTree.nodup_chains fun choice hchoice => ?_).map (node_injective item)
      -- Each list to choose from comes from one slot, whose children are complete items.
      obtain ⟨slot, hslot, hslotTrees⟩ := (mem_of_mapM_eq_ok hchoices).1 hchoice
      obtain ⟨k, hk⟩ := List.mem_iff_getElem?.1 (List.mem_filter.1 hslot).1
      have hchildren : ∀ child ∈ slot.ids, ∃ item : Item, chart.items[child]? = some item ∧
          item.isComplete = true := by
        intro childId hmem
        obtain ⟨child, hchild, hfits⟩ := (h.hasChild_iff hitem hrule).1 ⟨slot, hk, hmem⟩
        exact ⟨child, hchild, hfits.complete⟩
      refine h.nodup_slotTrees hdistinct hpath' hchildren ?_ hslotTrees
      intro childId hmem _ found hfound
      obtain ⟨child, hchild, hchildComplete⟩ := hchildren childId hmem
      exact ih hpath' hchild hchildComplete hfound

/-! ## The trees of the input -/

theorem Converged.nodup_trees (h : Converged g tokens root chart) (hdistinct : g.HasDistinctSolids)
    {q : Symbol} (htrees : chart.trees q = .ok trees) : trees.Nodup := by
  obtain ⟨found, hfound, rfl⟩ := Chart.trees_eq_ok_iff.1 htrees
  refine nodup_flatten_of_mapM_eq_ok hfound (h.nodup_finishedRoots q) (fun id hid row hrow => ?_) ?_
  · obtain ⟨item, hitem, hcomplete, _⟩ := h.mem_finishedRoots_iff.1 hid
    exact h.nodup_treesAlong hdistinct .nil hitem hcomplete hrow
  · intro id hid id' hid' row row' hrow hrow' t ht ht'
    obtain ⟨item, hitem, hcomplete, _⟩ := h.mem_finishedRoots_iff.1 hid
    obtain ⟨item', hitem', hcomplete', _⟩ := h.mem_finishedRoots_iff.1 hid'
    exact (h.isDerived .nil hitem hcomplete List.not_mem_nil hrow ht).id_eq hdistinct h.wellFormed
      (h.isDerived .nil hitem' hcomplete' List.not_mem_nil hrow' ht')

/-- If no symbol has two alternatives that differ in their markers only, no tree is found twice: not
among the trees of the input, for whatever symbol, and not among those of any complete item. -/
theorem parse_trees_nodup {g : Grammar} (hdistinct : g.HasDistinctSolids) (tokens : List Token)
    (root : Symbol) :
    ∃ chart, parse g tokens root = .ok chart ∧
      (∀ q, ∃ trees, chart.trees q = .ok trees ∧ trees.Nodup) ∧
      ∀ (id : ItemId) (item : Item), chart.items[id]? = some item → item.isComplete = true →
        ∃ trees, chart.treesOf id = .ok trees ∧ trees.Nodup := by
  obtain ⟨chart, hparse, h⟩ := exists_parse g tokens root
  refine ⟨chart, hparse, fun q => ?_, fun id item hitem hcomplete => ?_⟩
  · obtain ⟨trees, htrees⟩ := h.exists_trees q
    exact ⟨trees, htrees, h.nodup_trees hdistinct htrees⟩
  · obtain ⟨trees, htrees⟩ := h.exists_treesOf hitem
    exact ⟨trees, htrees, h.nodup_treesAlong hdistinct .nil hitem hcomplete htrees⟩

/-- Rows of a letter, grouped in pairs in any way, with gaps of nothing between them. -/
def pairings : Grammar where
  rules := ⟨[("S", [["S", "S"], ["a"], [Grammar.defaultEpsilon]])], by simp⟩
  epsilon := Grammar.defaultEpsilon
  classifier := none

/-- Of the many trees of two letters, cyclic derivations cut short, none is found twice. -/
theorem pairings_trees_nodup :
    pairings.HasDistinctSolids ∧ ∃ chart, parse pairings ["a", "a"] "S" = .ok chart ∧
      (∀ q, ∃ trees, chart.trees q = .ok trees ∧ trees.Nodup) ∧
      ∀ (id : ItemId) (item : Item), chart.items[id]? = some item → item.isComplete = true →
        ∃ trees, chart.treesOf id = .ok trees ∧ trees.Nodup :=
  have hdistinct : pairings.HasDistinctSolids := by decide
  ⟨hdistinct, parse_trees_nodup hdistinct ["a", "a"] "S"⟩

end Parse

end ChartParser
