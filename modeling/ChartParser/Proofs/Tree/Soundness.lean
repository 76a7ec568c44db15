import ChartParser.Proofs.Parse.Backpointers
import ChartParser.Proofs.Parse.Recognition
import ChartParser.Proofs.Tree.Derivations
import ChartParser.Proofs.Tree.Traversal

/-!
# The trees of a parse are those of derivations

Whatever trees an extraction picks from the slots of an item, if they follow each other without a gap
they fill its alternative: a child fits its slot on its own account, not together with other children.
So a tree that is found is the tree of a derivation. The derivation does not repeat a use on a path,
because the numbers on a path are those of different items, and the uses of complete items are as
different as their numbers.
-/

namespace ChartParser

/-- The alternative over the stretch that the item stands for. -/
def Item.use (item : Item) : Derivation.Use := ⟨item.lhs, item.rhs, item.origin, item.current⟩

namespace Parse

open ChartParser.Derivation

variable {g : Grammar} {tokens : List Token} {root : Symbol} {chart : Chart}
variable {id : ItemId} {item : Item} {path : List ItemId} {above : List Use} {steps : Nat}
variable {trees : List ParseTree} {t : ParseTree}

/-! ## Paths -/

/-- A path through complete items of rules, with their uses. -/
def PathUses (g : Grammar) (chart : Chart) (path : List ItemId) (above : List Use) : Prop :=
  List.Forall₂ (fun id use => ∃ item : Item, chart.items[id]? = some item ∧ item.isComplete = true ∧
    g.isNonterminal item.lhs = true ∧ item.use = use) path above

theorem PathUses.of_mem (hpath : PathUses g chart path above) (hitem : chart.items[id]? = some item)
    (hid : id ∈ path) : g.isNonterminal item.lhs = true ∧ item.use ∈ above := by
  induction hpath with
  | nil => exact absurd hid List.not_mem_nil
  | cons hhead _ ih =>
    rcases List.mem_cons.1 hid with rfl | hid
    · obtain ⟨item', hitem', _, hnonterminal, rfl⟩ := hhead
      obtain rfl := Option.some.inj (hitem.symm.trans hitem')
      exact ⟨hnonterminal, List.mem_cons_self⟩
    · exact (ih hid).imp_right fun h => List.mem_cons_of_mem _ h

/-- Complete items with one use are one item. -/
theorem PathUses.mem_of_use (hpath : PathUses g chart path above) (hwf : chart.WellFormed)
    (hitem : chart.items[id]? = some item) (hcomplete : item.isComplete = true)
    (huse : item.use ∈ above) : id ∈ path := by
  induction hpath with
  | nil => exact absurd huse List.not_mem_nil
  | cons hhead _ ih =>
    rcases List.mem_cons.1 huse with hsame | huse
    · obtain ⟨item', hitem', hcomplete', _, hsame'⟩ := hhead
      rw [← hsame', Item.use, Item.use, Use.mk.injEq] at hsame
      obtain ⟨hlhs, hrhs, horigin, hcurrent⟩ := hsame
      -- The dot of a complete item is at the end of its alternative.
      have hdot : item.dot = item'.dot := by
        rw [DottedRule.isComplete_eq_true_iff.1 hcomplete,
          DottedRule.isComplete_eq_true_iff.1 hcomplete', hrhs]
      obtain rfl := hwf.distinct hitem hitem' (DottedRule.ext hlhs hrhs hdot horigin hcurrent)
      exact List.mem_cons_self
    · exact List.mem_cons_of_mem _ (ih huse)

/-! ## Slots of complete items -/

/-- The slots of a complete item that have children go along with the symbols that are not markers. -/
theorem Converged.fills_iff_openSlots (h : Converged g tokens root chart)
    (hitem : chart.items[id]? = some item) (hrule : FromRule g tokens root item.toDottedRule)
    (hcomplete : item.isComplete = true) {α : Type} {P : Slot → α → Prop} {row : List α} :
    g.Fills item.rhs (fun k a => ∃ slot, item.slots[k]? = some slot ∧ P slot a) 0 row ↔
      List.Forall₂ P item.openSlots row := by
  have hdot := DottedRule.isComplete_eq_true_iff.1 hcomplete
  refine Grammar.fills_iff_forall₂_filter item.slots_length fun k slot hslot => ?_
  have hlt := (List.getElem?_eq_some_iff.1 hslot).1
  rw [item.slots_length] at hlt
  -- All positions are behind the dot, so an empty slot is that of a marker.
  rw [Bool.not_eq_false', Slot.isEmpty, List.isEmpty_iff, h.slot_eq_nil_iff hitem hrule hslot]
  exact or_iff_right (by omega)

/-- A complete item is a leaf if there are only markers in its alternative. -/
theorem Converged.isLeaf_iff (h : Converged g tokens root chart)
    (hitem : chart.items[id]? = some item) (hrule : FromRule g tokens root item.toDottedRule)
    (hcomplete : item.isComplete = true) : item.isLeaf = true ↔ g.solid item.rhs = [] := by
  have hslots : g.Fills item.rhs (fun k _ => ∃ slot, item.slots[k]? = some slot ∧ True) 0 [] ↔
      List.Forall₂ (fun _ (_ : Slot) => True) item.openSlots [] :=
    h.fills_iff_openSlots hitem hrule hcomplete
  rw [← Item.openSlots_eq_nil_iff, ← List.forall₂_nil_right_iff, ← hslots, Grammar.fills_nil_iff,
    Grammar.solid_eq_nil_iff]

/-! ## Derivations of trees -/

theorem areFresh_eq_true_iff {parts : List Derivation} :
    areFresh above parts = true ↔ ∀ part ∈ parts, part.isFresh above = true := by
  induction parts with
  | nil => simp [areFresh]
  | cons part parts ih => simp [areFresh, ih]

/-- The tree is that of a derivation by the item with the given number which repeats no use. -/
def IsDerived (g : Grammar) (tokens : List Token) (chart : Chart) (above : List Use) (id : ItemId)
    (t : ParseTree) : Prop :=
  ∃ d, By g tokens d ∧ chart.holds d.rule id = true ∧ d.isFresh above = true ∧ d.tree = t

/-- The tree of a token is that of a derivation. -/
theorem FromToken.isDerived (hitem : chart.items[id]? = some item)
    (htoken : FromToken g tokens root item.toDottedRule) :
    IsDerived g tokens chart above id item.leafTree := by
  obtain ⟨word, hword, hmem, hr⟩ := htoken.scanned
  refine ⟨.token item.lhs word item.origin, .token htoken.terminal hword hmem,
    Chart.holds_eq_true_iff.2 ⟨item, hitem, hr⟩, rfl, ?_⟩
  have hcurrent : item.current = item.origin + 1 := htoken.current_eq
  have hrhs : item.rhs = [word] := by rw [hr]; rfl
  rw [Item.leafTree, hcurrent, hrhs, if_neg (Nat.ne_of_lt (Nat.lt_succ_self _))]
  rfl

/-- A complete item of nothing but markers is a leaf over nothing, and its tree is that of a production
without parts. -/
theorem FromRule.leafTree_eq (hrule : FromRule g tokens root item.toDottedRule)
    (hcomplete : item.isComplete = true) (hsolid : g.solid item.rhs = []) :
    item.origin = item.current ∧
      (production item.lhs item.rhs item.origin item.current []).tree = item.leafTree := by
  have hderives := hrule.derives
  -- Markers derive nothing, so the item ends where it starts.
  rw [DottedRule.isComplete_eq_true_iff.1 hcomplete,
    (Grammar.solid_eq_nil_iff.1 hsolid).derives_part_iff] at hderives
  exact ⟨hderives, by rw [Item.leafTree, if_pos hderives]; rfl⟩

/-- Derivations of children in the slots of a complete item are the parts of a derivation by the item
if their trees follow each other without a gap. -/
theorem Converged.exists_parts (h : Converged g tokens root chart)
    (hitem : chart.items[id]? = some item) (hrule : FromRule g tokens root item.toDottedRule)
    (hcomplete : item.isComplete = true) {row : List ParseTree}
    (hrow : List.Forall₂ (fun slot t => ∃ child ∈ slot.ids, IsDerived g tokens chart above child t)
      item.openSlots row) (hchain : ParseTree.isChain row = true) :
    ∃ parts, By g tokens (.production item.lhs item.rhs item.origin item.current parts) ∧
      areFresh above parts = true ∧ parts.map tree = row := by
  obtain ⟨alternatives, halternatives, hrhs⟩ := hrule.rule
  have hdot := DottedRule.isComplete_eq_true_iff.1 hcomplete
  -- A derivation by a child derives just the stretch that the child spans.
  have hpart : ∀ k s t, item.rhs[k]? = some s → s ≠ g.epsilon →
      (∃ slot, item.slots[k]? = some slot ∧
        ∃ child ∈ slot.ids, IsDerived g tokens chart above child t) →
      ∃ d : Derivation, d.tree = t ∧ (d.isFresh above = true ∧
        (item.rhs[k]? = some d.symbol ∧ By g tokens d) ∧
        g.Derives tokens (item.rhs.part 0 k) item.origin d.left ∧
        g.Derives tokens (item.rhs.part (k + 1) item.rhs.length) d.right item.current) := by
    rintro k s t _ _ ⟨slot, hslot, childId, hmem, d, hby, hholds, hfresh, htree⟩
    obtain ⟨child, hchild, hfits⟩ := (h.hasChild_iff hitem hrule).1 ⟨slot, hslot, hmem⟩
    obtain ⟨child', hchild', hd⟩ := Chart.holds_eq_true_iff.1 hholds
    obtain rfl := Option.some.inj (hchild.symm.trans hchild')
    rw [hd] at hfits
    -- What fits the slot is the child, and the child has the dotted rule of its derivation.
    have hsymbol := hfits.symbol
    have hbefore := hfits.before
    have hafter := hfits.after
    rw [rule_lhs] at hsymbol
    rw [rule_origin] at hbefore
    rw [rule_current, hdot] at hafter
    exact ⟨d, htree, hfresh, ⟨hsymbol, hby⟩, hbefore, hafter⟩
  obtain ⟨parts, hmap, hfills⟩ :=
    ((h.fills_iff_openSlots hitem hrule hcomplete).2 hrow).exists_map hpart
  refine ⟨parts, .of_fills halternatives hrhs (hfills.imp fun _ _ _ _ _ => And.right)
    (hmap ▸ hchain) ?_, areFresh_eq_true_iff.2 fun part hmem => ?_, hmap⟩
  · -- Without parts there are only markers, which derive nothing.
    rintro rfl
    have hsolid := Grammar.solid_eq_nil_iff.2 (Grammar.fills_nil_iff.1 hfills)
    exact (hrule.leafTree_eq hcomplete hsolid).1
  · obtain ⟨_, hk⟩ := hfills.exists_of_mem hmem
    exact hk.1

/-- The derivation of a complete item with the given parts. -/
theorem isDerived_production (hpath : PathUses g chart path above) (hwf : chart.WellFormed)
    (hitem : chart.items[id]? = some item) (hcomplete : item.isComplete = true) (hnew : id ∉ path)
    {parts : List Derivation}
    (hby : By g tokens (.production item.lhs item.rhs item.origin item.current parts))
    (hfresh : areFresh (item.use :: above) parts = true) :
    IsDerived g tokens chart above id
      (production item.lhs item.rhs item.origin item.current parts).tree := by
  refine ⟨_, hby, Chart.holds_eq_true_iff.2 ⟨item, hitem, ?_⟩, ?_, rfl⟩
  · exact DottedRule.ext rfl rfl (DottedRule.isComplete_eq_true_iff.1 hcomplete) rfl rfl
  · rw [isFresh, Bool.and_eq_true, decide_eq_true_eq]
    -- A use belongs to one complete item only, and the item is not on the path.
    exact ⟨fun huse => hnew (hpath.mem_of_use hwf hitem hcomplete huse), hfresh⟩

/-! ## What an extraction finds -/

/-- A token is a leaf, so an item with children comes from a rule. -/
theorem Invariant.isLeaf_of_terminal (h : Invariant g tokens root chart)
    (hitem : chart.items[id]? = some item) (hterminal : g.isNonterminal item.lhs = false) :
    item.isLeaf = true := by
  refine Item.isLeaf_eq_true_iff.2 fun k childId hchild => ?_
  have hnonterminal := ((h.sound hitem).children k childId hchild).1
  rw [hterminal] at hnonterminal
  cases hnonterminal

theorem Invariant.isNonterminal_of_not_isLeaf (h : Invariant g tokens root chart)
    (hitem : chart.items[id]? = some item) (hleaf : item.isLeaf = false) :
    g.isNonterminal item.lhs = true := by
  rw [← Bool.not_eq_false]
  intro hterminal
  rw [h.isLeaf_of_terminal hitem hterminal] at hleaf
  cases hleaf

/-- The tree of a leaf is that of a derivation. -/
theorem Converged.isDerived_of_isLeaf (h : Converged g tokens root chart)
    (hpath : PathUses g chart path above) (hitem : chart.items[id]? = some item)
    (hcomplete : item.isComplete = true) (hnew : id ∉ path) (hleaf : item.isLeaf = true)
    (htrees : chart.treesAlong steps path id = .ok trees) (ht : t ∈ trees) :
    IsDerived g tokens chart above id t := by
  rw [Chart.treesAlong_of_isLeaf hitem hleaf] at htrees
  cases htrees
  rw [List.mem_singleton.1 ht]
  -- A leaf is an item of markers only, or a token.
  rcases (h.sound hitem).source with hrule | htoken
  · obtain ⟨alternatives, halternatives, hrhs⟩ := hrule.rule
    have hsolid := (h.isLeaf_iff hitem hrule hcomplete).1 hleaf
    obtain ⟨hspan, htree⟩ := hrule.leafTree_eq hcomplete hsolid
    rw [← htree]
    exact isDerived_production hpath h.wellFormed hitem hcomplete hnew
      (.production halternatives hrhs hsolid.symm hspan fun _ hpart =>
        absurd hpart List.not_mem_nil) rfl
  · exact htoken.isDerived hitem

/-- Every tree that is found for a complete item is the tree of a derivation that repeats no use. -/
theorem Converged.isDerived (h : Converged g tokens root chart)
    (hpath : PathUses g chart path above) (hitem : chart.items[id]? = some item)
    (hcomplete : item.isComplete = true) (hnew : id ∉ path)
    (htrees : chart.treesAlong steps path id = .ok trees) (ht : t ∈ trees) :
    IsDerived g tokens chart above id t := by
  induction steps generalizing path above id item trees t with
  | zero =>
    cases hleaf : item.isLeaf with
    | true => exact h.isDerived_of_isLeaf hpath hitem hcomplete hnew hleaf htrees ht
    | false => exact absurd htrees (Chart.treesAlong_zero_ne_ok hitem hleaf)
  | succ steps ih =>
    cases hleaf : item.isLeaf with
    | true => exact h.isDerived_of_isLeaf hpath hitem hcomplete hnew hleaf htrees ht
    | false =>
      -- A token has no children, so the item comes from a rule.
      have hnonterminal := h.isNonterminal_of_not_isLeaf hitem hleaf
      have hrule := (h.sound hitem).fromRule_iff.2 hnonterminal
      obtain ⟨row, hrow, hchain, rfl⟩ := (Chart.mem_treesAlong_iff hitem hleaf htrees).1 ht
      have hslots : ∀ slot ∈ item.openSlots, slot ∈ item.slots := fun slot hslot =>
        (List.mem_filter.1 hslot).1
      -- The trees on offer are those of children found further down, along the longer path.
      have hderived : List.Forall₂ (fun slot t => ∃ child ∈ slot.ids,
          IsDerived g tokens chart (item.use :: above) child t) item.openSlots row := by
        refine ((List.forall₂_and_left _ _).2 ⟨hslots, hrow⟩).imp fun slot t hoffers => ?_
        obtain ⟨hslot, childId, hmem, hchildNew, found, hfound, ht⟩ := hoffers
        obtain ⟨k, hk⟩ := List.mem_iff_getElem?.1 hslot
        obtain ⟨child, hchild, hfits⟩ := (h.hasChild_iff hitem hrule).1 ⟨slot, hk, hmem⟩
        exact ⟨childId, hmem, ih (.cons ⟨item, hitem, hcomplete, hnonterminal, rfl⟩ hpath) hchild
          hfits.complete hchildNew hfound ht⟩
      obtain ⟨parts, hby, hfresh, rfl⟩ := h.exists_parts hitem hrule hcomplete hderived hchain
      have hderivation := isDerived_production hpath h.wellFormed hitem hcomplete hnew hby hfresh
      -- The production has parts, since the item has an open slot.
      rw [tree_production, if_neg] at hderivation
      · exact hderivation
      · rintro rfl
        rw [List.map_nil, List.forall₂_nil_right_iff, Item.openSlots_eq_nil_iff, hleaf] at hrow
        cases hrow

/-! ## Sound trees -/

/-- Whatever an item of the chart reaches, the chart holds. -/
theorem Invariant.lt_size_of_reaches (h : Invariant g tokens root chart) {first last : ItemId}
    (hreaches : chart.Reaches first last) (hfirst : first < chart.items.size) :
    last < chart.items.size := by
  induction hreaches with
  | refl => exact hfirst
  | step hchild _ ih =>
    obtain ⟨item, hitem, slot, hslot, hmem⟩ := hchild
    obtain ⟨k, hk⟩ := List.mem_iff_getElem?.1 hslot
    obtain ⟨_, r, hholds, _⟩ := (h.sound hitem).children k _ ⟨slot, hk, hmem⟩
    obtain ⟨child, hchild, _⟩ := Chart.holds_eq_true_iff.1 hholds
    exact ih (Array.getElem?_eq_some_iff.1 hchild).1

/-- All items of a parse can be read. -/
theorem Invariant.exists_treesOf (h : Invariant g tokens root chart)
    (hitem : chart.items[id]? = some item) : ∃ trees, chart.treesOf id = .ok trees :=
  Chart.exists_treesOf fun _ hreaches =>
    h.lt_size_of_reaches hreaches (Array.getElem?_eq_some_iff.1 hitem).1

theorem Invariant.exists_trees (h : Invariant g tokens root chart) (q : Symbol) :
    ∃ trees, chart.trees q = .ok trees :=
  Chart.exists_trees fun _ hid _ hreaches => by
    obtain ⟨item, hitem, _⟩ := h.mem_finishedRoots_iff.1 hid
    exact h.lt_size_of_reaches hreaches (Array.getElem?_eq_some_iff.1 hitem).1

/-- The tree of a complete item, read from its root, is that of a derivation by the item. -/
theorem Converged.exists_derivation (h : Converged g tokens root chart)
    (hitem : chart.items[id]? = some item) (hcomplete : item.isComplete = true)
    (htrees : chart.treesOf id = .ok trees) (ht : t ∈ trees) :
    ∃ d, By g tokens d ∧ d.rule = item.toDottedRule ∧ d.isFresh [] = true ∧ d.tree = t := by
  obtain ⟨d, hby, hholds, hfresh, htree⟩ :=
    h.isDerived .nil hitem hcomplete List.not_mem_nil htrees ht
  obtain ⟨item', hitem', hrule⟩ := Chart.holds_eq_true_iff.1 hholds
  obtain rfl := Option.some.inj (hitem.symm.trans hitem')
  exact ⟨d, hby, hrule.symm, hfresh, htree⟩

/-- The leaves of a tree of a complete item are the tokens that the item spans. -/
theorem Converged.leaves_eq (h : Converged g tokens root chart)
    (hitem : chart.items[id]? = some item) (hcomplete : item.isComplete = true)
    (htrees : chart.treesOf id = .ok trees) (ht : t ∈ trees) :
    t.leaves = (tokens.take item.current).drop item.origin := by
  obtain ⟨d, hby, hrule, _, rfl⟩ := h.exists_derivation hitem hcomplete htrees ht
  rw [hby.leaves_tree, ← rule_origin, ← rule_current, hrule]

/-- The trees of a parse are sound. A tree of a complete item carries its symbol over its stretch, shows
a derivation node by node, and has the tokens of the stretch as its leaves; those of the trees of the
input are all tokens. -/
theorem parse_trees_sound (g : Grammar) (tokens : List Token) (root : Symbol) :
    ∃ chart, parse g tokens root = .ok chart ∧
      (∀ (id : ItemId) (item : Item), chart.items[id]? = some item → item.isComplete = true →
        ∃ trees, chart.treesOf id = .ok trees ∧ ∀ t ∈ trees,
          t.root = .symbol item.lhs ∧ t.left = item.origin ∧ t.right = item.current ∧
          t.Shows g tokens ∧ t.leaves = (tokens.take item.current).drop item.origin) ∧
      ∀ q, ∃ trees, chart.trees q = .ok trees ∧ ∀ t ∈ trees, t.leaves = tokens := by
  obtain ⟨chart, hparse, h⟩ := exists_parse g tokens root
  refine ⟨chart, hparse, fun id item hitem hcomplete => ?_, fun q => ?_⟩
  · obtain ⟨trees, htrees⟩ := h.exists_treesOf hitem
    refine ⟨trees, htrees, fun t ht => ?_⟩
    have hleaves := h.leaves_eq hitem hcomplete htrees ht
    obtain ⟨d, hby, hrule, _, rfl⟩ := h.exists_derivation hitem hcomplete htrees ht
    rw [tree_root, tree_left, tree_right, ← rule_lhs, ← rule_origin, ← rule_current, hrule]
    exact ⟨rfl, rfl, rfl, hby.shows, hleaves⟩
  · -- A finished item spans the input from its first token to its last.
    obtain ⟨trees, htrees⟩ := h.exists_trees q
    refine ⟨trees, htrees, fun t ht => ?_⟩
    obtain ⟨id, hid, found, hfound, ht⟩ := (Chart.mem_trees_iff htrees).1 ht
    obtain ⟨item, hitem, hcomplete, _, horigin, hcurrent⟩ := h.mem_finishedRoots_iff.1 hid
    rw [h.leaves_eq hitem hcomplete hfound ht, horigin, hcurrent, List.take_length, List.drop_zero]

end Parse

end ChartParser
