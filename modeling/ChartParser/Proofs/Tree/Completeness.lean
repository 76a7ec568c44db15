import ChartParser.Proofs.Tree.Soundness

/-!
# Every derivation that repeats no use is found

Each part of a derivation by a complete item is a derivation by one of its children: the part stands for
an item of the chart, and that item fits the slot. A child is passed over only if it is on the path, and
then its use is one of those above. So of the derivations of the input, extraction finds exactly those
that repeat no use on a path.
-/

namespace ChartParser.Parse

open ChartParser.Derivation

variable {g : Grammar} {tokens : List Token} {root : Symbol} {chart : Chart}
variable {id : ItemId} {item : Item} {path : List ItemId} {above : List Use} {steps : Nat}
variable {trees : List ParseTree}

/-! ## The items of the parts -/

/-- A production stands for a true item if its symbol is due where it starts. -/
theorem fromRule_of_by {lhs : Symbol} {rhs : Alternative} {left right : Nat} {parts : List Derivation}
    (hby : By g tokens (.production lhs rhs left right parts))
    (hpredicted : g.Predicted tokens root lhs left) :
    FromRule g tokens root (production lhs rhs left right parts).rule := by
  cases hby with
  | production halternatives hrhs hsymbols hjoins hparts =>
    obtain ⟨hderives, _⟩ :=
      fills_of_parts hsymbols hjoins fun part hpart => (hparts part hpart).derives
    have hwhole : g.Derives tokens (rhs.part 0 rhs.length) left right := by
      rwa [Alternative.part_zero_length]
    refine ⟨⟨_, halternatives, hrhs⟩, ?_, hwhole, hpredicted⟩
    -- Behind the last symbol no symbol is next, the marker included.
    rw [DottedRule.next?_eq_none_iff.2 (isComplete_rule _)]
    exact nofun

/-- A derivation of a symbol that some rule waits for stands for a true item. -/
theorem FromRule.source_of_by {waiting : DottedRule} (h : FromRule g tokens root waiting)
    {d : Derivation} (hby : By g tokens d) (hnext : waiting.next? = some d.symbol)
    (hcurrent : waiting.current = d.left) :
    FromRule g tokens root d.rule ∨ FromToken g tokens root d.rule := by
  cases d with
  | token name word position =>
    cases hby with
    | token hnone hword hmem =>
      exact Or.inr ⟨hnone, ⟨word, hword, hmem, rfl⟩, waiting, h, hnext, hcurrent⟩
  | production lhs rhs left right parts =>
    have hnonterminal : g.isNonterminal lhs = true := by
      cases hby with
      | production halternatives => exact Grammar.isNonterminal_eq_true_iff.2 ⟨_, halternatives⟩
    -- The rule that waits for the symbol makes it due where the derivation starts.
    have hpredicted := h.predicted_next hnext hnonterminal
    rw [hcurrent] at hpredicted
    exact Or.inl (fromRule_of_by hby hpredicted)

/-- A part of a derivation by a complete item is a derivation by one of the children of the item. -/
theorem Converged.exists_child (h : Converged g tokens root chart)
    (hitem : chart.items[id]? = some item) (hrule : FromRule g tokens root item.toDottedRule)
    (hcomplete : item.isComplete = true) {k : Nat} {d : Derivation} (hby : By g tokens d)
    (hsymbol : item.rhs[k]? = some d.symbol) (hne : d.symbol ≠ g.epsilon)
    (hbefore : g.Derives tokens (item.rhs.part 0 k) item.origin d.left)
    (hafter : g.Derives tokens (item.rhs.part (k + 1) item.rhs.length) d.right item.current) :
    ∃ (childId : ItemId) (child : Item), chart.items[childId]? = some child ∧
      child.toDottedRule = d.rule ∧ item.HasChild k childId := by
  have hdot := DottedRule.isComplete_eq_true_iff.1 hcomplete
  have hk : k < item.rhs.length := (List.getElem?_eq_some_iff.1 hsymbol).1
  -- The item was waiting with its dot before the symbol of the part.
  have hwaits : FromRule g tokens root ⟨item.lhs, item.rhs, k, item.origin, d.left, Nat.le_of_lt hk⟩ :=
    { rule := hrule.rule
      next_ne := fun he => hne (Option.some.inj (hsymbol.symm.trans he))
      derives := hbefore
      predicted := hrule.predicted }
  obtain ⟨childId, child, hchild, hd⟩ := h.exists_item_iff.2 (hwaits.source_of_by hby hsymbol rfl)
  refine ⟨childId, child, hchild, hd, h.hasChild_of_fits hitem hrule hchild ?_⟩
  -- The stretches on the two sides are just what fitting asks for.
  rw [hd]
  refine ⟨hdot ▸ hk, ?_, ?_, isComplete_rule d, ?_, ?_⟩
  · rw [rule_lhs, hsymbol]
  · rwa [rule_lhs]
  · rwa [rule_origin]
  · rwa [rule_current, hdot]

/-- The item of a derivation that repeats no use is not on the path. -/
theorem PathUses.not_mem_of_isFresh (hpath : PathUses g chart path above)
    (hitem : chart.items[id]? = some item) {d : Derivation} (hby : By g tokens d)
    (hrule : item.toDottedRule = d.rule) (hfresh : d.isFresh above = true) : id ∉ path := by
  intro hid
  obtain ⟨hnonterminal, huse⟩ := hpath.of_mem hitem hid
  cases hby with
  | @token name _ _ hnone =>
    -- A terminal has no rules, but the item has children.
    have hlhs : item.lhs = name := by rw [hrule]; rfl
    rw [hlhs, Grammar.isNonterminal_eq_false_iff.2 hnone] at hnonterminal
    cases hnonterminal
  | production =>
    -- The first thing that a fresh production says is that its use is not among those above.
    rw [isFresh, Bool.and_eq_true, decide_eq_true_eq] at hfresh
    rw [Item.use, hrule] at huse
    exact hfresh.1 huse

/-! ## Found derivations -/

/-- The tree of a derivation by a leaf is the tree of the leaf. -/
theorem Converged.tree_eq_leafTree (h : Converged g tokens root chart)
    (hitem : chart.items[id]? = some item) {d : Derivation} (hby : By g tokens d)
    (hd : item.toDottedRule = d.rule) (hleaf : item.isLeaf = true) : d.tree = item.leafTree := by
  have hcomplete : item.isComplete = true := by rw [hd]; exact isComplete_rule d
  cases hby with
  | token => simp [Item.leafTree, hd, rule, DottedRule.scanned, tree]
  | @production lhs alternatives rhs left right parts halternatives _ hsymbols hjoins =>
    obtain rfl : item.lhs = lhs := congrArg DottedRule.lhs hd
    obtain rfl : item.rhs = rhs := congrArg DottedRule.rhs hd
    have hrule := (h.sound hitem).fromRule_iff.2
      (Grammar.isNonterminal_eq_true_iff.2 ⟨alternatives, halternatives⟩)
    -- A leaf of a rule has only markers, so the production has no parts and spans nothing.
    rw [(h.isLeaf_iff hitem hrule hcomplete).1 hleaf, List.map_eq_nil_iff] at hsymbols
    subst hsymbols
    obtain rfl : left = right := hjoins
    have horigin : item.origin = left := congrArg DottedRule.origin hd
    have hcurrent : item.current = left := congrArg DottedRule.current hd
    rw [Item.leafTree, horigin, hcurrent, if_pos rfl]
    rfl

theorem Converged.tree_mem_of_isLeaf (h : Converged g tokens root chart)
    (hitem : chart.items[id]? = some item) {d : Derivation} (hby : By g tokens d)
    (hd : item.toDottedRule = d.rule) (hleaf : item.isLeaf = true)
    (htrees : chart.treesAlong steps path id = .ok trees) : d.tree ∈ trees := by
  rw [Chart.treesAlong_of_isLeaf hitem hleaf] at htrees
  cases htrees
  exact List.mem_singleton.2 (h.tree_eq_leafTree hitem hby hd hleaf)

/-- The trees of the parts of a production are on offer in the slots of its item. -/
theorem Converged.forall₂_offers (h : Converged g tokens root chart)
    (hitem : chart.items[id]? = some item) (hrule : FromRule g tokens root item.toDottedRule)
    (hcomplete : item.isComplete = true) {parts : List Derivation}
    (hsymbols : parts.map symbol = g.solid item.rhs)
    (hjoins : ParseTree.Joins item.origin (parts.map tree) item.current)
    (hparts : ∀ part ∈ parts, By g tokens part)
    (hfound : ∀ part ∈ parts, ∀ (childId : ItemId) (child : Item) (slot : Slot),
      chart.items[childId]? = some child → child.toDottedRule = part.rule → slot ∈ item.slots →
      childId ∈ slot.ids → chart.Offers steps path slot part.tree) :
    List.Forall₂ (chart.Offers steps path) item.openSlots (parts.map tree) := by
  obtain ⟨_, hfills⟩ := fills_of_parts hsymbols hjoins fun part hpart => (hparts part hpart).derives
  -- The open slots are those of the symbols that are not markers, and the parts fill these in order.
  refine (h.fills_iff_openSlots hitem hrule hcomplete).1 <|
    Grammar.fills_map_iff.2 <| hfills.imp fun k s part hs hne hpart => ?_
  obtain ⟨⟨hsymbol, hmem⟩, hbefore, hafter⟩ := hpart
  obtain rfl := Option.some.inj (hs.symm.trans hsymbol)
  obtain ⟨childId, child, hchild, hd, slot, hslot, hchildMem⟩ :=
    h.exists_child hitem hrule hcomplete (hparts part hmem) hsymbol hne hbefore hafter
  exact ⟨slot, hslot,
    hfound part hmem childId child slot hchild hd (List.mem_of_getElem? hslot) hchildMem⟩

/-- A production is found if its parts are found wherever their items are read. -/
theorem Converged.tree_production_mem (h : Converged g tokens root chart)
    (hpath : PathUses g chart path above) (hitem : chart.items[id]? = some item)
    (hcomplete : item.isComplete = true) (hleaf : item.isLeaf = false) {parts : List Derivation}
    (hby : By g tokens (.production item.lhs item.rhs item.origin item.current parts))
    (hfresh : areFresh (item.use :: above) parts = true)
    (htrees : chart.treesAlong (steps + 1) path id = .ok trees)
    (hread : ∀ part ∈ parts, ∀ (childId : ItemId) (child : Item) (found : List ParseTree),
      chart.items[childId]? = some child → child.toDottedRule = part.rule →
      chart.treesAlong steps (id :: path) childId = .ok found → part.tree ∈ found) :
    (production item.lhs item.rhs item.origin item.current parts).tree ∈ trees := by
  have hnonterminal := h.isNonterminal_of_not_isLeaf hitem hleaf
  have hrule := (h.sound hitem).fromRule_iff.2 hnonterminal
  -- The use of the item goes on top of those above.
  have hpath' : PathUses g chart (id :: path) (item.use :: above) :=
    .cons ⟨item, hitem, hcomplete, hnonterminal, rfl⟩ hpath
  cases hby with
  | production _ _ hsymbols hjoins hparts =>
    have hrow : List.Forall₂ (chart.Offers steps (id :: path)) item.openSlots (parts.map tree) := by
      refine h.forall₂_offers hitem hrule hcomplete hsymbols hjoins hparts ?_
      intro part hmem childId child slot hchild hchildRule hslot hchildMem
      -- The child is off the path, so it is read.
      have hnew := hpath'.not_mem_of_isFresh hchild (hparts part hmem) hchildRule
        (areFresh_eq_true_iff.1 hfresh part hmem)
      obtain ⟨found, hfound⟩ :=
        Chart.exists_treesAlong_child hitem hleaf htrees hslot hchildMem hnew
      exact ⟨childId, hchildMem, hnew, found, hfound,
        hread part hmem childId child found hchild hchildRule hfound⟩
    refine (Chart.mem_treesAlong_iff hitem hleaf htrees).2
      ⟨parts.map tree, hrow, hjoins.isChain, ?_⟩
    -- An item with children has an open slot, so the production has a part.
    rw [tree_production, if_neg]
    · rfl
    · rintro rfl
      rw [List.map_nil, List.forall₂_nil_right_iff, Item.openSlots_eq_nil_iff, hleaf] at hrow
      cases hrow

/-- An extraction that comes to its end finds the tree of every derivation by the item that repeats no
use. -/
theorem Converged.tree_mem (h : Converged g tokens root chart) (hpath : PathUses g chart path above)
    (hitem : chart.items[id]? = some item) {d : Derivation} (hby : By g tokens d)
    (hd : item.toDottedRule = d.rule) (hfresh : d.isFresh above = true)
    (htrees : chart.treesAlong steps path id = .ok trees) : d.tree ∈ trees := by
  -- Both the path and the uses above grow along the way, so the induction is for all of them.
  induction steps generalizing path above id item d trees with
  | zero =>
    cases hleaf : item.isLeaf with
    | true => exact h.tree_mem_of_isLeaf hitem hby hd hleaf htrees
    | false => exact absurd htrees (Chart.treesAlong_zero_ne_ok hitem hleaf)
  | succ steps ih =>
    cases hleaf : item.isLeaf with
    | true => exact h.tree_mem_of_isLeaf hitem hby hd hleaf htrees
    | false =>
      have hcomplete : item.isComplete = true := by rw [hd]; exact isComplete_rule d
      have hnonterminal := h.isNonterminal_of_not_isLeaf hitem hleaf
      cases d with
      | token name word position =>
        -- A terminal has no rules, but the item has children.
        cases hby with
        | token hnone =>
          have hlhs : item.lhs = name := congrArg DottedRule.lhs hd
          rw [hlhs, Grammar.isNonterminal_eq_false_iff.2 hnone] at hnonterminal
          cases hnonterminal
      | production lhs rhs left right parts =>
        obtain rfl : item.lhs = lhs := congrArg DottedRule.lhs hd
        obtain rfl : item.rhs = rhs := congrArg DottedRule.rhs hd
        obtain rfl : item.origin = left := congrArg DottedRule.origin hd
        obtain rfl : item.current = right := congrArg DottedRule.current hd
        rw [isFresh, Bool.and_eq_true] at hfresh
        refine h.tree_production_mem hpath hitem hcomplete hleaf hby hfresh.2 htrees ?_
        intro part hmem childId child found hchild hchildRule hfound
        have hpart : By g tokens part := by
          cases hby with
          | production _ _ _ _ hparts => exact hparts part hmem
        exact ih (.cons ⟨item, hitem, hcomplete, hnonterminal, rfl⟩ hpath) hchild hpart hchildRule
          (areFresh_eq_true_iff.1 hfresh.2 part hmem) hfound

/-! ## The trees of the input -/

/-- A derivation by a finished root is a production over the whole input. -/
theorem Converged.exists_eq_production (h : Converged g tokens root chart)
    (hid : id ∈ chart.finishedRoots root) (hitem : chart.items[id]? = some item) {d : Derivation}
    (hby : By g tokens d) (hd : d.rule = item.toDottedRule) :
    ∃ rhs parts, d = production root rhs 0 tokens.length parts := by
  obtain ⟨item', hitem', _, hlhs, horigin, hcurrent⟩ := h.mem_finishedRoots_iff.1 hid
  obtain rfl := Option.some.inj (hitem.symm.trans hitem')
  rw [← hd] at hlhs horigin hcurrent
  cases hby with
  | token hnone =>
    -- A token is wanted by a rule, and then the root has rules, so no token carries it.
    have htoken := (h.sound hitem).fromToken_of_terminal
      (Grammar.isNonterminal_eq_false_iff.2 (by rw [← hd]; exact hnone))
    exact absurd (hd ▸ hlhs) htoken.ne_root
  | @production lhs _ rhs left right parts =>
    obtain rfl : lhs = root := hlhs
    obtain rfl : left = 0 := horigin
    obtain rfl : right = tokens.length := hcurrent
    exact ⟨rhs, parts, rfl⟩

/-- The trees of the input for a symbol are exactly those of the derivations of the whole input by an
item of the symbol that says the truth, as far as they repeat no use on a path. -/
theorem Converged.mem_trees_iff (h : Converged g tokens root chart) {q : Symbol}
    (htrees : chart.trees q = .ok trees) {t : ParseTree} :
    t ∈ trees ↔ ∃ d, By g tokens d ∧
      (FromRule g tokens root d.rule ∨ FromToken g tokens root d.rule) ∧
      d.symbol = q ∧ d.left = 0 ∧ d.right = tokens.length ∧ d.isFresh [] = true ∧ d.tree = t := by
  rw [Chart.mem_trees_iff htrees]
  constructor
  · rintro ⟨id, hid, found, hfound, ht⟩
    obtain ⟨item, hitem, hcomplete, hlhs, horigin, hcurrent⟩ := h.mem_finishedRoots_iff.1 hid
    obtain ⟨d, hby, hrule, hfresh, htree⟩ := h.exists_derivation hitem hcomplete hfound ht
    have hsource := (h.sound hitem).source
    rw [← hrule] at hsource hlhs horigin hcurrent
    rw [rule_lhs] at hlhs
    rw [rule_origin] at horigin
    rw [rule_current] at hcurrent
    exact ⟨d, hby, hsource, hlhs, horigin, hcurrent, hfresh, htree⟩
  · -- The derivation stands for an item, which is finished as it spans the whole input.
    rintro ⟨d, hby, hsource, hsymbol, hleft, hright, hfresh, rfl⟩
    obtain ⟨id, item, hitem, hrule⟩ := h.exists_item_iff.2 hsource
    have hid : id ∈ chart.finishedRoots q := by
      refine h.mem_finishedRoots_iff.2 ⟨item, hitem, ?_⟩
      rw [hrule, rule_lhs, rule_origin, rule_current]
      exact ⟨isComplete_rule d, hsymbol, hleft, hright⟩
    obtain ⟨found, hfound⟩ := h.exists_treesOf hitem
    exact ⟨id, hid, found, hfound, h.tree_mem .nil hitem hby hrule hfresh hfound⟩

/-- The trees of the input are exactly those of the derivations from the root that repeat no use on a
path. -/
theorem parse_trees_exact (g : Grammar) (tokens : List Token) (root : Symbol) :
    ∃ chart trees, parse g tokens root = .ok chart ∧ chart.trees root = .ok trees ∧
      ∀ t, t ∈ trees ↔ ∃ rhs parts,
        By g tokens (.production root rhs 0 tokens.length parts) ∧
        (production root rhs 0 tokens.length parts).isFresh [] = true ∧
        (production root rhs 0 tokens.length parts).tree = t := by
  obtain ⟨chart, hparse, h⟩ := exists_parse g tokens root
  obtain ⟨trees, htrees⟩ := h.exists_trees root
  refine ⟨chart, trees, hparse, htrees, fun t => ?_⟩
  rw [Chart.mem_trees_iff htrees]
  constructor
  · rintro ⟨id, hid, found, hfound, ht⟩
    obtain ⟨item, hitem, hcomplete, _⟩ := h.mem_finishedRoots_iff.1 hid
    obtain ⟨d, hby, hd, hfresh, htree⟩ := h.exists_derivation hitem hcomplete hfound ht
    obtain ⟨rhs, parts, rfl⟩ := h.exists_eq_production hid hitem hby hd
    exact ⟨rhs, parts, hby, hfresh, htree⟩
  · rintro ⟨rhs, parts, hby, hfresh, rfl⟩
    obtain ⟨id, item, hitem, hd⟩ := h.exists_fromRule (fromRule_of_by hby .root)
    have hid : id ∈ chart.finishedRoots root := by
      refine h.mem_finishedRoots_iff.2 ⟨item, hitem, ?_⟩
      rw [hd]
      exact ⟨isComplete_rule _, rfl, rfl, rfl⟩
    obtain ⟨found, hfound⟩ := h.exists_treesOf hitem
    exact ⟨id, hid, found, hfound, h.tree_mem .nil hitem hby hd hfresh hfound⟩

end ChartParser.Parse
