import ChartParser.Chart.Links
import ChartParser.Proofs.Chart.Children
import ChartParser.Proofs.Outcome
import ChartParser.Proofs.Tree.Chains

/-!
# Reading trees out of a chart

What an extraction finds, one step at a time: the leaf of an item without children, and otherwise the
chains with one tree from each slot that has children, the children on the path passed over. What a step
makes of the trees of the children does not depend on how these were found, so it is told apart from the
steps further down.
-/

namespace ChartParser

variable {item : Item} {slot : Slot} {id child : ItemId} {path : List ItemId}
variable {trees : List ParseTree} {t : ParseTree}
variable {found found' : ItemId → Except Fault (List ParseTree)} {fault : Fault}

/-! ## What is made of the trees of the children -/

namespace Slot

/-- The trees found for the children in a slot, those on the path passed over. -/
def collect (slot : Slot) (path : List ItemId) (found : ItemId → Except Fault (List ParseTree)) :
    Except Fault (List ParseTree) := do
  let lists ← (slot.ids.filter fun child => child ∉ path).mapM found
  return lists.flatten

theorem collect_eq_ok_iff :
    slot.collect path found = .ok trees ↔
      ∃ lists, (slot.ids.filter fun child => child ∉ path).mapM found = .ok lists ∧
        lists.flatten = trees := by
  rw [collect, bind_eq_ok_iff]
  simp only [pure, Except.pure, Except.ok.injEq]

theorem mem_collect_iff (h : slot.collect path found = .ok trees) :
    t ∈ trees ↔ ∃ child ∈ slot.ids, child ∉ path ∧ ∃ list, found child = .ok list ∧ t ∈ list := by
  obtain ⟨lists, hlists, rfl⟩ := collect_eq_ok_iff.1 h
  -- A tree of the slot stands in one of the lists, and each list is what one child off the path gave.
  simp only [List.mem_flatten, mem_of_mapM_eq_ok hlists, List.mem_filter, decide_eq_true_eq]
  constructor
  · rintro ⟨list, ⟨child, ⟨hchild, hpath⟩, hlist⟩, ht⟩
    exact ⟨child, hchild, hpath, list, hlist, ht⟩
  · rintro ⟨child, hchild, hpath, list, hlist, ht⟩
    exact ⟨list, ⟨child, ⟨hchild, hpath⟩, hlist⟩, ht⟩

theorem exists_of_collect_eq_ok (h : slot.collect path found = .ok trees) (hchild : child ∈ slot.ids)
    (hpath : child ∉ path) : ∃ list, found child = .ok list := by
  obtain ⟨lists, hlists, _⟩ := collect_eq_ok_iff.1 h
  exact exists_of_mapM_eq_ok hlists (List.mem_filter.2 ⟨hchild, decide_eq_true hpath⟩)

theorem exists_of_collect_eq_error (h : slot.collect path found = .error fault) :
    ∃ child ∈ slot.ids, child ∉ path ∧ found child = .error fault := by
  -- Only finding the trees of a child can be refused, flattening them cannot.
  rcases exists_of_bind_eq_error h with hlists | ⟨_, _, hflatten⟩
  · obtain ⟨child, hmem, hchild⟩ := exists_of_mapM_eq_error hlists
    obtain ⟨hslot, hpath⟩ := List.mem_filter.1 hmem
    exact ⟨child, hslot, of_decide_eq_true hpath, hchild⟩
  · cases hflatten

/-- Only what was found for the children off the path matters. -/
theorem collect_congr (h : ∀ child ∈ slot.ids, child ∉ path → found child = found' child) :
    slot.collect path found = slot.collect path found' := by
  unfold collect
  -- The path is filtered out before anything is looked up.
  rw [mapM_congr]
  intro child hmem
  obtain ⟨hchild, hpath⟩ := List.mem_filter.1 hmem
  exact h child hchild (of_decide_eq_true hpath)

end Slot

namespace Item

/-- The slots that have children. -/
def openSlots (item : Item) : List Slot := item.slots.filter fun slot => ! slot.isEmpty

/-- An item without children has no such slot. -/
theorem openSlots_eq_nil_iff : item.openSlots = [] ↔ item.isLeaf = true := by
  simp [openSlots, isLeaf, List.filter_eq_nil_iff]

theorem mem_openSlots_of_mem (hslot : slot ∈ item.slots) (hchild : child ∈ slot.ids) :
    slot ∈ item.openSlots := by
  refine List.mem_filter.2 ⟨hslot, ?_⟩
  -- A slot with a child in it is not empty.
  rw [Slot.isEmpty, Bool.not_eq_true', List.isEmpty_eq_false_iff]
  exact List.ne_nil_of_mem hchild

theorem mem_of_mem_openSlots (h : slot ∈ item.openSlots) : slot ∈ item.slots := (List.mem_filter.1 h).1

/-- The trees of an item with children: the chains with one tree from each slot that has some. -/
def assemble (item : Item) (path : List ItemId) (found : ItemId → Except Fault (List ParseTree)) :
    Except Fault (List ParseTree) := do
  let choices ← item.openSlots.mapM fun slot => slot.collect path found
  return (ParseTree.chains choices).map item.node

theorem assemble_eq_ok_iff :
    item.assemble path found = .ok trees ↔
      ∃ choices, (item.openSlots.mapM fun slot => slot.collect path found) = .ok choices ∧
        (ParseTree.chains choices).map item.node = trees := by
  rw [assemble, bind_eq_ok_iff]
  simp only [pure, Except.pure, Except.ok.injEq]

theorem exists_of_assemble_eq_ok (h : item.assemble path found = .ok trees) (hslot : slot ∈ item.slots)
    (hchild : child ∈ slot.ids) (hpath : child ∉ path) : ∃ list, found child = .ok list := by
  -- The slot is open, so its trees were collected, those of the child among them.
  obtain ⟨choices, hchoices, _⟩ := assemble_eq_ok_iff.1 h
  obtain ⟨_, hslotTrees⟩ := exists_of_mapM_eq_ok hchoices (mem_openSlots_of_mem hslot hchild)
  exact Slot.exists_of_collect_eq_ok hslotTrees hchild hpath

theorem exists_of_assemble_eq_error (h : item.assemble path found = .error fault) :
    ∃ slot ∈ item.slots, ∃ child ∈ slot.ids, child ∉ path ∧ found child = .error fault := by
  -- Again only the first half can be refused.
  rcases exists_of_bind_eq_error h with hchoices | ⟨_, _, hnode⟩
  · obtain ⟨slot, hslot, hcollect⟩ := exists_of_mapM_eq_error hchoices
    exact ⟨slot, mem_of_mem_openSlots hslot, Slot.exists_of_collect_eq_error hcollect⟩
  · cases hnode

/-- The subtrees of a tree are a chain of trees of the children. -/
theorem exists_of_mem_assemble (h : item.assemble path found = .ok trees) (ht : t ∈ trees) :
    ParseTree.isChain t.subtrees = true ∧ ∀ s ∈ t.subtrees, ∃ slot ∈ item.slots,
      ∃ child ∈ slot.ids, child ∉ path ∧ ∃ list, found child = .ok list ∧ s ∈ list := by
  obtain ⟨choices, hchoices, rfl⟩ := assemble_eq_ok_iff.1 h
  obtain ⟨row, hrow, rfl⟩ := List.mem_map.1 ht
  refine ⟨(ParseTree.mem_chains_iff.1 hrow).2, fun s hs => ?_⟩
  -- A tree of the row was chosen from the trees of one open slot.
  obtain ⟨choice, hchoice, hmem⟩ := ParseTree.exists_of_mem_chains hrow hs
  obtain ⟨slot, hslot, hcollect⟩ := (mem_of_mapM_eq_ok hchoices).1 hchoice
  exact ⟨slot, mem_of_mem_openSlots hslot, (Slot.mem_collect_iff hcollect).1 hmem⟩

/-- Only what was found for the children off the path matters. -/
theorem assemble_congr (h : ∀ slot ∈ item.slots, ∀ child ∈ slot.ids, child ∉ path →
    found child = found' child) : item.assemble path found = item.assemble path found' := by
  unfold assemble
  rw [mapM_congr]
  intro slot hslot
  exact Slot.collect_congr (h slot (mem_of_mem_openSlots hslot))

end Item

namespace Chart

variable {chart : Chart} {steps : Nat}

/-! ## One step down -/

theorem treesAlong_of_none (hnone : chart.items[id]? = none) :
    chart.treesAlong steps path id = .error .outOfRange := by
  cases steps <;> rw [treesAlong, hnone]

theorem treesAlong_of_isLeaf (hitem : chart.items[id]? = some item) (hleaf : item.isLeaf = true) :
    chart.treesAlong steps path id = .ok [item.leafTree] := by
  cases steps <;> rw [treesAlong, hitem] <;> simp only [hleaf, if_true]

theorem treesAlong_succ (hitem : chart.items[id]? = some item) (hleaf : item.isLeaf = false) :
    chart.treesAlong (steps + 1) path id =
      item.assemble (id :: path) (chart.treesAlong steps (id :: path)) := by
  rw [treesAlong, hitem]
  simp only [hleaf, Bool.false_eq_true, if_false]
  rfl

theorem treesAlong_succ_eq_ok_iff (hitem : chart.items[id]? = some item)
    (hleaf : item.isLeaf = false) :
    chart.treesAlong (steps + 1) path id = .ok trees ↔
      ∃ choices, (item.openSlots.mapM fun slot =>
          slot.collect (id :: path) (chart.treesAlong steps (id :: path))) = .ok choices ∧
        (ParseTree.chains choices).map item.node = trees := by
  rw [treesAlong_succ hitem hleaf, Item.assemble_eq_ok_iff]

/-- An item that is not a leaf cannot be read without steps. -/
theorem treesAlong_zero_ne_ok (hitem : chart.items[id]? = some item) (hleaf : item.isLeaf = false) :
    chart.treesAlong 0 path id ≠ .ok trees := by
  rw [treesAlong, hitem]
  simp [hleaf]

/-- The slot has a child that is not on the path, and the tree is one of that child. -/
def Offers (chart : Chart) (steps : Nat) (path : List ItemId) (slot : Slot) (t : ParseTree) : Prop :=
  ∃ child ∈ slot.ids, child ∉ path ∧ ∃ found, chart.treesAlong steps path child = .ok found ∧ t ∈ found

/-- The trees of an item with children are the chains with one tree from each slot that has some. -/
theorem mem_treesAlong_iff (hitem : chart.items[id]? = some item) (hleaf : item.isLeaf = false)
    (h : chart.treesAlong (steps + 1) path id = .ok trees) :
    t ∈ trees ↔ ∃ row, List.Forall₂ (chart.Offers steps (id :: path)) item.openSlots row ∧
      ParseTree.isChain row = true ∧ item.node row = t := by
  obtain ⟨choices, hchoices, rfl⟩ := (treesAlong_succ_eq_ok_iff hitem hleaf).1 h
  -- A row takes one tree from each list of choices. The lists go with the open slots one by one, so
  -- that is the same as a row of trees that the slots offer.
  have hrow : ∀ row, List.Forall₂ (fun choice s => s ∈ choice) choices row ↔
      List.Forall₂ (chart.Offers steps (id :: path)) item.openSlots row := fun row =>
    forall₂_of_mapM_eq_ok (P := fun choice s => s ∈ choice) hchoices
      fun _ _ htrees _ => Slot.mem_collect_iff htrees
  simp only [List.mem_map, ParseTree.mem_chains_iff, hrow, and_assoc]

/-- If an item can be read, so can each of its children that is not on the path. -/
theorem exists_treesAlong_child (hitem : chart.items[id]? = some item) (hleaf : item.isLeaf = false)
    (h : chart.treesAlong (steps + 1) path id = .ok trees) (hslot : slot ∈ item.slots)
    (hchild : child ∈ slot.ids) (hpath : child ∉ id :: path) :
    ∃ found, chart.treesAlong steps (id :: path) child = .ok found := by
  rw [treesAlong_succ hitem hleaf] at h
  exact Item.exists_of_assemble_eq_ok h hslot hchild hpath

/-! ## The trees of the input -/

theorem trees_eq_ok_iff {q : Symbol} :
    chart.trees q = .ok trees ↔
      ∃ found, (chart.finishedRoots q).mapM chart.treesOf = .ok found ∧ found.flatten = trees := by
  rw [Chart.trees, bind_eq_ok_iff]
  simp only [pure, Except.pure, Except.ok.injEq]

/-- The trees of the input are those of the finished roots. -/
theorem mem_trees_iff {q : Symbol} (h : chart.trees q = .ok trees) :
    t ∈ trees ↔ ∃ id ∈ chart.finishedRoots q, ∃ found, chart.treesOf id = .ok found ∧ t ∈ found := by
  obtain ⟨found, hfound, rfl⟩ := trees_eq_ok_iff.1 h
  -- The lists that were found go with the finished roots one by one.
  simp only [List.mem_flatten, mem_of_mapM_eq_ok hfound]
  constructor
  · rintro ⟨some, ⟨id, hid, hsome⟩, ht⟩
    exact ⟨id, hid, some, hsome, ht⟩
  · rintro ⟨id, hid, some, hsome, ht⟩
    exact ⟨some, ⟨id, hid, hsome⟩, ht⟩

end Chart

end ChartParser
