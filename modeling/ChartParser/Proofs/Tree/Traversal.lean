import ChartParser.Proofs.Tree.Extraction
import Mathlib.Data.List.Perm.Subperm

/-!
# Extraction from any chart

A chart can be filled with anything: items that are their own children, cycles, and children that it does
not hold. Extraction still comes to an end, since a call goes down to a child only if the child is not
on the path, and all numbers on the path are those of different items. Passing over what is on the path
hides nothing: a number that the chart does not hold stops the extraction whenever it is reached at
all, as each number on the way to it can be left for the last time.

## Main results

- `Traverses.unique`, `traverses_treesAlong`: extraction without a bound on its steps has one outcome
- `treesOf_eq_error_iff`: what stops an extraction
- `treesOf_terminates`: all of it, for any chart
-/

namespace ChartParser.Chart

variable {chart : Chart} {item : Item} {id start last child : ItemId} {path : List ItemId}
variable {steps : Nat} {trees : List ParseTree} {t : ParseTree}

/-! ## Extraction without a bound -/

/-- The call for a number on a path makes a call for a child. -/
def Descends (chart : Chart) (path : List ItemId) (id child : ItemId) : Prop :=
  chart.IsChild id child ∧ child ∉ id :: path

/-- The call for a number on a path comes to its end with an outcome, and so do the calls that it
makes. -/
inductive Traverses (chart : Chart) :
    List ItemId → ItemId → Except Fault (List ParseTree) → Prop
  | missing {path : List ItemId} {id : ItemId} :
      chart.items[id]? = none → Traverses chart path id (.error .outOfRange)
  | leaf {path : List ItemId} {id : ItemId} {item : Item} :
      chart.items[id]? = some item → item.isLeaf = true →
        Traverses chart path id (.ok [item.leafTree])
  | node {path : List ItemId} {id : ItemId} {item : Item}
      {found : ItemId → Except Fault (List ParseTree)} :
      chart.items[id]? = some item → item.isLeaf = false →
        (∀ child, chart.Descends path id child → Traverses chart (id :: path) child (found child)) →
          Traverses chart path id (item.assemble (id :: path) found)

/-- The calls that the call for a number makes, directly or through others, each with its path. -/
inductive ComesTo (chart : Chart) (start : ItemId) : List ItemId → ItemId → Prop
  | start : ComesTo chart start [] start
  | down {path : List ItemId} {id child : ItemId} :
      ComesTo chart start path id → chart.Descends path id child →
        ComesTo chart start (id :: path) child

/-! ## Paths -/

theorem IsChild.lt_size (h : chart.IsChild id child) : id < chart.items.size := by
  obtain ⟨_, hitem, _⟩ := h
  exact (Array.getElem?_eq_some_iff.1 hitem).1

/-- A path has no number twice, and only numbers that the chart holds. -/
theorem ComesTo.path_spec (h : chart.ComesTo start path last) :
    (last :: path).Nodup ∧ ∀ p ∈ path, p < chart.items.size := by
  induction h with
  | start => exact ⟨List.nodup_singleton start, fun _ hp => absurd hp List.not_mem_nil⟩
  | @down path id child _ hdown ih =>
    obtain ⟨hnodup, hheld⟩ := ih
    exact ⟨List.nodup_cons.2 ⟨hdown.2, hnodup⟩, List.forall_mem_cons.2 ⟨hdown.1.lt_size, hheld⟩⟩

theorem length_le_size_of_nodup (hpath : path.Nodup) (hheld : ∀ p ∈ path, p < chart.items.size) :
    path.length ≤ chart.items.size := by
  -- Numbers of items are those below the size, and there are no more of these.
  have hsubset : path ⊆ List.range chart.items.size := fun p hp => List.mem_range.2 (hheld p hp)
  have hle := (hpath.subperm hsubset).length_le
  rwa [List.length_range] at hle

theorem ComesTo.length_le (h : chart.ComesTo start path last) : path.length ≤ chart.items.size := by
  obtain ⟨hnodup, hheld⟩ := h.path_spec
  exact length_le_size_of_nodup (List.nodup_cons.1 hnodup).2 hheld

/-- The same goes for the path with the number of the call itself, if that is the number of an item. -/
theorem ComesTo.length_cons_le (h : chart.ComesTo start path last) (hlast : last < chart.items.size) :
    (last :: path).length ≤ chart.items.size := by
  obtain ⟨hnodup, hheld⟩ := h.path_spec
  exact length_le_size_of_nodup hnodup (List.forall_mem_cons.2 ⟨hlast, hheld⟩)

/-! ## One outcome -/

theorem descends_of_mem {slot : Slot} (hitem : chart.items[id]? = some item) (hslot : slot ∈ item.slots)
    (hchild : child ∈ slot.ids) (hnew : child ∉ id :: path) : chart.Descends path id child :=
  ⟨⟨item, hitem, slot, hslot, hchild⟩, hnew⟩

/-- A call has one outcome at most. -/
theorem Traverses.unique {outcome outcome' : Except Fault (List ParseTree)}
    (h : chart.Traverses path id outcome) (h' : chart.Traverses path id outcome') :
    outcome = outcome' := by
  -- What a number stands for decides which of the three outcomes there is: nothing, a leaf, or an item
  -- with children, whose calls have one outcome each.
  induction h generalizing outcome' with
  | missing hnone =>
    cases h' with
    | missing => rfl
    | leaf hitem => simp [hnone] at hitem
    | node hitem => simp [hnone] at hitem
  | leaf hitem hleaf =>
    cases h' with
    | missing hnone => simp [hitem] at hnone
    | leaf hitem' => rw [Option.some.inj (hitem.symm.trans hitem')]
    | node hitem' hnot =>
      obtain rfl := Option.some.inj (hitem.symm.trans hitem')
      simp [hleaf] at hnot
  | node hitem hnot _ ih =>
    cases h' with
    | missing hnone => simp [hitem] at hnone
    | leaf hitem' hleaf =>
      obtain rfl := Option.some.inj (hitem.symm.trans hitem')
      simp [hleaf] at hnot
    | node hitem' _ hcalls =>
      obtain rfl := Option.some.inj (hitem.symm.trans hitem')
      apply Item.assemble_congr
      intro slot hslot child hchild hnew
      have hdown := descends_of_mem hitem hslot hchild hnew
      exact ih child hdown (hcalls child hdown)

/-- With as many steps as the path can still get longer, the bounded extraction has the outcome of the
extraction without a bound. -/
theorem traverses_treesAlong (hnodup : (id :: path).Nodup) (hpath : ∀ p ∈ path, p < chart.items.size)
    (hsteps : chart.items.size ≤ steps + path.length) :
    chart.Traverses path id (chart.treesAlong steps path id) := by
  induction steps generalizing id path with
  | zero =>
    cases hitem : chart.items[id]? with
    | none =>
      rw [treesAlong_of_none hitem]
      exact .missing hitem
    | some item =>
      -- The path and the item are more numbers than the chart has.
      have hid := (Array.getElem?_eq_some_iff.1 hitem).1
      have hle := length_le_size_of_nodup hnodup (List.forall_mem_cons.2 ⟨hid, hpath⟩)
      rw [List.length_cons] at hle
      omega
  | succ steps ih =>
    cases hitem : chart.items[id]? with
    | none =>
      rw [treesAlong_of_none hitem]
      exact .missing hitem
    | some item =>
      cases hleaf : item.isLeaf with
      | true =>
        rw [treesAlong_of_isLeaf hitem hleaf]
        exact .leaf hitem hleaf
      | false =>
        rw [treesAlong_succ hitem hleaf]
        refine .node hitem hleaf fun child hdown => ?_
        -- A child that is not on the path makes it longer, which makes up for the step that is used.
        apply ih (List.nodup_cons.2 ⟨hdown.2, hnodup⟩)
          (List.forall_mem_cons.2 ⟨hdown.1.lt_size, hpath⟩)
        rw [List.length_cons]
        omega

theorem traverses_treesOf (chart : Chart) (id : ItemId) :
    chart.Traverses [] id (chart.treesOf id) :=
  traverses_treesAlong (List.nodup_singleton id) (fun _ hp => absurd hp List.not_mem_nil)
    (Nat.le_add_right _ _)

/-! ## What stops an extraction -/

/-- An extraction stops at a number that the chart does not hold and that it has come to. -/
theorem Traverses.exists_missing {outcome : Except Fault (List ParseTree)}
    (h : chart.Traverses path id outcome) {fault : Fault} (hfault : outcome = .error fault) :
    fault = .outOfRange ∧ ∃ last, chart.Reaches id last ∧ chart.items.size ≤ last := by
  induction h with
  | missing hnone =>
    cases hfault
    exact ⟨rfl, _, .refl _, Array.getElem?_eq_none_iff.1 hnone⟩
  | leaf => cases hfault
  | node hitem _ _ ih =>
    -- The fault of a call is that of a call for one of the children.
    obtain ⟨slot, hslot, child, hchild, hnew, herror⟩ := Item.exists_of_assemble_eq_error hfault
    have hdown := descends_of_mem hitem hslot hchild hnew
    obtain ⟨hreason, last, hreaches, hlast⟩ := ih child hdown herror
    exact ⟨hreason, last, .step hdown.1 hreaches, hlast⟩

theorem IsChild.exists_slot (h : chart.IsChild id child) (hitem : chart.items[id]? = some item) :
    ∃ slot ∈ item.slots, child ∈ slot.ids := by
  obtain ⟨item', hitem', hslot⟩ := h
  obtain rfl := Option.some.inj (hitem.symm.trans hitem')
  exact hslot

/-- A leaf has no children. -/
theorem IsChild.isLeaf_eq_false (h : chart.IsChild id child) (hitem : chart.items[id]? = some item) :
    item.isLeaf = false := by
  obtain ⟨slot, hslot, hchild⟩ := h.exists_slot hitem
  rw [← Bool.not_eq_true, ← Item.openSlots_eq_nil_iff]
  exact List.ne_nil_of_mem (Item.mem_openSlots_of_mem hslot hchild)

/-- An extraction that is not stopped comes to all that is reached off its path. -/
theorem Traverses.lt_size {outcome : Except Fault (List ParseTree)}
    (h : chart.Traverses path id outcome) (hok : outcome = .ok trees)
    (hreaches : chart.ReachesOff path id last) : last < chart.items.size := by
  induction h generalizing trees with
  | missing => cases hok
  | leaf hitem hleaf =>
    -- A leaf reaches only itself.
    rcases hreaches.eq_or_step with rfl | ⟨child, hchild, _⟩
    · exact (Array.getElem?_eq_some_iff.1 hitem).1
    · rw [hchild.isLeaf_eq_false hitem] at hleaf
      cases hleaf
  | node hitem _ _ ih =>
    rcases hreaches.eq_or_step with rfl | ⟨child, hchild, hpast⟩
    · exact (Array.getElem?_eq_some_iff.1 hitem).1
    · -- The rest of the way is off the longer path, so the call for the child is made.
      have hnew := hpast.not_mem
      obtain ⟨slot, hslot, hmem⟩ := hchild.exists_slot hitem
      obtain ⟨_, hfound⟩ := Item.exists_of_assemble_eq_ok hok hslot hmem hnew
      exact ih child ⟨hchild, hnew⟩ hfound hpast

/-- The one thing that stops an extraction is a number that is reached and that the chart does not
hold. -/
theorem treesOf_eq_error_iff {fault : Fault} :
    chart.treesOf id = .error fault ↔
      fault = .outOfRange ∧ ∃ last, chart.Reaches id last ∧ chart.items.size ≤ last := by
  constructor
  · exact (traverses_treesOf chart id).exists_missing
  · rintro ⟨rfl, last, hreaches, hlast⟩
    -- Had it not been stopped, it would have come to the missing number.
    cases houtcome : chart.treesOf id with
    | ok trees =>
      have hlt := (traverses_treesOf chart id).lt_size houtcome hreaches.off
      exact absurd hlast (Nat.not_le.2 hlt)
    | error fault => rw [((traverses_treesOf chart id).exists_missing houtcome).1]

/-- All trees of an item can be read if the chart holds whatever the item reaches. -/
theorem exists_treesOf (hheld : ∀ last, chart.Reaches id last → last < chart.items.size) :
    ∃ trees, chart.treesOf id = .ok trees := by
  cases houtcome : chart.treesOf id with
  | ok trees => exact ⟨trees, rfl⟩
  | error fault =>
    obtain ⟨_, last, hreaches, hlast⟩ := treesOf_eq_error_iff.1 houtcome
    exact absurd hlast (Nat.not_le.2 (hheld last hreaches))

theorem exists_trees {q : Symbol} (hheld : ∀ id ∈ chart.finishedRoots q, ∀ last,
    chart.Reaches id last → last < chart.items.size) : ∃ trees, chart.trees q = .ok trees := by
  obtain ⟨found, hfound⟩ := exists_mapM_eq_ok fun id hid => exists_treesOf (hheld id hid)
  exact ⟨found.flatten, trees_eq_ok_iff.2 ⟨found, hfound, rfl⟩⟩

/-! ## Trees without gaps -/

theorem seamless_leafTree (item : Item) : item.leafTree.Seamless := by
  refine .intro rfl fun s hs => ?_
  rw [List.mem_singleton.1 hs]
  exact .intro rfl fun _ hnone => absurd hnone List.not_mem_nil

/-- Whatever the items are, no tree has a gap between subtrees. -/
theorem Traverses.seamless {outcome : Except Fault (List ParseTree)}
    (h : chart.Traverses path id outcome) (hok : outcome = .ok trees) (ht : t ∈ trees) :
    t.Seamless := by
  induction h generalizing trees t with
  | missing => cases hok
  | leaf =>
    cases hok
    rw [List.mem_singleton.1 ht]
    exact seamless_leafTree _
  | node hitem _ _ ih =>
    -- The subtrees were put in a row because they touch, and each was found by a call of its own.
    obtain ⟨hchain, hsubtrees⟩ := Item.exists_of_mem_assemble hok ht
    refine .intro hchain fun s hs => ?_
    obtain ⟨slot, hslot, child, hchild, hnew, _, hfound, hmem⟩ := hsubtrees s hs
    exact ih child (descends_of_mem hitem hslot hchild hnew) hfound hmem

/-! ## Any chart -/

/-- Extraction of the trees of any number from any chart comes to its end, with one outcome. The path of
each call that is made on the way has no number twice and holds numbers of items only, so it is no longer
than the chart has items, also with the number of the call itself. What stops an extraction is a number
that is reached along links, cycles or not, and that the chart does not hold, and nothing else does. If it
is not stopped, then at each node of each tree every subtree starts where the one before it ends. -/
theorem treesOf_terminates (chart : Chart) (id : ItemId) :
    chart.Traverses [] id (chart.treesOf id) ∧
      (∀ outcome, chart.Traverses [] id outcome → outcome = chart.treesOf id) ∧
      (∀ path last, chart.ComesTo id path last → (last :: path).Nodup ∧
        (∀ p ∈ path, p < chart.items.size) ∧ path.length ≤ chart.items.size ∧
          (last < chart.items.size → (last :: path).length ≤ chart.items.size)) ∧
      (∀ fault, chart.treesOf id = .error fault ↔
        fault = .outOfRange ∧ ∃ last, chart.Reaches id last ∧ chart.items.size ≤ last) ∧
      ∀ trees, chart.treesOf id = .ok trees → ∀ t ∈ trees, t.Seamless := by
  have htraverses := traverses_treesOf chart id
  refine ⟨htraverses, fun outcome h => h.unique htraverses, fun path last hcomes => ?_,
    fun fault => treesOf_eq_error_iff, fun trees hok t ht => htraverses.seamless hok ht⟩
  obtain ⟨hnodup, hheld⟩ := hcomes.path_spec
  exact ⟨hnodup, hheld, hcomes.length_le, hcomes.length_cons_le⟩

-- An item that is its own child passes itself over, but not a child that the chart does not hold.
example : (Chart.mk #[⟨⟨"S", ["S"], 1, 0, 0, by decide⟩, [⟨[0], by decide⟩], rfl⟩] #[]).treesOf 0 =
    .ok [] := rfl
example : (Chart.mk #[⟨⟨"S", ["S"], 1, 0, 0, by decide⟩, [⟨[0, 7], by decide⟩], rfl⟩] #[]).treesOf 0 =
    .error .outOfRange := rfl

end ChartParser.Chart
