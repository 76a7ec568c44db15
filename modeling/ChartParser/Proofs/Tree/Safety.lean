import ChartParser.Proofs.Parse.Moments
import ChartParser.Proofs.Tree.Soundness

/-!
# Parsing runs into no fault

Items are made with their dots in place, filed under the columns where they end, and looked up by
numbers that were given out. None of this is looked after where it is done: each time, it is safe because
of what holds of all charts that a parse goes through. So the faults that the operations on charts can
answer with are never seen, neither while a chart is built nor when trees are read out of it, whichever
of its items they are read from.

## Main results

- `Invariant.regular`: what every item of a chart is like, its children included
- `Invariant.faultFree`: no operation is refused for any item of a chart
- `parse_faultless`: both hold from the first filing of a parse to the last
-/

namespace ChartParser

/-- An item without children whose dot is in place is not refused. -/
theorem Item.make_eq_ok (r : DottedRule) : make r.lhs r.rhs r.dot r.origin r.current = .ok (bare r) :=
  dif_pos r.dot_le

namespace Parse

variable {g : Grammar} {tokens : List Token} {root : Symbol} {chart : Chart}
variable {id : ItemId} {item : Item}

/-! ## Items in place -/

/-- The child completes the symbol `s` within the stretch of the item. -/
structure Nested (chart : Chart) (item : Item) (s : Symbol) (id : ItemId) (child : Item) : Prop where
  held : chart.items[id]? = some child
  complete : child.isComplete = true
  lhs_eq : child.lhs = s
  origin_le : item.origin ≤ child.origin
  current_le : child.current ≤ item.current

/-- The item keeps to its alternative, to the input and to the grammar, and so do its children. -/
structure Regular (g : Grammar) (tokens : List Token) (chart : Chart) (item : Item) : Prop where
  dot_le : item.dot ≤ item.rhs.length
  slots_length : item.slots.length = item.rhs.length
  origin_le : item.origin ≤ item.current
  current_le : item.current ≤ tokens.length
  next_ne : item.next? ≠ some g.epsilon
  source : (∃ alternatives, g.alternatives? item.lhs = some alternatives ∧ item.rhs ∈ alternatives) ∨
    (g.alternatives? item.lhs = none ∧
      ∃ word ∈ tokens, item.lhs ∈ g.terminalsFor word ∧ item.rhs = [word])
  nested : ∀ (k : Nat) (slot : Slot), item.slots[k]? = some slot → ∀ id ∈ slot.ids,
    ∃ s child, item.rhs[k]? = some s ∧ Nested chart item s id child

/-- What stands on the two sides of a child lies between the ends of its parent. -/
theorem Fits.nested {child : Item} {k : Nat} (h : Fits g tokens item.toDottedRule k child.toDottedRule)
    (hchild : chart.items[id]? = some child) : Nested chart item child.lhs id child where
  held := hchild
  complete := h.complete
  lhs_eq := rfl
  -- What is matched before the child and behind it are derivations, which go forward in the input.
  origin_le := h.before.le
  current_le := h.after.le

theorem Sound.next_ne (h : Sound g tokens root chart item) : item.next? ≠ some g.epsilon := by
  -- The dot of an item from a rule is never left before a marker; an item from a token is complete.
  rcases h.source with hrule | htoken
  · exact hrule.next_ne
  · rw [htoken.next?_eq_none]
    nofun

theorem Sound.nested (h : Sound g tokens root chart item) {k : Nat} {slot : Slot}
    (hslot : item.slots[k]? = some slot) (hid : id ∈ slot.ids) :
    ∃ s child, item.rhs[k]? = some s ∧ Nested chart item s id child := by
  -- What soundness says of a child is said of its dotted rule, and the chart holds an item with it.
  obtain ⟨_, r, hholds, hfits⟩ := h.children k id ⟨slot, hslot, hid⟩
  obtain ⟨child, hchild, rfl⟩ := Chart.holds_eq_true_iff.1 hholds
  exact ⟨child.lhs, child, hfits.symbol, hfits.nested hchild⟩

theorem Invariant.regular (h : Invariant g tokens root chart)
    (hitem : chart.items[id]? = some item) : Regular g tokens chart item where
  dot_le := item.dot_le
  slots_length := item.slots_length
  origin_le := (h.sound hitem).origin_le
  current_le := h.current_le hitem
  next_ne := (h.sound hitem).next_ne
  source := by
    -- An item comes from a rule of its symbol, or from a token that satisfies it.
    refine (h.sound hitem).source.imp FromRule.rule fun htoken => ?_
    obtain ⟨word, hword, hmem, hr⟩ := htoken.scanned
    exact ⟨htoken.terminal, word, List.mem_of_getElem? hword, hmem, by rw [hr]; rfl⟩
  nested _ _ hslot _ hid := (h.sound hitem).nested hslot hid

/-! ## Operations on items -/

/-- No operation is refused for the item: those that the rules apply to it while its column is settled,
and the extraction of its trees. -/
structure FaultFree (g : Grammar) (tokens : List Token) (chart : Chart) (id : ItemId) (item : Item) :
    Prop where
  predicted : ∀ p ∈ item.predictions g, Item.make p.lhs p.rhs p.dot p.origin p.current = .ok p
  scanned : ∀ p, item.scan g tokens[item.current]? = some p →
    Item.make p.lhs p.rhs p.dot p.origin p.current = .ok p
  completed : ∃ items, chart.completions g id item = .ok items
  filed : ∃ items next filings, proposals g tokens chart id = .ok items ∧
    chart.fileAll items = .ok (next, filings)
  traversed : ∃ trees, chart.treesOf id = .ok trees

/-- Completion is refused for no item, whether it is complete or not. -/
theorem Invariant.exists_completions (h : Invariant g tokens root chart)
    (hitem : chart.items[id]? = some item) : ∃ items, chart.completions g id item = .ok items := by
  by_cases hcomplete : item.isComplete = true
  · obtain ⟨items, hitems, _⟩ :=
      Parse.exists_completions g id h.wellFormed hcomplete (h.origin_lt hitem)
    -- The items that wait are in a column that exists, and a waiting item has a slot for the child.
    exact ⟨items, hitems⟩
  · -- Nothing is looked up for an item that is not complete.
    exact ⟨[], if_neg hcomplete⟩

theorem Invariant.faultFree (h : Invariant g tokens root chart)
    (hitem : chart.items[id]? = some item) : FaultFree g tokens chart id item where
  predicted p hp := by
    -- A predicted item is one without children at a dot that is in place.
    obtain ⟨_, _, _, _, _, _, rfl⟩ := Item.mem_predictions_iff.1 hp
    exact Item.make_eq_ok _
  scanned p hp := by
    obtain ⟨_, _, _, _, _, rfl⟩ := Item.scan_eq_some_iff.1 hp
    exact Item.make_eq_ok _
  completed := h.exists_completions hitem
  filed := by
    -- All that the rules propose ends at the column of the item or at the next one, and both exist.
    obtain ⟨items, next, filings, hproposals, hfileAll, _⟩ :=
      exists_visit h (h.current_le hitem) hitem rfl
    exact ⟨items, next, filings, hproposals, hfileAll⟩
  traversed := h.exists_treesOf hitem

/-- The alternatives of the root are begun at the first column with their dots in place. -/
theorem seedItems_spec {p : Item} (hp : p ∈ seedItems g root) :
    p.current = 0 ∧ Item.make p.lhs p.rhs p.dot p.origin p.current = .ok p := by
  obtain ⟨rhs, _, rfl⟩ := List.mem_map.1 hp
  exact ⟨rfl, Item.make_eq_ok _⟩

/-! ## No faults -/

/-- A parse runs into no fault, and no extraction of trees from its chart does. In every chart that it
goes through, the columns list the items that end there, every item keeps to its alternative, to the
input and to the grammar, its children are complete items for the symbols at their positions within its
stretch, and no operation on an item is refused. -/
theorem parse_faultless (g : Grammar) (tokens : List Token) (root : Symbol) :
    ∃ t, trace g tokens root = .ok t ∧ parse g tokens root = .ok t.chart ∧ t.chart ∈ t.moments ∧
      (∀ p ∈ seedItems g root,
        p.current = 0 ∧ Item.make p.lhs p.rhs p.dot p.origin p.current = .ok p) ∧
      ∀ chart ∈ t.moments, chart.length = tokens.length + 1 ∧
        (∀ (c : Nat) (ids : Array ItemId), chart.columns[c]? = some ids → ∀ id, id ∈ ids ↔
          ∃ item, chart.items[id]? = some item ∧ item.current = c) ∧
        (∀ (id : ItemId) (item : Item), chart.items[id]? = some item →
          Regular g tokens chart item ∧ FaultFree g tokens chart id item) ∧
        ∀ q, ∃ trees, chart.trees q = .ok trees := by
  obtain ⟨t, htrace, htokens, _, hseeds, _, _, hprogress⟩ := exists_trace g tokens root
  refine ⟨t, htrace, by rw [parse, htrace]; rfl, chart_mem_moments htokens hseeds hprogress,
    fun p hp => seedItems_spec hp, fun chart hchart => ?_⟩
  -- Everything follows from the invariant, which holds at each moment.
  have h := invariant_of_mem_moments htokens hseeds hprogress hchart
  refine ⟨h.size_columns, fun c ids hids id => h.wellFormed.mem_column_iff hids,
    fun id item hitem => ⟨h.regular hitem, h.faultFree hitem⟩, h.exists_trees⟩

end Parse

end ChartParser
