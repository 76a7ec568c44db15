import ChartParser.Parse.Sweep
import ChartParser.Proofs.Chart.Growth
import ChartParser.Proofs.Outcome

/-!
# What the rules propose

For each item of a chart the three rules propose items to file: predictions, a scanned token, or the
waiting items advanced over it. In a well-formed chart the rules are never refused, and the relation
`Proposal` says exactly what they propose.
-/

namespace ChartParser

/-! ## Advancing -/

attribute [ext] DottedRule

/-- The dotted rule with the dot moved over its next symbol and the epsilon markers after it. -/
def DottedRule.advanced (g : Grammar) (r : DottedRule) (current : Nat) (h : r.dot < r.rhs.length) :
    DottedRule where
  lhs := r.lhs
  rhs := r.rhs
  dot := g.skipMarkers r.rhs (r.dot + 1)
  origin := r.origin
  current := current
  dot_le := g.skipMarkers_le h

theorem DottedRule.dot_lt_of_next? {r : DottedRule} {s : Symbol} (h : r.next? = some s) :
    r.dot < r.rhs.length :=
  (List.getElem?_eq_some_iff.1 h).1

theorem DottedRule.expectsNonterminal_of_next? {r : DottedRule} {s : Symbol} (h : r.next? = some s)
    (g : Grammar) : r.expectsNonterminal g = g.isNonterminal s := by
  rw [expectsNonterminal, h, Option.any_some]

namespace Item

/-- An item that is not complete can advance. -/
theorem exists_advance {item : Item} (g : Grammar) (child : ItemId) (current : Nat)
    (h : item.dot < item.rhs.length) : ∃ advanced, item.advance child current g = .ok advanced := by
  cases hadvance : item.advance child current g with
  | ok advanced => exact ⟨advanced, rfl⟩
  | error fault =>
    obtain ⟨hcomplete, _⟩ := advance_eq_error_iff.1 hadvance
    rw [DottedRule.isComplete_eq_true_iff] at hcomplete
    omega

/-- Advancing moves the dot and records the child at the position that the dot leaves. -/
theorem advance_spec {g : Grammar} {item advanced : Item} {child : ItemId} {current : Nat}
    (h : item.advance child current g = .ok advanced) :
    ∃ hdot, advanced.toDottedRule = item.toDottedRule.advanced g current hdot ∧
      ∀ k id, advanced.HasChild k id ↔ item.HasChild k id ∨ (k = item.dot ∧ id = child) := by
  rw [advance] at h
  split at h
  · rename_i hdot
    simp only [Except.ok.injEq] at h
    subst h
    refine ⟨hdot, rfl, fun k id => ?_⟩
    -- The dot is within the alternative, so there is a slot for the child.
    rw [HasChild, Slot.rowHas_modify_insert, item.slots_length]
    constructor
    · rintro (hchild | ⟨hk, _, hid⟩)
      · exact Or.inl hchild
      · exact Or.inr ⟨hk, hid⟩
    · rintro (hchild | ⟨rfl, hid⟩)
      · exact Or.inl hchild
      · exact Or.inr ⟨rfl, hdot, hid⟩
  · simp at h

/-! ## Predicting and scanning -/

theorem mem_predictions_iff {g : Grammar} {item p : Item} :
    p ∈ item.predictions g ↔ ∃ s alternatives rhs, item.next? = some s ∧
      g.alternatives? s = some alternatives ∧ rhs ∈ alternatives ∧
      p = bare (.predicted g s rhs item.current) := by
  rw [predictions]
  cases hnext : item.next? with
  | none => simp
  | some s =>
    cases halternatives : g.alternatives? s with
    | none => simp [halternatives]
    | some alternatives => simp [halternatives, eq_comm]

theorem scan_eq_some_iff {g : Grammar} {item p : Item} {token : Option Token} :
    item.scan g token = some p ↔ ∃ s word, item.next? = some s ∧ token = some word ∧
      s ∈ g.terminalsFor word ∧ p = bare (.scanned s word item.current) := by
  cases hnext : item.next? with
  | none => simp [scan, hnext]
  | some s =>
    cases token with
    | none => simp [scan, hnext]
    | some word => by_cases hmem : s ∈ g.terminalsFor word <;> simp [scan, hnext, hmem, eq_comm]

end Item

theorem Grammar.isNonterminal_eq_true_iff {g : Grammar} {s : Symbol} :
    g.isNonterminal s = true ↔ ∃ alternatives, g.alternatives? s = some alternatives :=
  Option.isSome_iff_exists

theorem Grammar.isNonterminal_eq_false_iff {g : Grammar} {s : Symbol} :
    g.isNonterminal s = false ↔ g.alternatives? s = none := by
  rw [isNonterminal, Table.contains, alternatives?, Option.isSome_eq_false_iff,
    Option.isNone_iff_eq_none]

namespace Parse

/-! ## The proposals for an item -/

/-- The rules propose an item for the item with number `id`. -/
inductive Proposal (g : Grammar) (tokens : List Token) (chart : Chart) (id : ItemId) (item : Item) :
    Item → Prop
  | predict {s : Symbol} {alternatives : List Alternative} {rhs : Alternative} :
      item.next? = some s → g.alternatives? s = some alternatives → rhs ∈ alternatives →
      Proposal g tokens chart id item (.bare (.predicted g s rhs item.current))
  | scan {s : Symbol} {word : Token} :
      item.next? = some s → g.alternatives? s = none →
      tokens[item.current]? = some word → s ∈ g.terminalsFor word →
      Proposal g tokens chart id item (.bare (.scanned s word item.current))
  | complete {waitingId : ItemId} {waiting advanced : Item} :
      item.isComplete = true → chart.items[waitingId]? = some waiting →
      waiting.current = item.origin → waiting.next? = some item.lhs →
      waiting.advance id item.current g = .ok advanced →
      Proposal g tokens chart id item advanced

variable {g : Grammar} {tokens : List Token} {chart : Chart} {id : ItemId} {item p : Item}

theorem column_eq_ok_iff {i : Nat} {ids : List ItemId} :
    chart.column i = .ok ids ↔ ∃ column, chart.columns[i]? = some column ∧ column.toList = ids := by
  rw [Chart.column]
  split <;> simp_all

theorem item_eq_ok_iff : chart.item id = .ok item ↔ chart.items[id]? = some item := by
  rw [Chart.item]
  split <;> simp_all

/-- A column lists items only, so all of them can be looked up. -/
theorem exists_itemsOf (hwf : chart.WellFormed) {i : Nat} {column : Array ItemId}
    (hcolumn : chart.columns[i]? = some column) :
    ∃ items, chart.itemsOf column.toList = .ok items ∧
      ∀ waiting, waiting ∈ items ↔
        ∃ waitingId : ItemId, chart.items[waitingId]? = some waiting ∧ waiting.current = i := by
  -- A column lists numbers of items only.
  have hlookup : ∀ waitingId ∈ column.toList, ∃ waiting, chart.item waitingId = .ok waiting := by
    intro waitingId hmem
    obtain ⟨waiting, hwaiting, _⟩ := hwf.listed hcolumn (Array.mem_toList_iff.1 hmem)
    exact ⟨waiting, item_eq_ok_iff.2 hwaiting⟩
  -- So all of them are found, and they are the items that end there.
  obtain ⟨items, hitems⟩ := exists_mapM_eq_ok hlookup
  refine ⟨items, hitems, fun waiting => ?_⟩
  simp only [mem_of_mapM_eq_ok hitems, item_eq_ok_iff, Array.mem_toList_iff]
  constructor
  · rintro ⟨waitingId, hmem, hwaiting⟩
    obtain ⟨waiting', hwaiting', hcurrent⟩ := hwf.listed hcolumn hmem
    rw [hwaiting, Option.some.injEq] at hwaiting'
    exact ⟨waitingId, hwaiting, hwaiting' ▸ hcurrent⟩
  · rintro ⟨waitingId, hwaiting, hcurrent⟩
    exact ⟨waitingId, (hwf.mem_column_iff hcolumn).2 ⟨waiting, hwaiting, hcurrent⟩, hwaiting⟩

/-- Completion is not refused where the origin is a column. -/
theorem exists_completions (g : Grammar) (id : ItemId) (hwf : chart.WellFormed)
    (hcomplete : item.isComplete = true) (horigin : item.origin < chart.columns.size) :
    ∃ items, chart.completions g id item = .ok items ∧
      ∀ p, p ∈ items ↔ ∃ (waitingId : ItemId) (waiting : Item), chart.items[waitingId]? = some waiting ∧
        waiting.current = item.origin ∧ waiting.next? = some item.lhs ∧
        waiting.advance id item.current g = .ok p := by
  have hcolumn : chart.columns[item.origin]? = some chart.columns[item.origin] :=
    Array.getElem?_eq_getElem horigin
  obtain ⟨column, hitems, hmem⟩ := exists_itemsOf hwf hcolumn
  -- An item that waits for a symbol is not complete, so it can advance.
  have hadvance : ∀ waiting ∈ column.filter (fun waiting => waiting.next? = some item.lhs),
      ∃ advanced, waiting.advance id item.current g = .ok advanced := by
    intro waiting hwaiting
    have hnext : waiting.next? = some item.lhs := by simpa using (List.mem_filter.1 hwaiting).2
    exact waiting.exists_advance g id item.current (DottedRule.dot_lt_of_next? hnext)
  obtain ⟨items, hcompletions⟩ := exists_mapM_eq_ok hadvance
  refine ⟨items, ?_, fun p => ?_⟩
  · rw [Chart.completions, if_pos hcomplete, column_eq_ok_iff.2 ⟨_, hcolumn, rfl⟩, ok_bind, hitems,
      ok_bind, hcompletions]
  · rw [mem_of_mapM_eq_ok hcompletions]
    simp only [List.mem_filter, hmem, decide_eq_true_eq]
    constructor
    · rintro ⟨waiting, ⟨⟨waitingId, hwaiting, hcurrent⟩, hnext⟩, hp⟩
      exact ⟨waitingId, waiting, hwaiting, hcurrent, hnext, hp⟩
    · rintro ⟨waitingId, waiting, hwaiting, hcurrent, hnext, hp⟩
      exact ⟨waiting, ⟨⟨waitingId, hwaiting, hcurrent⟩, hnext⟩, hp⟩

/-- A complete item is followed by nothing, so only completion applies to it. -/
theorem proposal_iff_of_isComplete (hcomplete : item.isComplete = true) :
    Proposal g tokens chart id item p ↔ ∃ (waitingId : ItemId) (waiting : Item),
      chart.items[waitingId]? = some waiting ∧ waiting.current = item.origin ∧
        waiting.next? = some item.lhs ∧ waiting.advance id item.current g = .ok p := by
  have hnone : item.next? = none := DottedRule.next?_eq_none_iff.2 hcomplete
  constructor
  · intro hp
    cases hp with
    | predict hnext => simp [hnone] at hnext
    | scan hnext => simp [hnone] at hnext
    | complete _ hwaiting hcurrent hnext hadvance =>
      exact ⟨_, _, hwaiting, hcurrent, hnext, hadvance⟩
  · rintro ⟨waitingId, waiting, hwaiting, hcurrent, hnext, hadvance⟩
    exact .complete hcomplete hwaiting hcurrent hnext hadvance

/-- A symbol with rules is predicted and never scanned. -/
theorem proposal_iff_of_nonterminal {s : Symbol} (hnext : item.next? = some s)
    (hnonterminal : g.isNonterminal s = true) :
    Proposal g tokens chart id item p ↔ p ∈ item.predictions g := by
  obtain ⟨alternatives, halternatives⟩ := Grammar.isNonterminal_eq_true_iff.1 hnonterminal
  rw [Item.mem_predictions_iff]
  constructor
  · intro hp
    cases hp with
    | predict hnext' halternatives' hrhs => exact ⟨_, _, _, hnext', halternatives', hrhs, rfl⟩
    | scan hnext' hnone =>
      obtain rfl := Option.some.inj (hnext.symm.trans hnext')
      simp [halternatives] at hnone
    | complete hcomplete => simp [DottedRule.next?_eq_none_iff.2 hcomplete] at hnext
  · rintro ⟨s', alternatives', rhs, hnext', halternatives', hrhs, rfl⟩
    exact .predict hnext' halternatives' hrhs

/-- A terminal is scanned and never predicted. -/
theorem proposal_iff_of_terminal {s : Symbol} (hnext : item.next? = some s)
    (hnone : g.alternatives? s = none) :
    Proposal g tokens chart id item p ↔ item.scan g tokens[item.current]? = some p := by
  rw [Item.scan_eq_some_iff]
  constructor
  · intro hp
    cases hp with
    | predict hnext' halternatives =>
      obtain rfl := Option.some.inj (hnext.symm.trans hnext')
      simp [hnone] at halternatives
    | scan hnext' _ hword hmem => exact ⟨_, _, hnext', hword, hmem, rfl⟩
    | complete hcomplete => simp [DottedRule.next?_eq_none_iff.2 hcomplete] at hnext
  · rintro ⟨s', word, hnext', hword, hmem, rfl⟩
    obtain rfl := Option.some.inj (hnext.symm.trans hnext')
    exact .scan hnext hnone hword hmem

/-- The rules are not refused for an item whose origin is a column, and they propose exactly what the
relation says. -/
theorem exists_proposals (hwf : chart.WellFormed) (hitem : chart.items[id]? = some item)
    (horigin : item.origin < chart.columns.size) :
    ∃ items, proposals g tokens chart id = .ok items ∧
      ∀ p, p ∈ items ↔ Proposal g tokens chart id item p := by
  simp only [proposals, hitem]
  -- What the item waits for decides which rule applies: nothing, a symbol with rules, or a terminal.
  cases hnext : item.next? with
  | none =>
    have hcomplete : item.isComplete = true := DottedRule.next?_eq_none_iff.1 hnext
    obtain ⟨items, hitems, hmem⟩ := exists_completions g id hwf hcomplete horigin
    refine ⟨items, by rw [if_pos hcomplete, hitems], fun p => ?_⟩
    rw [hmem, proposal_iff_of_isComplete hcomplete]
  | some s =>
    have hwaits : ¬ item.isComplete = true := by
      rw [← DottedRule.next?_eq_none_iff, hnext]
      exact Option.some_ne_none s
    rw [if_neg hwaits, DottedRule.expectsNonterminal_of_next? hnext]
    by_cases hnonterminal : g.isNonterminal s = true
    · exact ⟨_, if_pos hnonterminal, fun p => (proposal_iff_of_nonterminal hnext hnonterminal).symm⟩
    · have hnone : g.alternatives? s = none :=
        Grammar.isNonterminal_eq_false_iff.1 (by simpa using hnonterminal)
      refine ⟨_, if_neg hnonterminal, fun p => ?_⟩
      rw [Option.mem_toList, proposal_iff_of_terminal hnext hnone]

end Parse

end ChartParser
