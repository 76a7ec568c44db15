import ChartParser.Proofs.Chart.Filing
import ChartParser.Proofs.Parse.Settling

/-!
# The chart of a parse is closed under the rules

Once a parse is over, no rule has anything left to say about any column, the earlier ones included:
whatever is proposed for an item is listed where it belongs, with all its children. Seen from the
outside this means that one more sweep over a column changes nothing, and for charts whose items say
the truth the two are the same thing (`Invariant.sweep_eq_self_iff`).
-/

namespace ChartParser

/-! ## Listed items -/

/-- Column `i` lists an item with the same dotted rule that has all the children, each at its
position. -/
def Chart.Lists (chart : Chart) (i : Nat) (item : Item) : Prop :=
  ∃ (ids : Array ItemId) (id : ItemId) (known : Item), chart.columns[i]? = some ids ∧ id ∈ ids ∧
    chart.items[id]? = some known ∧ known.toDottedRule = item.toDottedRule ∧
    ∀ k child, item.HasChild k child → known.HasChild k child

/-- A chart covers an item exactly if the column where the item ends lists it. -/
theorem Chart.WellFormed.lists_iff_covers {chart : Chart} (hwf : chart.WellFormed) {item : Item} :
    chart.Lists item.current item ↔ chart.Covers item := by
  constructor
  · rintro ⟨ids, id, known, _, _, hknown, hrule, hchildren⟩
    exact ⟨id, known, hknown, hrule, hchildren⟩
  · rintro ⟨id, known, hknown, hrule, hchildren⟩
    obtain ⟨ids, hids, hmem⟩ := hwf.filed hknown
    rw [hrule] at hids
    exact ⟨ids, id, known, hids, hmem, hknown, hrule, hchildren⟩

namespace Parse

variable {g : Grammar} {tokens : List Token} {root : Symbol} {chart : Chart} {i : Nat}

/-! ## Sweeps over settled columns -/

/-- A sweep over the rest of a settled column changes nothing. -/
theorem Settled.sweepFrom_eq (h : Settled g tokens chart i) (hinv : Invariant g tokens root chart)
    {ids : Array ItemId} (hids : chart.columns[i]? = some ids) {steps j : Nat} (hj : j ≤ ids.size)
    (hsteps : columnCapacity g tokens i + 1 ≤ steps + j) :
    sweepFrom g tokens i steps j chart = .ok (chart, []) := by
  have hcapacity : ids.size ≤ columnCapacity g tokens i :=
    (hinv.column_size_le hids).trans (columnBound_le_columnCapacity g tokens i)
  -- The chart stays the same, so the places that are left are those of one and the same column.
  induction steps generalizing j with
  | zero => omega
  | succ steps ih =>
    cases hid : ids[j]? with
    | none => simp only [sweepFrom, hids, hid]
    | some id =>
      have hlt : j < ids.size := (Array.getElem?_eq_some_iff.1 hid).1
      obtain ⟨item, hitem, hcurrent⟩ :=
        hinv.wellFormed.listed hids (Array.mem_of_getElem? hid)
      -- All that is proposed for the item at this place is covered, so nothing happens there.
      obtain ⟨items, hproposals, hmem⟩ := hinv.exists_proposals hitem
      have hfileAll : chart.fileAll items = .ok (chart, []) :=
        hinv.wellFormed.fileAll_of_covers fun p hp => h id item p hitem hcurrent ((hmem p).1 hp)
      have hrest := ih (j := j + 1) hlt (by omega)
      simp only [sweepFrom, hids, hid, hproposals, hfileAll, ok_bind, hrest]
      rfl

/-- A sweep changes nothing exactly if its column is settled. -/
theorem Invariant.sweep_eq_self_iff (hinv : Invariant g tokens root chart) (hi : i ≤ tokens.length) :
    sweep g tokens i chart = .ok (chart, []) ↔ Settled g tokens chart i := by
  constructor
  · intro hsame
    obtain ⟨last, filings, hsweep, _, hsettled⟩ := exists_sweep hinv hi
    rw [hsame] at hsweep
    cases hsweep
    exact hsettled rfl
  · intro hsettled
    obtain ⟨ids, hids⟩ := hinv.exists_column hi
    exact hsettled.sweepFrom_eq hinv hids (Nat.zero_le _) (Nat.le_refl _)

/-! ## Closed items -/

/-- Column `i` and the next one list whatever one of the three rules makes of the item. -/
structure Closed (g : Grammar) (tokens : List Token) (chart : Chart) (i : Nat) (id : ItemId)
    (item : Item) : Prop where
  predicted : ∀ p ∈ item.predictions g, chart.Lists i p
  scanned : item.expectsNonterminal g = false →
    ∀ p, item.scan g tokens[i]? = some p → chart.Lists (i + 1) p
  completed : ∃ items, chart.completions g id item = .ok items ∧ ∀ p ∈ items, chart.Lists i p

/-- The rules are never refused for an item of a settled column, and the chart lists what they make
of it. -/
theorem Settled.closed (h : Settled g tokens chart i) (hinv : Invariant g tokens root chart)
    {id : ItemId} {item : Item} (hitem : chart.items[id]? = some item) (hcurrent : item.current = i) :
    Closed g tokens chart i id item where
  predicted p hp := by
    obtain ⟨s, alternatives, rhs, hnext, halternatives, hrhs, rfl⟩ := Item.mem_predictions_iff.1 hp
    rw [← hcurrent]
    exact hinv.wellFormed.lists_iff_covers.2 <|
      h id item _ hitem hcurrent (.predict hnext halternatives hrhs)
  scanned hterminal p hp := by
    obtain ⟨s, word, hnext, hword, hmem, rfl⟩ := Item.scan_eq_some_iff.1 hp
    rw [DottedRule.expectsNonterminal_of_next? hnext, Grammar.isNonterminal_eq_false_iff] at hterminal
    subst hcurrent
    exact hinv.wellFormed.lists_iff_covers.2 <|
      h id item _ hitem rfl (.scan hnext hterminal hword hmem)
  completed := by
    by_cases hcomplete : item.isComplete = true
    · obtain ⟨items, hitems, hmem⟩ :=
        exists_completions g id hinv.wellFormed hcomplete (hinv.origin_lt hitem)
      refine ⟨items, hitems, fun p hp => ?_⟩
      obtain ⟨waitingId, waiting, hwaiting, hends, hnext, hadvance⟩ := (hmem p).1 hp
      -- An item advanced over a child ends where the child does.
      obtain ⟨_, hrule, _⟩ := Item.advance_spec hadvance
      have hp : p.current = i := by
        rw [hrule, ← hcurrent]
        rfl
      rw [← hp]
      exact hinv.wellFormed.lists_iff_covers.2 <|
        h id item p hitem hcurrent (.complete hcomplete hwaiting hends hnext hadvance)
    · -- An item that is not complete completes nothing.
      refine ⟨[], ?_, fun p hp => absurd hp List.not_mem_nil⟩
      rw [Chart.completions, if_neg hcomplete]

/-! ## Convergence -/

/-- The alternatives of the root are listed in the first column. -/
theorem Converged.lists_of_mem_seedItems (h : Converged g tokens root chart) {p : Item}
    (hp : p ∈ seedItems g root) : chart.Lists 0 p := by
  have hcovers := h.wellFormed.lists_iff_covers.2 (h.seeded p hp)
  obtain ⟨rhs, _, rfl⟩ := List.mem_map.1 hp
  exact hcovers

/-- The chart of a parse holds the alternatives of the root and is closed under the three rules: in
every column, they make nothing of any item that is not listed already with all its children, and one
more sweep over the column leaves the chart as it is. -/
theorem parse_closed (g : Grammar) (tokens : List Token) (root : Symbol) :
    ∃ chart, parse g tokens root = .ok chart ∧ chart.length = tokens.length + 1 ∧
      (∀ p ∈ seedItems g root, chart.Lists 0 p) ∧
      (∀ (i : Nat) (ids : Array ItemId) (id : ItemId), chart.columns[i]? = some ids → id ∈ ids →
        ∃ item, chart.items[id]? = some item ∧ Closed g tokens chart i id item) ∧
      ∀ i < chart.length, sweep g tokens i chart = .ok (chart, []) := by
  obtain ⟨chart, hparse, h⟩ := exists_parse g tokens root
  refine ⟨chart, hparse, h.size_columns, fun p hp => h.lists_of_mem_seedItems hp,
    fun i ids id hids hid => ?_, fun i hi => ?_⟩
  · obtain ⟨item, hitem, hcurrent⟩ := h.wellFormed.listed hids hid
    exact ⟨item, hitem, (h.settled i).closed h.toInvariant hitem hcurrent⟩
  · rw [Chart.length, h.size_columns] at hi
    exact (h.toInvariant.sweep_eq_self_iff (Nat.le_of_lt_succ hi)).2 (h.settled i)

end Parse

end ChartParser
