import ChartParser.Proofs.Parse.Completeness

/-!
# What a parse recognizes

The finished roots of a parse are the complete items of the last column that start at the first one and
carry the root. There is one for each alternative of the root that derives the whole input, so the input
is accepted exactly if there is such an alternative.
-/

namespace ChartParser.Parse

variable {g : Grammar} {tokens : List Token} {root : Symbol} {chart : Chart}

/-! ## Finished roots -/

/-- A finished root is a complete item over the whole input. -/
theorem Invariant.mem_finishedRoots_iff (h : Invariant g tokens root chart) {q : Symbol} {id : ItemId} :
    id ∈ chart.finishedRoots q ↔ ∃ item, chart.items[id]? = some item ∧ item.isComplete = true ∧
      item.lhs = q ∧ item.origin = 0 ∧ item.current = tokens.length := by
  have hlt : tokens.length < chart.columns.size := by
    rw [h.size_columns]
    exact Nat.lt_succ_self _
  have hlast : chart.columns[tokens.length]? = some chart.columns[tokens.length] :=
    Array.getElem?_eq_getElem hlt
  -- The last column is the one behind all tokens.
  have hback : chart.columns.back? = chart.columns[tokens.length]? := by
    rw [Array.back?_eq_getElem?, h.size_columns, Nat.add_sub_cancel]
  rw [Chart.finishedRoots, hback, hlast, Option.getD_some, List.mem_filter, Array.mem_toList_iff,
    h.wellFormed.mem_column_iff hlast]
  constructor
  · rintro ⟨⟨item, hitem, hcurrent⟩, hfinished⟩
    simp only [Chart.isFinished, hitem, Option.any_some, Bool.and_eq_true, beq_iff_eq] at hfinished
    obtain ⟨⟨hcomplete, horigin⟩, hlhs⟩ := hfinished
    exact ⟨item, hitem, hcomplete, hlhs, horigin, hcurrent⟩
  · rintro ⟨item, hitem, hcomplete, hlhs, horigin, hcurrent⟩
    refine ⟨⟨item, hitem, hcurrent⟩, ?_⟩
    simp only [Chart.isFinished, hitem, Option.any_some, Bool.and_eq_true, beq_iff_eq]
    exact ⟨⟨hcomplete, horigin⟩, hlhs⟩

theorem Invariant.nodup_finishedRoots (h : Invariant g tokens root chart) (q : Symbol) :
    (chart.finishedRoots q).Nodup := by
  -- The finished roots are picked from a column, which lists no item twice.
  refine List.Nodup.filter _ ?_
  cases hback : chart.columns.back? with
  | none => exact List.nodup_nil
  | some ids =>
    rw [Array.back?_eq_getElem?] at hback
    exact h.wellFormed.nodup hback

theorem accepts_eq_true_iff {q : Symbol} :
    chart.accepts q = true ↔ ∃ id, id ∈ chart.finishedRoots q := by
  rw [Chart.accepts, Chart.finishedRoot?, List.isSome_head?]
  exact ⟨List.exists_mem_of_ne_nil _, fun ⟨_, hid⟩ => List.ne_nil_of_mem hid⟩

/-! ## What they derive -/

/-- A symbol with rules is due only if the root has rules. -/
theorem predicted_root {s : Symbol} {i : Nat} (h : g.Predicted tokens root s i)
    (hs : g.isNonterminal s = true) : g.isNonterminal root = true := by
  -- The chain of what is due goes back to the root, step by step through symbols with rules.
  induction h with
  | root => exact hs
  | next _ halternatives _ _ _ _ ih =>
    exact ih (Grammar.isNonterminal_eq_true_iff.2 ⟨_, halternatives⟩)

/-- No token of the chart is matched as the root. -/
theorem FromToken.ne_root {r : DottedRule} (h : FromToken g tokens root r) : r.lhs ≠ root := by
  intro hroot
  obtain ⟨waiting, hwaits, _, _⟩ := h.wanted
  -- Some rule waits for the token, so its symbol was due, and the root has rules after all.
  have hnonterminal := predicted_root hwaits.predicted hwaits.isNonterminal
  rw [← hroot, Grammar.isNonterminal_eq_true_iff] at hnonterminal
  obtain ⟨alternatives, halternatives⟩ := hnonterminal
  rw [h.terminal] at halternatives
  cases halternatives

/-- There is a finished root for an alternative exactly if the alternative derives the input. -/
theorem Converged.exists_finishedRoot_iff (h : Converged g tokens root chart) {rhs : Alternative} :
    (∃ id ∈ chart.finishedRoots root, ∃ item, chart.items[id]? = some item ∧ item.rhs = rhs) ↔
      (∃ alternatives, g.alternatives? root = some alternatives ∧ rhs ∈ alternatives) ∧
        g.Derives tokens rhs 0 tokens.length := by
  constructor
  · rintro ⟨id, hid, item, hitem, rfl⟩
    obtain ⟨item', hitem', hcomplete, hlhs, horigin, hcurrent⟩ := h.mem_finishedRoots_iff.1 hid
    obtain rfl := Option.some.inj (hitem.symm.trans hitem')
    rcases (h.sound hitem).source with hrule | htoken
    · -- A complete item has matched its whole alternative.
      have hderives := hrule.derives
      rw [DottedRule.isComplete_eq_true_iff.1 hcomplete, Alternative.part_zero_length, horigin,
        hcurrent] at hderives
      exact ⟨hlhs ▸ hrule.rule, hderives⟩
    · exact absurd hlhs htoken.ne_root
  · -- The root is due at the start, so the whole alternative is matched there.
    rintro ⟨hrule, hderives⟩
    obtain ⟨id, item, hitem, hr⟩ := h.exists_fromRule
      (r := ⟨root, rhs, rhs.length, 0, tokens.length, Nat.le_refl _⟩)
      { rule := hrule
        next_ne := by
          rw [DottedRule.next?_eq_none_iff.2 (DottedRule.isComplete_eq_true_iff.2 rfl)]
          exact nofun
        derives := by rwa [Alternative.part_zero_length]
        predicted := .root }
    refine ⟨id, h.mem_finishedRoots_iff.2 ⟨item, hitem, ?_⟩, item, hitem, by rw [hr]⟩
    rw [hr, DottedRule.isComplete_eq_true_iff]
    exact ⟨rfl, rfl, rfl, rfl⟩

/-- No two finished roots have the same alternative. -/
theorem Invariant.finishedRoot_unique (h : Invariant g tokens root chart) {q : Symbol}
    {id id' : ItemId} (hid : id ∈ chart.finishedRoots q) (hid' : id' ∈ chart.finishedRoots q)
    {item item' : Item} (hitem : chart.items[id]? = some item) (hitem' : chart.items[id']? = some item')
    (hrhs : item.rhs = item'.rhs) : id = id' := by
  obtain ⟨_, hfirst, hcomplete, hlhs, horigin, hcurrent⟩ := h.mem_finishedRoots_iff.1 hid
  obtain rfl := Option.some.inj (hitem.symm.trans hfirst)
  obtain ⟨_, hsecond, hcomplete', hlhs', horigin', hcurrent'⟩ := h.mem_finishedRoots_iff.1 hid'
  obtain rfl := Option.some.inj (hitem'.symm.trans hsecond)
  -- Both are complete and span the whole input, so their dotted rules are the same in all parts.
  refine h.wellFormed.distinct hitem hitem' (DottedRule.ext ?_ hrhs ?_ ?_ ?_)
  · rw [hlhs, hlhs']
  · rw [DottedRule.isComplete_eq_true_iff.1 hcomplete, DottedRule.isComplete_eq_true_iff.1 hcomplete',
      hrhs]
  · rw [horigin, horigin']
  · rw [hcurrent, hcurrent']

/-- The finished roots can all be looked up. -/
theorem Invariant.exists_finished (h : Invariant g tokens root chart) (q : Symbol) :
    ∃ items, (chart.finishedRoots q).mapM chart.item = .ok items ∧
      ∀ item, item ∈ items ↔ ∃ id ∈ chart.finishedRoots q, chart.items[id]? = some item := by
  have hlookup : ∀ id ∈ chart.finishedRoots q, ∃ item, chart.item id = .ok item := by
    intro id hid
    obtain ⟨item, hitem, _⟩ := h.mem_finishedRoots_iff.1 hid
    exact ⟨item, item_eq_ok_iff.2 hitem⟩
  obtain ⟨items, hitems⟩ := exists_mapM_eq_ok hlookup
  refine ⟨items, hitems, fun item => ?_⟩
  simp only [mem_of_mapM_eq_ok hitems, item_eq_ok_iff]

/-! ## Recognition -/

/-- The input is accepted exactly if some alternative of the root derives it. -/
theorem Converged.accepts_iff (h : Converged g tokens root chart) :
    chart.accepts root = true ↔ ∃ alternatives, g.alternatives? root = some alternatives ∧
      ∃ rhs ∈ alternatives, g.Derives tokens rhs 0 tokens.length := by
  rw [accepts_eq_true_iff]
  constructor
  · rintro ⟨id, hid⟩
    obtain ⟨item, hitem, _⟩ := h.mem_finishedRoots_iff.1 hid
    obtain ⟨⟨alternatives, halternatives, hmem⟩, hderives⟩ :=
      h.exists_finishedRoot_iff.1 ⟨id, hid, item, hitem, rfl⟩
    exact ⟨alternatives, halternatives, item.rhs, hmem, hderives⟩
  · rintro ⟨alternatives, halternatives, rhs, hmem, hderives⟩
    obtain ⟨id, hid, _⟩ :=
      h.exists_finishedRoot_iff.2 ⟨⟨alternatives, halternatives, hmem⟩, hderives⟩
    exact ⟨id, hid⟩

/-- The finished roots of a parse are one item for each alternative of the root that derives the whole
input, and the input is accepted exactly if there is one. -/
theorem parse_recognizes (g : Grammar) (tokens : List Token) (root : Symbol) :
    ∃ chart items, parse g tokens root = .ok chart ∧
      (chart.finishedRoots root).mapM chart.item = .ok items ∧
      (items.map fun item => item.rhs).Nodup ∧
      (∀ item ∈ items, item.isComplete = true ∧ item.lhs = root ∧ item.origin = 0 ∧
        item.current = tokens.length) ∧
      (∀ rhs, rhs ∈ items.map (fun item => item.rhs) ↔
        (∃ alternatives, g.alternatives? root = some alternatives ∧ rhs ∈ alternatives) ∧
          g.Derives tokens rhs 0 tokens.length) ∧
      (chart.accepts root = true ↔ ∃ alternatives, g.alternatives? root = some alternatives ∧
        ∃ rhs ∈ alternatives, g.Derives tokens rhs 0 tokens.length) ∧
      (g.alternatives? root = none → chart.accepts root = false) := by
  obtain ⟨chart, hparse, h⟩ := exists_parse g tokens root
  obtain ⟨items, hitems, hmem⟩ := h.exists_finished root
  refine ⟨chart, items, hparse, hitems, ?_, ?_, fun rhs => ?_, h.accepts_iff, ?_⟩
  · -- Two finished roots with one alternative would be one.
    refine nodup_map_of_mapM_eq_ok hitems (h.nodup_finishedRoots root) ?_
    intro id hid id' hid' item item' hitem hitem' hsame
    exact h.finishedRoot_unique hid hid' (item_eq_ok_iff.1 hitem) (item_eq_ok_iff.1 hitem') hsame
  · intro item hitem
    obtain ⟨id, hid, hlooked⟩ := (hmem item).1 hitem
    obtain ⟨item', hlooked', hfinished⟩ := h.mem_finishedRoots_iff.1 hid
    obtain rfl := Option.some.inj (hlooked.symm.trans hlooked')
    exact hfinished
  · rw [← h.exists_finishedRoot_iff, List.mem_map]
    constructor
    · rintro ⟨item, hitem, hsame⟩
      obtain ⟨id, hid, hlooked⟩ := (hmem item).1 hitem
      exact ⟨id, hid, item, hlooked, hsame⟩
    · rintro ⟨id, hid, item, hlooked, hsame⟩
      exact ⟨item, (hmem item).2 ⟨id, hid, hlooked⟩, hsame⟩
  · intro hnone
    -- Without rules there is no alternative that could derive the input.
    rw [Bool.eq_false_iff, Ne, h.accepts_iff]
    rintro ⟨alternatives, halternatives, _⟩
    rw [hnone] at halternatives
    cases halternatives

end ChartParser.Parse
