import Mathlib.Algebra.Order.BigOperators.Group.List
import ChartParser.Grammar.Markers
import ChartParser.Parse.Log
import ChartParser.Proofs.Parse.Convergence
import ChartParser.Proofs.Parse.Termination

/-!
# How many sweeps a column takes

Columns are swept again for the sake of symbols that derive the empty text: only an item of such a symbol
can be complete in the column where it starts, before all the items are there that wait for it. If a
grammar has no nullable symbol, every complete item starts in a column that was settled before. What is
proposed for an item is then the same at whatever time it is visited, and the first sweep over a column,
which visits every item that ends up in it, settles the column. The second sweep only finds that out.

## Main results

- `Sound.origin_lt`: complete items span something
- `Sweeps.settled`: one sweep settles a column
- `parse_sweeps_twice`: a parse takes at most two sweeps for each column
-/

namespace ChartParser

namespace Grammar

variable {g : Grammar} {tokens : List Token} {symbols : List Symbol} {i j : Nat}

/-! ## Nullable symbols -/

/-- Only markers and nullable symbols derive the empty stretch. -/
theorem Derives.nullable (h : g.Derives tokens symbols i j) (hij : j = i) :
    ∀ s ∈ symbols, s ≠ g.epsilon → g.Nullable s := by
  induction h with
  | nil => exact fun s hs => absurd hs List.not_mem_nil
  | marker _ ih =>
    intro s hs hne
    rcases List.mem_cons.1 hs with rfl | hs
    · exact absurd rfl hne
    · exact ih hij s hs hne
  | terminal _ _ _ _ hrest =>
    -- A token is not empty.
    have hle := hrest.le
    omega
  | rule _ halternatives hmem hrhs hrest ihrhs ihrest =>
    have hle := hrhs.le
    have hle' := hrest.le
    intro s hs hne
    rcases List.mem_cons.1 hs with rfl | hs
    · exact .intro halternatives hmem (ihrhs (by omega))
    · exact ihrest (by omega) s hs hne

/-- Some symbol is nullable exactly if some alternative has nothing but markers. -/
theorem exists_nullable_iff :
    (∃ s, g.Nullable s) ↔ ∃ s alternatives, g.alternatives? s = some alternatives ∧
      ∃ rhs ∈ alternatives, g.solid rhs = [] := by
  constructor
  · rintro ⟨s, hs⟩
    induction hs with
    | @intro s alternatives rhs halternatives hrhs _ ih =>
      by_cases hsolid : g.solid rhs = []
      · exact ⟨s, alternatives, halternatives, rhs, hrhs, hsolid⟩
      · -- Any other alternative has a symbol that is nullable in its turn.
        obtain ⟨t, ht⟩ := List.exists_mem_of_ne_nil _ hsolid
        obtain ⟨hmem, hne⟩ := mem_solid_iff.1 ht
        exact ih t hmem hne
  · rintro ⟨s, alternatives, halternatives, rhs, hrhs, hsolid⟩
    refine ⟨s, .intro halternatives hrhs fun t ht hne => ?_⟩
    have hmem := mem_solid_iff.2 ⟨ht, hne⟩
    rw [hsolid] at hmem
    exact absurd hmem List.not_mem_nil

end Grammar

namespace Parse

variable {g : Grammar} {tokens : List Token} {root : Symbol} {i j : Nat}
variable {chart next last : Chart} {visited : List ItemId} {filings : List Filing}
variable {sweeps : List (List Filing)} {stages : List Stage}

/-! ## One sweep is enough -/

/-- A complete item spans something, unless its symbol is nullable. -/
theorem Sound.origin_lt {item : Item} (h : Sound g tokens root chart item)
    (hcomplete : item.isComplete = true) (hnullable : ¬ g.Nullable item.lhs) :
    item.origin < item.current := by
  apply Nat.lt_of_le_of_ne h.origin_le
  intro hspan
  -- An alternative that derives nothing would make the symbol nullable, and a token spans one position.
  rcases h.source with hrule | htoken
  · obtain ⟨alternatives, halternatives, hrhs⟩ := hrule.rule
    have hderives := hrule.derives
    rw [DottedRule.isComplete_eq_true_iff.1 hcomplete, Alternative.part_zero_length] at hderives
    exact hnullable (.intro halternatives hrhs (hderives.nullable hspan.symm))
  · have hcurrent := htoken.current_eq
    omega

/-- After a sweep the chart covers whatever the rules propose, by then, for the items that it visited. -/
theorem Sweeps.covers (h : Sweeps g tokens i j chart visited filings last)
    (hinv : Invariant g tokens root chart) (hi : i ≤ tokens.length)
    (hnullable : ∀ s, ¬ g.Nullable s) {id : ItemId} (hid : id ∈ visited) {item p : Item}
    (hitem : last.items[id]? = some item) (hp : Proposal g tokens last id item p) :
    last.Covers p := by
  induction h with
  | done => exact absurd hid List.not_mem_nil
  | @visit j chart next last ids first items visited filings later hids hfirst hproposals hfileAll
      hrest ih =>
    have hrun := run_of_visit hinv hi hids hfirst hproposals hfileAll
    have hnext := hrun.invariant hinv
    rcases List.mem_cons.1 hid with rfl | hid
    · obtain ⟨known, hknown, hcurrent⟩ :=
        hinv.wellFormed.listed hids (Array.mem_of_getElem? hfirst)
      have hrun' := hrest.run hnext hi
      have hwhole := hrun.append hrun'
      -- Children may have been merged into the item since it was visited, but its dotted rule is the
      -- same, and those that wait for it end in columns that are not touched any more.
      obtain ⟨item', hitem', hrule, _⟩ := (hwhole.grows hinv).items hknown
      obtain rfl := Option.some.inj (hitem'.symm.trans hitem)
      have hproposed : Proposal g tokens chart id known p := by
        apply hp.of_agreeBelow hrule (hwhole.agreeBelow hinv)
        intro hcomplete
        rw [← hcurrent]
        exact (hinv.sound hknown).origin_lt hcomplete (hnullable known.lhs)
      have hcovers := (visit_spec hinv hi hknown hcurrent hproposals hfileAll).2
      exact (hrun'.grows hnext).covers (hcovers p hproposed)
    · exact ih hnext hid hitem hp

/-- Without nullable symbols, a sweep settles its column. -/
theorem Sweeps.settled (h : Sweeps g tokens i 0 chart visited filings last)
    (hinv : Invariant g tokens root chart) (hi : i ≤ tokens.length)
    (hnullable : ∀ s, ¬ g.Nullable s) : Settled g tokens last i := by
  have hlast := (h.run hinv hi).invariant hinv
  obtain ⟨ids, hids⟩ := hlast.exists_column hi
  intro id item p hitem hcurrent hp
  -- The sweep has visited every item of the column as it stands in the end.
  have hid : id ∈ visited := by
    rw [h.visited_eq hinv hi hids, List.drop_zero, Array.mem_toList_iff]
    exact (hlast.wellFormed.mem_column_iff hids).2 ⟨item, hitem, hcurrent⟩
  exact h.covers hinv hi hnullable hid hitem hp

/-- The first sweep left nothing to do: it changed nothing itself, or the second one did not. -/
def SettledAtOnce (sweeps : List (List Filing)) : Prop :=
  sweeps = [[]] ∨ ∃ filings, filings ≠ [] ∧ sweeps = [filings, []]

theorem Settles.settledAtOnce (h : Settles g tokens i chart sweeps last)
    (hinv : Invariant g tokens root chart) (hi : i ≤ tokens.length)
    (hnullable : ∀ s, ¬ g.Nullable s) : SettledAtOnce sweeps := by
  cases h with
  | unchanged => exact Or.inl rfl
  | @changed _ next _ visited filings sweeps hsweep hne hrest =>
    have hnext := (hsweep.run hinv hi).invariant hinv
    have hsame := (hnext.sweep_eq_self_iff hi).2 (hsweep.settled hinv hi hnullable)
    obtain ⟨visited', hsweep'⟩ := (hnext.sweep_eq_ok_iff hi).1 hsame
    -- There is only one way to go on, and that is a sweep that changes nothing.
    obtain ⟨rfl, _⟩ := hrest.unique (.unchanged hsweep')
    exact Or.inr ⟨filings, hne, rfl⟩

theorem SettledAtOnce.length_pos (h : SettledAtOnce sweeps) : 1 ≤ sweeps.length := by
  rcases h with rfl | ⟨_, _, rfl⟩ <;> simp

theorem SettledAtOnce.length_le (h : SettledAtOnce sweeps) : sweeps.length ≤ 2 := by
  rcases h with rfl | ⟨_, _, rfl⟩ <;> simp

/-! ## The columns of a parse -/

theorem Progress.map_column (h : Progress g tokens root i chart stages last) :
    stages.map Stage.column = List.range' i stages.length := by
  induction h with
  | nil => rfl
  | cons _ _ _ _ ih => rw [List.map_cons, List.length_cons, List.range'_succ, ih]

/-- The column of each stage was settled from a chart that satisfies the invariant. -/
theorem Progress.settles_of_mem (h : Progress g tokens root i chart stages last)
    (hinv : Invariant g tokens root chart) (hi : i + stages.length ≤ tokens.length + 1)
    {stage : Stage} (hstage : stage ∈ stages) :
    stage.column ≤ tokens.length ∧ ∃ before, Invariant g tokens root before ∧
      Settles g tokens stage.column before stage.sweeps stage.chart := by
  obtain ⟨k, hk⟩ := List.mem_iff_getElem?.1 hstage
  have hlt := (List.getElem?_eq_some_iff.1 hk).1
  obtain ⟨before, sweeps, settled, hstage', hfirst, hsettle, _⟩ := h.exists_stage hlt
  obtain rfl := Option.some.inj (hk.symm.trans hstage')
  have hbefore := hfirst.invariant hinv
  have hcolumn : i + k ≤ tokens.length := by omega
  exact ⟨hcolumn, before, hbefore, (hbefore.settle_eq_ok_iff hcolumn).1 hsettle⟩

theorem sweepCount_eq_sum (t : Trace) :
    t.sweepCount = (t.stages.map fun stage => stage.sweeps.length).sum := by
  rw [Trace.sweepCount]
  induction t.stages with
  | nil => rfl
  | cons stage stages ih => rw [List.foldr_cons, ih, List.map_cons, List.sum_cons]

/-- Nothing in the log of a parse is refused, and the last message tells the number of sweeps. -/
theorem exists_log {t : Trace} (options : LogOptions)
    (hstages : ∀ stage ∈ t.stages, ∃ text, stage.chart.columnText stage.column = .ok text) :
    ∃ entries, t.log options = .ok (entries ++ [t.summary]) := by
  obtain ⟨stages, hlog⟩ := exists_mapM_eq_ok (f := Trace.stageEntries options) fun stage hstage => by
    obtain ⟨text, htext⟩ := hstages stage hstage
    unfold Trace.stageEntries
    cases options.columns with
    | false => exact ⟨_, rfl⟩
    | true =>
      rw [htext]
      exact ⟨_, rfl⟩
  refine ⟨t.seedEntries ++ stages.flatten, ?_⟩
  rw [Trace.log, hlog]
  rfl

theorem Invariant.exists_columnText (h : Invariant g tokens root chart) (hi : i ≤ tokens.length) :
    ∃ text, chart.columnText i = .ok text := by
  obtain ⟨ids, hids⟩ := h.exists_column hi
  rw [Chart.columnText, column_eq_ok_iff.2 ⟨ids, hids, rfl⟩]
  exact ⟨_, rfl⟩

/-! ## Two sweeps for each column -/

/-- Without nullable symbols a parse takes at most two sweeps for each column, of which the second
changes nothing, so the number that it reports in the end lies between that of the columns and twice
that. -/
theorem parse_sweeps_twice (g : Grammar) (tokens : List Token) (root : Symbol)
    (hnullable : ∀ s, ¬ g.Nullable s) :
    ∃ t, trace g tokens root = .ok t ∧
      t.stages.map Stage.column = List.range (tokens.length + 1) ∧
      (∀ stage ∈ t.stages, SettledAtOnce stage.sweeps) ∧
      ∃ passes, tokens.length + 1 ≤ passes ∧ passes ≤ 2 * (tokens.length + 1) ∧
        ∀ options, ∃ entries, t.log options = .ok (entries ++ [⟨.debug, "parsed " ++
          toString tokens.length ++ " tokens in " ++ toString passes ++ " passes; " ++
          toString t.chart.items.size ++ " items"⟩]) := by
  obtain ⟨t, htrace, htokens, _, hseeds, _, hlength, hprogress⟩ := exists_trace g tokens root
  have hstart := hseeds.invariant (invariant_empty g tokens root)
  have hstages : ∀ stage ∈ t.stages, SettledAtOnce stage.sweeps ∧
      ∃ text, stage.chart.columnText stage.column = .ok text := by
    intro stage hstage
    obtain ⟨hi, before, hbefore, hsettles⟩ := hprogress.settles_of_mem hstart (by omega) hstage
    exact ⟨hsettles.settledAtOnce hbefore hi hnullable,
      ((hsettles.run hbefore hi).invariant hbefore).exists_columnText hi⟩
  refine ⟨t, htrace, ?_, fun stage hstage => (hstages stage hstage).1, t.sweepCount, ?_, ?_,
    fun options => ?_⟩
  · rw [hprogress.map_column, hlength, List.range_eq_range']
  · -- The number that is reported is the sum over the columns, each of which took one sweep or two.
    rw [sweepCount_eq_sum]
    have hle := List.card_nsmul_le_sum (t.stages.map fun stage => stage.sweeps.length) 1 <| by
      simpa using fun stage hstage => (hstages stage hstage).1.length_pos
    simpa [hlength] using hle
  · rw [sweepCount_eq_sum]
    have hle := List.sum_le_card_nsmul (t.stages.map fun stage => stage.sweeps.length) 2 <| by
      simpa using fun stage hstage => (hstages stage hstage).1.length_le
    simpa [hlength, Nat.mul_comm] using hle
  · rw [← htokens]
    exact exists_log options fun stage hstage => (hstages stage hstage).2

/-- Rows of a letter, grouped in pairs in any way: recursive at both ends, ambiguous and with a unit
cycle, but never empty. -/
def groupings : Grammar where
  rules := ⟨[("S", [["S", "S"], ["U"], ["a"]]), ("U", [["S"]])], by simp⟩
  epsilon := Grammar.defaultEpsilon
  classifier := none

theorem not_nullable_groupings (s : Symbol) : ¬ groupings.Nullable s := by
  intro hs
  obtain ⟨s, alternatives, halternatives, rhs, hrhs, hsolid⟩ := Grammar.exists_nullable_iff.1 ⟨s, hs⟩
  have hnone : ∀ entry ∈ groupings.rules.entries, ∀ rhs ∈ entry.2, groupings.solid rhs ≠ [] := by
    decide
  exact hnone _ (mem_entries_of_alternatives? halternatives) rhs hrhs hsolid

/-- Two letters take no more than two sweeps for each of the three columns. -/
theorem groupings_sweeps_twice :
    (∀ s, ¬ groupings.Nullable s) ∧ ∃ t, trace groupings ["a", "a"] "S" = .ok t ∧
      t.stages.map Stage.column = List.range 3 ∧
      (∀ stage ∈ t.stages, SettledAtOnce stage.sweeps) ∧
      ∃ passes, 3 ≤ passes ∧ passes ≤ 2 * 3 ∧
        ∀ options, ∃ entries, t.log options = .ok (entries ++ [⟨.debug, "parsed " ++
          toString 2 ++ " tokens in " ++ toString passes ++ " passes; " ++
          toString t.chart.items.size ++ " items"⟩]) :=
  ⟨not_nullable_groupings, parse_sweeps_twice groupings ["a", "a"] "S" not_nullable_groupings⟩

end Parse

end ChartParser
