import ChartParser.Proofs.Parse.Moments

/-!
# Parsing comes to its end

Settling a column is a loop in a loop, and neither counts down: a sweep goes on as long as the column
has another place, while the items it files make the column longer, and sweeps go on as long as one of
them changes something. Here both loops are said without any budget, by relations that hold exactly if
the loop comes to its end. They do so from every chart that a parse goes through and for every column,
and the budgets of the functions that run have no say in the outcome (`Invariant.sweep_eq_ok_iff`,
`Invariant.settle_eq_ok_iff`).

What makes the loops end is that a column has room for finitely many items and a slot for finitely
many children.
-/

namespace ChartParser.Parse

/-! ## The loops without budgets -/

/-- Going through column `i` from place `j` on and filing what the rules propose comes to its end: the
items at these places, those filed meanwhile included, are visited in order, and nothing is left. -/
inductive Sweeps (g : Grammar) (tokens : List Token) (i : Nat) :
    (j : Nat) → Chart → (visited : List ItemId) → List Filing → Chart → Prop
  | done {j : Nat} {chart : Chart} {ids : Array ItemId} :
      chart.columns[i]? = some ids → ids[j]? = none → Sweeps g tokens i j chart [] [] chart
  | visit {j : Nat} {chart next last : Chart} {ids : Array ItemId} {id : ItemId} {items : List Item}
      {visited : List ItemId} {filings later : List Filing} :
      chart.columns[i]? = some ids → ids[j]? = some id →
      proposals g tokens chart id = .ok items → chart.fileAll items = .ok (next, filings) →
      Sweeps g tokens i (j + 1) next visited later last →
      Sweeps g tokens i j chart (id :: visited) (filings ++ later) last

/-- Sweeping column `i` again and again comes to its end: at some time a sweep changes nothing. -/
inductive Settles (g : Grammar) (tokens : List Token) (i : Nat) :
    Chart → List (List Filing) → Chart → Prop
  | unchanged {chart last : Chart} {visited : List ItemId} :
      Sweeps g tokens i 0 chart visited [] last → Settles g tokens i chart [[]] last
  | changed {chart next last : Chart} {visited : List ItemId} {filings : List Filing}
      {sweeps : List (List Filing)} :
      Sweeps g tokens i 0 chart visited filings next → filings ≠ [] →
      Settles g tokens i next sweeps last → Settles g tokens i chart (filings :: sweeps) last

/-- Settling one column after the other, from column `i` on, comes to its end with these stages. -/
inductive SettlesEach (g : Grammar) (tokens : List Token) :
    (i : Nat) → Chart → List Stage → Chart → Prop
  | nil (i : Nat) (chart : Chart) : SettlesEach g tokens i chart [] chart
  | cons {i : Nat} {chart next last : Chart} {sweeps : List (List Filing)} {stages : List Stage} :
      Settles g tokens i chart sweeps next → SettlesEach g tokens (i + 1) next stages last →
      SettlesEach g tokens i chart (⟨i, sweeps, next⟩ :: stages) last

variable {g : Grammar} {tokens : List Token} {root : Symbol} {i j steps : Nat}
variable {chart last last' : Chart} {visited visited' : List ItemId} {filings filings' : List Filing}
variable {sweeps sweeps' : List (List Filing)}

/-! ## Each loop has one outcome -/

theorem Sweeps.unique (h : Sweeps g tokens i j chart visited filings last)
    (h' : Sweeps g tokens i j chart visited' filings' last') :
    visited = visited' ∧ filings = filings' ∧ last = last' := by
  -- Whether the column has a place `j` decides which constructor applies, the same for both.
  induction h generalizing visited' filings' last' with
  | done hids hid =>
    cases h' with
    | done => exact ⟨rfl, rfl, rfl⟩
    | visit hids' hid' =>
      obtain rfl := Option.some.inj (hids.symm.trans hids')
      rw [hid] at hid'
      cases hid'
  | visit hids hid hproposals hfileAll _ ih =>
    cases h' with
    | done hids' hid' =>
      obtain rfl := Option.some.inj (hids.symm.trans hids')
      rw [hid] at hid'
      cases hid'
    | visit hids' hid' hproposals' hfileAll' hrest' =>
      -- Both go on from the same item, file the same items and come to the same chart.
      obtain rfl := Option.some.inj (hids.symm.trans hids')
      obtain rfl := Option.some.inj (hid.symm.trans hid')
      obtain rfl := Except.ok.inj (hproposals.symm.trans hproposals')
      obtain ⟨rfl, rfl⟩ := Prod.mk.inj (Except.ok.inj (hfileAll.symm.trans hfileAll'))
      obtain ⟨rfl, rfl, rfl⟩ := ih hrest'
      exact ⟨rfl, rfl, rfl⟩

theorem Settles.unique (h : Settles g tokens i chart sweeps last)
    (h' : Settles g tokens i chart sweeps' last') : sweeps = sweeps' ∧ last = last' := by
  induction h generalizing sweeps' last' with
  | unchanged hsweep =>
    cases h' with
    | unchanged hsweep' => exact ⟨rfl, (hsweep.unique hsweep').2.2⟩
    | changed hsweep' hne => exact absurd (hsweep.unique hsweep').2.1.symm hne
  | changed hsweep hne _ ih =>
    cases h' with
    | unchanged hsweep' => exact absurd (hsweep.unique hsweep').2.1 hne
    | changed hsweep' _ hrest' =>
      obtain ⟨_, rfl, rfl⟩ := hsweep.unique hsweep'
      obtain ⟨rfl, rfl⟩ := ih hrest'
      exact ⟨rfl, rfl⟩

/-! ## The functions that run -/

/-- A sweep within a budget is a sweep. -/
theorem sweeps_of_sweepFrom (h : sweepFrom g tokens i steps j chart = .ok (last, filings)) :
    ∃ visited, Sweeps g tokens i j chart visited filings last := by
  -- A sweep that runs out of steps is refused, so one that is not has come to the last place.
  induction steps generalizing j chart filings with
  | zero => cases h
  | succ steps ih =>
    rw [sweepFrom] at h
    cases hids : chart.columns[i]? with
    | none => simp [hids] at h
    | some ids =>
      cases hid : ids[j]? with
      | none =>
        simp only [hids, hid, Except.ok.injEq, Prod.mk.injEq] at h
        obtain ⟨rfl, rfl⟩ := h
        exact ⟨[], .done hids hid⟩
      | some id =>
        simp only [hids, hid] at h
        obtain ⟨items, hproposals, h⟩ := bind_eq_ok_iff.1 h
        obtain ⟨⟨next, first⟩, hfileAll, h⟩ := bind_eq_ok_iff.1 h
        obtain ⟨⟨final, later⟩, hsweep, h⟩ := bind_eq_ok_iff.1 h
        cases h
        obtain ⟨visited, hrest⟩ := ih hsweep
        exact ⟨id :: visited, .visit hids hid hproposals hfileAll hrest⟩

/-- Settling within a budget is settling. -/
theorem settles_of_settleWithin (h : settleWithin g tokens i steps chart = .ok (last, sweeps)) :
    Settles g tokens i chart sweeps last := by
  induction steps generalizing chart sweeps with
  | zero => cases h
  | succ steps ih =>
    rw [settleWithin] at h
    obtain ⟨⟨next, filings⟩, hsweep, h⟩ := bind_eq_ok_iff.1 h
    obtain ⟨visited, hsweeps⟩ := sweeps_of_sweepFrom hsweep
    cases filings with
    | nil =>
      cases h
      exact .unchanged hsweeps
    | cons filing filings =>
      obtain ⟨⟨final, later⟩, hsettle, h⟩ := bind_eq_ok_iff.1 h
      cases h
      exact .changed hsweeps (List.cons_ne_nil filing filings) (ih hsettle)

/-- The budget has no say in the outcome of a sweep. -/
theorem Invariant.sweep_eq_ok_iff (hinv : Invariant g tokens root chart) (hi : i ≤ tokens.length) :
    sweep g tokens i chart = .ok (last, filings) ↔
      ∃ visited, Sweeps g tokens i 0 chart visited filings last := by
  constructor
  · exact sweeps_of_sweepFrom
  · rintro ⟨visited, hsweeps⟩
    -- The budget suffices for some outcome, and there is only one.
    obtain ⟨last', filings', hsweep, _⟩ := exists_sweep hinv hi
    obtain ⟨_, hsweeps'⟩ := sweeps_of_sweepFrom hsweep
    obtain ⟨_, rfl, rfl⟩ := hsweeps.unique hsweeps'
    exact hsweep

/-- The budget has no say in how a column is settled. -/
theorem Invariant.settle_eq_ok_iff (hinv : Invariant g tokens root chart) (hi : i ≤ tokens.length) :
    settle g tokens i chart = .ok (last, sweeps) ↔ Settles g tokens i chart sweeps last := by
  constructor
  · exact settles_of_settleWithin
  · intro hsettles
    obtain ⟨last', sweeps', hsettle, _⟩ := exists_settle hinv hi
    obtain ⟨rfl, rfl⟩ := hsettles.unique (settles_of_settleWithin hsettle)
    exact hsettle

/-- The stages that are gone through are what the loop over the columns comes to. -/
theorem Progress.settlesEach {stages : List Stage} (h : Progress g tokens root i chart stages last)
    (hinv : Invariant g tokens root chart) (hi : i + stages.length ≤ tokens.length + 1) :
    SettlesEach g tokens i chart stages last := by
  induction h with
  | nil => exact .nil _ _
  | cons hsettle hrun _ _ ih =>
    rw [List.length_cons] at hi
    have hsettles := (hinv.settle_eq_ok_iff (by omega)).1 hsettle
    exact .cons hsettles (ih (hrun.invariant hinv) (by omega))

/-! ## How long they take -/

/-- What is filed for an item of the column keeps the invariant, and afterwards the chart covers what the
rules propose for the item. -/
theorem visit_spec {next : Chart} {id : ItemId} {item : Item} {items : List Item}
    (hinv : Invariant g tokens root chart) (hi : i ≤ tokens.length)
    (hitem : chart.items[id]? = some item) (hcurrent : item.current = i)
    (hproposals : proposals g tokens chart id = .ok items)
    (hfileAll : chart.fileAll items = .ok (next, filings)) :
    Run g tokens root i chart filings next ∧
      ∀ p, Proposal g tokens chart id item p → next.Covers p := by
  obtain ⟨_, _, _, hproposals', hfileAll', hrun, hcovers⟩ := exists_visit hinv hi hitem hcurrent
  obtain rfl := Except.ok.inj (hproposals.symm.trans hproposals')
  obtain ⟨rfl, rfl⟩ := Prod.mk.inj (Except.ok.inj (hfileAll.symm.trans hfileAll'))
  exact ⟨hrun, hcovers⟩

theorem run_of_visit {next : Chart} {ids : Array ItemId} {id : ItemId} {items : List Item}
    (hinv : Invariant g tokens root chart) (hi : i ≤ tokens.length)
    (hids : chart.columns[i]? = some ids) (hid : ids[j]? = some id)
    (hproposals : proposals g tokens chart id = .ok items)
    (hfileAll : chart.fileAll items = .ok (next, filings)) :
    Run g tokens root i chart filings next := by
  obtain ⟨item, hitem, hcurrent⟩ := hinv.wellFormed.listed hids (Array.mem_of_getElem? hid)
  exact (visit_spec hinv hi hitem hcurrent hproposals hfileAll).1

theorem Sweeps.run (h : Sweeps g tokens i j chart visited filings last)
    (hinv : Invariant g tokens root chart) (hi : i ≤ tokens.length) :
    Run g tokens root i chart filings last := by
  induction h with
  | done => exact .nil _
  | visit hids hid hproposals hfileAll _ ih =>
    have hrun := run_of_visit hinv hi hids hid hproposals hfileAll
    exact hrun.append (ih (hrun.invariant hinv))

/-- A sweep visits each item of the column as it stands in the end, once and in order. -/
theorem Sweeps.visited_eq (h : Sweeps g tokens i j chart visited filings last)
    (hinv : Invariant g tokens root chart) (hi : i ≤ tokens.length) {ids : Array ItemId}
    (hids : last.columns[i]? = some ids) : visited = ids.toList.drop j := by
  induction h with
  | done hids' hid =>
    obtain rfl := Option.some.inj (hids'.symm.trans hids)
    rw [eq_comm, List.drop_eq_nil_iff, Array.length_toList]
    exact Array.getElem?_eq_none_iff.1 hid
  | visit hids' hid hproposals hfileAll hrest ih =>
    have hfirst := run_of_visit hinv hi hids' hid hproposals hfileAll
    have hnext := hfirst.invariant hinv
    -- The column only grows at its end, so the item is at the same place in the end.
    obtain ⟨ids'', hids'', hprefix⟩ :=
      ((hfirst.append (hrest.run hnext hi)).grows hinv).columns hids'
    obtain rfl := Option.some.inj (hids''.symm.trans hids)
    obtain ⟨hlt, hplace⟩ := Array.getElem?_eq_some_iff.1 hid
    have hlast := List.prefix_iff_getElem?.1 hprefix _ (by rwa [Array.length_toList])
    rw [Array.getElem_toList, hplace] at hlast
    obtain ⟨hlt', hplace'⟩ := List.getElem?_eq_some_iff.1 hlast
    rw [ih hnext hids, List.drop_eq_getElem_cons hlt', hplace']

/-- A sweep visits no more items than the column can hold. -/
theorem Sweeps.length_visited_le (h : Sweeps g tokens i j chart visited filings last)
    (hinv : Invariant g tokens root chart) (hi : i ≤ tokens.length) :
    visited.length ≤ columnBound g tokens i := by
  have hlast := (h.run hinv hi).invariant hinv
  obtain ⟨ids, hids⟩ := hlast.exists_column hi
  calc visited.length = ids.size - j := by
        rw [h.visited_eq hinv hi hids, List.length_drop, Array.length_toList]
    _ ≤ ids.size := Nat.sub_le _ _
    _ ≤ columnBound g tokens i := hlast.column_size_le hids

theorem Settles.run (h : Settles g tokens i chart sweeps last) (hinv : Invariant g tokens root chart)
    (hi : i ≤ tokens.length) : Run g tokens root i chart sweeps.flatten last := by
  induction h with
  | unchanged hsweep => exact hsweep.run hinv hi
  | changed hsweep _ _ ih =>
    have hrun := hsweep.run hinv hi
    exact hrun.append (ih (hrun.invariant hinv))

/-- Every sweep but the last one leaves a record. -/
theorem Settles.length_le (h : Settles g tokens i chart sweeps last) :
    sweeps.length ≤ sweeps.flatten.length + 1 := by
  induction h with
  | unchanged => exact Nat.le_refl 1
  | @changed _ _ _ _ filings sweeps _ hne _ ih =>
    have hpos : 0 < filings.length := List.length_pos_iff.2 hne
    rw [List.flatten_cons, List.length_cons, List.length_append]
    omega

/-- The number of sweeps is within the bound on what can be changed. -/
theorem Settles.length_le_changeCapacity (h : Settles g tokens i chart sweeps last)
    (hinv : Invariant g tokens root chart) (hi : i ≤ tokens.length) :
    sweeps.length ≤ changeCapacity g tokens i chart + 1 := by
  have hrun := h.run hinv hi
  -- Each record adds to the load near the column, and the load is bounded.
  obtain ⟨hload, helse⟩ := hrun.load_le hinv
  have hbound := (hrun.invariant hinv).load_le helse
  have hlength := h.length_le
  omega

/-! ## Termination -/

/-- From a chart whose items say the truth, a sweep over any column comes to its end. -/
theorem Invariant.exists_sweeps (hinv : Invariant g tokens root chart) (hi : i ≤ tokens.length) :
    ∃ visited filings last, Sweeps g tokens i 0 chart visited filings last ∧
      visited.length ≤ columnBound g tokens i := by
  obtain ⟨last, filings, hsweep, _⟩ := exists_sweep hinv hi
  obtain ⟨visited, hsweeps⟩ := (hinv.sweep_eq_ok_iff hi).1 hsweep
  exact ⟨visited, filings, last, hsweeps, hsweeps.length_visited_le hinv hi⟩

/-- From a chart whose items say the truth, settling any column comes to its end. -/
theorem Invariant.exists_settles (hinv : Invariant g tokens root chart) (hi : i ≤ tokens.length) :
    ∃ sweeps last, Settles g tokens i chart sweeps last ∧
      sweeps.length ≤ changeCapacity g tokens i chart + 1 := by
  obtain ⟨last, sweeps, hsettle, _⟩ := exists_settle hinv hi
  have hsettles := (hinv.settle_eq_ok_iff hi).1 hsettle
  exact ⟨sweeps, last, hsettles, hsettles.length_le_changeCapacity hinv hi⟩

/-- Parsing comes to its end. The stages of its trace are what the loops without budgets come to. At
every moment on the way, the settled charts of the stages included, a column holds no more items than
there are rules with a dot in them for each origin, and terminals of the token before it; a sweep over it
would visit no more items than that, and settling it would take finitely many sweeps. -/
theorem parse_terminates (g : Grammar) (tokens : List Token) (root : Symbol) :
    ∃ t, trace g tokens root = .ok t ∧ t.stages.length = tokens.length + 1 ∧
      SettlesEach g tokens 0 t.start t.stages t.chart ∧
      (∀ stage ∈ t.stages, stage.chart ∈ t.moments) ∧
      ∀ moment ∈ t.moments, ∀ (i : Nat) (ids : Array ItemId), moment.columns[i]? = some ids →
        ids.size ≤ (i + 1) * distinctDottings g + (terminalsInto g tokens i).length ∧
        (∃ visited filings last, Sweeps g tokens i 0 moment visited filings last ∧
          visited.length ≤ (i + 1) * distinctDottings g + (terminalsInto g tokens i).length) ∧
        ∃ sweeps last, Settles g tokens i moment sweeps last ∧
          sweeps.length ≤ changeCapacity g tokens i moment + 1 := by
  obtain ⟨t, htrace, htokens, _, hseeds, _, hlength, hprogress⟩ := exists_trace g tokens root
  have hstart := hseeds.invariant (invariant_empty g tokens root)
  have hstages := hprogress.settlesEach hstart (by omega)
  refine ⟨t, htrace, hlength, hstages, fun stage hstage => ?_, fun moment hmoment i ids hids => ?_⟩
  · exact stage_chart_mem_moments htokens hseeds hprogress hstage
  · -- The invariant is all it takes, and it holds at every moment.
    have hinv := invariant_of_mem_moments htokens hseeds hprogress hmoment
    have hi := hinv.le_of_column hids
    exact ⟨hinv.column_size_le hids, hinv.exists_sweeps hi, hinv.exists_settles hi⟩

end ChartParser.Parse
