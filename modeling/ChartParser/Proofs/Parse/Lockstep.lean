import ChartParser.Proofs.Parse.Termination

/-!
# Parses in lockstep

Two parses of token lists that begin alike do the same, filing by filing and number by number, as long
as they settle columns whose next token is one that the lists share, or one that no item of the column
waits for. Their charts have the same items all the while; they differ only in how many columns there
are behind.
-/

namespace ChartParser.Parse

/-- The charts have the same items, and the same columns up to column `k`. -/
structure Coincide (k : Nat) (chart chart' : Chart) : Prop where
  items : chart'.items = chart.items
  columns : ∀ c ≤ k, chart'.columns[c]? = chart.columns[c]?

variable {g : Grammar} {tokens tokens' : List Token} {root : Symbol} {i j k : Nat}
variable {chart chart' next last last' : Chart} {item : Item} {id : ItemId}
variable {visited : List ItemId} {filings : List Filing} {sweeps sweeps' : List (List Filing)}

theorem coincide_empty (h : k ≤ tokens.length) (h' : k ≤ tokens'.length) :
    Coincide k (Chart.empty tokens.length) (Chart.empty tokens'.length) where
  items := rfl
  columns c hc := by
    simp only [Chart.empty, Array.getElem?_replicate]
    rw [if_pos (by omega), if_pos (by omega)]

/-! ## Filing -/

theorem Coincide.push (h : Coincide k chart chart') (item : Item) (i : Nat) :
    Coincide k (chart.push item i) (chart'.push item i) where
  items := by simp only [Chart.push, h.items]
  columns c hc := by
    rw [Chart.getElem?_columns_push, Chart.getElem?_columns_push, h.columns c hc, h.items]

/-- The item with a number is the same, so it absorbs the same and tells the same. -/
theorem Coincide.absorbAt (h : Coincide k chart chart') (id : ItemId) (row : List Slot) :
    (chart'.absorbAt id row).2 = (chart.absorbAt id row).2 ∧
      Coincide k (chart.absorbAt id row).1 (chart'.absorbAt id row).1 := by
  simp only [Chart.absorbAt, h.items]
  cases chart.items[id]? with
  | none => exact ⟨rfl, h⟩
  | some known => exact ⟨rfl, ⟨rfl, h.columns⟩⟩

theorem Coincide.idOf?_eq (h : Coincide k chart chart') (ids : Array ItemId) (r : DottedRule) :
    chart'.idOf? ids r = chart.idOf? ids r := by
  have hholds : chart'.holds r = chart.holds r := by
    funext id
    rw [Chart.holds, Chart.holds, h.items]
  rw [Chart.idOf?, Chart.idOf?, hholds]

/-- Filing an item in a column that the charts share leaves the same record. -/
theorem Coincide.place (h : Coincide k chart chart') (item : Item) (i : Nat) (ids : Array ItemId) :
    (chart'.place item i ids).2 = (chart.place item i ids).2 ∧
      Coincide k (chart.place item i ids).1 (chart'.place item i ids).1 := by
  simp only [Chart.place, h.idOf?_eq, h.items]
  cases chart.idOf? ids item.toDottedRule with
  | none => exact ⟨rfl, h.push item i⟩
  | some id =>
    obtain ⟨hflag, hcoincide⟩ := h.absorbAt id item.slots
    exact ⟨by simp only [hflag], hcoincide⟩

theorem Coincide.exists_file (h : Coincide k chart chart') (hk : item.current ≤ k)
    {filing : Option Filing} (hfile : chart.file item item.current = .ok (next, filing)) :
    ∃ next', chart'.file item item.current = .ok (next', filing) ∧ Coincide k next next' := by
  obtain ⟨_, ids, hids, hplaced⟩ := Chart.place_of_file hfile
  -- Both charts have the column, and what is placed in it is the same.
  have hids' : chart'.columns[item.current]? = some ids := (h.columns _ hk).trans hids
  have hfile' : chart'.file item item.current = .ok (chart'.place item item.current ids) := by
    simp [Chart.file, hids']
  obtain ⟨hrecord, hplace⟩ := h.place item item.current ids
  rw [hplaced] at hrecord hplace
  exact ⟨_, hfile'.trans (congrArg Except.ok (Prod.ext rfl hrecord)), hplace⟩

theorem Coincide.exists_fileAll {items : List Item} (h : Coincide k chart chart')
    (hk : ∀ p ∈ items, p.current ≤ k) (hfileAll : chart.fileAll items = .ok (next, filings)) :
    ∃ next', chart'.fileAll items = .ok (next', filings) ∧ Coincide k next next' := by
  induction items generalizing chart chart' filings with
  | nil =>
    cases hfileAll
    exact ⟨chart', rfl, h⟩
  | cons item rest ih =>
    obtain ⟨middle, filing, later, hfile, hrest, rfl⟩ := Chart.fileAll_cons_eq_ok_iff.1 hfileAll
    obtain ⟨middle', hfile', hmiddle⟩ := h.exists_file (hk item List.mem_cons_self) hfile
    obtain ⟨last', hrest', hlast⟩ := ih hmiddle (fun p hp => hk p (List.mem_cons_of_mem _ hp)) hrest
    exact ⟨last', Chart.fileAll_cons_eq_ok_iff.2 ⟨middle', filing, later, hfile', hrest', rfl⟩, hlast⟩

/-! ## Scanning -/

/-- The dotted rule waits for a terminal that the token satisfies. There is no token past the end of the
input. -/
def Awaits (g : Grammar) (r : DottedRule) (token : Option Token) : Prop :=
  ∃ s word, r.next? = some s ∧ g.alternatives? s = none ∧ token = some word ∧ s ∈ g.terminalsFor word

/-- The token behind the dotted rule is before place `k` and the same in both lists, or the dotted rule
waits for the token of neither. -/
def ScansAlike (g : Grammar) (tokens tokens' : List Token) (k : Nat) (r : DottedRule) : Prop :=
  (r.current < k ∧ tokens'[r.current]? = tokens[r.current]?) ∨
    (¬ Awaits g r tokens[r.current]? ∧ ¬ Awaits g r tokens'[r.current]?)

/-- What is not awaited is not scanned. -/
theorem scan_eq_none {token : Option Token} (hexpects : item.expectsNonterminal g = false)
    (hawaits : ¬ Awaits g item.toDottedRule token) : item.scan g token = none := by
  rw [Option.eq_none_iff_forall_ne_some]
  intro p hp
  obtain ⟨s, word, hnext, htoken, hmem, _⟩ := Item.scan_eq_some_iff.1 hp
  rw [DottedRule.expectsNonterminal_of_next? hnext] at hexpects
  exact hawaits ⟨s, word, hnext, Grammar.isNonterminal_eq_false_iff.1 hexpects, htoken, hmem⟩

theorem ScansAlike.scan_eq (h : ScansAlike g tokens tokens' k item.toDottedRule)
    (hexpects : item.expectsNonterminal g = false) :
    item.scan g tokens'[item.current]? = item.scan g tokens[item.current]? := by
  rcases h with ⟨_, htoken⟩ | ⟨hawaits, hawaits'⟩
  · rw [htoken]
  · rw [scan_eq_none hexpects hawaits, scan_eq_none hexpects hawaits']

/-- Nothing is proposed that ends behind place `k`. -/
theorem Proposal.current_le {p : Item} (h : Proposal g tokens chart id item p) (hk : item.current ≤ k)
    (hscans : ScansAlike g tokens tokens' k item.toDottedRule) : p.current ≤ k := by
  cases h with
  | predict => exact hk
  | scan hnext hnone hword hmem =>
    -- Only a scan goes one column on, and none goes past the place.
    rcases hscans with ⟨hlt, _⟩ | ⟨hawaits, _⟩
    · exact hlt
    · exact absurd ⟨_, _, hnext, hnone, hword, hmem⟩ hawaits
  | complete _ _ _ _ hadvance =>
    obtain ⟨_, hrule, _⟩ := Item.advance_spec hadvance
    rw [hrule]
    exact hk

/-! ## Settling -/

theorem Coincide.completions_eq (h : Coincide k chart chart') (horigin : item.origin ≤ k) :
    chart'.completions g id item = chart.completions g id item := by
  have hcolumn : chart'.column item.origin = chart.column item.origin := by
    rw [Chart.column, Chart.column, h.columns _ horigin]
  have hitem : chart'.item = chart.item := by
    funext id
    rw [Chart.item, Chart.item, h.items]
  simp only [Chart.completions, Chart.itemsOf, hcolumn, hitem]

/-- The rules propose the same for an item that scans alike. -/
theorem Coincide.proposals_eq (h : Coincide k chart chart') (hitem : chart.items[id]? = some item)
    (horigin : item.origin ≤ k) (hscans : ScansAlike g tokens tokens' k item.toDottedRule) :
    proposals g tokens' chart' id = proposals g tokens chart id := by
  simp only [proposals, h.items, hitem, h.completions_eq horigin]
  by_cases hexpects : item.expectsNonterminal g = true
  · rw [if_pos hexpects, if_pos hexpects]
  · rw [hscans.scan_eq (by simpa using hexpects)]

/-- A sweep over a column whose items scan alike does the same in both charts. -/
theorem Coincide.exists_sweeps (h : Coincide k chart chart') (hi : i ≤ k) (hle : i ≤ tokens.length)
    (hinv : Invariant g tokens root chart)
    (hsweeps : Sweeps g tokens i j chart visited filings last)
    (hscans : ∀ id r, last.holds r id = true → r.current = i → ScansAlike g tokens tokens' k r) :
    ∃ last', Sweeps g tokens' i j chart' visited filings last' ∧ Coincide k last last' := by
  -- The induction is on the sweep. At each place the other chart lists the same item, which proposes
  -- the same.
  induction hsweeps generalizing chart' with
  | done hids hid => exact ⟨chart', .done ((h.columns i hi).trans hids) hid, h⟩
  | @visit j chart next last ids id items visited filings later hids hid hproposals hfileAll hrest ih =>
    obtain ⟨item, hitem, hcurrent⟩ := hinv.wellFormed.listed hids (Array.mem_of_getElem? hid)
    have horigin := (hinv.sound hitem).origin_le
    have hrun := run_of_visit hinv hle hids hid hproposals hfileAll
    have hgrows := (hrun.append (hrest.run (hrun.invariant hinv) hle)).grows hinv
    -- The item keeps its dotted rule, so it is one of those that scan alike.
    have halike := hscans id item.toDottedRule
      (hgrows.holds (Chart.holds_eq_true_iff.2 ⟨item, hitem, rfl⟩)) hcurrent
    have hproposals' := h.proposals_eq hitem (by omega) halike
    obtain ⟨items', hitems', hmem⟩ := hinv.exists_proposals hitem
    obtain rfl := Except.ok.inj (hproposals.symm.trans hitems')
    have hends : ∀ p ∈ items, p.current ≤ k := fun p hp =>
      ((hmem p).1 hp).current_le (by omega) halike
    obtain ⟨next', hfileAll', hnext⟩ := h.exists_fileAll hends hfileAll
    obtain ⟨last', hrest', hlast⟩ := ih hnext (hrun.invariant hinv) hscans
    exact ⟨last', .visit ((h.columns i hi).trans hids) hid (hproposals'.trans hproposals)
      hfileAll' hrest', hlast⟩

theorem Coincide.exists_settles (h : Coincide k chart chart') (hi : i ≤ k) (hle : i ≤ tokens.length)
    (hinv : Invariant g tokens root chart) (hsettles : Settles g tokens i chart sweeps last)
    (hscans : ∀ id r, last.holds r id = true → r.current = i → ScansAlike g tokens tokens' k r) :
    ∃ last', Settles g tokens' i chart' sweeps last' ∧ Coincide k last last' := by
  induction hsettles generalizing chart' with
  | unchanged hsweep =>
    obtain ⟨last', hsweep', hlast⟩ := h.exists_sweeps hi hle hinv hsweep hscans
    exact ⟨last', .unchanged hsweep', hlast⟩
  | changed hsweep hne hrest ih =>
    -- The first sweep is that of the other parse, too, and it leaves charts that coincide again.
    have hinvNext := (hsweep.run hinv hle).invariant hinv
    have hgrows := (hrest.run hinvNext hle).grows hinvNext
    obtain ⟨next', hsweep', hnext⟩ := h.exists_sweeps hi hle hinv hsweep fun id r hholds =>
      hscans id r (hgrows.holds hholds)
    obtain ⟨last', hrest', hlast⟩ := ih hnext hinvNext hscans
    exact ⟨last', .changed hsweep' hne hrest', hlast⟩

/-- Both parses come to charts that coincide once they have settled the same columns, all of them before
the one where the token lists part. -/
theorem Coincide.settlesEach {stages stages' : List Stage} (h : Coincide k chart chart')
    (hk : i + stages.length ≤ k) (hle : k ≤ tokens.length)
    (htokens : ∀ c < k, tokens'[c]? = tokens[c]?) (hinv : Invariant g tokens root chart)
    (hsettles : SettlesEach g tokens i chart stages last)
    (hsettles' : SettlesEach g tokens' i chart' stages' last')
    (hlength : stages'.length = stages.length) : Coincide k last last' := by
  induction hsettles generalizing chart' stages' with
  | nil =>
    obtain rfl := List.length_eq_zero_iff.1 hlength
    cases hsettles'
    exact h
  | cons hfirst _ ih =>
    cases hsettles' with
    | nil => cases hlength
    | cons hfirst' hrest' =>
      rw [List.length_cons] at hk
      -- There is only one outcome of settling the column, the one that the other parse has.
      obtain ⟨next', hnext', hsame⟩ :=
        h.exists_settles (by omega) (by omega) hinv hfirst fun _ _ _ hcurrent =>
          Or.inl ⟨by omega, htokens _ (by omega)⟩
      obtain ⟨_, rfl⟩ := hfirst'.unique hnext'
      have hrun := hfirst.run hinv (by omega)
      exact ih hsame (by omega) (hrun.invariant hinv) hrest' (Nat.succ.inj hlength)

end ChartParser.Parse
