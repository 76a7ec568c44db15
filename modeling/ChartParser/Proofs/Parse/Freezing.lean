import ChartParser.Proofs.Parse.Backpointers
import ChartParser.Proofs.Parse.Moments

/-!
# Settled columns are frozen

An observer sees the chart each time a column has been settled. What it sees of this column and of those
before it is final: the rules propose nothing for an item that would end before the item does, so
whatever is filed later ends further on. Of the columns ahead only the next one has items by then, the
terminals that the next token was scanned as.

## Main results

- `Run.scansAhead`: settling a column puts nothing ahead of it but tokens
- `Progress.agreeBelow_of_mem`: no later moment differs in the columns before the one being settled
- `parse_freezes_columns`: what an observer sees is what the parse ends with
-/

namespace ChartParser

/-! ## What is compared -/

/-- Column `c` lists the same numbers in both charts, and they are those of the same items with the same
children. -/
def Chart.SharesColumn (chart later : Chart) (c : Nat) : Prop :=
  ∃ ids, chart.columns[c]? = some ids ∧ later.columns[c]? = some ids ∧
    ∀ id ∈ ids, ∃ item, chart.items[id]? = some item ∧ later.items[id]? = some item

/-- The item that was filed. -/
def Filing.item : Filing → Item
  | added _ item => item
  | merged _ item => item

/-- What was changed after column `i` was settled. -/
def Trace.filingsAfter (t : Trace) (i : Nat) : List Filing :=
  (t.stages.drop (i + 1)).flatMap fun stage => stage.sweeps.flatten

/-- An item without children is told by its dotted rule. -/
theorem Item.eq_bare_of_forall_slot {item : Item} (h : ∀ slot ∈ item.slots, slot.ids = []) :
    item = bare item.toDottedRule := by
  obtain ⟨r, slots, slots_length⟩ := item
  have hslots : slots = List.replicate r.rhs.length Slot.empty := by
    apply List.eq_replicate_iff.2
    refine ⟨slots_length, fun slot hslot => ?_⟩
    have hids := h slot hslot
    cases slot
    subst hids
    rfl
  subst hslots
  rfl

namespace Parse

variable {g : Grammar} {tokens : List Token} {root : Symbol} {i c : Nat}
variable {chart next last moment : Chart} {filings : List Filing} {stages : List Stage}

/-! ## Ahead of the column that is settled -/

/-- Nothing ends behind column `i` but tokens that were scanned from there. -/
def ScansAhead (g : Grammar) (tokens : List Token) (root : Symbol) (i : Nat) (chart : Chart) : Prop :=
  ∀ (id : ItemId) (item : Item), chart.items[id]? = some item → i < item.current →
    item.current = i + 1 ∧ FromToken g tokens root item.toDottedRule

theorem scansAhead_empty (n : Nat) : ScansAhead g tokens root i (Chart.empty n) := by
  intro id item hitem
  simp [Chart.empty] at hitem

/-- Once the next column is taken up, nothing ends behind it. -/
theorem ScansAhead.succ (h : ScansAhead g tokens root i chart) :
    ScansAhead g tokens root (i + 1) chart := by
  intro id item hitem hlt
  obtain ⟨hcurrent, _⟩ := h id item hitem (by omega)
  omega

theorem ScansAhead.filed {item : Item} {filing : Option Filing}
    (h : ScansAhead g tokens root i chart) (hends : EndsNear g tokens root i item)
    (hfiled : chart.Filed item next filing) : ScansAhead g tokens root i next := by
  intro id new hnew hlt
  rcases hfiled.item_cases hnew with hold | ⟨hrule, _⟩
  · exact h id new hold hlt
  · -- The item was filed just now, and it ends behind the column.
    rw [hrule] at hlt ⊢
    rcases hends with hcurrent | ⟨hcurrent, _, htoken⟩
    · omega
    · exact ⟨hcurrent, htoken⟩

theorem Run.scansAhead (h : Run g tokens root i chart filings last)
    (hinv : Invariant g tokens root chart) (hahead : ScansAhead g tokens root i chart) :
    ScansAhead g tokens root i last := by
  refine h.induct (motive := fun chart _ => ScansAhead g tokens root i chart →
    ScansAhead g tokens root i last) (fun _ hlast => hlast) ?_ hinv hahead
  intro chart next item filing filings _ _ hends hfiled _ ih hchart
  exact ih (hchart.filed hends hfiled)

theorem Progress.scansAhead (h : Progress g tokens root i chart stages last)
    (hinv : Invariant g tokens root chart) (hahead : ScansAhead g tokens root i chart) :
    ScansAhead g tokens root (i + stages.length) last := by
  induction h with
  | nil => exact hahead
  | cons _ hrun _ _ ih =>
    rw [List.length_cons, Nat.add_comm _ 1, ← Nat.add_assoc]
    exact ih (hrun.invariant hinv) (hrun.scansAhead hinv hahead).succ

/-- What stands ahead of a column that is settled carries no children. -/
theorem ScansAhead.exists_scanned (h : ScansAhead g tokens root i chart)
    (hinv : Invariant g tokens root chart) {id : ItemId} {item : Item}
    (hitem : chart.items[id]? = some item) (hlt : i < item.current) :
    ∃ s word, tokens[i]? = some word ∧ s ∈ g.terminalsFor word ∧ g.alternatives? s = none ∧
      item = .bare (.scanned s word i) := by
  obtain ⟨hcurrent, htoken⟩ := h id item hitem hlt
  obtain ⟨word, hword, hmem, hrule⟩ := htoken.scanned
  -- The item spans one token, which is the one at the column.
  have horigin : item.origin = i := by
    have := htoken.current_eq
    omega
  rw [horigin] at hword hrule
  refine ⟨item.lhs, word, hword, hmem, htoken.terminal, ?_⟩
  rw [← hrule]
  -- A scanned item has the slots of one without children.
  apply Item.eq_bare_of_forall_slot
  intro slot hslot
  exact hinv.slot_eq_nil_of_terminal hitem
    (Grammar.isNonterminal_eq_false_iff.2 htoken.terminal) hslot

/-- Columns behind the next one are empty. -/
theorem ScansAhead.column_eq_empty (h : ScansAhead g tokens root i chart)
    (hinv : Invariant g tokens root chart) (hc : c ≤ tokens.length) (hlt : i + 1 < c) :
    chart.columns[c]? = some #[] := by
  obtain ⟨ids, hids⟩ := hinv.exists_column hc
  rw [hids, Option.some.injEq]
  apply Array.eq_empty_iff_forall_not_mem.2
  intro id hid
  -- An item in that column would end more than one column ahead.
  obtain ⟨item, hitem, hcurrent⟩ := hinv.wellFormed.listed hids hid
  obtain ⟨hend, _⟩ := h id item hitem (by omega)
  omega

/-! ## Behind the column that is settled -/

/-- Whatever is filed while a column is settled ends there or behind it. -/
theorem Run.le_current_of_mem (h : Run g tokens root i chart filings last)
    (hinv : Invariant g tokens root chart) : ∀ filing ∈ filings, i ≤ filing.item.current := by
  refine h.induct (motive := fun _ filings => ∀ filing ∈ filings, i ≤ filing.item.current)
    (fun _ => by simp) ?_ hinv
  intro chart next item filing filings _ _ hends hfiled _ ih record hrecord
  -- The induction is on the run: a record is that of the first filing or of a later one.
  rcases List.mem_append.1 hrecord with hfirst | hlater
  · have hitem : record.item = item := by
      cases hfiled with
      | known => simp at hfirst
      | merged => rw [List.mem_singleton.1 hfirst]; rfl
      | added => rw [List.mem_singleton.1 hfirst]; rfl
    rw [hitem]
    exact hends.le
  · exact ih record hlater

theorem Progress.le_current_of_mem (h : Progress g tokens root i chart stages last)
    (hinv : Invariant g tokens root chart) :
    ∀ filing ∈ stages.flatMap fun stage => stage.sweeps.flatten, i ≤ filing.item.current := by
  induction h with
  | nil => simp
  | cons _ hrun _ _ ih =>
    intro filing hfiling
    rw [List.flatMap_cons] at hfiling
    rcases List.mem_append.1 hfiling with hfirst | hlater
    · exact hrun.le_current_of_mem hinv filing hfirst
    · -- Later stages are about later columns.
      have hle := ih (hrun.invariant hinv) filing hlater
      omega

/-- At no moment while columns are settled do those before them differ from what they were. -/
theorem Progress.agreeBelow_of_mem (h : Progress g tokens root i chart stages last)
    (hinv : Invariant g tokens root chart)
    (hmoment : moment ∈ chart.moments (stages.flatMap fun stage => stage.sweeps.flatten)) :
    AgreeBelow i chart moment := by
  induction h with
  | nil =>
    obtain rfl := List.mem_singleton.1 hmoment
    exact AgreeBelow.refl _ _
  | cons _ hrun _ _ ih =>
    rw [List.flatMap_cons, Chart.mem_moments_append, hrun.redoAll_eq] at hmoment
    -- The moment is one of the first stage or of a later one.
    rcases hmoment with hmoment | hmoment
    · obtain ⟨_, _, hbefore, _⟩ := hrun.exists_runs_of_mem hmoment
      exact hbefore.agreeBelow hinv
    · have hlater := (ih (hrun.invariant hinv) hmoment).mono (Nat.le_succ _)
      exact (hrun.agreeBelow hinv).trans hlater

theorem AgreeBelow.sharesColumn (h : AgreeBelow i chart last)
    (hinv : Invariant g tokens root chart) (hle : c ≤ tokens.length) (hc : c < i) :
    chart.SharesColumn last c := by
  obtain ⟨ids, hids⟩ := hinv.exists_column hle
  refine ⟨ids, hids, (h.columns hc).trans hids, fun id hid => ?_⟩
  obtain ⟨item, hitem, hcurrent⟩ := hinv.wellFormed.listed hids hid
  exact ⟨item, hitem, (h.items (by omega)).2 hitem⟩

/-! ## Frozen columns -/

/-- The chart that an observer is shown at the call for column `i` is final up to this column. -/
structure FrozenAt (g : Grammar) (tokens : List Token) (t : Trace) (i : Nat) (shown : Chart) :
    Prop where
  /-- These columns are as they are in the end. -/
  final : ∀ c ≤ i, shown.SharesColumn t.chart c
  /-- The next column lists nothing but terminals that the next token was scanned as. -/
  scanned : ∀ ids, shown.columns[i + 1]? = some ids → ∀ id ∈ ids, ∃ s word,
    tokens[i]? = some word ∧ s ∈ g.terminalsFor word ∧ g.alternatives? s = none ∧
      shown.items[id]? = some (.bare (.scanned s word i))
  /-- The columns behind the next one list nothing. -/
  empty : ∀ c ≤ tokens.length, i + 1 < c → shown.columns[c]? = some #[]
  /-- The records up to this call lead to what is shown. -/
  reached : ∃ earlier, t.filings = earlier ++ t.filingsAfter i ∧
    (Chart.empty tokens.length).redoAll earlier = shown
  /-- The records from then on lead to the chart of the parse. -/
  left : shown.redoAll (t.filingsAfter i) = t.chart
  /-- From then on, whatever is filed ends further on. -/
  later : ∀ filing ∈ t.filingsAfter i, i < filing.item.current
  /-- At no moment from then on do the columns differ from what they are. -/
  untouched : ∀ moment ∈ shown.moments (t.filingsAfter i), ∀ c ≤ i, shown.SharesColumn moment c

/-- Nothing is ahead of the first column at the start, and each column passes this on to the next. -/
theorem Progress.scansAhead_of_settled {before : Chart}
    (hseeds : Run g tokens root 0 (Chart.empty tokens.length) filings chart)
    (hfirst : Progress g tokens root 0 chart stages before) {later : List Filing}
    (hrun : Run g tokens root stages.length before later last) :
    ScansAhead g tokens root stages.length last := by
  have hempty := invariant_empty g tokens root
  have hstart := hseeds.invariant hempty
  have hseeded := hseeds.scansAhead hempty (scansAhead_empty tokens.length)
  -- The seeds, the columns before, and then the column itself.
  have hreached := hfirst.scansAhead hstart hseeded
  rw [Nat.zero_add] at hreached
  exact hrun.scansAhead (hfirst.invariant hstart) hreached

/-- Once a column is settled, it and the columns before it are what they will be in the end. The observer
is shown each column once, in order. At the call for column `i`, the columns up to `i` list the numbers
that they list in the end, of the same items with the same children; the next column lists nothing but
terminals that the next token was scanned as, and the columns behind it list nothing. Whatever is filed
later ends behind column `i`, and at no later moment do the columns up to `i` differ. -/
theorem parse_freezes_columns (g : Grammar) (tokens : List Token) (root : Symbol) :
    ∃ t, trace g tokens root = .ok t ∧ parse g tokens root = .ok t.chart ∧
      (t.observe Prod.mk).length = tokens.length + 1 ∧
      ∀ i ≤ tokens.length, ∃ shown, (t.observe Prod.mk)[i]? = some (i, shown) ∧
        FrozenAt g tokens t i shown := by
  obtain ⟨t, htrace, _, _, hseeds, _, hlength, hprogress⟩ := exists_trace g tokens root
  have hstart := hseeds.invariant (invariant_empty g tokens root)
  refine ⟨t, htrace, by rw [parse, htrace]; rfl, by simp [Trace.observe, hlength], fun i hi => ?_⟩
  obtain ⟨before, sweeps, shown, hstage, hfirst, _, hrun, hrest⟩ :=
    hprogress.exists_stage (k := i) (by omega)
  rw [Nat.zero_add] at hstage hrun hrest
  have hshown := hrun.invariant (hfirst.invariant hstart)
  -- As many columns were settled before column `i` as its number says.
  have htake : (t.stages.take i).length = i := by
    rw [List.length_take]
    omega
  have hahead : ScansAhead g tokens root i shown := by
    rw [← htake] at hrun ⊢
    exact hfirst.scansAhead_of_settled hseeds hrun
  refine ⟨shown, by simp [Trace.observe, hstage], ?_⟩
  constructor
  case final =>
    intro c hc
    -- What is filed for later columns leaves these as they are.
    exact (hrest.agreeBelow hshown).sharesColumn hshown (by omega) (by omega)
  case scanned =>
    intro ids hids id hid
    obtain ⟨item, hitem, hcurrent⟩ := hshown.wellFormed.listed hids hid
    obtain ⟨s, word, hword, hmem, hnone, rfl⟩ := hahead.exists_scanned hshown hitem (by omega)
    exact ⟨s, word, hword, hmem, hnone, hitem⟩
  case empty =>
    intro c hc hlt
    exact hahead.column_eq_empty hshown hc hlt
  case reached =>
    -- The records up to the column are the seeds, those of the columns before, and its own.
    refine ⟨t.seeds ++ (t.stages.take (i + 1)).flatMap fun stage => stage.sweeps.flatten, ?_, ?_⟩
    · rw [Trace.filings, Trace.filingsAfter, List.append_assoc, ← List.flatMap_append,
        List.take_append_drop]
    · rw [List.take_add_one, hstage, List.flatMap_append, Chart.redoAll_append, Chart.redoAll_append,
        hseeds.redoAll_eq, hfirst.redoAll_eq]
      simpa using hrun.redoAll_eq
  case left => exact hrest.redoAll_eq
  case later =>
    intro filing hfiling
    exact hrest.le_current_of_mem hshown filing hfiling
  case untouched =>
    intro moment hmoment c hc
    exact (hrest.agreeBelow_of_mem hshown hmoment).sharesColumn hshown (by omega) (by omega)

end Parse

end ChartParser
