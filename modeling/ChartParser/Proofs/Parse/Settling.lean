import ChartParser.Proofs.Parse.Capacity

/-!
# Settled columns

A column is settled in a chart if the chart covers whatever the rules propose for the items of the
column. A sweep that changes nothing shows that its column is settled, and the budgets are never used
up: a sweep visits no more items than the column can hold, and every sweep but the last adds to a load
that is bounded. Later columns are settled without touching earlier ones, so in the end all columns are.
-/

namespace ChartParser.Parse

variable {g : Grammar} {tokens : List Token} {root : Symbol} {chart start next last : Chart} {i : Nat}

/-! ## Sweeps -/

/-- The chart covers whatever the rules propose for the items that end at column `c`. -/
def Settled (g : Grammar) (tokens : List Token) (chart : Chart) (c : Nat) : Prop :=
  ∀ (id : ItemId) (item p : Item), chart.items[id]? = some item → item.current = c →
    Proposal g tokens chart id item p → chart.Covers p

/-- What the rules propose for an item of column `i` can be filed, and afterwards the chart covers it. -/
theorem exists_visit (hinv : Invariant g tokens root chart) (hi : i ≤ tokens.length) {id : ItemId}
    {item : Item} (hitem : chart.items[id]? = some item) (hcurrent : item.current = i) :
    ∃ items next filings, proposals g tokens chart id = .ok items ∧
      chart.fileAll items = .ok (next, filings) ∧ Run g tokens root i chart filings next ∧
      ∀ p, Proposal g tokens chart id item p → next.Covers p := by
  obtain ⟨items, hproposals, hmem⟩ := hinv.exists_proposals hitem
  have hitems : ∀ p ∈ items, Sound g tokens root chart p ∧ EndsNear g tokens root i p := by
    intro p hp
    refine ⟨hinv.sound_proposal hitem ((hmem p).1 hp), ?_⟩
    have hends := hinv.proposal_ends hitem ((hmem p).1 hp)
    rwa [hcurrent] at hends
  obtain ⟨next, filings, hfileAll, hrun, hcovers⟩ := exists_fileAll hinv hi hitems
  exact ⟨items, next, filings, hproposals, hfileAll, hrun, fun p hp => hcovers p ((hmem p).2 hp)⟩

/-- A sweep over the rest of a column comes to its end. If it left no record, the chart covers the
proposals for all items that it visited. -/
theorem exists_sweepFrom (steps j : Nat) (hinv : Invariant g tokens root chart)
    (hi : i ≤ tokens.length) (hsteps : columnCapacity g tokens i + 1 ≤ steps + j)
    {ids : Array ItemId} (hids : chart.columns[i]? = some ids) (hj : j ≤ ids.size) :
    ∃ last filings, sweepFrom g tokens i steps j chart = .ok (last, filings) ∧
      Run g tokens root i chart filings last ∧
      (filings = [] → ∀ {k : Nat} {id : ItemId} {item p : Item}, j ≤ k → ids[k]? = some id →
        chart.items[id]? = some item → Proposal g tokens chart id item p → chart.Covers p) := by
  -- The column holds at most its capacity, so the steps outlast the places that are left to visit.
  have hcapacity : ids.size ≤ columnCapacity g tokens i :=
    (hinv.column_size_le hids).trans (columnBound_le_columnCapacity g tokens i)
  induction steps generalizing j chart ids with
  | zero => omega
  | succ steps ih =>
    cases hid : ids[j]? with
    | none =>
      refine ⟨chart, [], by simp only [sweepFrom, hids, hid], .nil chart, ?_⟩
      intro _ k id item p hjk hk
      have := Array.getElem?_eq_none_iff.1 hid
      have := (Array.getElem?_eq_some_iff.1 hk).1
      omega
    | some id =>
      have hlt : j < ids.size := (Array.getElem?_eq_some_iff.1 hid).1
      obtain ⟨item, hitem, hcurrent⟩ :=
        hinv.wellFormed.listed hids (Array.mem_of_getElem? hid)
      obtain ⟨items, next, filings, hproposals, hfileAll, hrun, hcovers⟩ :=
        exists_visit hinv hi hitem hcurrent
      have hnext := hrun.invariant hinv
      -- What is filed meanwhile comes behind, so the places before stay as they are.
      obtain ⟨ids', hids', hprefix⟩ := (hrun.grows hinv).columns hids
      have hle : ids.size ≤ ids'.size := hprefix.length_le
      obtain ⟨last, later, hsweep, hrun', hrest⟩ := ih (j + 1) hnext (by omega) hids' (by omega)
        ((hnext.column_size_le hids').trans (columnBound_le_columnCapacity g tokens i))
      refine ⟨last, filings ++ later, ?_, hrun.append hrun', fun hnil => ?_⟩
      · simp only [sweepFrom, hids, hid, hproposals, hfileAll, ok_bind, hsweep]
        rfl
      · -- Without records the chart and its columns stayed the same throughout the sweep.
        obtain ⟨rfl, rfl⟩ := List.append_eq_nil_iff.1 hnil
        obtain rfl := hrun.eq_of_nil hinv
        obtain rfl := Option.some.inj (hids.symm.trans hids')
        intro k id' item' p hjk hk hitem' hp
        rcases Nat.eq_or_lt_of_le hjk with rfl | hlt
        · obtain rfl := Option.some.inj (hid.symm.trans hk)
          obtain rfl := Option.some.inj (hitem.symm.trans hitem')
          exact hcovers p hp
        · exact hrest rfl hlt hk hitem' hp

/-- A sweep over a column comes to its end, and the column is settled if the sweep left no record. -/
theorem exists_sweep (hinv : Invariant g tokens root chart) (hi : i ≤ tokens.length) :
    ∃ last filings, sweep g tokens i chart = .ok (last, filings) ∧
      Run g tokens root i chart filings last ∧ (filings = [] → Settled g tokens last i) := by
  -- The sweep starts at the first place of the column.
  obtain ⟨ids, hids⟩ := hinv.exists_column hi
  obtain ⟨last, filings, hsweep, hrun, hcovers⟩ :=
    exists_sweepFrom (columnCapacity g tokens i + 1) 0 hinv hi (Nat.le_refl _) hids (Nat.zero_le _)
  refine ⟨last, filings, hsweep, hrun, fun hnil => ?_⟩
  subst hnil
  obtain rfl := hrun.eq_of_nil hinv
  intro id item p hitem hcurrent hp
  -- Every item of the column is listed at some place, and the sweep visited all of them.
  obtain ⟨k, hk⟩ := Array.mem_iff_getElem?.1 <|
    (hinv.wellFormed.mem_column_iff hids).2 ⟨item, hitem, hcurrent⟩
  exact hcovers rfl (Nat.zero_le k) hk hitem hp

/-! ## Settling -/

/-- Sweeping comes to an end, with the column settled, as long as the load has room to grow by the
number of steps. -/
theorem exists_settleWithin {steps : Nat} (hinv : Invariant g tokens root chart)
    (hi : i ≤ tokens.length) (helse : elsewhere i chart = elsewhere i start)
    (hsteps : changeCapacity g tokens i start + 1 ≤ steps + load i chart) :
    ∃ last sweeps, settleWithin g tokens i steps chart = .ok (last, sweeps) ∧
      Run g tokens root i chart sweeps.flatten last ∧ Settled g tokens last i := by
  induction steps generalizing chart with
  | zero =>
    have := hinv.load_le helse
    omega
  | succ steps ih =>
    obtain ⟨next, filings, hsweep, hrun, hsettled⟩ := exists_sweep hinv hi
    cases filings with
    | nil =>
      refine ⟨next, [[]], ?_, by simpa using hrun, hsettled rfl⟩
      rw [settleWithin, hsweep, ok_bind]
      rfl
    | cons filing filings =>
      -- Each record has added to the load, which makes up for the step that is used.
      obtain ⟨hload, helse'⟩ := hrun.load_le hinv
      rw [List.length_cons] at hload
      obtain ⟨last, sweeps, hsettle, hrun', hsettled⟩ :=
        ih (hrun.invariant hinv) (helse'.trans helse) (by omega)
      refine ⟨last, (filing :: filings) :: sweeps, ?_, hrun.append hrun', hsettled⟩
      rw [settleWithin, hsweep, ok_bind]
      simp only [List.isEmpty_cons, Bool.false_eq_true, if_false, hsettle, ok_bind]
      rfl

/-- Every column can be settled within its budget. -/
theorem exists_settle (hinv : Invariant g tokens root chart) (hi : i ≤ tokens.length) :
    ∃ last sweeps, settle g tokens i chart = .ok (last, sweeps) ∧
      Run g tokens root i chart sweeps.flatten last ∧ Settled g tokens last i :=
  exists_settleWithin hinv hi rfl (Nat.le_add_right _ _)

/-- What the rules propose for an item depends on its dotted rule and, once it is complete, on the items
that end where it starts. So nothing new is proposed later if the latter were left alone. -/
theorem Proposal.of_agreeBelow {id : ItemId} {item item' p : Item}
    (h : Proposal g tokens last id item' p) (hrule : item'.toDottedRule = item.toDottedRule)
    (hagree : AgreeBelow i chart last) (horigin : item.isComplete = true → item.origin < i) :
    Proposal g tokens chart id item p := by
  obtain ⟨r, slots, hlength⟩ := item
  obtain ⟨r', slots', hlength'⟩ := item'
  obtain rfl : r' = r := hrule
  cases h with
  | predict hnext halternatives hrhs => exact .predict hnext halternatives hrhs
  | scan hnext hnone hword hmem => exact .scan hnext hnone hword hmem
  | complete hcomplete hwaiting hends hnext hadvance =>
    have hbefore := horigin hcomplete
    rw [← hends] at hbefore
    exact .complete hcomplete ((hagree.items hbefore).1 hwaiting) hends hnext hadvance

/-- A settled column stays settled while later columns are. -/
theorem Settled.of_agreeBelow {c : Nat} (h : Settled g tokens chart c) (hc : c < i)
    (hagree : AgreeBelow i chart last) (hgrows : chart.Grows last)
    (hlast : Invariant g tokens root last) : Settled g tokens last c := by
  intro id item p hitem hcurrent hp
  have horigin := (hlast.sound hitem).origin_le
  -- The item lies in a column that was left alone, and so do those that wait where it starts.
  have hold : chart.items[id]? = some item := (hagree.items (by omega)).1 hitem
  apply hgrows.covers
  exact h id item p hold hcurrent (hp.of_agreeBelow rfl hagree fun _ => by omega)

/-! ## From the first column to the last -/

/-- The columns from `i` on are settled one after the other. -/
inductive Progress (g : Grammar) (tokens : List Token) (root : Symbol) :
    Nat → Chart → List Stage → Chart → Prop
  | nil (i : Nat) (chart : Chart) : Progress g tokens root i chart [] chart
  | cons {i : Nat} {chart next last : Chart} {sweeps : List (List Filing)} {stages : List Stage} :
      settle g tokens i chart = .ok (next, sweeps) →
      Run g tokens root i chart sweeps.flatten next → Settled g tokens next i →
      Progress g tokens root (i + 1) next stages last →
      Progress g tokens root i chart (⟨i, sweeps, next⟩ :: stages) last

theorem exists_stagesFrom {k : Nat} (hinv : Invariant g tokens root chart)
    (hk : i + k ≤ tokens.length + 1) :
    ∃ stages last, stagesFrom g tokens (List.range' i k) chart = .ok stages ∧
      stages.length = k ∧ Progress g tokens root i chart stages last := by
  induction k generalizing i chart with
  | zero => exact ⟨[], chart, rfl, rfl, .nil i chart⟩
  | succ k ih =>
    obtain ⟨next, sweeps, hsettle, hrun, hsettled⟩ := exists_settle hinv (i := i) (by omega)
    obtain ⟨stages, last, hstages, hlength, hprogress⟩ :=
      ih (hrun.invariant hinv) (i := i + 1) (by omega)
    refine ⟨⟨i, sweeps, next⟩ :: stages, last, ?_, by rw [List.length_cons, hlength],
      .cons hsettle hrun hsettled hprogress⟩
    rw [List.range'_succ, stagesFrom, hsettle, ok_bind]
    simp only [hstages, ok_bind]
    rfl

/-- The last stage has the chart that is reached. -/
theorem Progress.chart_eq {stages : List Stage} (h : Progress g tokens root i chart stages last) :
    stages.getLast?.elim chart Stage.chart = last := by
  induction h with
  | nil => rfl
  | @cons _ _ next _ sweeps stages _ _ _ _ ih =>
    rw [List.getLast?_cons]
    cases hlast : stages.getLast? with
    | none => simpa [hlast] using ih
    | some stage => simpa [hlast] using ih

theorem Progress.invariant {stages : List Stage} (h : Progress g tokens root i chart stages last)
    (hinv : Invariant g tokens root chart) : Invariant g tokens root last := by
  induction h with
  | nil => exact hinv
  | cons _ hrun _ _ ih => exact ih (hrun.invariant hinv)

theorem Progress.grows {stages : List Stage} (h : Progress g tokens root i chart stages last)
    (hinv : Invariant g tokens root chart) : chart.Grows last := by
  induction h with
  | nil => exact Chart.Grows.refl _
  | cons _ hrun _ _ ih => exact (hrun.grows hinv).trans (ih (hrun.invariant hinv))

theorem AgreeBelow.mono {j : Nat} (h : AgreeBelow j chart last) (hij : i ≤ j) :
    AgreeBelow i chart last where
  columns hc := h.columns (by omega)
  items hcurrent := h.items (by omega)

theorem Progress.agreeBelow {stages : List Stage} (h : Progress g tokens root i chart stages last)
    (hinv : Invariant g tokens root chart) : AgreeBelow i chart last := by
  induction h with
  | nil => exact AgreeBelow.refl _ _
  | cons _ hrun _ _ ih =>
    exact (hrun.agreeBelow hinv).trans ((ih (hrun.invariant hinv)).mono (Nat.le_succ _))

/-- Each column that was gone through has its stage: it was settled after the columns before it, and the
columns behind it were settled after it. -/
theorem Progress.exists_stage {stages : List Stage} {k : Nat}
    (h : Progress g tokens root i chart stages last) (hk : k < stages.length) :
    ∃ before sweeps settled, stages[k]? = some ⟨i + k, sweeps, settled⟩ ∧
      Progress g tokens root i chart (stages.take k) before ∧
      settle g tokens (i + k) before = .ok (settled, sweeps) ∧
      Run g tokens root (i + k) before sweeps.flatten settled ∧
      Progress g tokens root (i + k + 1) settled (stages.drop (k + 1)) last := by
  induction h generalizing k with
  | nil => exact absurd hk (Nat.not_lt_zero k)
  | @cons i chart next last sweeps stages hsettle hrun hsettled hprogress ih =>
    cases k with
    | zero => exact ⟨chart, sweeps, next, rfl, .nil i chart, hsettle, hrun, hprogress⟩
    | succ k =>
      obtain ⟨before, sweeps', settled, hstage, hfirst, hsettle', hrun', hrest⟩ :=
        ih (Nat.lt_of_succ_lt_succ hk)
      have hindex : i + (k + 1) = i + 1 + k := by omega
      rw [hindex]
      exact ⟨before, sweeps', settled, hstage, .cons hsettle hrun hsettled hfirst, hsettle', hrun',
        hrest⟩

/-- In the end all columns that were gone through are settled. -/
theorem Progress.settled {stages : List Stage} (h : Progress g tokens root i chart stages last)
    (hinv : Invariant g tokens root chart) (hbelow : ∀ c < i, Settled g tokens chart c) :
    ∀ c < i + stages.length, Settled g tokens last c := by
  induction h with
  | nil => exact hbelow
  | @cons i chart next last sweeps stages _ hrun hsettled hprogress ih =>
    have hnext := hrun.invariant hinv
    intro c hc
    refine ih hnext (fun c hc => ?_) c (by rw [List.length_cons] at hc; omega)
    rcases Nat.eq_or_lt_of_le (Nat.le_of_lt_succ hc) with rfl | hlt
    · exact hsettled
    · exact (hbelow c hlt).of_agreeBelow hlt (hrun.agreeBelow hinv) (hrun.grows hinv) hnext

/-! ## The chart of a parse -/

/-- What the chart of a parse satisfies: its items say the truth, the alternatives of the root are begun,
and every column is settled. -/
structure Converged (g : Grammar) (tokens : List Token) (root : Symbol) (chart : Chart) : Prop
    extends Invariant g tokens root chart where
  seeded : ∀ p ∈ seedItems g root, chart.Covers p
  settled : ∀ c, Settled g tokens chart c

/-- A parse is never refused. Its trace starts with the alternatives of the root and goes through all
columns. -/
theorem exists_trace (g : Grammar) (tokens : List Token) (root : Symbol) :
    ∃ t, trace g tokens root = .ok t ∧ t.tokens = tokens ∧ t.root = root ∧
      Run g tokens root 0 (Chart.empty tokens.length) t.seeds t.start ∧
      (∀ p ∈ seedItems g root, t.start.Covers p) ∧ t.stages.length = tokens.length + 1 ∧
      Progress g tokens root 0 t.start t.stages t.chart := by
  have hempty := invariant_empty g tokens root
  -- The alternatives of the root are true and end at the first column.
  have hseeds : ∀ p ∈ seedItems g root, Sound g tokens root (Chart.empty tokens.length) p ∧
      EndsNear g tokens root 0 p := by
    intro p hp
    refine ⟨sound_seed hp, Or.inl ?_⟩
    obtain ⟨rhs, _, rfl⟩ := List.mem_map.1 hp
    rfl
  obtain ⟨start, seeds, hfileAll, hrun, hcovers⟩ := exists_fileAll hempty (Nat.zero_le _) hseeds
  obtain ⟨stages, last, hstages, hlength, hprogress⟩ :=
    exists_stagesFrom (k := tokens.length + 1) (i := 0) (hrun.invariant hempty) (by omega)
  refine ⟨⟨tokens, root, g.isNonterminal root, seeds, start, stages⟩, ?_, rfl, rfl, hrun, hcovers,
    hlength, ?_⟩
  · rw [trace, hfileAll, ok_bind, List.range_eq_range']
    simp only [hstages, ok_bind]
    rfl
  · have hlast := hprogress.chart_eq
    rw [Trace.chart]
    cases hstage : stages.getLast? with
    | none => simpa [hstage, ← hlast] using hprogress
    | some stage => simpa [hstage, ← hlast] using hprogress

/-- A parse is never refused, and its chart is converged. -/
theorem exists_parse (g : Grammar) (tokens : List Token) (root : Symbol) :
    ∃ chart, parse g tokens root = .ok chart ∧ Converged g tokens root chart := by
  obtain ⟨t, htrace, _, _, hseeds, hcovers, hlength, hprogress⟩ := exists_trace g tokens root
  have hstart := hseeds.invariant (invariant_empty g tokens root)
  refine ⟨t.chart, by rw [parse, htrace]; rfl, hprogress.invariant hstart, fun p hp => ?_,
    fun c => ?_⟩
  · exact (hprogress.grows hstart).covers (hcovers p hp)
  · intro id item p hitem hcurrent hp
    have hle := (hprogress.invariant hstart).current_le hitem
    exact hprogress.settled hstart (fun c hc => absurd hc (Nat.not_lt_zero c)) c (by omega) id item
      p hitem hcurrent hp

end ChartParser.Parse
