import ChartParser.Proofs.Parse.Settling

/-!
# The charts that a parse goes through

The records of a parse tell every chart between the empty one and the last: doing a record again is
what the filing did. So whatever each filing keeps holds of all these charts, not only of those at the
end of a column.
-/

namespace ChartParser

namespace Chart

variable {chart moment : Chart} {first second : List Filing}

/-! ## Moments of records in two parts -/

theorem redoAll_append : chart.redoAll (first ++ second) = (chart.redoAll first).redoAll second :=
  List.foldl_append

theorem self_mem_moments (chart : Chart) (filings : List Filing) : chart ∈ chart.moments filings := by
  cases filings with
  | nil => exact List.mem_singleton_self chart
  | cons => exact List.mem_cons_self

theorem redoAll_mem_moments : chart.redoAll first ∈ chart.moments first := by
  induction first generalizing chart with
  | nil => exact List.mem_singleton_self chart
  | cons filing first ih =>
    show (chart.redo filing).redoAll first ∈ chart :: (chart.redo filing).moments first
    exact List.mem_cons_of_mem chart ih

/-- The moments of two parts are those of the first and those of the second from there on. -/
theorem mem_moments_append :
    moment ∈ chart.moments (first ++ second) ↔
      moment ∈ chart.moments first ∨ moment ∈ (chart.redoAll first).moments second := by
  induction first generalizing chart with
  | nil =>
    -- The one moment of no records is where the second part starts.
    show moment ∈ chart.moments second ↔ moment ∈ [chart] ∨ moment ∈ chart.moments second
    rw [List.mem_singleton]
    exact ⟨Or.inr, fun h => h.elim (fun he => he ▸ self_mem_moments chart second) fun h => h⟩
  | cons filing first ih =>
    show moment ∈ chart :: (chart.redo filing).moments (first ++ second) ↔
      moment ∈ chart :: (chart.redo filing).moments first ∨
        moment ∈ ((chart.redo filing).redoAll first).moments second
    rw [List.mem_cons, List.mem_cons, ih, or_assoc]

/-- A single filing has no moments but those before and after it. -/
theorem eq_or_eq_of_mem_moments {filing : Option Filing} (h : moment ∈ chart.moments filing.toList) :
    moment = chart ∨ moment = chart.redoAll filing.toList := by
  cases filing with
  | none => exact Or.inl (List.mem_singleton.1 h)
  | some filing =>
    rcases List.mem_cons.1 h with h | h
    · exact Or.inl h
    · exact Or.inr (List.mem_singleton.1 h)

end Chart

namespace Parse

variable {g : Grammar} {tokens : List Token} {root : Symbol} {i : Nat}
variable {chart last moment : Chart} {filings : List Filing}

/-! ## The moments of a parse -/

theorem Run.redoAll_eq (h : Run g tokens root i chart filings last) : chart.redoAll filings = last := by
  induction h with
  | nil => rfl
  | cons _ _ hfile _ ih => rw [Chart.redoAll_append, ← Chart.eq_redoAll_of_file hfile, ih]

theorem Progress.redoAll_eq {stages : List Stage}
    (h : Progress g tokens root i chart stages last) :
    chart.redoAll (stages.flatMap fun stage => stage.sweeps.flatten) = last := by
  induction h with
  | nil => rfl
  | cons _ hrun _ _ ih => rw [List.flatMap_cons, Chart.redoAll_append, hrun.redoAll_eq, ih]

/-- Every moment of a run is reached by a run, and a run goes on from there to the end. -/
theorem Run.exists_runs_of_mem (h : Run g tokens root i chart filings last)
    (hmoment : moment ∈ chart.moments filings) :
    ∃ before after, Run g tokens root i chart before moment ∧
      Run g tokens root i moment after last := by
  induction h with
  | nil =>
    obtain rfl := List.mem_singleton.1 hmoment
    exact ⟨[], [], .nil _, .nil _⟩
  | cons hsound hends hfile hrest ih =>
    rw [Chart.mem_moments_append, ← Chart.eq_redoAll_of_file hfile] at hmoment
    rcases hmoment with hmoment | hmoment
    · -- The moment is the one before the first filing or the one after it.
      rcases Chart.eq_or_eq_of_mem_moments hmoment with rfl | rfl
      · exact ⟨[], _, .nil _, .cons hsound hends hfile hrest⟩
      · rw [← Chart.eq_redoAll_of_file hfile]
        exact ⟨_, _, .cons hsound hends hfile (.nil _), hrest⟩
    · -- The moment comes later, and the first filing is put in front of the run up to it.
      obtain ⟨before, after, hbefore, hafter⟩ := ih hmoment
      exact ⟨_, after, .cons hsound hends hfile hbefore, hafter⟩

/-- The invariant holds at every moment of a run. -/
theorem Run.invariant_of_mem (h : Run g tokens root i chart filings last)
    (hinv : Invariant g tokens root chart) (hmoment : moment ∈ chart.moments filings) :
    Invariant g tokens root moment := by
  obtain ⟨_, _, hbefore, _⟩ := h.exists_runs_of_mem hmoment
  exact hbefore.invariant hinv

/-- The invariant holds at every moment while columns are settled. -/
theorem Progress.invariant_of_mem {stages : List Stage}
    (h : Progress g tokens root i chart stages last) (hinv : Invariant g tokens root chart)
    (hmoment : moment ∈ chart.moments (stages.flatMap fun stage => stage.sweeps.flatten)) :
    Invariant g tokens root moment := by
  induction h with
  | nil =>
    obtain rfl := List.mem_singleton.1 hmoment
    exact hinv
  | cons _ hrun _ _ ih =>
    rw [List.flatMap_cons, Chart.mem_moments_append, hrun.redoAll_eq] at hmoment
    rcases hmoment with hmoment | hmoment
    · exact hrun.invariant_of_mem hinv hmoment
    · exact ih (hrun.invariant hinv) hmoment

/-- The chart of each stage is one of the moments. -/
theorem Progress.chart_mem_moments {stages : List Stage}
    (h : Progress g tokens root i chart stages last) {stage : Stage} (hstage : stage ∈ stages) :
    stage.chart ∈ chart.moments (stages.flatMap fun stage => stage.sweeps.flatten) := by
  induction h with
  | nil => exact absurd hstage List.not_mem_nil
  | cons _ hrun _ _ ih =>
    -- Settling the first column ends where the moments of the later stages start.
    rw [List.flatMap_cons, Chart.mem_moments_append, hrun.redoAll_eq]
    rcases List.mem_cons.1 hstage with rfl | hstage
    · exact Or.inr (Chart.self_mem_moments _ _)
    · exact Or.inr (ih hstage)

/-- The chart of each column, once settled, is one of the moments of the parse. -/
theorem stage_chart_mem_moments {t : Trace} (htokens : t.tokens = tokens)
    (hseeds : Run g tokens root 0 (Chart.empty tokens.length) t.seeds t.start)
    (hprogress : Progress g tokens root 0 t.start t.stages t.chart) {stage : Stage}
    (hstage : stage ∈ t.stages) : stage.chart ∈ t.moments := by
  rw [Trace.moments, htokens, Trace.filings, Chart.mem_moments_append, hseeds.redoAll_eq]
  exact Or.inr (hprogress.chart_mem_moments hstage)

/-- The chart that a parse ends with is one of its moments. -/
theorem chart_mem_moments {t : Trace} (htokens : t.tokens = tokens)
    (hseeds : Run g tokens root 0 (Chart.empty tokens.length) t.seeds t.start)
    (hprogress : Progress g tokens root 0 t.start t.stages t.chart) : t.chart ∈ t.moments := by
  -- Doing all records in order comes to the last chart.
  have hlast : (Chart.empty tokens.length).redoAll t.filings = t.chart := by
    rw [Trace.filings, Chart.redoAll_append, hseeds.redoAll_eq, hprogress.redoAll_eq]
  rw [Trace.moments, htokens, ← hlast]
  exact Chart.redoAll_mem_moments

/-- The invariant holds at every moment of a parse. -/
theorem invariant_of_mem_moments {t : Trace} (htokens : t.tokens = tokens)
    (hseeds : Run g tokens root 0 (Chart.empty tokens.length) t.seeds t.start)
    (hprogress : Progress g tokens root 0 t.start t.stages t.chart) (hmoment : moment ∈ t.moments) :
    Invariant g tokens root moment := by
  have hempty := invariant_empty g tokens root
  rw [Trace.moments, htokens, Trace.filings, Chart.mem_moments_append, hseeds.redoAll_eq] at hmoment
  rcases hmoment with hmoment | hmoment
  · exact hseeds.invariant_of_mem hempty hmoment
  · exact hprogress.invariant_of_mem (hseeds.invariant hempty) hmoment

end Parse

end ChartParser
