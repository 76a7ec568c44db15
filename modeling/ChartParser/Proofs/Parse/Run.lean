import ChartParser.Proofs.Parse.Soundness

/-!
# Runs of filings

While a column is settled, items are filed one after the other. Each says the truth about the input and
ends at the column, or it is a scanned token that ends at the next one. Such a run keeps the invariant,
only adds to the chart, and leaves all columns before the one that is settled as they are.
-/

namespace ChartParser.Parse

/-! ## Runs -/

/-- The item ends at column `i`, or it is the token behind that column. -/
def EndsNear (g : Grammar) (tokens : List Token) (root : Symbol) (i : Nat) (item : Item) : Prop :=
  item.current = i ∨
    (item.current = i + 1 ∧ i < tokens.length ∧ FromToken g tokens root item.toDottedRule)

/-- True items that end near column `i` are filed one after the other. -/
inductive Run (g : Grammar) (tokens : List Token) (root : Symbol) (i : Nat) :
    Chart → List Filing → Chart → Prop
  | nil (chart : Chart) : Run g tokens root i chart [] chart
  | cons {chart next last : Chart} {item : Item} {filing : Option Filing} {filings : List Filing} :
      Sound g tokens root chart item → EndsNear g tokens root i item →
      chart.file item item.current = .ok (next, filing) →
      Run g tokens root i next filings last →
      Run g tokens root i chart (filing.toList ++ filings) last

variable {g : Grammar} {tokens : List Token} {root : Symbol} {i : Nat}
variable {chart next last : Chart} {filings later : List Filing}

theorem EndsNear.le {item : Item} (h : EndsNear g tokens root i item) : i ≤ item.current := by
  rcases h with h | ⟨h, _⟩ <;> omega

theorem EndsNear.current_lt (h : Invariant g tokens root chart) (hi : i ≤ tokens.length) {item : Item}
    (hends : EndsNear g tokens root i item) : item.current < chart.columns.size := by
  rw [h.size_columns]
  rcases hends with hcurrent | ⟨hcurrent, hlt, _⟩ <;> omega

theorem Run.append (h : Run g tokens root i chart filings next)
    (h' : Run g tokens root i next later last) :
    Run g tokens root i chart (filings ++ later) last := by
  induction h with
  | nil => exact h'
  | cons hsound hends hfile _ ih =>
    rw [List.append_assoc]
    exact .cons hsound hends hfile (ih h')

/-- What a single filing keeps, a run keeps: along a run, each chart satisfies the invariant and each
filing has one of its three forms. -/
theorem Run.induct {motive : Chart → List Filing → Prop}
    (nil : Invariant g tokens root last → motive last [])
    (cons : ∀ {chart next : Chart} {item : Item} {filing : Option Filing} {filings : List Filing},
      Invariant g tokens root chart → Sound g tokens root chart item → EndsNear g tokens root i item →
      chart.Filed item next filing → Invariant g tokens root next → motive next filings →
      motive chart (filing.toList ++ filings))
    (h : Run g tokens root i chart filings last) (hinv : Invariant g tokens root chart) :
    motive chart filings := by
  induction h with
  | nil => exact nil hinv
  | cons hsound hends hfile _ ih =>
    -- The first filing keeps the invariant, so the others can rely on it.
    obtain ⟨_, hlt, hfiled⟩ := hinv.wellFormed.filed_of_file hfile
    have hnext := hinv.file hsound hlt hfiled
    exact cons hinv hsound hends hfiled hnext (ih nil hnext)

theorem Run.invariant (h : Run g tokens root i chart filings last)
    (hinv : Invariant g tokens root chart) : Invariant g tokens root last :=
  h.induct (motive := fun _ _ => Invariant g tokens root last) id (fun _ _ _ _ _ ih => ih) hinv

theorem Run.grows (h : Run g tokens root i chart filings last)
    (hinv : Invariant g tokens root chart) : chart.Grows last :=
  h.induct (motive := fun chart _ => chart.Grows last) (fun _ => Chart.Grows.refl last)
    (fun _ _ _ hfiled _ ih => hfiled.grows.trans ih) hinv

/-- A run without records changed nothing. -/
theorem Run.eq_of_nil (h : Run g tokens root i chart [] last) (hinv : Invariant g tokens root chart) :
    last = chart := by
  refine h.induct (motive := fun chart filings => filings = [] → last = chart) (fun _ _ => rfl)
    (fun _ _ _ hfiled _ ih hnil => ?_) hinv rfl
  obtain ⟨hnone, hrest⟩ := List.append_eq_nil_iff.1 hnil
  cases hfiled with
  | known => exact ih hrest
  | merged => simp at hnone
  | added => simp at hnone

/-! ## What a run leaves alone -/

/-- The two charts have the same columns before `i` and the same items there. -/
structure AgreeBelow (i : Nat) (chart later : Chart) : Prop where
  columns : ∀ {c : Nat}, c < i → later.columns[c]? = chart.columns[c]?
  items : ∀ {id : ItemId} {item : Item}, item.current < i →
    (later.items[id]? = some item ↔ chart.items[id]? = some item)

theorem AgreeBelow.refl (i : Nat) (chart : Chart) : AgreeBelow i chart chart :=
  ⟨fun _ => rfl, fun _ => Iff.rfl⟩

theorem AgreeBelow.trans {first second third : Chart} (h : AgreeBelow i first second)
    (h' : AgreeBelow i second third) : AgreeBelow i first third where
  columns hc := (h'.columns hc).trans (h.columns hc)
  items hcurrent := (h'.items hcurrent).trans (h.items hcurrent)

theorem agreeBelow_of_filed {item : Item} {filing : Option Filing}
    (h : chart.Filed item next filing) (hi : i ≤ item.current) : AgreeBelow i chart next where
  columns hc := h.columns_eq (by omega)
  items := by
    intro id known hcurrent
    constructor
    · intro hknown
      -- The filed item ends at column i or behind, so it is not the one in question.
      rcases h.item_cases hknown with hold | ⟨hrule, _⟩
      · exact hold
      · have : known.current = item.current := by rw [hrule]
        omega
    · intro hknown
      refine h.items_eq hknown fun hrule => ?_
      have : known.current = item.current := by rw [hrule]
      omega

theorem Run.agreeBelow (h : Run g tokens root i chart filings last)
    (hinv : Invariant g tokens root chart) : AgreeBelow i chart last :=
  h.induct (motive := fun chart _ => AgreeBelow i chart last) (fun _ => AgreeBelow.refl i last)
    (fun _ _ hends hfiled _ ih => (agreeBelow_of_filed hfiled hends.le).trans ih) hinv

/-! ## Filing a row of items -/

/-- True items near a column can be filed one after the other, and afterwards the chart covers them. -/
theorem exists_fileAll {items : List Item} (hinv : Invariant g tokens root chart)
    (hi : i ≤ tokens.length)
    (hitems : ∀ p ∈ items, Sound g tokens root chart p ∧ EndsNear g tokens root i p) :
    ∃ last filings, chart.fileAll items = .ok (last, filings) ∧
      Run g tokens root i chart filings last ∧ ∀ p ∈ items, last.Covers p := by
  induction items generalizing chart with
  | nil => exact ⟨chart, [], rfl, .nil chart, by simp⟩
  | cons item rest ih =>
    obtain ⟨hsound, hends⟩ := hitems item List.mem_cons_self
    have hlt := hends.current_lt hinv hi
    obtain ⟨next, filing, hfile⟩ := Chart.exists_file hlt
    obtain ⟨_, _, hfiled⟩ := hinv.wellFormed.filed_of_file hfile
    have hnext := hinv.file hsound hlt hfiled
    -- What was sound for the chart before is sound for the one that grew from it.
    obtain ⟨last, filings, hfileAll, hrun, hcovers⟩ := ih hnext fun p hp =>
      (hitems p (List.mem_cons_of_mem item hp)).imp_left fun h => h.mono hfiled.grows
    refine ⟨last, filing.toList ++ filings, ?_, .cons hsound hends hfile hrun, ?_⟩
    · rw [Chart.fileAll, hfile, ok_bind]
      simp only [hfileAll, ok_bind]
      rfl
    · intro p hp
      rcases List.mem_cons.1 hp with rfl | hp
      · -- What is covered once stays covered.
        exact (hrun.grows hnext).covers hfiled.covers
      · exact hcovers p hp

end ChartParser.Parse
