import ChartParser.Chart.Basic

/-!
# What filing does

One lemma for each way to look at a chart: which item a number has, which numbers a column lists, which
number a dotted rule has in a column.

Main statements: filing an item in a column comes to one of three things (`place_cases`), and it is
refused exactly when the item ends at another column or the column does not exist, the former being said
first (`file_eq_error_iff`).
-/

namespace ChartParser.Chart

/-! ## Adding and merging -/

theorem getElem?_items_push (chart : Chart) (item : Item) (i : Nat) (id : ItemId) :
    (chart.push item i).items[id]? =
      if id = chart.items.size then some item else chart.items[id]? :=
  Array.getElem?_push

theorem getElem?_columns_push (chart : Chart) (item : Item) (i j : Nat) :
    (chart.push item i).columns[j]? =
      if i = j then (chart.columns[j]?).map (fun ids => ids.push chart.items.size)
      else chart.columns[j]? :=
  Array.getElem?_modify

@[simp] theorem size_items_push (chart : Chart) (item : Item) (i : Nat) :
    (chart.push item i).items.size = chart.items.size + 1 :=
  Array.size_push _

@[simp] theorem size_columns_push (chart : Chart) (item : Item) (i : Nat) :
    (chart.push item i).columns.size = chart.columns.size :=
  Array.size_modify

theorem getElem?_items_mergeAt (chart : Chart) (id other : ItemId) (row : List Slot) :
    (chart.mergeAt id row).items[other]? =
      if id = other then (chart.items[other]?).map (fun item => item.merge row)
      else chart.items[other]? :=
  Array.getElem?_modify

/-- Merging what is there leaves the chart as it is. -/
theorem mergeAt_eq_self {chart : Chart} {id : ItemId} {row : List Slot} {known : Item}
    (hknown : chart.items[id]? = some known) (hincludes : known.includes row = true) :
    chart.mergeAt id row = chart := by
  -- The one item that is touched is put back as it was.
  have hitems : chart.items.modify id (fun item => item.merge row) = chart.items := by
    apply Array.ext_getElem?
    intro other
    rw [Array.getElem?_modify]
    split
    · rename_i hid
      subst hid
      rw [hknown, Option.map_some, Item.merge_eq_self_iff.2 hincludes]
    · rfl
  rw [mergeAt, hitems]

theorem absorbAt_eq {chart : Chart} {id : ItemId} {row : List Slot} {known : Item}
    (hknown : chart.items[id]? = some known) :
    chart.absorbAt id row = (chart.mergeAt id row, ! known.includes row) := by
  -- Writing back what was read and merged is merging in place.
  have hitems : chart.items.setIfInBounds id (known.merge row) =
      chart.items.modify id fun item => item.merge row := by
    apply Array.ext_getElem?
    intro other
    rw [Array.getElem?_setIfInBounds, Array.getElem?_modify]
    split
    · rename_i hid
      subst hid
      rw [hknown, if_pos (Array.getElem?_eq_some_iff.1 hknown).1]
      rfl
    · rfl
  simp only [absorbAt, hknown, Item.absorb_eq, hitems, mergeAt]

/-! ## Finding a dotted rule -/

theorem holds_eq_true_iff {chart : Chart} {r : DottedRule} {id : ItemId} :
    chart.holds r id = true ↔ ∃ item, chart.items[id]? = some item ∧ item.toDottedRule = r := by
  rw [holds]
  split <;> simp_all

theorem item_of_idOf? {chart : Chart} {ids : Array ItemId} {r : DottedRule} {id : ItemId}
    (h : chart.idOf? ids r = some id) : ∃ item, chart.items[id]? = some item ∧ item.toDottedRule = r :=
  holds_eq_true_iff.1 (Array.find?_some h)

/-- A dotted rule has no number in a column exactly when no item listed there has it. -/
theorem idOf?_eq_none_iff {chart : Chart} {ids : Array ItemId} {r : DottedRule} :
    chart.idOf? ids r = none ↔
      ∀ id ∈ ids, ∀ item, chart.items[id]? = some item → item.toDottedRule ≠ r := by
  rw [idOf?, Array.find?_eq_none]
  constructor
  · intro h id hid item hitem hrule
    exact h id hid (holds_eq_true_iff.2 ⟨item, hitem, hrule⟩)
  · intro h id hid hholds
    obtain ⟨item, hitem, hrule⟩ := holds_eq_true_iff.1 hholds
    exact h id hid item hitem hrule

/-- Where a dotted rule is known, filing it leaves a record exactly when children are missing, and
otherwise nothing changes. -/
theorem place_of_idOf? {chart : Chart} {item known : Item} {i : Nat} {ids : Array ItemId} {id : ItemId}
    (hid : chart.idOf? ids item.toDottedRule = some id) (hknown : chart.items[id]? = some known) :
    chart.place item i ids =
      if known.includes item.slots = true then (chart, none)
      else (chart.mergeAt id item.slots, some (.merged id item)) := by
  simp only [place, hid, absorbAt_eq hknown]
  -- If nothing is missing, the merge leaves the chart as it is.
  by_cases hincludes : known.includes item.slots = true
  · simp [hincludes, mergeAt_eq_self hknown hincludes]
  · simp [hincludes]

/-- Filing an item in a column that exists comes to one of three things. Its dotted rule is found there
and no child is missing; or it is found and some child is missing; or it is not found. -/
theorem place_cases (chart : Chart) (item : Item) (i : Nat) (ids : Array ItemId) :
    (∃ (id : ItemId) (known : Item), chart.items[id]? = some known ∧
      known.toDottedRule = item.toDottedRule ∧ known.includes item.slots = true ∧
      chart.place item i ids = (chart, none)) ∨
    (∃ (id : ItemId) (known : Item), chart.items[id]? = some known ∧
      known.toDottedRule = item.toDottedRule ∧ known.includes item.slots = false ∧
      chart.place item i ids = (chart.mergeAt id item.slots, some (.merged id item))) ∨
    (chart.idOf? ids item.toDottedRule = none ∧
      chart.place item i ids = (chart.push item i, some (.added chart.items.size item))) := by
  cases hid : chart.idOf? ids item.toDottedRule with
  | none => exact Or.inr (Or.inr ⟨rfl, by simp only [place, hid]⟩)
  | some id =>
    obtain ⟨known, hknown, hrule⟩ := item_of_idOf? hid
    rw [place_of_idOf? hid hknown]
    cases hincludes : known.includes item.slots with
    | true => exact Or.inl ⟨id, known, hknown, hrule, hincludes, if_pos rfl⟩
    | false => exact Or.inr (Or.inl ⟨id, known, hknown, hrule, hincludes, if_neg Bool.false_ne_true⟩)

/-! ## Calls that are not refused -/

/-- An item that is not refused ends at its column, which exists. -/
theorem place_of_file {chart : Chart} {item : Item} {i : Nat} {result : Chart × Option Filing}
    (h : chart.file item i = .ok result) :
    item.current = i ∧ ∃ ids, chart.columns[i]? = some ids ∧ chart.place item i ids = result := by
  rw [file] at h
  split at h
  · cases h
  · rename_i hcurrent
    split at h
    · cases h
    · rename_i ids hids
      exact ⟨Decidable.not_not.1 hcurrent, ids, hids, Except.ok.inj h⟩

/-! ## Refusals -/

/-- A filing is refused exactly when the item ends elsewhere or, failing that, there is no such
column. -/
theorem file_eq_error_iff {chart : Chart} {item : Item} {i : Nat} {fault : Fault} :
    chart.file item i = .error fault ↔
      (item.current ≠ i ∧ fault = .misfiled item.current i) ∨
        (item.current = i ∧ chart.columns.size ≤ i ∧ fault = .outOfRange) := by
  rw [file]
  split
  · rename_i hcurrent
    simp [hcurrent, eq_comm]
  · rename_i hcurrent
    have hi : item.current = i := by omega
    cases hcolumn : chart.columns[i]? with
    | none =>
      have hsize : chart.columns.size ≤ i := Array.getElem?_eq_none_iff.1 hcolumn
      simp [hi, hsize, eq_comm]
    | some ids =>
      have hsize : ¬ chart.columns.size ≤ i := fun hle => by
        simp [Array.getElem?_eq_none hle] at hcolumn
      simp [hi, hsize]

end ChartParser.Chart
