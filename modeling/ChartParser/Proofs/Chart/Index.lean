import ChartParser.Chart.Index
import ChartParser.Proofs.Chart.Filing

/-!
# Indexes stay in step

The index of a column has a dotted rule under the number of the item that the column lists for it, and
has nothing else, although merges change items that the index knows by a copy of their dotted rule.
A chart with indexes therefore does what a chart without them does, for all calls, and a call that is
refused leaves items, columns and indexes alone.

Main statement: `fileEach_represents`.
-/

namespace ChartParser.IndexedChart

variable {chart : IndexedChart} {column : IndexedColumn} {item known : Item} {r : DottedRule}
  {id : ItemId} {c i tokens : Nat}

/-! ## Without the indexes -/

@[simp] theorem items_toChart (chart : IndexedChart) : chart.toChart.items = chart.items := rfl

@[simp] theorem size_columns_toChart (chart : IndexedChart) :
    chart.toChart.columns.size = chart.columns.size :=
  Array.size_map

theorem getElem?_columns_toChart (chart : IndexedChart) (c : Nat) :
    chart.toChart.columns[c]? = chart.columns[c]?.map IndexedColumn.ids :=
  Array.getElem?_map

theorem ids_of_column (hcolumn : chart.columns[c]? = some column) :
    chart.toChart.columns[c]? = some column.ids := by
  rw [getElem?_columns_toChart, hcolumn]
  rfl

theorem getElem?_columns_list (chart : IndexedChart) (i c : Nat) (r : DottedRule) (id : ItemId) :
    (chart.list i r id).columns[c]? =
      if i = c then chart.columns[c]?.map (fun column => column.add r id) else chart.columns[c]? :=
  Array.getElem?_modify

theorem toChart_empty (tokens : Nat) : (empty tokens).toChart = Chart.empty tokens := by
  simp only [toChart, empty, Chart.empty, Array.map_replicate]
  rfl

/-- Putting what an item has absorbed in its place is what merging is without indexes. -/
theorem toChart_replace {known : Item} (hknown : chart.items[id]? = some known) (row : List Slot) :
    (chart.replace id (known.absorb row).1).toChart = chart.toChart.mergeAt id row := by
  have habsorb : chart.toChart.absorbAt id row = _ := Chart.absorbAt_eq hknown
  simp only [Chart.absorbAt, items_toChart, hknown] at habsorb
  exact congrArg Prod.fst habsorb

/-- Storing an item and listing it is what adding it is without indexes. -/
theorem toChart_list_store (chart : IndexedChart) (item : Item) (i : Nat) :
    ((chart.store item).list i item.toDottedRule chart.items.size).toChart =
      chart.toChart.push item i := by
  have hcolumns : ((chart.store item).list i item.toDottedRule chart.items.size).toChart.columns =
      (chart.toChart.push item i).columns := by
    -- The columns are compared one by one; the number is listed in one of them only.
    apply Array.ext_getElem?
    intro c
    rw [getElem?_columns_toChart, getElem?_columns_list, Chart.getElem?_columns_push,
      getElem?_columns_toChart]
    split
    · rw [Option.map_map, Option.map_map]
      rfl
    · rfl
  rw [toChart, Chart.push, Chart.mk.injEq]
  exact ⟨rfl, hcolumns⟩

/-! ## How a call ends -/

theorem file_of_misfiled (h : item.current ≠ i) :
    (file item i).run chart = .error (.misfiled item.current i) chart := by
  simp [file, h]

theorem file_of_no_column (hcolumn : chart.columns[item.current]? = none) :
    (file item item.current).run chart = .error .outOfRange chart := by
  simp [file, hcolumn]
  rfl

theorem file_of_find (hcolumn : chart.columns[item.current]? = some column)
    (hfind : column.find? item.toDottedRule = some id) (hknown : chart.items[id]? = some known) :
    (file item item.current).run chart =
      .ok (if known.includes item.slots then none else some (.merged id item))
        (chart.replace id (known.absorb item.slots).1) := by
  cases hincludes : known.includes item.slots <;>
    simp [file, hcolumn, hfind, hknown, Item.absorb_eq, hincludes, -bind_pure_comp]

theorem file_of_find_none (hcolumn : chart.columns[item.current]? = some column)
    (hfind : column.find? item.toDottedRule = none) :
    (file item item.current).run chart =
      .ok (some (.added chart.items.size item))
        ((chart.store item).list item.current item.toDottedRule chart.items.size) := by
  simp [file, hcolumn, hfind, -bind_pure_comp]

/-! ## Consistent charts -/

/-- Columns and items agree, and an index has a dotted rule under a number exactly if the column lists
the item with that dotted rule under it. -/
structure Consistent (chart : IndexedChart) : Prop where
  wellFormed : chart.toChart.WellFormed
  indexed : ∀ {c : Nat} {column : IndexedColumn} {r : DottedRule} {id : ItemId},
    chart.columns[c]? = some column →
      (column.find? r = some id ↔ id ∈ column.ids ∧ chart.toChart.holds r id = true)

theorem consistent_empty (tokens : Nat) : (empty tokens).Consistent where
  wellFormed := by
    rw [toChart_empty]
    exact Chart.wellFormed_empty tokens
  indexed := by
    intro c column r id hcolumn
    simp only [empty, Array.getElem?_replicate] at hcolumn
    split at hcolumn
    · obtain rfl := Option.some.inj hcolumn
      simp [IndexedColumn.find?, IndexedColumn.empty]
    · simp at hcolumn

/-- A number that a column lists stands for the same dotted rule after the chart has grown, so a column
that is left alone keeps a right index. -/
theorem Consistent.indexed_of_grows (h : chart.Consistent) {later : Chart}
    (hgrows : chart.toChart.Grows later) (hcolumn : chart.columns[c]? = some column) :
    column.find? r = some id ↔ id ∈ column.ids ∧ later.holds r id = true := by
  rw [h.indexed hcolumn]
  apply and_congr_right
  intro hmem
  obtain ⟨item, hitem, _⟩ := h.wellFormed.listed (ids_of_column hcolumn) hmem
  exact (hgrows.holds_iff hitem).symm

/-- The index has every item under its number. -/
theorem Consistent.find_of_item (h : chart.Consistent) (hknown : chart.items[id]? = some known) :
    ∃ column, chart.columns[known.current]? = some column ∧
      column.find? known.toDottedRule = some id := by
  obtain ⟨ids, hids, hmem⟩ := h.wellFormed.filed hknown
  rw [getElem?_columns_toChart] at hids
  obtain ⟨column, hcolumn, rfl⟩ := Option.map_eq_some_iff.1 hids
  exact ⟨column, hcolumn,
    (h.indexed hcolumn).2 ⟨hmem, Chart.holds_eq_true_iff.2 ⟨known, hknown, rfl⟩⟩⟩

theorem Consistent.find_eq_none (h : chart.Consistent) (hcolumn : chart.columns[c]? = some column)
    (hfresh : ∀ (id : ItemId) (known : Item), chart.items[id]? = some known →
      known.toDottedRule ≠ item.toDottedRule) : column.find? item.toDottedRule = none := by
  rw [Option.eq_none_iff_forall_ne_some]
  intro id hfind
  obtain ⟨_, hholds⟩ := (h.indexed hcolumn).1 hfind
  obtain ⟨known, hknown, hrule⟩ := Chart.holds_eq_true_iff.1 hholds
  exact hfresh id known hknown hrule

/-! ## What a call keeps -/

/-- Merges change items that an index knows by a copy of their dotted rule, but not their dotted
rules. -/
theorem Consistent.replace (h : chart.Consistent) (hknown : chart.items[id]? = some known)
    {row : List Slot} (hgrows : chart.toChart.Grows (chart.toChart.mergeAt id row)) :
    (chart.replace id (known.absorb row).1).Consistent where
  wellFormed := by
    rw [toChart_replace hknown]
    exact h.wellFormed.mergeAt
  indexed hcolumn := by
    rw [toChart_replace hknown]
    exact h.indexed_of_grows hgrows hcolumn

theorem find?_add {r' : DottedRule} :
    (column.add r id).find? r' = if r' = r then some id else column.find? r' := by
  unfold IndexedColumn.find? IndexedColumn.add
  rw [List.lookup_cons]
  split <;> simp_all

/-- The new item is entered under a dotted rule that the index did not have. -/
theorem Consistent.store_list (h : chart.Consistent) (hcurrent : item.current < chart.columns.size)
    (hfresh : ∀ (id : ItemId) (known : Item), chart.items[id]? = some known →
      known.toDottedRule ≠ item.toDottedRule)
    (hgrows : chart.toChart.Grows (chart.toChart.push item item.current)) :
    ((chart.store item).list item.current item.toDottedRule chart.items.size).Consistent where
  wellFormed := by
    rw [toChart_list_store]
    exact h.wellFormed.push (by simpa using hcurrent) hfresh
  indexed := by
    intro c column r id hcolumn
    rw [toChart_list_store]
    rw [getElem?_columns_list] at hcolumn
    split at hcolumn
    · obtain ⟨before, hbefore, rfl⟩ := Option.map_eq_some_iff.1 hcolumn
      have hmem : id ∈ (before.add item.toDottedRule chart.items.size).ids ↔
          id ∈ before.ids ∨ id = chart.items.size := Array.mem_push
      rw [find?_add, Chart.holds_push_iff, hmem, items_toChart]
      split
      · -- The dotted rule of the new item: no other number stands for it.
        rename_i hr
        subst hr
        constructor
        · intro hid
          obtain rfl := Option.some.inj hid
          exact ⟨Or.inr rfl, Or.inl ⟨rfl, rfl⟩⟩
        · rintro ⟨_, ⟨rfl, _⟩ | hholds⟩
          · rfl
          · obtain ⟨known, hknown, hrule⟩ := Chart.holds_eq_true_iff.1 hholds
            exact absurd hrule (hfresh id known hknown)
      · -- Another dotted rule: the new number does not stand for it.
        rename_i hr
        rw [h.indexed hbefore]
        constructor
        · intro ⟨hlisted, hholds⟩
          exact ⟨Or.inl hlisted, Or.inr hholds⟩
        · rintro ⟨hlisted, ⟨_, hrule⟩ | hholds⟩
          · exact absurd hrule.symm hr
          · refine ⟨hlisted.resolve_right fun hid => ?_, hholds⟩
            obtain ⟨known, hknown, _⟩ := Chart.holds_eq_true_iff.1 hholds
            exact Nat.ne_of_lt (Array.getElem?_eq_some_iff.1 hknown).1 hid
    · -- Any other column and its index stay as they are.
      exact h.indexed_of_grows hgrows hcolumn

/-- Where a dotted rule is known, the index finds the item that absorbs the children. -/
theorem Consistent.file_of_item (h : chart.Consistent) (hknown : chart.items[id]? = some known)
    (hrule : known.toDottedRule = item.toDottedRule) :
    (file item item.current).run chart =
      .ok (if known.includes item.slots then none else some (.merged id item))
        (chart.replace id (known.absorb item.slots).1) := by
  obtain ⟨column, hcolumn, hfind⟩ := h.find_of_item hknown
  rw [hrule] at hcolumn hfind
  exact file_of_find hcolumn hfind hknown

/-- A call that a chart without indexes accepts is accepted with the same record, and it makes the same
of the items and the columns. -/
theorem Consistent.file_of_ok (h : chart.Consistent) {later : Chart} {filing : Option Filing}
    (hfile : chart.toChart.file item i = .ok (later, filing)) :
    ∃ next, (file item i).run chart = .ok filing next ∧ next.toChart = later ∧ next.Consistent := by
  obtain ⟨rfl, hlt, hfiled⟩ := h.wellFormed.filed_of_file hfile
  rw [size_columns_toChart] at hlt
  have hgrows := hfiled.grows
  cases hfiled with
  | @known id known hknown hrule hincludes =>
    -- The item is replaced by itself.
    have hsame : chart.toChart.mergeAt id item.slots = chart.toChart :=
      Chart.mergeAt_eq_self hknown hincludes
    refine ⟨chart.replace id (known.absorb item.slots).1, ?_, ?_, h.replace hknown ?_⟩
    · rw [h.file_of_item hknown hrule, if_pos hincludes]
    · rw [toChart_replace hknown, hsame]
    · rw [hsame]
      exact hgrows
  | @merged id known hknown hrule hincludes =>
    refine ⟨chart.replace id (known.absorb item.slots).1, ?_, toChart_replace hknown item.slots,
      h.replace hknown hgrows⟩
    rw [h.file_of_item hknown hrule, if_neg (by simp [hincludes])]
  | added hfresh =>
    -- No item has the dotted rule, so the index does not have it either.
    have hcolumn := Array.getElem?_eq_getElem hlt
    exact ⟨_, file_of_find_none hcolumn (h.find_eq_none hcolumn hfresh), toChart_list_store ..,
      h.store_list hlt hfresh hgrows⟩

/-- A call that a chart without indexes refuses is refused for the same reason and changes nothing. -/
theorem file_of_error {fault : Fault} (hfile : chart.toChart.file item i = .error fault) :
    (file item i).run chart = .error fault chart := by
  rcases Chart.file_eq_error_iff.1 hfile with ⟨hne, rfl⟩ | ⟨rfl, hle, rfl⟩
  · exact file_of_misfiled hne
  · rw [size_columns_toChart] at hle
    exact file_of_no_column (Array.getElem?_eq_none hle)

/-- A call is refused exactly when the item ends elsewhere or, failing that, there is no such column,
and then the chart stays as it is. -/
theorem Consistent.file_eq_error_iff (h : chart.Consistent) {fault : Fault} {later : IndexedChart} :
    (file item i).run chart = .error fault later ↔
      ((item.current ≠ i ∧ fault = .misfiled item.current i) ∨
        (item.current = i ∧ chart.columns.size ≤ i ∧ fault = .outOfRange)) ∧ later = chart := by
  rw [← size_columns_toChart, ← Chart.file_eq_error_iff]
  -- The call ends like the one on the chart without indexes.
  cases hfile : chart.toChart.file item i with
  | ok result =>
    obtain ⟨next, hrun, _⟩ := h.file_of_ok hfile
    simp [hrun]
  | error reason => simp [file_of_error hfile, eq_comm]

/-! ## All calls -/

/-- Whatever calls there are, they keep items, columns and indexes in step, and do what they would do
without indexes. -/
theorem Consistent.fileEach (h : chart.Consistent) (calls : List (Item × Nat)) :
    (chart.fileEach calls).Consistent ∧
      (chart.fileEach calls).toChart = chart.toChart.fileEach calls := by
  induction calls generalizing chart with
  | nil => exact ⟨h, rfl⟩
  | cons call rest ih =>
    obtain ⟨item, i⟩ := call
    rw [IndexedChart.fileEach, List.foldl_cons, ← IndexedChart.fileEach]
    -- What the first call leaves behind is in step, so the other calls start from there.
    cases hfile : chart.toChart.file item i with
    | ok result =>
      obtain ⟨next, hrun, hnext, hconsistent⟩ := h.file_of_ok hfile
      rw [hrun, Chart.fileEach_cons_of_ok hfile, ← hnext]
      exact ih hconsistent
    | error fault =>
      rw [file_of_error hfile, Chart.fileEach_cons_of_error hfile]
      exact ih h

/-- Items, columns and indexes tell the same story: the columns share out the numbers in use among them,
each in increasing order and to the column where its item ends, and a dotted rule has one number in a
column at most, which is the one that the index there has for it. -/
structure Represents (tokens : Nat) (chart : IndexedChart) : Prop where
  size_columns : chart.columns.size = tokens + 1
  increasing : ∀ (c : Nat) (column : IndexedColumn), chart.columns[c]? = some column →
    column.ids.toList.Pairwise (· < ·)
  disjoint : ∀ (c c' : Nat) (column column' : IndexedColumn) (id : ItemId),
    chart.columns[c]? = some column → chart.columns[c']? = some column' →
      id ∈ column.ids → id ∈ column'.ids → c = c'
  listed_iff : ∀ id : ItemId, (∃ (c : Nat) (column : IndexedColumn),
    chart.columns[c]? = some column ∧ id ∈ column.ids) ↔ id < chart.items.size
  current_eq : ∀ (c : Nat) (column : IndexedColumn) (id : ItemId), chart.columns[c]? = some column →
    id ∈ column.ids → ∃ item, chart.items[id]? = some item ∧ item.current = c
  distinct : ∀ (c : Nat) (column : IndexedColumn) (id id' : ItemId) (item item' : Item),
    chart.columns[c]? = some column → id ∈ column.ids → id' ∈ column.ids →
      chart.items[id]? = some item → chart.items[id']? = some item' →
        item.toDottedRule = item'.toDottedRule → id = id'
  indexed : ∀ (c : Nat) (column : IndexedColumn) (r : DottedRule) (id : ItemId),
    chart.columns[c]? = some column →
      (column.find? r = some id ↔
        id ∈ column.ids ∧ ∃ item, chart.items[id]? = some item ∧ item.toDottedRule = r)

theorem Consistent.represents (h : chart.Consistent) (hsize : chart.columns.size = tokens + 1) :
    Represents tokens chart where
  size_columns := hsize
  increasing c column hcolumn := h.wellFormed.ordered (ids_of_column hcolumn)
  disjoint c c' column column' id hcolumn hcolumn' hmem hmem' := by
    -- A number that two columns list is that of an item which ends at both of them.
    obtain ⟨item, hitem, rfl⟩ := h.wellFormed.listed (ids_of_column hcolumn) hmem
    obtain ⟨item', hitem', rfl⟩ := h.wellFormed.listed (ids_of_column hcolumn') hmem'
    rw [Option.some.inj (hitem.symm.trans hitem')]
  listed_iff id := by
    constructor
    · intro ⟨c, column, hcolumn, hmem⟩
      obtain ⟨item, hitem, _⟩ := h.wellFormed.listed (ids_of_column hcolumn) hmem
      exact (Array.getElem?_eq_some_iff.1 hitem).1
    · intro hlt
      -- An item with a number is found by the index of the column where it ends.
      have hitem := Array.getElem?_eq_getElem hlt
      obtain ⟨column, hcolumn, hfind⟩ := h.find_of_item hitem
      exact ⟨_, column, hcolumn, ((h.indexed hcolumn).1 hfind).1⟩
  current_eq c column id hcolumn hmem := h.wellFormed.listed (ids_of_column hcolumn) hmem
  distinct c column id id' item item' _ _ _ hitem hitem' hrule :=
    h.wellFormed.distinct hitem hitem' hrule
  indexed c column r id hcolumn := by
    rw [h.indexed hcolumn, Chart.holds_eq_true_iff]
    rfl

/-- Calls with any items and for any columns, those that are refused among them, leave items, columns
and indexes in step, and do to items and columns what they do without indexes. One more call is refused
exactly when its item ends elsewhere or, failing that, there is no such column, and then nothing in the
chart changes. -/
theorem fileEach_represents (tokens : Nat) (calls : List (Item × Nat)) :
    ((empty tokens).fileEach calls).toChart = (Chart.empty tokens).fileEach calls ∧
      Represents tokens ((empty tokens).fileEach calls) ∧
      ∀ (item : Item) (i : Nat) (fault : Fault) (later : IndexedChart),
        (file item i).run ((empty tokens).fileEach calls) = .error fault later ↔
          ((item.current ≠ i ∧ fault = .misfiled item.current i) ∨
            (item.current = i ∧ ((empty tokens).fileEach calls).columns.size ≤ i ∧
              fault = .outOfRange)) ∧
            later = (empty tokens).fileEach calls := by
  obtain ⟨hconsistent, hsame⟩ := (consistent_empty tokens).fileEach calls
  rw [toChart_empty] at hsame
  refine ⟨hsame, hconsistent.represents ?_, fun _ _ _ _ => hconsistent.file_eq_error_iff⟩
  rw [← size_columns_toChart, hsame, ((Chart.wellFormed_empty tokens).fileEach calls).2]
  exact Chart.size_columns_empty tokens

end ChartParser.IndexedChart
