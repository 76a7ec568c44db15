import ChartParser.Chart.Lemmas
import ChartParser.Proofs.Chart.Children
import ChartParser.Proofs.Outcome

/-!
# How charts grow

A chart is well-formed if its columns and its items tell the same story: every item is listed in the
column where it ends and nowhere else, and no dotted rule has two numbers. Filing keeps a chart
well-formed, and what it does has three forms (`Filed`): the item is known with all its children, it
is merged into the known one, or it is new. In each of them nothing that the chart says is lost
(`Grows`), and afterwards the chart says what the item says (`Covers`).
-/

namespace ChartParser.Chart

/-! ## Well-formed charts -/

/-- Columns and items agree. -/
structure WellFormed (chart : Chart) : Prop where
  /-- A column lists items that end there. -/
  listed : ∀ {c : Nat} {ids : Array ItemId} {id : ItemId}, chart.columns[c]? = some ids → id ∈ ids →
    ∃ item, chart.items[id]? = some item ∧ item.current = c
  /-- An item is listed in the column where it ends. -/
  filed : ∀ {id : ItemId} {item : Item}, chart.items[id]? = some item →
    ∃ ids, chart.columns[item.current]? = some ids ∧ id ∈ ids
  /-- A dotted rule has one number. -/
  distinct : ∀ {id id' : ItemId} {item item' : Item}, chart.items[id]? = some item →
    chart.items[id']? = some item' → item.toDottedRule = item'.toDottedRule → id = id'
  /-- A column lists its items in order of filing. -/
  ordered : ∀ {c : Nat} {ids : Array ItemId}, chart.columns[c]? = some ids →
    ids.toList.Pairwise (· < ·)

theorem WellFormed.current_lt {chart : Chart} (hwf : chart.WellFormed) {id : ItemId} {item : Item}
    (hitem : chart.items[id]? = some item) : item.current < chart.columns.size := by
  obtain ⟨ids, hids, _⟩ := hwf.filed hitem
  exact (Array.getElem?_eq_some_iff.1 hids).1

theorem WellFormed.nodup {chart : Chart} (hwf : chart.WellFormed) {c : Nat} {ids : Array ItemId}
    (hids : chart.columns[c]? = some ids) : ids.toList.Nodup :=
  (hwf.ordered hids).imp Nat.ne_of_lt

/-- A column lists exactly the items that end there. -/
theorem WellFormed.mem_column_iff {chart : Chart} (hwf : chart.WellFormed) {c : Nat}
    {ids : Array ItemId} (hids : chart.columns[c]? = some ids) {id : ItemId} :
    id ∈ ids ↔ ∃ item, chart.items[id]? = some item ∧ item.current = c := by
  refine ⟨hwf.listed hids, ?_⟩
  rintro ⟨item, hitem, rfl⟩
  obtain ⟨ids', hids', hmem⟩ := hwf.filed hitem
  rw [hids] at hids'
  exact Option.some.inj hids' ▸ hmem

theorem wellFormed_empty (tokens : Nat) : (empty tokens).WellFormed := by
  -- No column of the empty chart lists anything.
  have hcolumn : ∀ {c : Nat} {ids : Array ItemId},
      (empty tokens).columns[c]? = some ids → ids = #[] := by
    intro c ids hids
    simp only [empty, Array.getElem?_replicate] at hids
    split at hids <;> simp_all
  constructor
  · intro c ids id hids hmem
    simp [hcolumn hids] at hmem
  · intro id item hitem
    simp [empty] at hitem
  · intro id id' item item' hitem
    simp [empty] at hitem
  · intro c ids hids
    simp [hcolumn hids]

@[simp] theorem size_columns_empty (tokens : Nat) : (empty tokens).columns.size = tokens + 1 := by
  simp [empty]

/-! ## What a filing does -/

/-- What filing an item makes of a chart, and how that is recorded. -/
inductive Filed (chart : Chart) (item : Item) : Chart → Option Filing → Prop
  | known {id : ItemId} {known : Item} :
      chart.items[id]? = some known → known.toDottedRule = item.toDottedRule →
      known.includes item.slots = true →
      Filed chart item chart none
  | merged {id : ItemId} {known : Item} :
      chart.items[id]? = some known → known.toDottedRule = item.toDottedRule →
      known.includes item.slots = false →
      Filed chart item (chart.mergeAt id item.slots) (some (.merged id item))
  | added :
      (∀ (id : ItemId) (known : Item), chart.items[id]? = some known →
        known.toDottedRule ≠ item.toDottedRule) →
      Filed chart item (chart.push item item.current) (some (.added chart.items.size item))

/-- A filing that is not refused does one of the three. -/
theorem WellFormed.filed_of_file {chart chart' : Chart} (hwf : chart.WellFormed) {item : Item}
    {i : Nat} {filing : Option Filing} (h : chart.file item i = .ok (chart', filing)) :
    item.current = i ∧ i < chart.columns.size ∧ Filed chart item chart' filing := by
  obtain ⟨rfl, ids, hids, hplace⟩ := place_of_file h
  refine ⟨rfl, (Array.getElem?_eq_some_iff.1 hids).1, ?_⟩
  rcases chart.place_cases item item.current ids with ⟨id, known, hknown, hrule, hincludes, heq⟩ |
    ⟨id, known, hknown, hrule, hincludes, heq⟩ | ⟨hnone, heq⟩
  · cases heq.symm.trans hplace
    exact .known hknown hrule hincludes
  · cases heq.symm.trans hplace
    exact .merged hknown hrule hincludes
  · cases heq.symm.trans hplace
    -- An item with the same dotted rule would be listed in the column and be found there.
    refine .added fun id known hknown hrule => ?_
    have hmem : id ∈ ids := (hwf.mem_column_iff hids).2 ⟨known, hknown, by rw [hrule]⟩
    exact idOf?_eq_none_iff.1 hnone id hmem known hknown hrule

/-- A filing in a column that exists is not refused if the item ends there. -/
theorem exists_file {chart : Chart} {item : Item} (h : item.current < chart.columns.size) :
    ∃ chart' filing, chart.file item item.current = .ok (chart', filing) := by
  cases hfile : chart.file item item.current with
  | ok result => exact ⟨result.1, result.2, rfl⟩
  | error fault =>
    rcases file_eq_error_iff.1 hfile with ⟨hne, _⟩ | ⟨_, hle, _⟩
    · exact absurd rfl hne
    · omega

/-- A row of items is filed by filing the first and then the rest. -/
theorem fileAll_cons_eq_ok_iff {chart last : Chart} {item : Item} {rest : List Item}
    {filings : List Filing} :
    chart.fileAll (item :: rest) = .ok (last, filings) ↔ ∃ next filing later,
      chart.file item item.current = .ok (next, filing) ∧ next.fileAll rest = .ok (last, later) ∧
        filing.toList ++ later = filings := by
  rw [fileAll, bind_eq_ok_iff]
  constructor
  · rintro ⟨⟨next, filing⟩, hfile, h⟩
    obtain ⟨⟨final, later⟩, hrest, h⟩ := bind_eq_ok_iff.1 h
    cases h
    exact ⟨next, filing, later, hfile, hrest, rfl⟩
  · rintro ⟨next, filing, later, hfile, hrest, rfl⟩
    exact ⟨(next, filing), hfile, bind_eq_ok_iff.2 ⟨(last, later), hrest, rfl⟩⟩

/-! ## Growth -/

/-- The later chart goes on from the earlier one: items keep their dotted rules and children, columns
their beginnings. -/
structure Grows (chart later : Chart) : Prop where
  items : ∀ {id : ItemId} {item : Item}, chart.items[id]? = some item →
    ∃ item', later.items[id]? = some item' ∧ item'.toDottedRule = item.toDottedRule ∧
      Slot.RowGrows item.slots item'.slots
  columns : ∀ {c : Nat} {ids : Array ItemId}, chart.columns[c]? = some ids →
    ∃ ids', later.columns[c]? = some ids' ∧ ids.toList <+: ids'.toList
  size_columns : later.columns.size = chart.columns.size

theorem Grows.refl (chart : Chart) : chart.Grows chart where
  items hitem := ⟨_, hitem, rfl, Slot.RowGrows.refl _⟩
  columns hids := ⟨_, hids, List.prefix_rfl⟩
  size_columns := rfl

theorem Grows.trans {first second third : Chart} (h : first.Grows second) (h' : second.Grows third) :
    first.Grows third where
  items hitem := by
    -- An item is followed from the first chart to the second and on to the third, and so is a column.
    obtain ⟨item', hitem', hrule, hslots⟩ := h.items hitem
    obtain ⟨item'', hitem'', hrule', hslots'⟩ := h'.items hitem'
    exact ⟨item'', hitem'', hrule'.trans hrule, hslots.trans hslots'⟩
  columns hids := by
    obtain ⟨ids', hids', hprefix⟩ := h.columns hids
    obtain ⟨ids'', hids'', hprefix'⟩ := h'.columns hids'
    exact ⟨ids'', hids'', hprefix.trans hprefix'⟩
  size_columns := h'.size_columns.trans h.size_columns

theorem Grows.holds {chart later : Chart} (h : chart.Grows later) {r : DottedRule} {id : ItemId}
    (hholds : chart.holds r id = true) : later.holds r id = true := by
  obtain ⟨item, hitem, rfl⟩ := holds_eq_true_iff.1 hholds
  obtain ⟨item', hitem', hrule, _⟩ := h.items hitem
  exact holds_eq_true_iff.2 ⟨item', hitem', hrule⟩

/-- Growth gives no other dotted rule to a number that is in use. -/
theorem Grows.holds_iff {chart later : Chart} (h : chart.Grows later) {r : DottedRule} {id : ItemId}
    {item : Item} (hitem : chart.items[id]? = some item) :
    later.holds r id = true ↔ chart.holds r id = true := by
  obtain ⟨new, hnew, hrule, _⟩ := h.items hitem
  simp [holds_eq_true_iff, hitem, hnew, hrule]

theorem Filed.grows {chart chart' : Chart} {item : Item} {filing : Option Filing}
    (h : Filed chart item chart' filing) : chart.Grows chart' := by
  cases h with
  | known => exact Grows.refl chart
  | @merged id known =>
    refine ⟨fun {other old} hold => ?_, fun hids => ⟨_, hids, List.prefix_rfl⟩, rfl⟩
    rw [getElem?_items_mergeAt]
    split
    · -- The item that is merged into keeps its dotted rule, and its slots grow at their ends.
      exact ⟨old.merge item.slots, by rw [hold]; rfl, rfl, Slot.rowGrows_unionRow ..⟩
    · exact ⟨old, hold, rfl, Slot.RowGrows.refl _⟩
  | added =>
    refine ⟨fun {id old} hold => ?_, fun {c ids} hids => ?_, size_columns_push ..⟩
    · -- The new number is not that of an item that was there.
      have hlt := (Array.getElem?_eq_some_iff.1 hold).1
      rw [getElem?_items_push, if_neg (Nat.ne_of_lt hlt)]
      exact ⟨old, hold, rfl, Slot.RowGrows.refl _⟩
    · rw [getElem?_columns_push]
      split
      · exact ⟨ids.push chart.items.size, by rw [hids]; rfl, by simp⟩
      · exact ⟨ids, hids, List.prefix_rfl⟩

/-! ## Coverage -/

/-- The chart says what the item says: it has an item with the dotted rule and all the children. -/
def Covers (chart : Chart) (item : Item) : Prop :=
  ∃ (id : ItemId) (known : Item), chart.items[id]? = some known ∧
    known.toDottedRule = item.toDottedRule ∧
    ∀ k child, item.HasChild k child → known.HasChild k child

theorem Grows.covers {chart later : Chart} (h : chart.Grows later) {item : Item}
    (hcovers : chart.Covers item) : later.Covers item := by
  obtain ⟨id, known, hknown, hrule, hslots⟩ := hcovers
  obtain ⟨known', hknown', hrule', hgrows⟩ := h.items hknown
  exact ⟨id, known', hknown', hrule'.trans hrule, fun k child hchild =>
    hgrows.rowHas (hslots k child hchild)⟩

/-- What was filed is covered. -/
theorem Filed.covers {chart chart' : Chart} {item : Item} {filing : Option Filing}
    (h : Filed chart item chart' filing) : chart'.Covers item := by
  cases h with
  | known hknown hrule hincludes =>
    exact ⟨_, _, hknown, hrule, (Item.includes_eq_true_iff hrule).1 hincludes⟩
  | @merged id known hknown hrule =>
    refine ⟨id, known.merge item.slots, ?_, hrule, fun k child hchild => ?_⟩
    · rw [getElem?_items_mergeAt, if_pos rfl, hknown]
      rfl
    · -- A child of the item is at a position that the known item has, too.
      refine Slot.rowHas_unionRow.2 (Or.inr ⟨?_, hchild⟩)
      rw [known.slots_length, hrule]
      exact hchild.lt_length
  | added =>
    exact ⟨chart.items.size, item, by rw [getElem?_items_push, if_pos rfl], rfl, fun _ _ h => h⟩

/-- Filing an item leaves no record exactly if the chart covers it. -/
theorem Filed.filing_eq_none_iff {chart chart' : Chart} (hwf : chart.WellFormed) {item : Item}
    {filing : Option Filing} (h : Filed chart item chart' filing) :
    filing = none ↔ chart.Covers item := by
  cases h with
  | known hknown hrule hincludes =>
    exact ⟨fun _ => ⟨_, _, hknown, hrule, (Item.includes_eq_true_iff hrule).1 hincludes⟩,
      fun _ => rfl⟩
  | @merged id known hknown hrule hincludes =>
    simp only [reduceCtorEq, false_iff]
    -- The item that covers it would be the one that was merged into, and that lacks a child.
    rintro ⟨id', known', hknown', hrule', hslots⟩
    obtain rfl := hwf.distinct hknown hknown' (hrule.trans hrule'.symm)
    obtain rfl := Option.some.inj (hknown.symm.trans hknown')
    rw [(Item.includes_eq_true_iff hrule).2 hslots] at hincludes
    exact Bool.noConfusion hincludes
  | added hnew =>
    simp only [reduceCtorEq, false_iff]
    rintro ⟨id, known, hknown, hrule, _⟩
    exact hnew id known hknown hrule

/-! ## Items after a filing -/

/-- An item of a chart after a merge is the one that was merged into, or it was there before. -/
theorem eq_or_of_mergeAt {chart : Chart} {id other : ItemId} {row : List Slot} {known new : Item}
    (hknown : chart.items[id]? = some known)
    (hnew : (chart.mergeAt id row).items[other]? = some new) :
    (other = id ∧ new = known.merge row) ∨ (other ≠ id ∧ chart.items[other]? = some new) := by
  rw [getElem?_items_mergeAt] at hnew
  split at hnew
  · rename_i hid
    subst hid
    rw [hknown] at hnew
    exact Or.inl ⟨rfl, (Option.some.inj hnew).symm⟩
  · rename_i hne
    exact Or.inr ⟨Ne.symm hne, hnew⟩

/-- An item of a chart after another was added is that one, or it was there before. -/
theorem eq_or_of_push {chart : Chart} {item : Item} {i : Nat} {id : ItemId} {new : Item}
    (hnew : (chart.push item i).items[id]? = some new) :
    (id = chart.items.size ∧ new = item) ∨ chart.items[id]? = some new := by
  rw [getElem?_items_push] at hnew
  split at hnew
  · exact Or.inl ⟨‹_›, (Option.some.inj hnew).symm⟩
  · exact Or.inr hnew

/-- An item of the chart after a filing was there before, or it has the dotted rule that was filed and
no children but those filed and those that were there. -/
theorem Filed.item_cases {chart chart' : Chart} {item : Item} {filing : Option Filing}
    (h : Filed chart item chart' filing) {id : ItemId} {new : Item}
    (hnew : chart'.items[id]? = some new) :
    chart.items[id]? = some new ∨
      (new.toDottedRule = item.toDottedRule ∧ ∀ k child, new.HasChild k child →
        item.HasChild k child ∨
          ∃ known : Item, chart.items[id]? = some known ∧
            known.toDottedRule = item.toDottedRule ∧ known.HasChild k child) := by
  cases h with
  | known => exact Or.inl hnew
  | @merged id' known hknown hrule =>
    rcases eq_or_of_mergeAt hknown hnew with ⟨rfl, rfl⟩ | ⟨_, hold⟩
    · refine Or.inr ⟨hrule, fun k child hchild => ?_⟩
      -- A child of the union comes from one of the two.
      rcases Slot.rowHas_unionRow.1 hchild with hchild | ⟨_, hchild⟩
      · exact Or.inr ⟨known, hknown, hrule, hchild⟩
      · exact Or.inl hchild
    · exact Or.inl hold
  | added =>
    rcases eq_or_of_push hnew with ⟨_, rfl⟩ | hold
    · exact Or.inr ⟨rfl, fun k child hchild => Or.inl hchild⟩
    · exact Or.inl hold

/-- A filing changes no item but those with the dotted rule that is filed. -/
theorem Filed.items_eq {chart chart' : Chart} {item : Item} {filing : Option Filing}
    (h : Filed chart item chart' filing) {id : ItemId} {old : Item}
    (hold : chart.items[id]? = some old) (hne : old.toDottedRule ≠ item.toDottedRule) :
    chart'.items[id]? = some old := by
  obtain ⟨new, hnew, hrule, _⟩ := h.grows.items hold
  rcases h.item_cases hnew with hsame | ⟨hfiled, _⟩
  · rwa [hold.symm.trans hsame]
  · exact absurd (hrule.symm.trans hfiled) hne

/-- A filing changes no column but the one where the item ends. -/
theorem Filed.columns_eq {chart chart' : Chart} {item : Item} {filing : Option Filing}
    (h : Filed chart item chart' filing) {c : Nat} (hne : item.current ≠ c) :
    chart'.columns[c]? = chart.columns[c]? := by
  cases h with
  | known => rfl
  | merged => rfl
  | added => rw [getElem?_columns_push, if_neg hne]

/-! ## Well-formed charts stay so -/

/-- Merging leaves every dotted rule where it is. -/
theorem exists_of_mergeAt {chart : Chart} {id other : ItemId} {row : List Slot} {new : Item}
    (hnew : (chart.mergeAt id row).items[other]? = some new) :
    ∃ old, chart.items[other]? = some old ∧ new.toDottedRule = old.toDottedRule := by
  rw [getElem?_items_mergeAt] at hnew
  split at hnew
  · obtain ⟨old, hold, rfl⟩ := Option.map_eq_some_iff.1 hnew
    exact ⟨old, hold, rfl⟩
  · exact ⟨new, hnew, rfl⟩

theorem WellFormed.mergeAt {chart : Chart} (hwf : chart.WellFormed) {id : ItemId} {row : List Slot} :
    (chart.mergeAt id row).WellFormed where
  listed := by
    intro c ids other hids hmem
    obtain ⟨old, hold, hc⟩ := hwf.listed hids hmem
    rw [getElem?_items_mergeAt, hold]
    split
    · exact ⟨old.merge row, rfl, hc⟩
    · exact ⟨old, rfl, hc⟩
  filed := by
    intro other new hnew
    -- Only the dotted rule matters, and no merge changes it.
    obtain ⟨old, hold, hsame⟩ := exists_of_mergeAt hnew
    rw [hsame]
    exact hwf.filed hold
  distinct := by
    intro other other' new new' hnew hnew' heq
    obtain ⟨old, hold, hsame⟩ := exists_of_mergeAt hnew
    obtain ⟨old', hold', hsame'⟩ := exists_of_mergeAt hnew'
    exact hwf.distinct hold hold' (hsame.symm.trans (heq.trans hsame'))
  ordered hids := hwf.ordered hids

theorem holds_push_iff {chart : Chart} {item : Item} {i : Nat} {r : DottedRule} {id : ItemId} :
    (chart.push item i).holds r id = true ↔
      (id = chart.items.size ∧ item.toDottedRule = r) ∨ chart.holds r id = true := by
  rw [holds_eq_true_iff, holds_eq_true_iff, getElem?_items_push]
  -- The new number is that of the new item and of no other.
  split
  · rename_i hid
    simp [hid]
  · rename_i hid
    simp [hid]

theorem items_push_of_items {chart : Chart} {item : Item} {i : Nat} {id : ItemId} {old : Item}
    (hold : chart.items[id]? = some old) : (chart.push item i).items[id]? = some old := by
  have hlt := (Array.getElem?_eq_some_iff.1 hold).1
  rwa [getElem?_items_push, if_neg (Nat.ne_of_lt hlt)]

theorem WellFormed.push {chart : Chart} (hwf : chart.WellFormed) {item : Item}
    (hcurrent : item.current < chart.columns.size)
    (hfresh : ∀ (id : ItemId) (known : Item), chart.items[id]? = some known →
      known.toDottedRule ≠ item.toDottedRule) : (chart.push item item.current).WellFormed where
  listed := by
    intro c ids id hids hmem
    rw [getElem?_columns_push] at hids
    split at hids
    · -- The column of the new item: its number stands behind those that were there.
      rename_i hc
      obtain ⟨before, hbefore, rfl⟩ := Option.map_eq_some_iff.1 hids
      rcases Array.mem_push.1 hmem with hmem | rfl
      · obtain ⟨old, hold, hend⟩ := hwf.listed hbefore hmem
        exact ⟨old, items_push_of_items hold, hend⟩
      · exact ⟨item, by rw [getElem?_items_push, if_pos rfl], hc⟩
    · obtain ⟨old, hold, hend⟩ := hwf.listed hids hmem
      exact ⟨old, items_push_of_items hold, hend⟩
  filed := by
    intro id new hnew
    rw [getElem?_columns_push]
    -- Each item is the new one or one that was there.
    rcases eq_or_of_push hnew with ⟨rfl, rfl⟩ | hold
    · rw [if_pos rfl, Array.getElem?_eq_getElem hcurrent]
      exact ⟨_, rfl, Array.mem_push_self⟩
    · obtain ⟨ids, hids, hmem⟩ := hwf.filed hold
      split
      · exact ⟨_, by rw [hids]; rfl, Array.mem_push_of_mem _ hmem⟩
      · exact ⟨ids, hids, hmem⟩
  distinct := by
    intro id id' new new' hnew hnew' heq
    rcases eq_or_of_push hnew with ⟨rfl, rfl⟩ | hold <;>
      rcases eq_or_of_push hnew' with ⟨rfl, rfl⟩ | hold'
    · rfl
    · exact absurd heq.symm (hfresh id' new' hold')
    · exact absurd heq (hfresh id new hold)
    · exact hwf.distinct hold hold' heq
  ordered := by
    intro c ids hids
    rw [getElem?_columns_push] at hids
    split at hids
    · -- The new number is greater than all others, as it was not in use.
      obtain ⟨before, hbefore, rfl⟩ := Option.map_eq_some_iff.1 hids
      rw [Array.toList_push, List.pairwise_append]
      refine ⟨hwf.ordered hbefore, List.pairwise_singleton .., fun id hid last hlast => ?_⟩
      obtain ⟨old, hold, _⟩ := hwf.listed hbefore (Array.mem_toList_iff.1 hid)
      rw [List.mem_singleton.1 hlast]
      exact (Array.getElem?_eq_some_iff.1 hold).1
    · exact hwf.ordered hids

/-- Filing keeps a chart well-formed. -/
theorem Filed.wellFormed {chart chart' : Chart} (hwf : chart.WellFormed) {item : Item}
    (hcurrent : item.current < chart.columns.size) {filing : Option Filing}
    (h : Filed chart item chart' filing) : chart'.WellFormed := by
  cases h with
  | known => exact hwf
  | merged => exact hwf.mergeAt
  | added hfresh => exact hwf.push hcurrent hfresh

end ChartParser.Chart
