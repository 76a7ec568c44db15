import ChartParser.Chart.History
import ChartParser.Proofs.Chart.Growth

/-!
# What a call of filing changes

Whoever files items one by one, whatever items these are and wherever they are filed, gets a well-formed
chart: refused calls leave it alone, and the others add one item or unite the slots of one. Whether
anything was changed is what the record of the filing tells, in both directions. Settling a column rests
on this: it stops when no filing leaves a record.

## Main results

- `Built.wellFormed`: charts built by calls are well-formed
- `Filed.filing_eq_none_iff_eq`: a filing leaves no record exactly if the chart stays as it is
- `file_changes`: what a filing changes, and what it leaves alone
-/

namespace ChartParser.Chart

variable {chart later : Chart} {item : Item} {filing : Option Filing} {i : Nat}

/-! ## Charts built by calls -/

/-- The chart is what some calls make of an empty one, those that are refused among them. -/
def Built (chart : Chart) : Prop :=
  ∃ (tokens : Nat) (calls : List (Item × Nat)), chart = (empty tokens).fileEach calls

theorem fileEach_cons_of_ok {rest : List (Item × Nat)} (hfile : chart.file item i = .ok (later, filing)) :
    chart.fileEach ((item, i) :: rest) = later.fileEach rest := by
  simp only [fileEach, List.foldl_cons, hfile]

theorem fileEach_cons_of_error {rest : List (Item × Nat)} {fault : Fault}
    (hfile : chart.file item i = .error fault) :
    chart.fileEach ((item, i) :: rest) = chart.fileEach rest := by
  simp only [fileEach, List.foldl_cons, hfile]

theorem WellFormed.file (hwf : chart.WellFormed) (hfile : chart.file item i = .ok (later, filing)) :
    later.WellFormed ∧ later.columns.size = chart.columns.size := by
  obtain ⟨hcurrent, hlt, hfiled⟩ := hwf.filed_of_file hfile
  exact ⟨hfiled.wellFormed hwf (hcurrent ▸ hlt), hfiled.grows.size_columns⟩

theorem WellFormed.fileEach (hwf : chart.WellFormed) (calls : List (Item × Nat)) :
    (chart.fileEach calls).WellFormed ∧
      (chart.fileEach calls).columns.size = chart.columns.size := by
  induction calls generalizing chart with
  | nil => exact ⟨hwf, rfl⟩
  | cons call rest ih =>
    obtain ⟨item, i⟩ := call
    cases hfile : chart.file item i with
    | ok result =>
      obtain ⟨hlater, hsize⟩ := hwf.file hfile
      rw [fileEach_cons_of_ok hfile, ← hsize]
      exact ih hlater
    | error fault =>
      rw [fileEach_cons_of_error hfile]
      exact ih hwf

theorem Built.wellFormed (h : chart.Built) : chart.WellFormed := by
  obtain ⟨tokens, calls, rfl⟩ := h
  exact ((wellFormed_empty tokens).fileEach calls).1

/-! ## Filing what is there -/

/-- Filing what a chart covers changes nothing. -/
theorem WellFormed.file_of_covers (hwf : chart.WellFormed) (hcovers : chart.Covers item) :
    chart.file item item.current = .ok (chart, none) := by
  -- The column exists, since the known item is listed in it.
  have ⟨id, known, hknown, hrule, _⟩ := hcovers
  have hlt : item.current < chart.columns.size := by
    rw [← hrule]
    exact hwf.current_lt hknown
  obtain ⟨next, filing, hfile⟩ := exists_file hlt
  obtain ⟨_, _, hfiled⟩ := hwf.filed_of_file hfile
  obtain rfl := (hfiled.filing_eq_none_iff hwf).2 hcovers
  cases hfiled
  exact hfile

theorem WellFormed.fileAll_of_covers (hwf : chart.WellFormed) {items : List Item}
    (hcovers : ∀ p ∈ items, chart.Covers p) : chart.fileAll items = .ok (chart, []) := by
  -- Each filing leaves the chart as it is, so it covers what is still to be filed.
  induction items with
  | nil => rfl
  | cons item rest ih =>
    have hrest := ih fun p hp => hcovers p (List.mem_cons_of_mem item hp)
    rw [fileAll, hwf.file_of_covers (hcovers item List.mem_cons_self), ok_bind]
    simp only [hrest, ok_bind]
    rfl

/-! ## The record tells whether anything changed -/

/-- An item that gains children is not the item that it was. -/
theorem mergeAt_ne_self {id : ItemId} {known : Item} (hknown : chart.items[id]? = some known)
    (hincludes : known.includes item.slots = false) : chart.mergeAt id item.slots ≠ chart := by
  intro hsame
  -- The merged item is read back where the known one was.
  have hmerged : (chart.mergeAt id item.slots).items[id]? = some (known.merge item.slots) := by
    rw [getElem?_items_mergeAt, if_pos rfl, hknown]
    rfl
  rw [hsame, hknown, Option.some.injEq] at hmerged
  -- A merge without effect brings no child that is new.
  rw [Item.merge_eq_self_iff.1 hmerged.symm] at hincludes
  exact Bool.noConfusion hincludes

theorem push_ne_self : chart.push item i ≠ chart := by
  intro hsame
  have hsize := size_items_push chart item i
  rw [hsame] at hsize
  omega

/-- A filing leaves no record exactly if the chart stays as it is. -/
theorem Filed.filing_eq_none_iff_eq (h : Filed chart item later filing) :
    filing = none ↔ later = chart := by
  cases h with
  | known => simp
  | merged hknown _ hincludes => simpa using mergeAt_ne_self hknown hincludes
  | added => simpa using push_ne_self

/-! ## One item is affected -/

/-- The item is new: it gets the next number, behind all others in its column and in the chart. -/
structure Adds (chart later : Chart) (item : Item) (i : Nat) : Prop where
  fresh : ∀ (id : ItemId) (known : Item), chart.items[id]? = some known →
    known.toDottedRule ≠ item.toDottedRule
  items_eq : later.items = chart.items.push item
  column_eq : ∃ ids, chart.columns[i]? = some ids ∧
    later.columns[i]? = some (ids.push chart.items.size)
  columns_eq : ∀ c, c ≠ i → later.columns[c]? = chart.columns[c]?

/-- Column `i` lists an item with the same dotted rule, under the number `id`. This item has the children
of both afterwards, position by position, and no other item is touched. -/
structure Unites (chart later : Chart) (item : Item) (i : Nat) (id : ItemId) (known united : Item) :
    Prop where
  listed : ∃ ids, chart.columns[i]? = some ids ∧ id ∈ ids
  before : chart.items[id]? = some known
  after : later.items[id]? = some united
  rule_eq : known.toDottedRule = item.toDottedRule ∧ united.toDottedRule = item.toDottedRule
  children : ∀ k child, united.HasChild k child ↔ known.HasChild k child ∨ item.HasChild k child
  others : ∀ other, other ≠ id → later.items[other]? = chart.items[other]?
  columns_eq : later.columns = chart.columns

/-- A merged item has the children of both at each position. -/
theorem hasChild_merge_iff {known : Item} (hrule : known.toDottedRule = item.toDottedRule) {k : Nat}
    {child : ItemId} :
    (known.merge item.slots).HasChild k child ↔ known.HasChild k child ∨ item.HasChild k child := by
  show Slot.RowHas (Slot.unionRow known.slots item.slots) k child ↔ _
  rw [Slot.rowHas_unionRow]
  apply or_congr_right
  constructor
  · exact And.right
  · intro hchild
    -- The slots of both are as many as the symbols of the one alternative.
    refine ⟨?_, hchild⟩
    rw [known.slots_length, hrule]
    exact hchild.lt_length

theorem WellFormed.unites_mergeAt (hwf : chart.WellFormed) {id : ItemId} {known : Item}
    (hknown : chart.items[id]? = some known) (hrule : known.toDottedRule = item.toDottedRule) :
    Unites chart (chart.mergeAt id item.slots) item item.current id known (known.merge item.slots) where
  listed := by
    rw [← hrule]
    exact hwf.filed hknown
  before := hknown
  after := by
    rw [getElem?_items_mergeAt, if_pos rfl, hknown]
    rfl
  rule_eq := ⟨hrule, hrule⟩
  children _ _ := hasChild_merge_iff hrule
  others _ hne := by rw [getElem?_items_mergeAt, if_neg hne.symm]
  columns_eq := rfl

theorem adds_push (hcurrent : item.current < chart.columns.size)
    (hfresh : ∀ (id : ItemId) (known : Item), chart.items[id]? = some known →
      known.toDottedRule ≠ item.toDottedRule) :
    Adds chart (chart.push item item.current) item item.current where
  fresh := hfresh
  items_eq := rfl
  column_eq := by
    refine ⟨_, Array.getElem?_eq_getElem hcurrent, ?_⟩
    rw [getElem?_columns_push, if_pos rfl, Array.getElem?_eq_getElem hcurrent]
    rfl
  columns_eq c hne := by rw [getElem?_columns_push, if_neg hne.symm]

/-- A filing affects one item, which is new or has the same dotted rule. -/
theorem Filed.adds_or_unites (h : Filed chart item later filing) (hwf : chart.WellFormed)
    (hcurrent : item.current < chart.columns.size) :
    Adds chart later item item.current ∨
      ∃ id known united, Unites chart later item item.current id known united := by
  cases h with
  | known hknown hrule hincludes =>
    -- An item that brings nothing new is merged into the known one without effect.
    have hunites := hwf.unites_mergeAt hknown hrule
    rw [mergeAt_eq_self hknown hincludes] at hunites
    exact Or.inr ⟨_, _, _, hunites⟩
  | merged hknown hrule => exact Or.inr ⟨_, _, _, hwf.unites_mergeAt hknown hrule⟩
  | added hfresh => exact Or.inl (adds_push hcurrent hfresh)

/-! ## The whole change -/

/-- A call that is not refused leaves no record exactly if the chart is what it was, slots and their
order included. Every item keeps its number, its dotted rule and the beginnings of its slots, every
column its beginning, and no slot repeats a number. Either the item is added behind all others, or its
slots are united with those of the item with the same dotted rule, and nothing else is touched. The same
call once more changes nothing. -/
theorem file_changes (hbuilt : chart.Built) (hfile : chart.file item i = .ok (later, filing)) :
    (filing = none ↔ later = chart) ∧ chart.Grows later ∧
      (∀ (id : ItemId) (new : Item), later.items[id]? = some new →
        ∀ slot ∈ new.slots, slot.ids.Nodup) ∧
      (Adds chart later item i ∨ ∃ id known united, Unites chart later item i id known united) ∧
      later.file item i = .ok (later, none) := by
  have hwf := hbuilt.wellFormed
  obtain ⟨rfl, hlt, hfiled⟩ := hwf.filed_of_file hfile
  have hlater := hfiled.wellFormed hwf hlt
  exact ⟨hfiled.filing_eq_none_iff_eq, hfiled.grows, fun _ _ _ slot _ => slot.ids_nodup,
    hfiled.adds_or_unites hwf hlt, hlater.file_of_covers hfiled.covers⟩

/-- An item with one child at its first position, whether or not there is an item with that number. -/
def withChild (child : ItemId) : Item :=
  ⟨⟨"S", ["A", "b"], 1, 0, 1, by decide⟩, [Slot.empty.insert child, Slot.empty], rfl⟩

/-- Behind a call that was refused and one that was not, an item with the same dotted rule and another
child is united with the one that is there. -/
theorem withChild_file_changes :
    ∃ chart later, Built chart ∧
      chart.file (withChild 7) 1 = .ok (later, some (.merged 0 (withChild 7))) ∧ later ≠ chart ∧
      chart.Grows later ∧ later.file (withChild 7) 1 = .ok (later, none) := by
  have hbuilt : Built ((empty 1).fileEach [(withChild 3, 0), (withChild 3, 1)]) := ⟨1, _, rfl⟩
  have hfile : ((empty 1).fileEach [(withChild 3, 0), (withChild 3, 1)]).file (withChild 7) 1 =
      .ok (((empty 1).push (withChild 3) 1).mergeAt 0 (withChild 7).slots,
        some (.merged 0 (withChild 7))) := rfl
  obtain ⟨hflag, hgrows, _, _, hagain⟩ := file_changes hbuilt hfile
  exact ⟨_, _, hbuilt, hfile, fun hsame => Option.some_ne_none _ (hflag.2 hsame), hgrows, hagain⟩

end ChartParser.Chart
