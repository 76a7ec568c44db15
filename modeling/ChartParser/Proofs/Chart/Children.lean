import ChartParser.Item.Basic
import Mathlib.Data.List.Forall2

/-!
# Children by position

Slots are compared through one question: which children does a row have at which position? Each
operation on rows answers it in one lemma, and rows that only grow keep every answer they gave.
-/

namespace ChartParser

namespace Slot

/-! ## The children of a row -/

/-- The row has the child at position `k`. -/
def RowHas (row : List Slot) (k : Nat) (child : ItemId) : Prop :=
  ∃ slot, row[k]? = some slot ∧ child ∈ slot.ids

theorem not_rowHas_nil {k : Nat} {child : ItemId} : ¬ RowHas [] k child := by
  rintro ⟨slot, hslot, _⟩
  simp at hslot

@[simp] theorem rowHas_cons_zero {slot : Slot} {row : List Slot} {child : ItemId} :
    RowHas (slot :: row) 0 child ↔ child ∈ slot.ids := by
  simp [RowHas]

@[simp] theorem rowHas_cons_succ {slot : Slot} {row : List Slot} {k : Nat} {child : ItemId} :
    RowHas (slot :: row) (k + 1) child ↔ RowHas row k child := by
  simp [RowHas]

theorem RowHas.lt_length {row : List Slot} {k : Nat} {child : ItemId} (h : RowHas row k child) :
    k < row.length := by
  obtain ⟨slot, hslot, _⟩ := h
  exact (List.getElem?_eq_some_iff.1 hslot).1

/-- Empty slots have no children. -/
theorem not_rowHas_replicate_empty {n k : Nat} {child : ItemId} :
    ¬ RowHas (List.replicate n Slot.empty) k child := by
  rintro ⟨slot, hslot, hchild⟩
  obtain rfl := List.eq_of_mem_replicate (List.mem_of_getElem? hslot)
  exact List.not_mem_nil hchild

/-- A union of rows has the children of both, as far as the first one goes. -/
theorem rowHas_unionRow {slots others : List Slot} {k : Nat} {child : ItemId} :
    RowHas (unionRow slots others) k child ↔
      RowHas slots k child ∨ (k < slots.length ∧ RowHas others k child) := by
  induction slots generalizing others k with
  | nil => cases others <;> simp [unionRow, not_rowHas_nil]
  | cons slot slots ih =>
    -- Both rows are gone through together, with the position counted down.
    cases others with
    | nil => simp [unionRow, not_rowHas_nil]
    | cons other others =>
      cases k with
      | zero => simp [unionRow, mem_union]
      | succ k => simp [unionRow, ih]

/-- Recording a child at one position adds that child there and nothing else. -/
theorem rowHas_modify_insert {row : List Slot} {dot k : Nat} {id child : ItemId} :
    RowHas (row.modify dot fun slot => slot.insert id) k child ↔
      RowHas row k child ∨ (k = dot ∧ k < row.length ∧ child = id) := by
  simp only [RowHas, List.getElem?_modify]
  -- Behind the end of the row there is nothing to insert into.
  by_cases hk : k < row.length
  · rw [List.getElem?_eq_getElem hk]
    by_cases hdot : dot = k
    · simp [hdot, mem_insert, hk]
    · simp [hdot, Ne.symm hdot]
  · simp [hk]

theorem rowIncludes_eq_true_iff {slots others : List Slot} (hlength : others.length ≤ slots.length) :
    rowIncludes slots others = true ↔ ∀ k child, RowHas others k child → RowHas slots k child := by
  rw [← unionRow_eq_self_iff]
  constructor
  · intro h k child hchild
    -- If the union is what was there, the children of the other row were there.
    rw [← h]
    exact rowHas_unionRow.2 (Or.inr ⟨Nat.lt_of_lt_of_le hchild.lt_length hlength, hchild⟩)
  · intro h
    induction slots generalizing others with
    | nil => cases others <;> rfl
    | cons slot slots ih =>
      cases others with
      | nil => rfl
      | cons other others =>
        -- The first slot gains nothing, and the rest is the same question one position on.
        have hslot : slot.union other = slot := foldl_insert_of_subset fun child hchild =>
          rowHas_cons_zero.1 (h 0 child (rowHas_cons_zero.2 hchild))
        have hrest : unionRow slots others = slots := ih (by simpa using hlength)
          fun k child hchild => rowHas_cons_succ.1 (h (k + 1) child (rowHas_cons_succ.2 hchild))
        rw [unionRow, hslot, hrest]

/-! ## Growing rows -/

/-- The later row has the same positions, and each slot goes on from the earlier one. -/
def RowGrows (row later : List Slot) : Prop :=
  List.Forall₂ (fun slot slot' => slot.ids <+: slot'.ids) row later

theorem RowGrows.refl (row : List Slot) : RowGrows row row :=
  List.forall₂_same.2 fun _ _ => List.prefix_rfl

theorem RowGrows.trans {first second third : List Slot} (h : RowGrows first second)
    (h' : RowGrows second third) : RowGrows first third := by
  induction h generalizing third with
  | nil => exact h'
  | cons hslot _ ih =>
    cases h' with
    | cons hslot' hrest' => exact .cons (hslot.trans hslot') (ih hrest')

theorem RowGrows.rowHas {row later : List Slot} (h : RowGrows row later) {k : Nat} {child : ItemId}
    (hchild : RowHas row k child) : RowHas later k child := by
  induction h generalizing k with
  | nil => exact hchild
  | cons hslot _ ih =>
    cases k with
    | zero => exact rowHas_cons_zero.2 (hslot.subset (rowHas_cons_zero.1 hchild))
    | succ k => exact rowHas_cons_succ.2 (ih (rowHas_cons_succ.1 hchild))

theorem rowGrows_unionRow (slots others : List Slot) : RowGrows slots (unionRow slots others) := by
  induction slots generalizing others with
  | nil => cases others <;> exact .nil
  | cons slot slots ih =>
    cases others with
    | nil => exact RowGrows.refl _
    | cons other others => exact .cons (prefix_union slot other) (ih others)

end Slot

namespace Item

/-- The item has the child at position `k`. -/
abbrev HasChild (item : Item) (k : Nat) (child : ItemId) : Prop := Slot.RowHas item.slots k child

theorem HasChild.lt_length {item : Item} {k : Nat} {child : ItemId} (h : item.HasChild k child) :
    k < item.rhs.length :=
  item.slots_length ▸ Slot.RowHas.lt_length h

theorem not_hasChild_bare {r : DottedRule} {k : Nat} {child : ItemId} : ¬ (bare r).HasChild k child :=
  Slot.not_rowHas_replicate_empty

/-- Of two items with one dotted rule, the first includes the children of the second exactly if it
has each of them at its position. -/
theorem includes_eq_true_iff {known item : Item} (h : known.toDottedRule = item.toDottedRule) :
    known.includes item.slots = true ↔ ∀ k child, item.HasChild k child → known.HasChild k child := by
  refine Slot.rowIncludes_eq_true_iff (Nat.le_of_eq ?_)
  rw [known.slots_length, item.slots_length, h]

/-- An item is a leaf exactly if it has no child. -/
theorem isLeaf_eq_true_iff {item : Item} :
    item.isLeaf = true ↔ ∀ k child, ¬ item.HasChild k child := by
  simp only [isLeaf, List.all_eq_true, Slot.isEmpty, List.isEmpty_iff]
  constructor
  · rintro h k child ⟨slot, hslot, hchild⟩
    rw [h slot (List.mem_of_getElem? hslot)] at hchild
    exact List.not_mem_nil hchild
  · intro h slot hslot
    -- A slot stands at some position, and no child is there.
    obtain ⟨k, hk⟩ := List.mem_iff_getElem?.1 hslot
    exact List.eq_nil_iff_forall_not_mem.2 fun child hchild => h k child ⟨slot, hk, hchild⟩

end Item

end ChartParser
