import ChartParser.Proofs.Chart.Growth

/-!
# Items whose children correspond

Items of two charts can say the same with different numbers. A relation between the numbers tells which
children correspond. If it pairs each number with one number at most, then recording corresponding
children keeps rows in correspondence, and so do merging and advancing.

What a filing makes of an item depends only on whether its dotted rule is known: if so, its children are
merged into the item that has it, and no column changes; if not, the item is added.
-/

namespace ChartParser

open Relator

variable {R S : ItemId → ItemId → Prop} {id id' : ItemId}

namespace Slot

/-! ## Rows -/

/-- The rows have corresponding children at the same positions and in the same order. -/
def RowMatches (R : ItemId → ItemId → Prop) : List Slot → List Slot → Prop :=
  List.Forall₂ fun slot slot' => List.Forall₂ R slot.ids slot'.ids

variable {slot slot' : Slot} {slots slots' others others' : List Slot}

theorem RowMatches.mono (h : RowMatches R slots slots') (hRS : ∀ id id', R id id' → S id id') :
    RowMatches S slots slots' :=
  h.imp fun _ _ hslot => hslot.imp hRS

theorem RowMatches.flip (h : RowMatches R slots slots') : RowMatches (flip R) slots' slots :=
  List.Forall₂.flip (h.imp fun _ _ hslot => hslot.flip)

theorem forall₂_insert (hR : BiUnique R) (h : List.Forall₂ R slot.ids slot'.ids) (hid : R id id') :
    List.Forall₂ R (slot.insert id).ids (slot'.insert id').ids := by
  -- As numbers are paired one to one, a child is recorded in the one slot exactly if its partner is in
  -- the other.
  have hmem : id ∈ slot.ids ↔ id' ∈ slot'.ids := List.rel_mem hR hid h
  by_cases hold : id ∈ slot.ids
  · rw [insert_of_mem hold, insert_of_mem (hmem.1 hold)]
    exact h
  · rw [ids_insert_of_not_mem hold, ids_insert_of_not_mem fun hold' => hold (hmem.2 hold')]
    exact List.rel_append h (.cons hid .nil)

theorem forall₂_union (hR : BiUnique R) (h : List.Forall₂ R slot.ids slot'.ids) {other other' : Slot}
    (hother : List.Forall₂ R other.ids other'.ids) :
    List.Forall₂ R (slot.union other).ids (slot'.union other').ids := by
  -- The union inserts one child after the other.
  refine List.rel_foldl (P := fun slot slot' : Slot => List.Forall₂ R slot.ids slot'.ids) ?_ h hother
  intro slot slot' hslot id id' hid
  exact forall₂_insert hR hslot hid

theorem RowMatches.unionRow (hR : BiUnique R) (h : RowMatches R slots slots')
    (hothers : RowMatches R others others') :
    RowMatches R (unionRow slots others) (Slot.unionRow slots' others') := by
  induction h generalizing others others' with
  | nil => cases hothers <;> exact .nil
  | cons hslot hrest ih =>
    cases hothers with
    | nil => exact .cons hslot hrest
    | cons hother hothers => exact .cons (forall₂_union hR hslot hother) (ih hothers)

/-- Recording corresponding children at one position keeps the rows in correspondence. -/
theorem RowMatches.modify_insert (hR : BiUnique R) (h : RowMatches R slots slots') (hid : R id id')
    (dot : Nat) :
    RowMatches R (slots.modify dot fun slot => slot.insert id)
      (slots'.modify dot fun slot => slot.insert id') := by
  induction h generalizing dot with
  | nil => cases dot <;> exact .nil
  | cons hslot hrest ih =>
    cases dot with
    | zero => exact .cons (forall₂_insert hR hslot hid) hrest
    | succ dot => exact .cons hslot (ih dot)

end Slot

namespace Item

/-! ## Items -/

/-- The items say the same, with corresponding children. -/
structure Matches (R : ItemId → ItemId → Prop) (item item' : Item) : Prop where
  rule : item'.toDottedRule = item.toDottedRule
  slots : Slot.RowMatches R item.slots item'.slots

variable {item item' p p' : Item} {current : Nat} {g : Grammar}

theorem Matches.mono (h : item.Matches R item') (hRS : ∀ id id', R id id' → S id id') :
    item.Matches S item' :=
  ⟨h.rule, h.slots.mono hRS⟩

/-- Without children there is nothing that could differ. -/
theorem matches_bare (R : ItemId → ItemId → Prop) (r : DottedRule) : (bare r).Matches R (bare r) where
  rule := rfl
  slots := List.forall₂_same.2 fun slot hslot => by
    rw [List.eq_of_mem_replicate hslot]
    exact .nil

theorem Matches.advance (hR : BiUnique R) (h : item.Matches R item') (hid : R id id')
    (hp : item.advance id current g = .ok p) (hp' : item'.advance id' current g = .ok p') :
    p.Matches R p' ∧ p.current = current := by
  obtain ⟨rule, slots, hlength⟩ := item
  obtain ⟨rule', slots', hlength'⟩ := item'
  obtain rfl : rule' = rule := h.rule
  -- Whether an item can advance is up to its dotted rule, which both have.
  simp only [Item.advance] at hp hp'
  split at hp
  · rename_i hdot
    rw [dif_pos hdot] at hp'
    cases hp
    cases hp'
    exact ⟨⟨rfl, h.slots.modify_insert hR hid _⟩, rfl⟩
  · cases hp

end Item

namespace Chart

variable {chart chart' : Chart} {item new : Item} {filing : Option Filing}

/-! ## Filed items -/

/-- Some item has the dotted rule. -/
def Knows (chart : Chart) (r : DottedRule) : Prop := ∃ id, chart.holds r id = true

theorem knows_of_item (hitem : chart.items[id]? = some item) : chart.Knows item.toDottedRule :=
  ⟨id, holds_eq_true_iff.2 ⟨item, hitem, rfl⟩⟩

/-- Filing an item with a new dotted rule adds it. -/
theorem Filed.eq_push_of_not_knows (h : chart.Filed item chart' filing)
    (hfresh : ¬ chart.Knows item.toDottedRule) : chart' = chart.push item item.current := by
  cases h with
  | known hknown hrule => exact absurd (hrule ▸ knows_of_item hknown) hfresh
  | merged hknown hrule => exact absurd (hrule ▸ knows_of_item hknown) hfresh
  | added => rfl

/-- Filing an item with a known dotted rule adds to no column. -/
theorem Filed.columns_eq_of_knows (h : chart.Filed item chart' filing)
    (hknows : chart.Knows item.toDottedRule) : chart'.columns = chart.columns := by
  cases h with
  | known => rfl
  | merged => rfl
  | added hfresh =>
    obtain ⟨id, hholds⟩ := hknows
    obtain ⟨known, hknown, hrule⟩ := holds_eq_true_iff.1 hholds
    exact absurd hrule (hfresh id known hknown)

/-- Filing an item with a known dotted rule merges its children into the item that has it. -/
theorem Filed.eq_merge_of_knows (hwf : chart.WellFormed) (h : chart.Filed item chart' filing)
    (hknows : chart.Knows item.toDottedRule) (hnew : chart'.items[id]? = some new)
    (hrule : new.toDottedRule = item.toDottedRule) :
    ∃ known : Item, chart.items[id]? = some known ∧ known.toDottedRule = item.toDottedRule ∧
      new = known.merge item.slots := by
  cases h with
  | @known id' known hknown hsame hincludes =>
    -- Merging children that are there changes nothing.
    obtain rfl := hwf.distinct hknown hnew (hsame.trans hrule.symm)
    obtain rfl := Option.some.inj (hknown.symm.trans hnew)
    exact ⟨known, hknown, hsame, (Item.merge_eq_self_iff.2 hincludes).symm⟩
  | @merged id' known hknown hsame =>
    -- No other item has the dotted rule, so the one looked at is the one that was merged into.
    rcases eq_or_of_mergeAt hknown hnew with ⟨rfl, rfl⟩ | ⟨hne, hold⟩
    · exact ⟨known, hknown, hsame, rfl⟩
    · exact absurd (hwf.distinct hold hknown (hrule.trans hsame.symm)) hne
  | added hfresh =>
    obtain ⟨id', hholds⟩ := hknows
    obtain ⟨known, hknown, hsame⟩ := holds_eq_true_iff.1 hholds
    exact absurd hsame (hfresh id' known hknown)

end Chart

end ChartParser
