/-!
# Slots

Each position of an item's right-hand side has a slot: the numbers of the completed items that matched
it. More than one number in a slot is how ambiguity is recorded.

Recording children tells whether one of them was missing, and so does recording a whole row of slots.
What that comes to is told by two functions that are easier to reason about: the union of two rows, and
the test whether one row includes another.

Main statements: uniting keeps what is there in front (`prefix_union`), it changes nothing exactly when
nothing is missing (`union_eq_self_iff`, `unionRow_eq_self_iff`), and recording a row makes the union and
raises its flag exactly when something is missing (`recordRow_eq`).
-/

namespace ChartParser

/-- The number of an item in its chart, given at its first filing. -/
abbrev ItemId := Nat

/-- The children recorded for one position, each once, in order of insertion. -/
structure Slot where
  ids : List ItemId
  ids_nodup : ids.Nodup
deriving DecidableEq

namespace Slot

/-- The slot without children. -/
def empty : Slot := ⟨[], List.nodup_nil⟩

/-- No child is recorded. -/
def isEmpty (slot : Slot) : Bool := slot.ids.isEmpty

/-- Records a child, at the end unless it is there, and tells whether it was missing. -/
def record (slot : Slot) (id : ItemId) : Slot × Bool :=
  if h : id ∈ slot.ids then (slot, false)
  else (⟨slot.ids ++ [id], List.nodup_append.2 ⟨slot.ids_nodup, by simp, by
    intro a ha b hb hab
    rw [List.mem_singleton] at hb
    exact h (hb ▸ hab ▸ ha)⟩⟩, true)

/-- The slot with a child recorded. -/
def insert (slot : Slot) (id : ItemId) : Slot := (slot.record id).1

theorem record_of_mem {slot : Slot} {id : ItemId} (h : id ∈ slot.ids) :
    slot.record id = (slot, false) := by
  rw [record, dif_pos h]

theorem record_of_not_mem {slot : Slot} {id : ItemId} (h : id ∉ slot.ids) :
    slot.record id = (slot.insert id, true) := by
  rw [insert, record, dif_neg h]

theorem insert_of_mem {slot : Slot} {id : ItemId} (h : id ∈ slot.ids) : slot.insert id = slot := by
  rw [insert, record_of_mem h]

theorem ids_insert_of_not_mem {slot : Slot} {id : ItemId} (h : id ∉ slot.ids) :
    (slot.insert id).ids = slot.ids ++ [id] := by
  rw [insert, record, dif_neg h]

theorem mem_insert {slot : Slot} {id child : ItemId} :
    child ∈ (slot.insert id).ids ↔ child ∈ slot.ids ∨ child = id := by
  by_cases h : id ∈ slot.ids
  · rw [insert_of_mem h]
    exact ⟨Or.inl, fun hor => hor.elim (fun hin => hin) fun he => he ▸ h⟩
  · simp [ids_insert_of_not_mem h]

theorem prefix_insert (slot : Slot) (id : ItemId) : slot.ids <+: (slot.insert id).ids := by
  by_cases h : id ∈ slot.ids
  · simp [insert_of_mem h]
  · rw [ids_insert_of_not_mem h]
    exact List.prefix_append ..

/-- Every child of `other` is recorded. -/
def includes (slot other : Slot) : Bool := other.ids.all fun id => id ∈ slot.ids

/-- Records the children of another slot, in their order. -/
def union (slot other : Slot) : Slot := other.ids.foldl insert slot

theorem mem_foldl_insert {ids : List ItemId} {slot : Slot} {child : ItemId} :
    child ∈ (ids.foldl insert slot).ids ↔ child ∈ slot.ids ∨ child ∈ ids := by
  -- The slot varies, as the rest is inserted into what the first child is recorded in.
  induction ids generalizing slot with
  | nil => simp
  | cons id rest ih => rw [List.foldl_cons, ih, mem_insert, List.mem_cons, or_assoc]

theorem mem_union {slot other : Slot} {child : ItemId} :
    child ∈ (slot.union other).ids ↔ child ∈ slot.ids ∨ child ∈ other.ids :=
  mem_foldl_insert

theorem prefix_foldl_insert (ids : List ItemId) (slot : Slot) :
    slot.ids <+: (ids.foldl insert slot).ids := by
  induction ids generalizing slot with
  | nil => exact List.prefix_rfl
  | cons id rest ih => exact (prefix_insert slot id).trans (ih _)

theorem prefix_union (slot other : Slot) : slot.ids <+: (slot.union other).ids :=
  prefix_foldl_insert other.ids slot

theorem foldl_insert_of_subset {ids : List ItemId} {slot : Slot} (h : ∀ id ∈ ids, id ∈ slot.ids) :
    ids.foldl insert slot = slot := by
  induction ids with
  | nil => rfl
  | cons id rest ih =>
    rw [List.foldl_cons, insert_of_mem (h id List.mem_cons_self)]
    exact ih fun child hchild => h child (List.mem_cons_of_mem _ hchild)

/-- Uniting changes nothing exactly when nothing is missing. -/
theorem union_eq_self_iff {slot other : Slot} :
    slot.union other = slot ↔ slot.includes other = true := by
  simp only [includes, List.all_eq_true, decide_eq_true_eq]
  constructor
  · -- What was united is recorded, and the slot is what it was.
    intro h id hid
    rw [← h]
    exact mem_union.2 (Or.inr hid)
  · exact foldl_insert_of_subset

/-- Records a child, and raises the flag if it was missing. -/
def recordNext (merged : Slot × Bool) (id : ItemId) : Slot × Bool :=
  let (slot, missing) := merged.1.record id
  (slot, merged.2 || missing)

/-- Records children one after the other, and raises the flag if one of them was missing. -/
def recordAll (merged : Slot × Bool) (ids : List ItemId) : Slot × Bool := ids.foldl recordNext merged

/-- The flag goes up exactly when some child was missing at first. A child that comes twice is not missing
the second time, but then the flag is up already. -/
theorem recordAll_eq (slot other : Slot) (changed : Bool) :
    recordAll (slot, changed) other.ids = (slot.union other, changed || ! slot.includes other) := by
  unfold union includes
  generalize other.ids = ids
  induction ids generalizing slot changed with
  | nil => simp [recordAll]
  | cons id rest ih =>
    have hnext : recordAll (slot, changed) (id :: rest) =
        recordAll ((slot.record id).1, changed || (slot.record id).2) rest := rfl
    rw [hnext, ih, List.foldl_cons, List.all_cons]
    -- A missing child raises the flag, whatever comes after it.
    by_cases h : id ∈ slot.ids
    · simp [record_of_mem h, insert_of_mem h, h]
    · simp [record_of_not_mem h, h]

/-! ## Rows of slots -/

/-- Records the children of the second row at the same positions of the first, and raises the flag if one
of them was missing. Positions that one of the rows lacks are passed over. -/
def recordRow (changed : Bool) : List Slot → List Slot → List Slot × Bool
  | slot :: slots, other :: others =>
    let (slot, changed) := recordAll (slot, changed) other.ids
    let (slots, changed) := recordRow changed slots others
    (slot :: slots, changed)
  | slots, [] => (slots, changed)
  | [], _ => ([], changed)

/-- Unites two rows position by position. What the first row lacks stays out, what the second row
lacks stays as it is. -/
def unionRow : List Slot → List Slot → List Slot
  | slot :: slots, other :: others => slot.union other :: unionRow slots others
  | slots, [] => slots
  | [], _ => []

/-- Every child of the second row is recorded at the same position of the first, as far as both go. -/
def rowIncludes : List Slot → List Slot → Bool
  | slot :: slots, other :: others => slot.includes other && rowIncludes slots others
  | _, [] => true
  | [], _ => true

@[simp] theorem length_unionRow (slots others : List Slot) :
    (unionRow slots others).length = slots.length := by
  fun_induction unionRow slots others <;> simp_all

/-- Uniting rows changes nothing exactly when nothing is missing. -/
theorem unionRow_eq_self_iff {slots others : List Slot} :
    unionRow slots others = slots ↔ rowIncludes slots others = true := by
  fun_induction unionRow slots others with
  | case1 slot slots other others ih => simp [rowIncludes, union_eq_self_iff, ih]
  | case2 slots => cases slots <;> simp [rowIncludes]
  | case3 => cases ‹List Slot› <;> simp [rowIncludes]

/-- Recording a row makes the union, and the flag goes up exactly when something is missing. -/
theorem recordRow_eq (changed : Bool) (slots others : List Slot) :
    recordRow changed slots others =
      (unionRow slots others, changed || ! rowIncludes slots others) := by
  fun_induction recordRow changed slots others with
  | case1 changed slot slots other others slot' changed' hslot slots' changed'' hrest ih =>
    rw [recordAll_eq, Prod.mk.injEq] at hslot
    obtain ⟨rfl, rfl⟩ := hslot
    rw [hrest, Prod.mk.injEq] at ih
    obtain ⟨rfl, rfl⟩ := ih
    simp [unionRow, rowIncludes, Bool.or_assoc]
  | case2 changed slots => cases slots <;> simp [unionRow, rowIncludes]
  | case3 changed others => cases others <;> simp [unionRow, rowIncludes]

end Slot

end ChartParser
