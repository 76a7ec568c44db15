import ChartParser.Chart.Basic

/-!
# Links between items

An item is linked to the children in its slots. Following links from item to item is reachability in the
chart, whether or not the numbers on the way are those of items that it holds. Nothing gets out of reach
if no number is to be met twice on the way: each number of a way can be left for the last time.
-/

namespace ChartParser.Chart

/-- Some slot of the item with the first number holds the second. -/
def IsChild (chart : Chart) (id child : ItemId) : Prop :=
  ∃ item, chart.items[id]? = some item ∧ ∃ slot ∈ item.slots, child ∈ slot.ids

/-- The second number is reached from the first along links. -/
inductive Reaches (chart : Chart) : ItemId → ItemId → Prop
  | refl (id : ItemId) : Reaches chart id id
  | step {id child last : ItemId} :
      chart.IsChild id child → Reaches chart child last → Reaches chart id last

/-- The second number is reached from the first along links, and no number on the way is on the path. -/
inductive ReachesOff (chart : Chart) (path : List ItemId) : ItemId → ItemId → Prop
  | refl {id : ItemId} : id ∉ path → ReachesOff chart path id id
  | step {id child last : ItemId} :
      id ∉ path → chart.IsChild id child → ReachesOff chart path child last →
        ReachesOff chart path id last

section ReachesOff

variable {chart : Chart} {path : List ItemId} {id last : ItemId}

theorem Reaches.off (h : chart.Reaches id last) : chart.ReachesOff [] id last := by
  induction h with
  | refl id => exact .refl List.not_mem_nil
  | step hchild _ ih => exact .step List.not_mem_nil hchild ih

theorem ReachesOff.not_mem (h : chart.ReachesOff path id last) : id ∉ path := by
  cases h with
  | refl hid => exact hid
  | step hid _ _ => exact hid

/-- A way leads past a number, or it ends there, or it leaves that number for the last time. -/
theorem ReachesOff.past_or (h : chart.ReachesOff path id last) (via : ItemId) :
    chart.ReachesOff (via :: path) id last ∨ last = via ∨
      ∃ child, chart.IsChild via child ∧ chart.ReachesOff (via :: path) child last := by
  induction h with
  | @refl id hid =>
    by_cases hvia : id = via
    · exact Or.inr (Or.inl hvia)
    · exact Or.inl (.refl (List.not_mem_cons_of_ne_of_not_mem hvia hid))
  | @step id child last hid hchild _ ih =>
    rcases ih with hpast | hend
    · by_cases hvia : id = via
      · subst hvia
        exact Or.inr (Or.inr ⟨child, hchild, hpast⟩)
      · exact Or.inl (.step (List.not_mem_cons_of_ne_of_not_mem hvia hid) hchild hpast)
    · exact Or.inr hend

/-- A way that goes on leaves its first number for the last time somewhere. -/
theorem ReachesOff.eq_or_step (h : chart.ReachesOff path id last) :
    last = id ∨ ∃ child, chart.IsChild id child ∧ chart.ReachesOff (id :: path) child last := by
  rcases h.past_or id with hpast | hend
  · exact absurd List.mem_cons_self hpast.not_mem
  · exact hend

end ReachesOff

end ChartParser.Chart
