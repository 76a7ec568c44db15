import ChartParser.Tree.Chain
import Mathlib.Data.List.Forall2
import Mathlib.Data.List.Nodup

/-!
# The search for chains

The search adds one row after the other to those found so far and cuts a row off as soon as a tree does
not start where the one before it ends. What it adds is the product of the lists in lexicographic order,
less the rows that have a gap somewhere.
-/

namespace ChartParser.ParseTree

/-! ## Rows -/

/-- A row takes one tree from each list. -/
theorem mem_rows_iff {choices : List (List ParseTree)} {row : List ParseTree} :
    row ∈ rows choices ↔ List.Forall₂ (fun choice t => t ∈ choice) choices row := by
  induction choices generalizing row with
  | nil => simp [rows]
  | cons choice rest ih =>
    simp only [rows, List.mem_flatMap, List.mem_map, ih, List.forall₂_cons_left_iff]
    constructor
    · rintro ⟨t, ht, row, hrow, rfl⟩
      exact ⟨t, row, ht, hrow, rfl⟩
    · rintro ⟨t, row, ht, hrow, rfl⟩
      exact ⟨t, ht, row, hrow, rfl⟩

/-- Rows of lists that repeat nothing are all different. -/
theorem nodup_rows {choices : List (List ParseTree)} (h : ∀ choice ∈ choices, choice.Nodup) :
    (rows choices).Nodup := by
  induction choices with
  | nil => exact List.nodup_singleton []
  | cons choice rest ih =>
    obtain ⟨hchoice, hrest⟩ := List.forall_mem_cons.1 h
    rw [rows, List.nodup_flatMap]
    refine ⟨fun t _ => (ih hrest).map List.cons_injective, hchoice.imp fun hne row hrow hrow' => ?_⟩
    -- Rows that start with different trees are different.
    obtain ⟨_, _, rfl⟩ := List.mem_map.1 hrow
    obtain ⟨_, _, hsame⟩ := List.mem_map.1 hrow'
    exact hne (List.cons.inj hsame).1.symm

/-! ## Going on from the trees chosen so far -/

/-- The row goes on from the trees chosen so far, the last of them first, without a gap. -/
def continues (chosen : List ParseTree) (row : List ParseTree) : Bool :=
  isChain (chosen.head?.toList ++ row)

theorem continues_nil_left (row : List ParseTree) : continues [] row = isChain row := rfl

theorem continues_nil_right (chosen : List ParseTree) : continues chosen [] = true := by
  cases chosen <;> rfl

/-- A row goes on if its first tree does and the rest goes on from that one. -/
theorem continues_cons (chosen : List ParseTree) (t : ParseTree) (row : List ParseTree) :
    continues chosen (t :: row) = (follows chosen t && continues (t :: chosen) row) := by
  cases chosen <;> rfl

/-- Of the rows with one first tree, those go on whose rest goes on from that tree, and none do if the
tree itself does not. -/
theorem filter_continues_map_cons (chosen : List ParseTree) (t : ParseTree)
    (rests : List (List ParseTree)) :
    (rests.map (t :: ·)).filter (continues chosen) =
      if follows chosen t then (rests.filter (continues (t :: chosen))).map (t :: ·) else [] := by
  rw [List.filter_map]
  split
  · rename_i hfollows
    congr 2
    funext row
    rw [Function.comp_apply, continues_cons, hfollows, Bool.true_and]
  · rename_i hfollows
    rw [List.map_eq_nil_iff, List.filter_eq_nil_iff]
    intro row _
    rw [Function.comp_apply, continues_cons, Bool.eq_false_iff.2 hfollows, Bool.false_and]
    exact Bool.false_ne_true

/-! ## The search -/

/-- Behind the rows found before, the search adds those that go on from the trees chosen so far, in
lexicographic order. -/
theorem toList_addChains (choices : List (List ParseTree)) (chosen : List ParseTree)
    (found : Array (List ParseTree)) :
    (addChains choices chosen found).toList =
      found.toList ++ ((rows choices).filter (continues chosen)).map (chosen.reverse ++ ·) := by
  induction choices generalizing chosen found with
  | nil => simp [addChains, rows, continues_nil_right]
  | cons choice rest ih =>
    rw [addChains, rows]
    induction choice generalizing found with
    | nil => simp
    | cons t choice ihchoice =>
      -- The rows through the first tree of the list are found before those through the others.
      rw [List.foldl_cons, ihchoice, List.flatMap_cons, List.filter_append,
        filter_continues_map_cons, List.map_append, ← List.append_assoc]
      congr 1
      split
      · -- The tree follows, so the search goes on behind it.
        rw [ih, List.map_map]
        congr 2
        funext row
        simp
      · simp

/-- The rows found are those of the product that have no gap. -/
theorem chains_eq_filter_rows (choices : List (List ParseTree)) :
    chains choices = (rows choices).filter isChain := by
  have hempty : continues [] = isChain := funext continues_nil_left
  simp [chains, toList_addChains, hempty]

theorem nodup_chains {choices : List (List ParseTree)} (h : ∀ choice ∈ choices, choice.Nodup) :
    (chains choices).Nodup := by
  rw [chains_eq_filter_rows]
  exact (nodup_rows h).filter _

theorem mem_chains_iff {choices : List (List ParseTree)} {row : List ParseTree} :
    row ∈ chains choices ↔
      List.Forall₂ (fun choice t => t ∈ choice) choices row ∧ isChain row = true := by
  rw [chains_eq_filter_rows, List.mem_filter, mem_rows_iff]

theorem exists_of_mem_chains {choices : List (List ParseTree)} {row : List ParseTree}
    (h : row ∈ chains choices) {t : ParseTree} (ht : t ∈ row) : ∃ choice ∈ choices, t ∈ choice := by
  have hrow := (mem_chains_iff.1 h).1
  clear h
  induction hrow with
  | nil => exact absurd ht List.not_mem_nil
  | @cons choice s choices row hfirst _ ih =>
    rcases List.mem_cons.1 ht with rfl | ht
    · exact ⟨choice, List.mem_cons_self, hfirst⟩
    · obtain ⟨choice', hchoice', hmem⟩ := ih ht
      exact ⟨choice', List.mem_cons_of_mem choice hchoice', hmem⟩

end ChartParser.ParseTree
