import Mathlib.Data.List.Lex
import ChartParser.Proofs.Tree.Chains

/-!
# Rows by the places chosen

A row of the product is told by a place in each list, and two rows count as two if their places differ,
even where lists repeat a tree. The product comes in the lexicographic order of the places. The search for
chains prunes this order without disturbing it: what it adds are the rows of the product without a gap,
each as often as there are places for it, in the order of the places.

## Main results

- `pairwise_places`, `mem_places_iff`: the places of the product, in strictly increasing order
- `filterMap_rowAt?_places`: the product has the row at each of these places
- `addChains_exact`: what the search adds
-/

namespace ChartParser.ParseTree

variable {choice row : List ParseTree} {rest choices : List (List ParseTree)}
variable {k : Nat} {pick : List Nat}

/-! ## Places -/

/-- The row that takes the tree at the given place of each list, if each list has that place. -/
def rowAt? : List (List ParseTree) → List Nat → Option (List ParseTree)
  | [], [] => some []
  | choice :: rest, k :: pick => (choice[k]?).bind fun t => (rowAt? rest pick).map (t :: ·)
  | _, _ => none

/-- All ways to choose a place in each list, the first list varying slowest. -/
def places : List (List ParseTree) → List (List Nat)
  | [] => [[]]
  | choice :: rest => (List.range choice.length).flatMap fun k => (places rest).map (k :: ·)

theorem rowAt?_cons_cons_eq_some_iff :
    rowAt? (choice :: rest) (k :: pick) = some row ↔
      ∃ t tail, choice[k]? = some t ∧ rowAt? rest pick = some tail ∧ t :: tail = row := by
  simp only [rowAt?, Option.bind_eq_some_iff, Option.map_eq_some_iff]
  constructor
  · rintro ⟨t, ht, tail, htail, hrow⟩
    exact ⟨t, tail, ht, htail, hrow⟩
  · rintro ⟨t, tail, ht, htail, hrow⟩
    exact ⟨t, ht, tail, htail, hrow⟩

/-- The places chosen are those that each list has. -/
theorem mem_places_iff : pick ∈ places choices ↔ ∃ row, rowAt? choices pick = some row := by
  -- The first list decides on the first place, the other lists on the other places.
  induction choices generalizing pick with
  | nil => cases pick <;> simp [places, rowAt?]
  | cons choice rest ih =>
    simp only [places, List.mem_flatMap, List.mem_range, List.mem_map, ih]
    constructor
    · rintro ⟨k, hk, pick, ⟨tail, htail⟩, rfl⟩
      have ht : choice[k]? = some choice[k] := List.getElem?_eq_getElem hk
      exact ⟨_, rowAt?_cons_cons_eq_some_iff.2 ⟨_, tail, ht, htail, rfl⟩⟩
    · rintro ⟨row, hrow⟩
      cases pick with
      | nil => simp [rowAt?] at hrow
      | cons k pick =>
        obtain ⟨t, tail, ht, htail, -⟩ := rowAt?_cons_cons_eq_some_iff.1 hrow
        exact ⟨k, (List.getElem?_eq_some_iff.1 ht).1, pick, ⟨tail, htail⟩, rfl⟩

/-- The places come in lexicographic order, each once. -/
theorem pairwise_places (choices : List (List ParseTree)) : (places choices).Pairwise (· < ·) := by
  induction choices with
  | nil => exact List.pairwise_singleton _ _
  | cons choice rest ih =>
    rw [places, List.pairwise_flatMap]
    constructor
    · -- With the same first place, the others decide.
      intro k _
      exact ih.map _ fun _ _ hlt => List.cons_lt_cons_iff.2 (Or.inr ⟨rfl, hlt⟩)
    · -- Otherwise the first place does.
      refine List.pairwise_lt_range.imp fun hlt pick hpick pick' hpick' => ?_
      obtain ⟨_, _, rfl⟩ := List.mem_map.1 hpick
      obtain ⟨_, _, rfl⟩ := List.mem_map.1 hpick'
      exact List.cons_lt_cons_iff.2 (Or.inl hlt)

theorem places_cons (choice : List ParseTree) (rest : List (List ParseTree)) :
    places (choice :: rest) = choice.zipIdx.flatMap fun entry => (places rest).map (entry.2 :: ·) := by
  rw [places, List.range_eq_range', ← List.zipIdx_map_snd, List.flatMap_map]

/-- The product has the row at each place. -/
theorem filterMap_rowAt?_places (choices : List (List ParseTree)) :
    (places choices).filterMap (rowAt? choices) = rows choices := by
  induction choices with
  | nil => rfl
  | cons choice rest ih =>
    -- Each tree of the first list goes with its place, which keeps repeated trees apart.
    have hrows : rows (choice :: rest) =
        choice.zipIdx.flatMap fun entry => (rows rest).map (entry.1 :: ·) := by
      rw [← List.flatMap_map Prod.fst fun t => (rows rest).map (t :: ·), List.zipIdx_map_fst, rows]
    rw [hrows, places_cons, List.filterMap_flatMap]
    refine List.flatMap_congr fun entry hentry => ?_
    have ht : choice[entry.2]? = some entry.1 := List.mem_zipIdx_iff_getElem?.1 hentry
    rw [List.filterMap_map, ← ih, List.map_filterMap]
    congr 1
    funext pick
    simp [rowAt?, ht]

/-! ## What the search adds -/

/-- A chain has no gap between a tree and the next one. -/
theorem isChain_eq_true_iff :
    isChain row = true ↔ row.IsChain fun t next => t.right = next.left := by
  induction row with
  | nil => simp [isChain]
  | cons t row ih =>
    cases row with
    | nil => simp [isChain]
    | cons next row => rw [isChain, Bool.and_eq_true, beq_iff_eq, ih, List.isChain_cons_cons]

/-- The search for chains that starts with nothing chosen leaves in front what was found before, and adds
the rows of the full product in which each tree starts where the one before it ends. The product is that
of all places in the lists, in lexicographic order, each once. Of no lists, it adds the empty row. -/
theorem addChains_exact (choices : List (List ParseTree)) (found : Array (List ParseTree)) :
    (addChains choices [] found).toList =
        found.toList ++ ((places choices).filterMap (rowAt? choices)).filter isChain ∧
      (places choices).Pairwise (· < ·) ∧
      (∀ pick, pick ∈ places choices ↔ ∃ row, rowAt? choices pick = some row) ∧
      (∀ row, isChain row = true ↔ row.IsChain fun t next => t.right = next.left) ∧
      addChains [] [] found = found.push [] := by
  -- With nothing chosen before, to continue without a gap is to be a chain.
  refine ⟨?_, pairwise_places choices, fun _ => mem_places_iff, fun _ => isChain_eq_true_iff, rfl⟩
  have hempty : continues [] = isChain := funext continues_nil_left
  rw [toList_addChains, filterMap_rowAt?_places, hempty]
  simp

end ChartParser.ParseTree
