import ChartParser.Grammar.Derivation

/-!
# Parts of an alternative

What an item has matched is a part of its alternative: the symbols between two positions. A part that
is cut somewhere derives a stretch exactly if the stretch can be cut accordingly, and epsilon markers at
the end of a part derive nothing.
-/

namespace ChartParser

/-- Two stretches of a list that follow each other make up one. -/
theorem take_drop_append {α : Type} (l : List α) {first middle last : Nat} (h : first ≤ middle)
    (h' : middle ≤ last) :
    (l.take middle).drop first ++ (l.take last).drop middle = (l.take last).drop first := by
  -- Both stretches are taken from the list up to the last position, which is cut in the middle.
  have hmiddle : l.take middle = (l.take last).take middle := by
    rw [List.take_take, Nat.min_eq_left h']
  have hdrop : (l.take last).drop middle = ((l.take last).drop first).drop (middle - first) := by
    rw [List.drop_drop, Nat.add_sub_cancel' h]
  rw [hmiddle, List.drop_take, hdrop, List.take_append_drop]

namespace Alternative

/-- The symbols from position `first` on up to position `last`, the latter not included. -/
def part (rhs : Alternative) (first last : Nat) : Alternative := (rhs.take last).drop first

@[simp] theorem part_self (rhs : Alternative) (k : Nat) : rhs.part k k = [] := by
  rw [part, List.drop_eq_nil_iff]
  exact List.length_take_le ..

@[simp] theorem part_zero_length (rhs : Alternative) : rhs.part 0 rhs.length = rhs := by
  simp [part]

theorem part_append (rhs : Alternative) {first middle last : Nat} (h : first ≤ middle)
    (h' : middle ≤ last) : rhs.part first middle ++ rhs.part middle last = rhs.part first last :=
  take_drop_append rhs h h'

theorem part_succ {rhs : Alternative} {k : Nat} {s : Symbol} (h : rhs[k]? = some s) :
    rhs.part k (k + 1) = [s] := by
  obtain ⟨hlt, hs⟩ := List.getElem?_eq_some_iff.1 h
  rw [part, List.drop_take, List.drop_eq_getElem_cons hlt, hs, Nat.add_sub_cancel_left]
  rfl

theorem mem_part {rhs : Alternative} {first last : Nat} {s : Symbol} (h : s ∈ rhs.part first last) :
    ∃ k, first ≤ k ∧ k < last ∧ rhs[k]? = some s := by
  obtain ⟨k, hk⟩ := List.mem_iff_getElem?.1 h
  rw [part, List.getElem?_drop, List.getElem?_take] at hk
  split at hk
  · exact ⟨first + k, Nat.le_add_right .., ‹_›, hk⟩
  · simp at hk

/-- The symbol at a position, with what stands before and after it. -/
theorem eq_part_append_cons {rhs : Alternative} {k : Nat} {s : Symbol} (h : rhs[k]? = some s) :
    rhs = rhs.part 0 k ++ s :: rhs.part (k + 1) rhs.length := by
  have hlt := (List.getElem?_eq_some_iff.1 h).1
  calc rhs = rhs.part 0 k ++ (rhs.part k (k + 1) ++ rhs.part (k + 1) rhs.length) := by
        rw [part_append rhs (Nat.le_succ k) hlt, part_append rhs (Nat.zero_le k) (Nat.le_of_lt hlt),
          part_zero_length]
    _ = rhs.part 0 k ++ s :: rhs.part (k + 1) rhs.length := by rw [part_succ h]; rfl

end Alternative

namespace Grammar

variable {g : Grammar} {tokens : List Token}

/-! ## Derivations of parts -/

theorem derives_nil_iff {i j : Nat} : g.Derives tokens [] i j ↔ i = j := by
  constructor
  · intro h
    cases h
    rfl
  · rintro rfl
    exact .nil i

theorem derives_cons_iff {s : Symbol} {rest : List Symbol} {i j : Nat} :
    g.Derives tokens (s :: rest) i j ↔ ∃ k, g.Derives tokens [s] i k ∧ g.Derives tokens rest k j := by
  rw [← List.singleton_append, derives_append_iff]

theorem derives_marker_iff {i j : Nat} : g.Derives tokens [g.epsilon] i j ↔ i = j := by
  constructor
  · intro h
    cases h with
    | marker hrest => exact derives_nil_iff.1 hrest
    | terminal hne => exact absurd rfl hne
    | rule hne => exact absurd rfl hne
  · rintro rfl
    exact .marker (.nil i)

/-- Markers derive nothing. -/
theorem derives_markers_iff {symbols : List Symbol} (h : ∀ s ∈ symbols, s = g.epsilon) {i j : Nat} :
    g.Derives tokens symbols i j ↔ i = j := by
  induction symbols generalizing i with
  | nil => exact derives_nil_iff
  | cons s rest ih =>
    obtain rfl := h s List.mem_cons_self
    have hrest : ∀ i, g.Derives tokens rest i j ↔ i = j := fun i =>
      ih fun s hs => h s (List.mem_cons_of_mem _ hs)
    -- The first marker derives nothing, and neither do the others.
    rw [derives_cons_iff]
    simp only [derives_marker_iff, hrest, exists_eq_left']

theorem derives_part_iff {rhs : Alternative} {first middle last : Nat} (h : first ≤ middle)
    (h' : middle ≤ last) {i j : Nat} :
    g.Derives tokens (rhs.part first last) i j ↔
      ∃ k, g.Derives tokens (rhs.part first middle) i k ∧
        g.Derives tokens (rhs.part middle last) k j := by
  rw [← rhs.part_append h h', derives_append_iff]

/-- A symbol and the part behind it. -/
theorem derives_part_cons_iff {rhs : Alternative} {k last : Nat} {s : Symbol}
    (hs : rhs[k]? = some s) (hlast : k < last) {i j : Nat} :
    g.Derives tokens (rhs.part k last) i j ↔
      ∃ m, g.Derives tokens [s] i m ∧ g.Derives tokens (rhs.part (k + 1) last) m j := by
  rw [derives_part_iff (Nat.le_succ k) hlast, Alternative.part_succ hs]

/-- A symbol and the part before it. -/
theorem derives_part_snoc_iff {rhs : Alternative} {first k : Nat} {s : Symbol}
    (hs : rhs[k]? = some s) (hfirst : first ≤ k) {i j : Nat} :
    g.Derives tokens (rhs.part first (k + 1)) i j ↔
      ∃ m, g.Derives tokens (rhs.part first k) i m ∧ g.Derives tokens [s] m j := by
  rw [derives_part_iff hfirst (Nat.le_succ k), Alternative.part_succ hs]

/-- From the first position up to the last, the latter not included, there are only markers. -/
def OnlyMarkers (g : Grammar) (rhs : Alternative) (first last : Nat) : Prop :=
  ∀ k s, first ≤ k → k < last → rhs[k]? = some s → s = g.epsilon

theorem OnlyMarkers.derives_part_iff {rhs : Alternative} {first last : Nat}
    (h : g.OnlyMarkers rhs first last) {i j : Nat} :
    g.Derives tokens (rhs.part first last) i j ↔ i = j := by
  refine derives_markers_iff fun s hs => ?_
  obtain ⟨k, hle, hlt, hk⟩ := Alternative.mem_part hs
  exact h k s hle hlt hk

/-- The markers that are stepped over derive nothing. -/
theorem derives_part_skipMarkers_iff {rhs : Alternative} {first dot : Nat} (h : first ≤ dot)
    {i j : Nat} :
    g.Derives tokens (rhs.part first (g.skipMarkers rhs dot)) i j ↔
      g.Derives tokens (rhs.part first dot) i j := by
  -- Stepping adds only positions with markers to the part.
  have hmarkers : g.OnlyMarkers rhs dot (g.skipMarkers rhs dot) := fun _ _ hle hlt hk =>
    g.eq_epsilon_of_lt_skipMarkers hle hlt hk
  rw [derives_part_iff h (g.le_skipMarkers rhs dot)]
  simp only [hmarkers.derives_part_iff, exists_eq_right]

/-! ## One symbol -/

/-- A symbol with rules derives what its alternatives derive. -/
theorem derives_nonterminal {s : Symbol} {alternatives : List Alternative} {rhs : Alternative}
    {i j : Nat} (hne : s ≠ g.epsilon) (halternatives : g.alternatives? s = some alternatives)
    (hrhs : rhs ∈ alternatives) (h : g.Derives tokens rhs i j) : g.Derives tokens [s] i j :=
  .rule hne halternatives hrhs h (.nil j)

/-- A symbol without rules derives a token that satisfies it. -/
theorem derives_terminal {s : Symbol} {word : Token} {i : Nat} (hnone : g.alternatives? s = none)
    (hword : tokens[i]? = some word) (hs : s ∈ g.terminalsFor word) :
    g.Derives tokens [s] i (i + 1) := by
  refine .terminal ?_ hnone hword hs (.nil (i + 1))
  -- No token satisfies the marker.
  rintro rfl
  exact g.epsilon_not_mem_terminalsFor word hs

/-! ## Stepping over markers -/

theorem skipMarkers_of_ne {rhs : Alternative} {dot : Nat} (h : rhs[dot]? ≠ some g.epsilon) :
    g.skipMarkers rhs dot = dot := by
  -- Had a step been made, a marker would stand at the dot.
  rcases Nat.eq_or_lt_of_le (g.le_skipMarkers rhs dot) with heq | hlt
  · exact heq.symm
  · cases hs : rhs[dot]? with
    | none => exact g.skipMarkers_of_length_le (List.getElem?_eq_none_iff.1 hs)
    | some s => exact absurd (g.eq_epsilon_of_lt_skipMarkers (Nat.le_refl _) hlt hs ▸ hs) h

theorem skipMarkers_of_marker {rhs : Alternative} {dot : Nat} (h : rhs[dot]? = some g.epsilon) :
    g.skipMarkers rhs dot = g.skipMarkers rhs (dot + 1) := by
  obtain ⟨hlt, hs⟩ := List.getElem?_eq_some_iff.1 h
  rw [skipMarkers, skipMarkers, List.drop_eq_getElem_cons hlt, hs, List.takeWhile_cons_of_pos
    (isEpsilon_eq_true_iff.2 rfl), List.length_cons]
  omega

end Grammar

end ChartParser
