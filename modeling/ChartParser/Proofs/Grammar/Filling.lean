import ChartParser.Grammar.Markers
import ChartParser.Proofs.Grammar.Parts
import Mathlib.Data.List.Forall2

/-!
# Filling an alternative

What stands below a symbol, be it a row of trees or of derivations, leaves the epsilon markers out. A
row fills an alternative if it has one entry for each of the other symbols, in order, where each entry
may be asked about the position that it fills. Rows are put together and taken apart position by
position.
-/

namespace ChartParser.Grammar

variable {α β : Type} {g : Grammar} {rhs : Alternative} {k : Nat} {row : List α}

/-- From position `k` on, the row has one entry for each symbol of the alternative that is not a
marker, and each entry has the given relation to the position that it fills. -/
inductive Fills (g : Grammar) (rhs : Alternative) (R : Nat → α → Prop) : Nat → List α → Prop
  | done {k : Nat} : rhs.length ≤ k → Fills g rhs R k []
  | marker {k : Nat} {row : List α} :
      rhs[k]? = some g.epsilon → Fills g rhs R (k + 1) row → Fills g rhs R k row
  | solid {k : Nat} {s : Symbol} {a : α} {row : List α} :
      rhs[k]? = some s → s ≠ g.epsilon → R k a → Fills g rhs R (k + 1) row →
      Fills g rhs R k (a :: row)

/-- The positions of an alternative are gone through from the left. -/
theorem position_induct {motive : Nat → Prop} (g : Grammar) (rhs : Alternative)
    (done : ∀ k, rhs.length ≤ k → motive k)
    (marker : ∀ k, rhs[k]? = some g.epsilon → motive (k + 1) → motive k)
    (solid : ∀ k s, rhs[k]? = some s → s ≠ g.epsilon → motive (k + 1) → motive k) (k : Nat) :
    motive k := by
  -- The induction is on the number of positions that are left.
  induction hn : rhs.length - k generalizing k with
  | zero => exact done k (by omega)
  | succ n ih =>
    have hlt : k < rhs.length := by omega
    have hs : rhs[k]? = some rhs[k] := List.getElem?_eq_getElem hlt
    have hnext := ih (k + 1) (by omega)
    by_cases he : rhs[k] = g.epsilon
    · exact marker k (he ▸ hs) hnext
    · exact solid k _ hs he hnext

/-! ## Taking rows apart -/

variable {R : Nat → α → Prop}

theorem fills_done_iff (h : rhs.length ≤ k) : Fills g rhs R k row ↔ row = [] := by
  have hnone : rhs[k]? = none := List.getElem?_eq_none_iff.2 h
  constructor
  · intro hfills
    cases hfills with
    | done => rfl
    | marker hs => simp [hnone] at hs
    | solid hs => simp [hnone] at hs
  · rintro rfl
    exact .done h

theorem fills_marker_iff (h : rhs[k]? = some g.epsilon) :
    Fills g rhs R k row ↔ Fills g rhs R (k + 1) row := by
  constructor
  · intro hfills
    cases hfills with
    | done hle => exact absurd (List.getElem?_eq_some_iff.1 h).1 (Nat.not_lt.2 hle)
    | marker _ hrest => exact hrest
    | solid hs hne => exact absurd (Option.some.inj (hs.symm.trans h)) hne
  · exact .marker h

theorem fills_solid_iff {s : Symbol} (hs : rhs[k]? = some s) (hne : s ≠ g.epsilon) :
    Fills g rhs R k row ↔ ∃ a rest, R k a ∧ Fills g rhs R (k + 1) rest ∧ row = a :: rest := by
  constructor
  · intro hfills
    cases hfills with
    | done hle => exact absurd (List.getElem?_eq_some_iff.1 hs).1 (Nat.not_lt.2 hle)
    | marker he => exact absurd (Option.some.inj (hs.symm.trans he)) hne
    | solid _ _ ha hrest => exact ⟨_, _, ha, hrest, rfl⟩
  · rintro ⟨a, rest, ha, hrest, rfl⟩
    exact .solid hs hne ha hrest

/-- Nothing fills the rest of an alternative exactly if only markers are left. -/
theorem fills_nil_iff : Fills g rhs R k [] ↔ g.OnlyMarkers rhs k rhs.length := by
  induction k using position_induct g rhs with
  | done k hle =>
    rw [fills_done_iff hle]
    exact ⟨fun _ j s hj hlt _ => absurd hlt (by omega), fun _ => rfl⟩
  | marker k hmarker ih =>
    rw [fills_marker_iff hmarker, ih]
    constructor
    · intro h j s hle hlt hs
      rcases Nat.eq_or_lt_of_le hle with rfl | hlt'
      · exact Option.some.inj (hs.symm.trans hmarker)
      · exact h j s hlt' hlt hs
    · exact fun h j s hle => h j s (by omega)
  | solid k s hs hne =>
    -- A symbol that is not a marker needs an entry, and it is no marker either.
    rw [fills_solid_iff hs hne]
    constructor
    · rintro ⟨a, rest, _, _, hnil⟩
      cases hnil
    · exact fun h => absurd (h k s (Nat.le_refl k) (List.getElem?_eq_some_iff.1 hs).1 hs) hne

/-- Before the first entry there are only markers. -/
theorem Fills.exists_first {a : α} (h : Fills g rhs R k (a :: row)) :
    ∃ j, R j a ∧ g.OnlyMarkers rhs k j := by
  generalize hrow : a :: row = entries at h
  induction h with
  | done => cases hrow
  | marker hmarker _ ih =>
    obtain ⟨j, hj, hmarkers⟩ := ih hrow
    -- The position itself carries a marker, and so do those up to the first entry.
    refine ⟨j, hj, fun m s hle hlt hs => ?_⟩
    rcases Nat.eq_or_lt_of_le hle with rfl | hlt'
    · exact Option.some.inj (hs.symm.trans hmarker)
    · exact hmarkers m s hlt' hlt hs
  | solid _ _ hb =>
    cases hrow
    exact ⟨_, hb, fun m s hle hlt _ => absurd hlt (by omega)⟩

/-! ## Putting rows together -/

theorem Fills.imp {R' : Nat → α → Prop} (h : Fills g rhs R k row)
    (himp : ∀ k s a, rhs[k]? = some s → s ≠ g.epsilon → R k a → R' k a) : Fills g rhs R' k row := by
  induction h with
  | done hle => exact .done hle
  | marker hmarker _ ih => exact .marker hmarker ih
  | solid hs hne ha _ ih => exact .solid hs hne (himp _ _ _ hs hne ha) ih

/-- A row whose entries come from others can be taken from a row of those. -/
theorem Fills.exists_map {R' : Nat → β → Prop} {f : β → α} (h : Fills g rhs R k row)
    (hfrom : ∀ k s a, rhs[k]? = some s → s ≠ g.epsilon → R k a → ∃ b, f b = a ∧ R' k b) :
    ∃ others, others.map f = row ∧ Fills g rhs R' k others := by
  induction h with
  | done hle => exact ⟨[], rfl, .done hle⟩
  | marker hmarker _ ih =>
    obtain ⟨others, hmap, hothers⟩ := ih
    exact ⟨others, hmap, .marker hmarker hothers⟩
  | solid hs hne ha _ ih =>
    obtain ⟨b, hb, hR⟩ := hfrom _ _ _ hs hne ha
    obtain ⟨others, hmap, hothers⟩ := ih
    exact ⟨b :: others, by rw [List.map_cons, hb, hmap], .solid hs hne hR hothers⟩

theorem fills_map_iff {f : β → α} {others : List β} :
    Fills g rhs R k (others.map f) ↔ Fills g rhs (fun k b => R k (f b)) k others := by
  induction k using position_induct g rhs generalizing others with
  | done k hle => rw [fills_done_iff hle, fills_done_iff hle, List.map_eq_nil_iff]
  | marker k hmarker ih => rw [fills_marker_iff hmarker, fills_marker_iff hmarker, ih]
  | solid k s hs hne ih =>
    rw [fills_solid_iff hs hne, fills_solid_iff hs hne]
    cases others with
    | nil => simp
    | cons b others =>
      simp only [List.map_cons, List.cons.injEq]
      constructor
      · rintro ⟨a, rest, ha, hrest, rfl, rfl⟩
        exact ⟨b, others, ha, ih.1 hrest, rfl, rfl⟩
      · rintro ⟨_, _, hb, hrest, rfl, rfl⟩
        exact ⟨f b, others.map f, hb, ih.2 hrest, rfl, rfl⟩

theorem Fills.and {R' : Nat → α → Prop} (h : Fills g rhs R k row) (h' : Fills g rhs R' k row) :
    Fills g rhs (fun k a => R k a ∧ R' k a) k row := by
  induction h with
  | done hle => exact .done hle
  | marker hmarker _ ih => exact .marker hmarker (ih ((fills_marker_iff hmarker).1 h'))
  | solid hs hne ha _ ih =>
    -- Both rows are one, so their first entries are.
    obtain ⟨_, _, ha', hrest', heq⟩ := (fills_solid_iff hs hne).1 h'
    cases heq
    exact .solid hs hne ⟨ha, ha'⟩ (ih hrest')

/-- Each entry may be assumed to be one of the row. -/
theorem Fills.and_mem (h : Fills g rhs R k row) : Fills g rhs (fun k a => R k a ∧ a ∈ row) k row := by
  induction h with
  | done hle => exact .done hle
  | marker hmarker _ ih => exact .marker hmarker ih
  | solid hs hne ha _ ih =>
    exact .solid hs hne ⟨ha, List.mem_cons_self⟩ <|
      ih.imp fun _ _ _ _ _ hb => ⟨hb.1, List.mem_cons_of_mem _ hb.2⟩

/-- Every entry fills some position. -/
theorem Fills.exists_of_mem {a : α} (h : Fills g rhs R k row) (ha : a ∈ row) : ∃ j, R j a := by
  induction h with
  | done => exact absurd ha List.not_mem_nil
  | marker _ _ ih => exact ih ha
  | solid _ _ hb _ ih =>
    rcases List.mem_cons.1 ha with rfl | ha
    · exact ⟨_, hb⟩
    · exact ih ha

/-- Of a list that goes along with an alternative, the entries at markers are left out. -/
theorem fills_iff_forall₂_filter {l : List β} {p : β → Bool} (hlength : l.length = rhs.length)
    (hp : ∀ (k : Nat) (b : β), l[k]? = some b → (p b = false ↔ rhs[k]? = some g.epsilon))
    {P : β → α → Prop} :
    Fills g rhs (fun k a => ∃ b, l[k]? = some b ∧ P b a) k row ↔
      List.Forall₂ P ((l.drop k).filter p) row := by
  induction k using position_induct g rhs generalizing row with
  | done k hle =>
    rw [fills_done_iff hle, List.drop_eq_nil_of_le (by omega), List.filter_nil,
      List.forall₂_nil_left_iff]
  | marker k hmarker ih =>
    have hlt : k < l.length := hlength ▸ (List.getElem?_eq_some_iff.1 hmarker).1
    -- What goes along with a marker is filtered out, and nothing in the row stands for it.
    have hfalse : p l[k] = false := (hp k l[k] (List.getElem?_eq_getElem hlt)).2 hmarker
    rw [fills_marker_iff hmarker, ih, List.drop_eq_getElem_cons hlt,
      List.filter_cons_of_neg (by simp [hfalse])]
  | solid k s hs hne ih =>
    have hlt : k < l.length := hlength ▸ (List.getElem?_eq_some_iff.1 hs).1
    have hb : l[k]? = some l[k] := List.getElem?_eq_getElem hlt
    -- What goes along with any other symbol stays and meets the first entry of the row.
    have htrue : p l[k] = true := by
      rw [← Bool.not_eq_false, hp k l[k] hb]
      exact fun he => hne (Option.some.inj (hs.symm.trans he))
    rw [fills_solid_iff hs hne, List.drop_eq_getElem_cons hlt, List.filter_cons_of_pos htrue,
      List.forall₂_cons_left_iff]
    simp only [hb, Option.some.injEq, exists_eq_left', ih]

/-- A row fills an alternative with its symbols exactly if these are those of the alternative without
the markers. -/
theorem fills_symbols_iff {f : α → Symbol} :
    Fills g rhs (fun k a => rhs[k]? = some (f a)) 0 row ↔ row.map f = g.solid rhs := by
  have hp : ∀ (k : Nat) (b : Symbol), rhs[k]? = some b →
      ((! g.isEpsilon b) = false ↔ rhs[k]? = some g.epsilon) := by
    intro k b hb
    rw [Bool.not_eq_false', isEpsilon_eq_true_iff, hb, Option.some.injEq]
  -- An alternative goes along with itself.
  have hfilter : Fills g rhs (fun k a => ∃ s, rhs[k]? = some s ∧ s = f a) 0 row ↔
      List.Forall₂ (fun s a => s = f a) ((rhs.drop 0).filter fun s => ! g.isEpsilon s) row :=
    fills_iff_forall₂_filter rfl hp
  simp only [exists_eq_right] at hfilter
  rw [hfilter, List.drop_zero, ← List.forall₂_map_right_iff, List.forall₂_eq_eq_eq, eq_comm]
  rfl

/-- Nothing is left of an alternative exactly if there are only markers in it. -/
theorem solid_eq_nil_iff : g.solid rhs = [] ↔ g.OnlyMarkers rhs 0 rhs.length := by
  rw [← fills_nil_iff (R := fun k (s : Symbol) => rhs[k]? = some (id s)), fills_symbols_iff, eq_comm]
  rfl

end ChartParser.Grammar
