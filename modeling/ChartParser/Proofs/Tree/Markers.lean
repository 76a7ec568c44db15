import ChartParser.Proofs.Grammar.Markers
import ChartParser.Proofs.Tree.Distinctness
import ChartParser.Proofs.Tree.Completeness

/-!
# Markers and trees

Trees leave the markers out, but items and derivations tell alternatives apart by them. A grammar and
the same grammar without markers have the same trees as long as no symbol has two alternatives that
differ in their markers only. Where it has, the grammar with markers may find a tree several times,
once for each choice between such alternatives, and it finds trees that the other one does not: a
derivation may go through the same stretch once with each of them, but not twice with one. It never
loses a tree, and both grammars accept the same.
-/

namespace ChartParser

open Grammar

variable {g : Grammar} {tokens : List Token}

namespace Derivation

/-! ## Derivations without markers -/

mutual

/-- The same derivation with the markers deleted from every alternative. -/
def solid (g : Grammar) : Derivation → Derivation
  | token name word position => token name word position
  | production lhs rhs left right parts => production lhs (g.solid rhs) left right (solidEach g parts)

/-- The same of each derivation of a row. -/
def solidEach (g : Grammar) : List Derivation → List Derivation
  | [] => []
  | part :: parts => part.solid g :: solidEach g parts

end

theorem solidEach_eq_map (parts : List Derivation) : solidEach g parts = parts.map (solid g) := by
  induction parts with
  | nil => rfl
  | cons part parts ih => simp [solidEach, ih]

@[simp] theorem symbol_solid (d : Derivation) : (d.solid g).symbol = d.symbol := by
  cases d <;> rfl

@[simp] theorem left_solid (d : Derivation) : (d.solid g).left = d.left := by
  cases d <;> rfl

@[simp] theorem right_solid (d : Derivation) : (d.solid g).right = d.right := by
  cases d <;> rfl

/-- Trees do not show markers. -/
theorem By.tree_solid {d : Derivation} (h : By g tokens d) : (d.solid g).tree = d.tree := by
  induction h with
  | token => rfl
  | @production lhs alternatives rhs l r parts _ _ _ _ _ ih =>
    -- A production shows its symbol, its span and the trees of its parts, but not its alternative.
    have hmap : (solidEach g parts).map tree = parts.map tree := by
      rw [solidEach_eq_map, List.map_map]
      exact List.map_congr_left ih
    show (Derivation.production lhs (g.solid rhs) l r (solidEach g parts)).tree = _
    rw [tree_production, tree_production, hmap]
    simp only [solidEach_eq_map, List.map_eq_nil_iff]

/-- A derivation without its markers is one by the grammar without its markers. -/
theorem By.solid {d : Derivation} (h : By g tokens d) : By g.eraseMarkers tokens (d.solid g) := by
  induction h with
  | token hnone hword hmem => exact .token (by simpa using hnone) hword hmem
  | @production lhs alternatives rhs l r parts halternatives hrhs hsymbols hjoins hparts ih =>
    refine .production (alternatives?_eraseMarkers_eq_some_iff.2 ⟨_, halternatives, rfl⟩)
      (List.mem_map_of_mem hrhs) ?_ ?_ ?_
    · -- The parts derive the symbols that are left of the alternative.
      show _ = g.solid (g.solid rhs)
      rw [solidEach_eq_map, List.map_map, solid_solid, ← hsymbols]
      exact List.map_congr_left fun part _ => symbol_solid part
    · -- Whether the parts join is told by their trees, which stay the same.
      have hmap : parts.map (tree ∘ Derivation.solid g) = parts.map tree :=
        List.map_congr_left fun part hpart => (hparts part hpart).tree_solid
      rwa [solidEach_eq_map, List.map_map, hmap]
    · simpa [solidEach_eq_map] using ih

theorem exists_map_solid_eq {parts' : List Derivation}
    (h : ∀ part' ∈ parts', ∃ part, By g tokens part ∧ part.solid g = part') :
    ∃ parts : List Derivation, (∀ part ∈ parts, By g tokens part) ∧ parts.map (solid g) = parts' := by
  induction parts' with
  | nil => exact ⟨[], fun _ hpart => absurd hpart List.not_mem_nil, rfl⟩
  | cons part' rest ih =>
    obtain ⟨⟨part, hpart, rfl⟩, hrest⟩ := List.forall_mem_cons.1 h
    obtain ⟨parts, hparts, rfl⟩ := ih hrest
    exact ⟨part :: parts, List.forall_mem_cons.2 ⟨hpart, hparts⟩, rfl⟩

/-- Each derivation by the grammar without its markers comes from one with them. -/
theorem By.exists_solid {d' : Derivation} (h : By g.eraseMarkers tokens d') :
    ∃ d, By g tokens d ∧ d.solid g = d' := by
  induction h with
  | @token name word position hnone hword hmem =>
    exact ⟨.token name word position, .token (by simpa using hnone) hword hmem, rfl⟩
  | @production lhs alternatives rhs l r parts' halternatives hrhs hsymbols hjoins _ ih =>
    -- The alternative comes from one that may have markers, and each part from a derivation with them.
    obtain ⟨before, hbefore, rfl⟩ := alternatives?_eraseMarkers_eq_some_iff.1 halternatives
    obtain ⟨rhs, hmem, rfl⟩ := List.mem_map.1 hrhs
    obtain ⟨parts, hparts, rfl⟩ := exists_map_solid_eq ih
    refine ⟨.production lhs rhs l r parts, .production hbefore hmem ?_ ?_ hparts, ?_⟩
    · have hsolid : g.eraseMarkers.solid (g.solid rhs) = g.solid rhs := solid_solid g rhs
      rw [hsolid, List.map_map] at hsymbols
      rw [← hsymbols]
      exact List.map_congr_left fun part _ => (symbol_solid part).symm
    · have hmap : parts.map (tree ∘ Derivation.solid g) = parts.map tree :=
        List.map_congr_left fun part hpart => (hparts part hpart).tree_solid
      rwa [List.map_map, hmap] at hjoins
    · rw [Derivation.solid, solidEach_eq_map]

/-! ## Repetition without markers -/

/-- The use without the markers of its alternative. -/
def Use.solid (g : Grammar) (use : Use) : Use := { use with rhs := g.solid use.rhs }

theorem isFresh_production_iff {lhs : Symbol} {rhs : Alternative} {l r : Nat}
    {parts : List Derivation} {above : List Use} :
    (production lhs rhs l r parts).isFresh above = true ↔ ⟨lhs, rhs, l, r⟩ ∉ above ∧
      ∀ part ∈ parts, part.isFresh (⟨lhs, rhs, l, r⟩ :: above) = true := by
  rw [isFresh, Bool.and_eq_true, decide_eq_true_eq, Parse.areFresh_eq_true_iff]

/-- A use that is repeated is still repeated when the markers are deleted. -/
theorem By.isFresh_of_solid {d : Derivation} (h : By g tokens d) {above : List Use}
    (hfresh : (d.solid g).isFresh (above.map (Use.solid g)) = true) : d.isFresh above = true := by
  induction h generalizing above with
  | token => rfl
  | @production lhs alternatives rhs l r parts _ _ _ _ _ ih =>
    rw [Derivation.solid, solidEach_eq_map, isFresh_production_iff] at hfresh
    obtain ⟨hnew, hparts⟩ := hfresh
    -- If the use were above, it would be above without its markers, too.
    refine isFresh_production_iff.2 ⟨fun huse => hnew ?_, fun part hpart => ih part hpart ?_⟩
    · exact List.mem_map.2 ⟨_, huse, rfl⟩
    · exact hparts _ (List.mem_map_of_mem hpart)

/-- The converse, where alternatives can be told apart without markers: then so can their uses. -/
theorem By.isFresh_solid (hdistinct : g.HasDistinctSolids) {d : Derivation} (h : By g tokens d)
    {above : List Use} (habove : ∀ use ∈ above, ∃ alternatives,
      g.alternatives? use.lhs = some alternatives ∧ use.rhs ∈ alternatives)
    (hfresh : d.isFresh above = true) : (d.solid g).isFresh (above.map (Use.solid g)) = true := by
  induction h generalizing above with
  | token => rfl
  | @production lhs alternatives rhs l r parts halternatives hrhs _ _ _ ih =>
    obtain ⟨hnew, hparts⟩ := isFresh_production_iff.1 hfresh
    rw [Derivation.solid, solidEach_eq_map, isFresh_production_iff]
    refine ⟨fun huse => hnew ?_, fun part' hpart' => ?_⟩
    · -- A use above that looks the same is of the same alternative.
      obtain ⟨⟨lhs', rhs', l', r'⟩, habove', hsame⟩ := List.mem_map.1 huse
      simp only [Use.solid, Use.mk.injEq] at hsame
      obtain ⟨rfl, hsolid, rfl, rfl⟩ := hsame
      obtain ⟨alternatives', halternatives', hrhs'⟩ := habove _ habove'
      obtain rfl := Option.some.inj (halternatives.symm.trans halternatives')
      rwa [← hdistinct.rhs_eq halternatives hrhs' hrhs hsolid]
    · -- The use itself is one of the grammar, so the parts are below uses of the grammar only.
      obtain ⟨part, hpart, rfl⟩ := List.mem_map.1 hpart'
      refine ih part hpart (List.forall_mem_cons.2 ⟨?_, habove⟩) (hparts part hpart)
      exact ⟨alternatives, halternatives, hrhs⟩

end Derivation

namespace Parse

open ChartParser.Derivation

variable {root : Symbol} {chart chart' : Chart} {trees trees' : List ParseTree} {t : ParseTree}

/-! ## The trees of the input -/

/-- The derivation is by rules, from the root and over the whole input. -/
@[mk_iff]
structure IsWhole (g : Grammar) (tokens : List Token) (root : Symbol) (d : Derivation) : Prop where
  nonterminal : g.isNonterminal d.symbol = true
  symbol : d.symbol = root
  left : d.left = 0
  right : d.right = tokens.length

theorem isWhole_solid_iff {d : Derivation} :
    IsWhole g.eraseMarkers tokens root (d.solid g) ↔ IsWhole g tokens root d := by
  simp [isWhole_iff]

/-- The trees of the input for the root are those of the whole derivations that repeat no use. -/
theorem Converged.mem_trees_root_iff (h : Converged g tokens root chart)
    (htrees : chart.trees root = .ok trees) :
    t ∈ trees ↔ ∃ d, By g tokens d ∧ IsWhole g tokens root d ∧ d.isFresh [] = true ∧ d.tree = t := by
  rw [h.mem_trees_iff htrees]
  -- Both sides speak of the same derivation; they differ in how they say that it starts from the root.
  apply exists_congr
  intro d
  apply and_congr_right
  intro hby
  constructor
  · rintro ⟨hsource, hsymbol, hleft, hright, hfresh, htree⟩
    have hnonterminal : g.isNonterminal d.symbol = true := by
      rw [← rule_lhs] at hsymbol ⊢
      rcases hsource with hrule | htoken
      · exact hrule.isNonterminal
      · exact absurd hsymbol htoken.ne_root
    exact ⟨⟨hnonterminal, hsymbol, hleft, hright⟩, hfresh, htree⟩
  · rintro ⟨hwhole, hfresh, htree⟩
    refine ⟨Or.inl ?_, hwhole.symbol, hwhole.left, hwhole.right, hfresh, htree⟩
    -- A whole derivation is no token, as its symbol has rules.
    cases hby with
    | token hnone =>
      have hnonterminal := hwhole.nonterminal
      rw [Derivation.symbol, Grammar.isNonterminal_eq_false_iff.2 hnone] at hnonterminal
      cases hnonterminal
    | production halternatives hrhs hsymbols hjoins hparts =>
      obtain rfl : _ = root := hwhole.symbol
      obtain rfl : _ = 0 := hwhole.left
      exact fromRule_of_by (.production halternatives hrhs hsymbols hjoins hparts) .root

/-- Every tree that is found without markers is found with them. -/
theorem Converged.trees_eraseMarkers_subset (h : Converged g tokens root chart)
    (h' : Converged g.eraseMarkers tokens root chart') (htrees : chart.trees root = .ok trees)
    (htrees' : chart'.trees root = .ok trees') : trees' ⊆ trees := by
  intro t ht
  obtain ⟨d', hby', hwhole, hfresh, rfl⟩ := (h'.mem_trees_root_iff htrees').1 ht
  -- The tree is one of a derivation without markers, which comes from one with them.
  obtain ⟨d, hby, rfl⟩ := hby'.exists_solid
  have hnew : (d.solid g).isFresh (([] : List Use).map (Use.solid g)) = true := hfresh
  apply (h.mem_trees_root_iff htrees).2
  exact ⟨d, hby, isWhole_solid_iff.1 hwhole, hby.isFresh_of_solid hnew, hby.tree_solid.symm⟩

/-- Every tree that is found with markers is found without them, if no two alternatives of a symbol
differ in their markers only. -/
theorem Converged.trees_subset_eraseMarkers (h : Converged g tokens root chart)
    (h' : Converged g.eraseMarkers tokens root chart') (hdistinct : g.HasDistinctSolids)
    (htrees : chart.trees root = .ok trees) (htrees' : chart'.trees root = .ok trees') :
    trees ⊆ trees' := by
  intro t ht
  obtain ⟨d, hby, hwhole, hfresh, rfl⟩ := (h.mem_trees_root_iff htrees).1 ht
  have hnew : (d.solid g).isFresh (([] : List Use).map (Use.solid g)) = true :=
    hby.isFresh_solid hdistinct (List.forall_mem_nil _) hfresh
  apply (h'.mem_trees_root_iff htrees').2
  exact ⟨d.solid g, hby.solid, isWhole_solid_iff.2 hwhole, hnew, hby.tree_solid⟩

/-- A grammar and the same grammar without its markers accept the same, and whatever tree the latter
finds, the former finds at least as often. They find the same trees the same number of times if no
symbol has two alternatives that differ in their markers only. -/
theorem parse_eraseMarkers (g : Grammar) (tokens : List Token) (root : Symbol) :
    ∃ chart chart' trees trees', parse g tokens root = .ok chart ∧
      parse g.eraseMarkers tokens root = .ok chart' ∧
      chart.trees root = .ok trees ∧ chart'.trees root = .ok trees' ∧
      chart'.accepts root = chart.accepts root ∧
      trees'.Subperm trees ∧ (g.HasDistinctSolids → trees'.Perm trees) := by
  obtain ⟨chart, hparse, h⟩ := exists_parse g tokens root
  obtain ⟨chart', hparse', h'⟩ := exists_parse g.eraseMarkers tokens root
  obtain ⟨trees, htrees⟩ := h.exists_trees root
  obtain ⟨trees', htrees'⟩ := h'.exists_trees root
  have hnodup' : trees'.Nodup := h'.nodup_trees (hasDistinctSolids_eraseMarkers g) htrees'
  have hsubset' := h.trees_eraseMarkers_subset h' htrees htrees'
  refine ⟨chart, chart', trees, trees', hparse, hparse', htrees, htrees', ?_, ?_, fun hdistinct => ?_⟩
  · rw [Bool.eq_iff_iff, h.accepts_iff, h'.accepts_iff]
    exact exists_alternative_eraseMarkers_iff
  · -- Without markers no tree is found twice, so it is enough that each is found with them.
    exact hnodup'.subperm hsubset'
  · -- Here no tree is found twice with markers either, so the lists hold the same trees once each.
    have hnodup : trees.Nodup := h.nodup_trees hdistinct htrees
    have hsubset := h.trees_subset_eraseMarkers h' hdistinct htrees htrees'
    exact (List.perm_ext_iff_of_nodup hnodup' hnodup).2 fun _ => ⟨(hsubset' ·), (hsubset ·)⟩

/-- Where a marker is all there is to an alternative, deleting it leaves the trees as they are. -/
theorem pairings_eraseMarkers :
    pairings.HasDistinctSolids ∧ ∃ chart chart' trees trees', parse pairings ["a"] "S" = .ok chart ∧
      parse pairings.eraseMarkers ["a"] "S" = .ok chart' ∧
      chart.trees "S" = .ok trees ∧ chart'.trees "S" = .ok trees' ∧ trees'.Perm trees := by
  have hdistinct : pairings.HasDistinctSolids := by decide
  obtain ⟨chart, chart', trees, trees', hparse, hparse', htrees, htrees', _, _, hperm⟩ :=
    parse_eraseMarkers pairings ["a"] "S"
  exact ⟨hdistinct, chart, chart', trees, trees', hparse, hparse', htrees, htrees', hperm hdistinct⟩

/-- A letter, wrapped any number of times, in one of two ways that differ in a marker only. -/
def wrappings : Grammar where
  rules := ⟨[("S", [["S"], [Grammar.defaultEpsilon, "S"], ["a"]])], by simp⟩
  epsilon := Grammar.defaultEpsilon
  classifier := none

/-- The letter, wrapped a number of times. -/
def wrapped : Nat → ParseTree
  | 0 => ⟨.symbol "S", 0, 1, [⟨.symbol "a", 0, 1, [⟨.matched ["a"], 0, 1, []⟩]⟩]⟩
  | times + 1 => ⟨.symbol "S", 0, 1, [wrapped times]⟩

/-- With the marker, the letter can be wrapped twice, once in each way, and wrapped once in two ways.
Without it, there is only one way, and none to do it twice. -/
theorem wrappings_trees_not_perm :
    "S" ≠ wrappings.epsilon ∧ ∃ chart chart' trees trees', parse wrappings ["a"] "S" = .ok chart ∧
      parse wrappings.eraseMarkers ["a"] "S" = .ok chart' ∧
      chart.trees "S" = .ok trees ∧ chart'.trees "S" = .ok trees' ∧
      wrapped 2 ∈ trees ∧ wrapped 2 ∉ trees' ∧
      trees.count (wrapped 1) = 2 ∧ trees'.count (wrapped 1) = 1 ∧ ¬ trees'.Perm trees := by
  obtain ⟨chart, hparse, h⟩ := exists_parse wrappings ["a"] "S"
  obtain ⟨chart', hparse', h'⟩ := exists_parse wrappings.eraseMarkers ["a"] "S"
  obtain ⟨trees, htrees⟩ := h.exists_trees "S"
  obtain ⟨trees', htrees'⟩ := h'.exists_trees "S"
  -- Both parses are run, and their trees compared.
  have hrun : ((parse wrappings ["a"] "S").toOption.bind fun chart => (chart.trees "S").toOption) =
      some [wrapped 0, wrapped 1, wrapped 2, wrapped 1, wrapped 2] := by decide +kernel
  have hrun' : ((parse wrappings.eraseMarkers ["a"] "S").toOption.bind
      fun chart => (chart.trees "S").toOption) = some [wrapped 0, wrapped 1] := by decide +kernel
  rw [hparse, Except.toOption, Option.bind_some, htrees] at hrun
  rw [hparse', Except.toOption, Option.bind_some, htrees'] at hrun'
  obtain rfl := Option.some.inj hrun
  obtain rfl := Option.some.inj hrun'
  refine ⟨by decide, chart, chart', _, _, hparse, hparse', htrees, htrees', ?_⟩
  decide

end Parse

end ChartParser
