import ChartParser.Item.Basic
import ChartParser.Proofs.Grammar.Filling
import ChartParser.Tree.Derivation

/-!
# What derivations derive

A derivation by a grammar derives its symbol over its stretch, its tree shows a derivation node by node,
and the leaves of the tree are the tokens of the stretch. The parts of a derivation fill its alternative:
each stands at its position, and the symbols on its two sides derive what is left of the stretch.
-/

namespace ChartParser

open Grammar

variable {g : Grammar} {tokens : List Token} {rhs : Alternative}

/-! ## Rows without gaps -/

/-- In a row without gaps that fills an alternative, the symbols on the two sides of each tree derive
what is left of the stretch. -/
theorem Grammar.Fills.around {row : List ParseTree} {k left middle right : Nat}
    (h : Fills g rhs (fun k t => ∃ s, rhs[k]? = some s ∧ g.Derives tokens [s] t.left t.right) k row)
    (hk : k ≤ rhs.length) (hbefore : g.Derives tokens (rhs.part 0 k) left middle)
    (hjoins : ParseTree.Joins middle row right) :
    g.Derives tokens (rhs.part k rhs.length) middle right ∧
      Fills g rhs (fun k t => g.Derives tokens (rhs.part 0 k) left t.left ∧
        g.Derives tokens (rhs.part (k + 1) rhs.length) t.right right) k row := by
  induction h generalizing middle with
  | @done k hle =>
    obtain rfl : middle = right := hjoins
    obtain rfl := Nat.le_antisymm hk hle
    rw [Alternative.part_self]
    exact ⟨.nil middle, .done hle⟩
  | @marker k row hmarker _ ih =>
    -- A marker derives nothing, so the row goes on from the same place.
    have hlt := (List.getElem?_eq_some_iff.1 hmarker).1
    obtain ⟨hrest, hrow⟩ := ih hlt
      ((derives_part_snoc_iff hmarker (Nat.zero_le k)).2 ⟨middle, hbefore, derives_marker_iff.2 rfl⟩)
      hjoins
    exact ⟨(derives_part_cons_iff hmarker hlt).2 ⟨middle, derives_marker_iff.2 rfl, hrest⟩,
      .marker hmarker hrow⟩
  | @solid k s t row hs hne ht _ ih =>
    -- The tree derives its symbol, and the row goes on from where it ends.
    obtain ⟨hleft, hjoins⟩ := hjoins
    obtain ⟨s', hs', hsymbol⟩ := ht
    obtain rfl := Option.some.inj (hs.symm.trans hs')
    have hlt := (List.getElem?_eq_some_iff.1 hs).1
    subst hleft
    obtain ⟨hrest, hrow⟩ := ih hlt
      ((derives_part_snoc_iff hs (Nat.zero_le k)).2 ⟨t.left, hbefore, hsymbol⟩) hjoins
    exact ⟨(derives_part_cons_iff hs hlt).2 ⟨t.right, hsymbol, hrest⟩,
      .solid hs hne ⟨hbefore, hrest⟩ hrow⟩

/-- The converse: a row fills a stretch without gaps if it has none inside and the symbols on the two
sides of each tree derive what is left of the stretch. -/
theorem Grammar.Fills.joins {row : List ParseTree} {k left right : Nat}
    (h : Fills g rhs (fun k t => g.Derives tokens (rhs.part (k + 1) rhs.length) t.right right) k row)
    (hchain : ParseTree.isChain row = true) (hfirst : ∀ t ∈ row.head?, t.left = left)
    (hnil : row = [] → left = right) : ParseTree.Joins left row right := by
  induction h generalizing left with
  | done => exact hnil rfl
  | marker _ _ ih => exact ih hchain hfirst hnil
  | @solid k s t row hs hne ht hrest ih =>
    refine ⟨hfirst t rfl, ?_⟩
    cases row with
    | nil =>
      -- Behind the last tree there are only markers, which derive nothing.
      exact ih rfl (by simp) fun _ => (fills_nil_iff.1 hrest).derives_part_iff.1 ht
    | cons next row =>
      simp only [ParseTree.isChain, Bool.and_eq_true, beq_iff_eq] at hchain
      -- The next tree starts where this one ends, since the row is a chain.
      exact ih hchain.2 (by simpa using hchain.1.symm) fun h => absurd h (List.cons_ne_nil next row)

namespace Derivation

/-! ## Derived stretches -/

/-- The dotted rule of the item that stands for the derivation. -/
def rule : Derivation → DottedRule
  | token name word position => .scanned name word position
  | production lhs rhs left right _ => ⟨lhs, rhs, rhs.length, left, right, Nat.le_refl _⟩

@[simp] theorem rule_lhs (d : Derivation) : d.rule.lhs = d.symbol := by
  cases d <;> rfl

@[simp] theorem rule_origin (d : Derivation) : d.rule.origin = d.left := by
  cases d <;> rfl

@[simp] theorem rule_current (d : Derivation) : d.rule.current = d.right := by
  cases d <;> rfl

@[simp] theorem isComplete_rule (d : Derivation) : d.rule.isComplete = true := by
  rw [DottedRule.isComplete_eq_true_iff]
  cases d <;> rfl

/-- The parts of a derivation fill its alternative: each stands at its position, and the symbols on its
two sides derive what is left of the stretch. -/
theorem fills_of_parts {parts : List Derivation} {left right : Nat}
    (hsymbols : parts.map symbol = g.solid rhs)
    (hjoins : ParseTree.Joins left (parts.map tree) right)
    (hparts : ∀ part ∈ parts, part.symbol ≠ g.epsilon →
      g.Derives tokens [part.symbol] part.left part.right) :
    g.Derives tokens rhs left right ∧
      Fills g rhs (fun k part => (rhs[k]? = some part.symbol ∧ part ∈ parts) ∧
        g.Derives tokens (rhs.part 0 k) left part.left ∧
        g.Derives tokens (rhs.part (k + 1) rhs.length) part.right right) 0 parts := by
  have hfills := (fills_symbols_iff.2 hsymbols).and_mem
  -- The stretches of the trees are those of the parts, so what holds of rows of trees can be used.
  have htrees : Fills g rhs (fun k t => ∃ s, rhs[k]? = some s ∧ g.Derives tokens [s] t.left t.right) 0
      (parts.map tree) := by
    refine fills_map_iff.2 (hfills.imp fun k s part hs hne hpart => ?_)
    obtain ⟨hsymbol, hmem⟩ := hpart
    obtain rfl := Option.some.inj (hs.symm.trans hsymbol)
    rw [tree_left, tree_right]
    exact ⟨part.symbol, hs, hparts part hmem hne⟩
  obtain ⟨hderives, haround⟩ := htrees.around (Nat.zero_le _)
    (by rw [Alternative.part_self]; exact .nil left) hjoins
  rw [Alternative.part_zero_length] at hderives
  refine ⟨hderives, hfills.and ((fills_map_iff.1 haround).imp fun k s part _ _ hpart => ?_)⟩
  rwa [tree_left, tree_right] at hpart

/-- Derivations that fill an alternative without a gap are the parts of a derivation. -/
theorem By.of_fills {lhs : Symbol} {alternatives : List Alternative} {parts : List Derivation}
    {left right : Nat} (halternatives : g.alternatives? lhs = some alternatives)
    (hrhs : rhs ∈ alternatives)
    (hfills : Fills g rhs (fun k part => (rhs[k]? = some part.symbol ∧ By g tokens part) ∧
      g.Derives tokens (rhs.part 0 k) left part.left ∧
      g.Derives tokens (rhs.part (k + 1) rhs.length) part.right right) 0 parts)
    (hchain : ParseTree.isChain (parts.map tree) = true) (hnil : parts = [] → left = right) :
    By g tokens (.production lhs rhs left right parts) := by
  refine .production halternatives hrhs (fills_symbols_iff.1 <| hfills.imp fun k s part _ _ h => h.1.1)
    ?_ fun part hpart => ?_
  · have hafter : Fills g rhs
        (fun k t => g.Derives tokens (rhs.part (k + 1) rhs.length) t.right right) 0
        (parts.map tree) := by
      refine fills_map_iff.2 (hfills.imp fun k s part _ _ h => ?_)
      rw [tree_right]
      exact h.2.2
    refine hafter.joins hchain (fun t ht => ?_) fun h => hnil (List.map_eq_nil_iff.1 h)
    cases parts with
    | nil => cases ht
    | cons part parts =>
      obtain rfl : part.tree = t := Option.some.inj ht
      -- Before the first part there are only markers, which derive nothing.
      obtain ⟨j, hj, hmarkers⟩ := hfills.exists_first
      rw [tree_left]
      exact (hmarkers.derives_part_iff.1 hj.2.1).symm
  · obtain ⟨_, hj⟩ := hfills.exists_of_mem hpart
    exact hj.1.2

/-- A derivation derives its symbol over its stretch. -/
theorem By.derives {d : Derivation} (h : By g tokens d) (hne : d.symbol ≠ g.epsilon) :
    g.Derives tokens [d.symbol] d.left d.right := by
  induction h with
  | token hnone hword hmem => exact derives_terminal hnone hword hmem
  | production halternatives hrhs hsymbols hjoins _ ih =>
    exact derives_nonterminal hne halternatives hrhs (fills_of_parts hsymbols hjoins ih).1

theorem By.left_le {d : Derivation} (h : By g tokens d) : d.left ≤ d.right := by
  cases h with
  | token => exact Nat.le_succ _
  | production _ _ hsymbols hjoins hparts =>
    exact (fills_of_parts hsymbols hjoins fun part hpart => (hparts part hpart).derives).1.le

/-! ## Leaves -/

/-- The trees of a row without gaps have the leaves of the whole stretch if each has those of its
own. -/
theorem flatMap_leaves_of_joins {row : List ParseTree} {left right : Nat}
    (hjoins : ParseTree.Joins left row right)
    (hrow : ∀ t ∈ row, t.left ≤ t.right ∧ t.leaves = (tokens.take t.right).drop t.left) :
    left ≤ right ∧ row.flatMap ParseTree.leaves = (tokens.take right).drop left := by
  induction row generalizing left with
  | nil =>
    obtain rfl : left = right := hjoins
    refine ⟨Nat.le_refl _, ?_⟩
    rw [List.flatMap_nil, List.drop_eq_nil_of_le (List.length_take_le ..)]
  | cons t rest ih =>
    obtain ⟨rfl, hjoins⟩ := hjoins
    obtain ⟨hle, hleaves⟩ := hrow t List.mem_cons_self
    obtain ⟨hle', hrest⟩ := ih hjoins fun s hs => hrow s (List.mem_cons_of_mem _ hs)
    refine ⟨Nat.le_trans hle hle', ?_⟩
    rw [List.flatMap_cons, hleaves, hrest, take_drop_append tokens hle hle']

/-- A production without parts matches nothing, and one with parts has their trees below it. -/
theorem tree_production (lhs : Symbol) (rhs : Alternative) (left right : Nat)
    (parts : List Derivation) :
    (production lhs rhs left right parts).tree = ⟨.symbol lhs, left, right,
      if parts = [] then [⟨.matched [], left, right, []⟩] else parts.map tree⟩ := by
  cases parts with
  | nil => rfl
  | cons part parts => rw [tree, treeEach_eq_map, if_neg (List.cons_ne_nil part parts)]; rfl

/-- The leaves of the tree of a derivation are the tokens of its stretch. -/
theorem By.leaves_tree {d : Derivation} (h : By g tokens d) :
    d.tree.leaves = (tokens.take d.right).drop d.left := by
  induction h with
  | @token name word position _ hword _ =>
    -- A stretch of one token is that token.
    have hstretch : (tokens.take (position + 1)).drop position = [word] := Alternative.part_succ hword
    rw [left, right, hstretch]
    simp [tree, ParseTree.leaves_eq, Label.matched?]
  | @production lhs alternatives rhs l r parts _ _ _ hjoins hparts ih =>
    -- Each part has the leaves of its own stretch, and the stretches follow each other.
    have hrow : ∀ t ∈ parts.map tree,
        t.left ≤ t.right ∧ t.leaves = (tokens.take t.right).drop t.left := by
      intro t ht
      obtain ⟨part, hpart, rfl⟩ := List.mem_map.1 ht
      rw [tree_left, tree_right]
      exact ⟨(hparts part hpart).left_le, ih part hpart⟩
    obtain ⟨_, hleaves⟩ := flatMap_leaves_of_joins hjoins hrow
    rw [left, right, ← hleaves, tree_production]
    split
    · rename_i hnil
      simp [hnil, ParseTree.leaves_eq, Label.matched?]
    · simp [ParseTree.leaves_eq, Label.matched?]

/-! ## Shown derivations -/

/-- The tree of a derivation shows it. -/
theorem By.shows {d : Derivation} (h : By g tokens d) : d.tree.Shows g tokens := by
  induction h with
  | token hnone hword hmem => exact .token hnone hword hmem
  | @production lhs alternatives rhs l r parts halternatives hrhs hsymbols hjoins _ ih =>
    rw [tree_production]
    split
    · rename_i hnil
      subst hnil
      obtain rfl : l = r := hjoins
      exact .nothing halternatives hrhs hsymbols.symm
    · rename_i hparts
      refine .row halternatives hrhs (by simpa using hparts) ?_ hjoins fun t ht => ?_
      · rw [← hsymbols, List.map_map, List.map_map]
        exact List.map_congr_left fun part _ => tree_root part
      · obtain ⟨part, hpart, rfl⟩ := List.mem_map.1 ht
        exact ih part hpart

end Derivation

end ChartParser
