import ChartParser.Proofs.Grammar.Inclusion
import ChartParser.Proofs.Tree.Completeness

/-!
# More rules, more items, edges and trees

Two parses of the same tokens cannot be compared step by step: numbers, the order of the items, the
merges and the sweeps all differ. But each comes to a chart that holds exactly the items, children and
trees that the input bears out, and what the input bears out by one grammar it bears out by every
grammar that this one is within. So everything in the first chart, told by dotted rules instead of
numbers, is in the second one.
-/

namespace ChartParser

namespace Chart

/-! ## Charts within others -/

/-- Column `i` lists an item with the dotted rule. -/
def ListsRule (chart : Chart) (i : Nat) (r : DottedRule) : Prop :=
  ∃ ids, chart.columns[i]? = some ids ∧ ∃ id ∈ ids, chart.holds r id = true

/-- An item with the first dotted rule has, at position `k`, a child with the second. -/
def HasEdge (chart : Chart) (r : DottedRule) (k : Nat) (child : DottedRule) : Prop :=
  ∃ (id childId : ItemId) (item : Item), chart.items[id]? = some item ∧ item.toDottedRule = r ∧
    item.HasChild k childId ∧ chart.holds child childId = true

/-- Up to the numbers of its items, the first chart has nothing that the second does not have. -/
structure IsWithin (chart chart' : Chart) : Prop where
  items : ∀ (i : Nat) (ids : Array ItemId) (id : ItemId), chart.columns[i]? = some ids → id ∈ ids →
    ∃ item : Item, chart.items[id]? = some item ∧ chart'.ListsRule i item.toDottedRule
  edges : ∀ (id : ItemId) (item : Item) (k : Nat) (childId : ItemId), chart.items[id]? = some item →
    item.HasChild k childId → ∃ child : Item, chart.items[childId]? = some child ∧
      chart'.HasEdge item.toDottedRule k child.toDottedRule
  trees : ∀ q, ∃ trees trees', chart.trees q = .ok trees ∧ chart'.trees q = .ok trees' ∧
    trees ⊆ trees'

end Chart

variable {g g' : Grammar} {tokens : List Token} {root : Symbol} {chart chart' : Chart}

/-! ## What the input bears out by more rules -/

namespace Parse

theorem FromRule.mono (h : g.IsWithin g') {r : DottedRule} (hrule : FromRule g tokens root r) :
    FromRule g' tokens root r where
  rule := h.hasRule _ _ hrule.rule
  next_ne := h.epsilon ▸ hrule.next_ne
  derives := hrule.derives.mono h
  predicted := hrule.predicted.mono h

theorem FromToken.mono (h : g.IsWithin g') {r : DottedRule} (htoken : FromToken g tokens root r) :
    FromToken g' tokens root r where
  terminal := h.alternatives?_eq_none_iff.2 htoken.terminal
  scanned := by
    obtain ⟨word, hword, hmem, hr⟩ := htoken.scanned
    exact ⟨word, hword, h.terminals word hmem, hr⟩
  wanted := by
    obtain ⟨waiting, hwaits, hnext, hcurrent⟩ := htoken.wanted
    exact ⟨waiting, hwaits.mono h, hnext, hcurrent⟩

/-- A dotted rule that says the truth by some grammar does so by one with more rules. -/
theorem source_mono (h : g.IsWithin g') {r : DottedRule}
    (hsource : FromRule g tokens root r ∨ FromToken g tokens root r) :
    FromRule g' tokens root r ∨ FromToken g' tokens root r :=
  hsource.imp (FromRule.mono h) (FromToken.mono h)

theorem Fits.mono (h : g.IsWithin g') {r child : DottedRule} {k : Nat}
    (hfits : Fits g tokens r k child) : Fits g' tokens r k child where
  lt_dot := hfits.lt_dot
  symbol := hfits.symbol
  ne_epsilon := h.epsilon ▸ hfits.ne_epsilon
  complete := hfits.complete
  before := hfits.before.mono h
  after := hfits.after.mono h

end Parse

theorem Derivation.By.mono (h : g.IsWithin g') {d : Derivation} (hby : Derivation.By g tokens d) :
    Derivation.By g' tokens d := by
  induction hby with
  | token hnone hword hmem =>
    exact .token (h.alternatives?_eq_none_iff.2 hnone) hword (h.terminals _ hmem)
  | production halternatives hrhs hsymbols hjoins _ ih =>
    obtain ⟨alternatives', halternatives', hrhs'⟩ := h.hasRule _ _ ⟨_, halternatives, hrhs⟩
    exact .production halternatives' hrhs' (hsymbols.trans (h.solid_eq _).symm) hjoins ih

namespace Parse

/-! ## Charts of more rules -/

/-- A dotted rule that says the truth is listed in the column where it ends. -/
theorem Converged.listsRule (h : Converged g tokens root chart) {r : DottedRule}
    (hsource : FromRule g tokens root r ∨ FromToken g tokens root r) :
    chart.ListsRule r.current r := by
  obtain ⟨id, item, hitem, rfl⟩ := h.exists_item_iff.2 hsource
  obtain ⟨ids, hids, hmem⟩ := h.wellFormed.filed hitem
  exact ⟨ids, hids, id, hmem, Chart.holds_eq_true_iff.2 ⟨item, hitem, rfl⟩⟩

/-- Where a dotted rule that says the truth has a place for a child that does so as well, the chart has
an edge. -/
theorem Converged.hasEdge (h : Converged g tokens root chart) {r child : DottedRule} {k : Nat}
    (hrule : FromRule g tokens root r)
    (hchild : FromRule g tokens root child ∨ FromToken g tokens root child)
    (hfits : Fits g tokens r k child) : chart.HasEdge r k child := by
  obtain ⟨id, item, hitem, rfl⟩ := h.exists_fromRule hrule
  obtain ⟨childId, childItem, hchildItem, rfl⟩ := h.exists_item_iff.2 hchild
  exact ⟨id, childId, item, hitem, rfl, h.hasChild_of_fits hitem hrule hchildItem hfits,
    Chart.holds_eq_true_iff.2 ⟨childItem, hchildItem, rfl⟩⟩

theorem Converged.isWithin (h : Converged g tokens root chart)
    (h' : Converged g' tokens root chart') (hwithin : g.IsWithin g') : chart.IsWithin chart' where
  items := by
    intro i ids id hids hmem
    -- An item has a source, which the other grammar has, too, so the other chart lists its dotted rule.
    obtain ⟨item, hitem, rfl⟩ := h.wellFormed.listed hids hmem
    exact ⟨item, hitem, h'.listsRule (source_mono hwithin (h.sound hitem).source)⟩
  edges := by
    intro id item k childId hitem hhas
    -- Only items from rules have children, and a child is an item that fits.
    have hrule := (h.sound hitem).fromRule_iff.2 ((h.sound hitem).children k childId hhas).1
    obtain ⟨child, hchild, hfits⟩ := (h.hasChild_iff hitem hrule).1 hhas
    refine ⟨child, hchild, h'.hasEdge (hrule.mono hwithin) ?_ (hfits.mono hwithin)⟩
    exact source_mono hwithin (h.sound hchild).source
  trees := by
    intro q
    obtain ⟨trees, htrees⟩ := h.exists_trees q
    obtain ⟨trees', htrees'⟩ := h'.exists_trees q
    refine ⟨trees, trees', htrees, htrees', fun t ht => ?_⟩
    -- A tree is that of a derivation, which is one by the other grammar as well.
    obtain ⟨d, hby, hsource, hd⟩ := (h.mem_trees_iff htrees).1 ht
    exact (h'.mem_trees_iff htrees').2 ⟨d, hby.mono hwithin, source_mono hwithin hsource, hd⟩

open Grammar in
/-- More rules and more classes only add to the chart of a parse. And nothing but the sets of rules and
classes matters: grammars whose rules are declared in another order, in other groups or repeatedly, or
whose classifiers do so with their classes, have charts with the same items in each column, the same
edges and the same trees. -/
theorem parse_mono (tokens : List Token) (root : Symbol) :
    (∀ g g' : Grammar, g.IsWithin g' →
      ∃ chart chart', parse g tokens root = .ok chart ∧ parse g' tokens root = .ok chart' ∧
        chart.IsWithin chart') ∧
    ∀ (rules rules' : List Rule) (epsilon : Symbol) (classifier classifier' : Option Classifier),
      SameRules rules rules' →
      (∀ token s, s ∈ classesOf classifier token ↔ s ∈ classesOf classifier' token) →
      ∃ chart chart', parse ⟨gather rules, epsilon, classifier⟩ tokens root = .ok chart ∧
        parse ⟨gather rules', epsilon, classifier'⟩ tokens root = .ok chart' ∧
        chart.IsWithin chart' ∧ chart'.IsWithin chart := by
  constructor
  · intro g g' hwithin
    obtain ⟨chart, hparse, h⟩ := exists_parse g tokens root
    obtain ⟨chart', hparse', h'⟩ := exists_parse g' tokens root
    exact ⟨chart, chart', hparse, hparse', h.isWithin h' hwithin⟩
  · intro rules rules' epsilon classifier classifier' hrules hclasses
    obtain ⟨chart, hparse, h⟩ := exists_parse ⟨gather rules, epsilon, classifier⟩ tokens root
    obtain ⟨chart', hparse', h'⟩ := exists_parse ⟨gather rules', epsilon, classifier'⟩ tokens root
    -- Grammars with the same rules are within each other.
    refine ⟨chart, chart', hparse, hparse', h.isWithin h' ?_, h'.isWithin h ?_⟩
    · exact isWithin_gather hrules hclasses
    · exact isWithin_gather hrules.symm fun token s => (hclasses token s).symm

/-- Rows of a letter, grouped in pairs in any way. -/
def pairs : List Rule := [⟨"S", [["S", "S"], ["a"]]⟩]

/-- The same in another order, with the letter twice. -/
def scatteredPairs : List Rule := [⟨"S", [["a"]]⟩, ⟨"S", [["a"], ["S", "S"]]⟩]

open Grammar in
/-- A single letter is among the rows of letters, and it does not matter how those are declared. -/
theorem parse_mono_pairs :
    (⟨gather [⟨"S", [["a"]]⟩], defaultEpsilon, none⟩ : Grammar).IsWithin
      ⟨gather pairs, defaultEpsilon, none⟩ ∧
    SameRules pairs scatteredPairs ∧
    (∃ chart chart',
      parse ⟨gather [⟨"S", [["a"]]⟩], defaultEpsilon, none⟩ ["a", "a"] "S" = .ok chart ∧
      parse ⟨gather pairs, defaultEpsilon, none⟩ ["a", "a"] "S" = .ok chart' ∧
      chart.IsWithin chart') ∧
    ∃ chart chart',
      parse ⟨gather pairs, defaultEpsilon, some fun token => ["letter", token]⟩ ["a", "a"] "S" =
        .ok chart ∧
      parse ⟨gather scatteredPairs, defaultEpsilon, some fun token => [token, "letter", token]⟩
        ["a", "a"] "S" = .ok chart' ∧
      chart.IsWithin chart' ∧ chart'.IsWithin chart := by
  have hletter : (⟨gather [⟨"S", [["a"]]⟩], defaultEpsilon, none⟩ : Grammar).IsWithin
      ⟨gather pairs, defaultEpsilon, none⟩ :=
    { epsilon := rfl
      keys := fun s => by simp [mem_keys_gather_iff, pairs]
      hasRule := fun s rhs h => by
        rw [hasRule_gather_iff] at h ⊢
        obtain ⟨r, hr, rfl, hrhs⟩ := h
        obtain rfl := List.mem_singleton.1 hr
        exact ⟨_, List.mem_singleton_self _, rfl, List.mem_cons_of_mem _ hrhs⟩
      terminals := fun token => List.Subset.refl _ }
  have hrules : SameRules pairs scatteredPairs :=
    { lhs := fun s => by simp [pairs, scatteredPairs]
      alternatives := fun s rhs => by
        simp only [pairs, scatteredPairs, List.mem_cons, List.not_mem_nil, or_false,
          exists_eq_or_imp, exists_eq_left]
        grind }
  have hclasses : ∀ token s, s ∈ classesOf (some fun token => ["letter", token]) token ↔
      s ∈ classesOf (some fun token => [token, "letter", token]) token := by
    intro token s
    simp only [classesOf, Option.map_some, Option.getD_some, List.mem_cons, List.not_mem_nil]
    grind
  obtain ⟨hmono, hsame⟩ := parse_mono ["a", "a"] "S"
  exact ⟨hletter, hrules, hmono _ _ hletter, hsame _ _ _ _ _ hrules hclasses⟩

end Parse

end ChartParser
