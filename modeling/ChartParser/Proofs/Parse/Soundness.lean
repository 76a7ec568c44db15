import ChartParser.Parse.Trace
import ChartParser.Proofs.Grammar.Parts
import ChartParser.Proofs.Parse.Proposal

/-!
# What the items of a parse say is true

An item of a parse comes from a rule or from a token. In either case its dotted rule says the truth
about the input: the symbols before the dot derive the stretch from its origin to its end, and a symbol
with rules was due at its origin in a derivation from the top down. Each recorded child is a complete
item for the symbol at its position, and the symbols on its two sides derive what is left of the stretch.

All this is an invariant of charts. The rules propose only items of this kind, and filing one keeps it.
-/

namespace ChartParser.Parse

/-! ## True dotted rules -/

/-- The dotted rule comes from a rule of the grammar, and the input bears out what it says. -/
structure FromRule (g : Grammar) (tokens : List Token) (root : Symbol) (r : DottedRule) : Prop where
  rule : ∃ alternatives, g.alternatives? r.lhs = some alternatives ∧ r.rhs ∈ alternatives
  next_ne : r.next? ≠ some g.epsilon
  derives : g.Derives tokens (r.rhs.part 0 r.dot) r.origin r.current
  predicted : g.Predicted tokens root r.lhs r.origin

/-- The dotted rule is a token of the input, matched as a terminal that it satisfies and that some rule
waits for. -/
structure FromToken (g : Grammar) (tokens : List Token) (root : Symbol) (r : DottedRule) : Prop where
  terminal : g.alternatives? r.lhs = none
  scanned : ∃ word, tokens[r.origin]? = some word ∧ r.lhs ∈ g.terminalsFor word ∧
    r = .scanned r.lhs word r.origin
  wanted : ∃ waiting : DottedRule, FromRule g tokens root waiting ∧ waiting.next? = some r.lhs ∧
    waiting.current = r.origin

/-- The child completes the symbol at position `k`, and the symbols on its two sides derive what is
left of the parent's stretch. -/
structure Fits (g : Grammar) (tokens : List Token) (r : DottedRule) (k : Nat) (child : DottedRule) :
    Prop where
  lt_dot : k < r.dot
  symbol : r.rhs[k]? = some child.lhs
  ne_epsilon : child.lhs ≠ g.epsilon
  complete : child.isComplete = true
  before : g.Derives tokens (r.rhs.part 0 k) r.origin child.origin
  after : g.Derives tokens (r.rhs.part (k + 1) r.dot) child.current r.current

/-- What the item says is true, its children included. -/
structure Sound (g : Grammar) (tokens : List Token) (root : Symbol) (chart : Chart) (item : Item) :
    Prop where
  source : FromRule g tokens root item.toDottedRule ∨ FromToken g tokens root item.toDottedRule
  children : ∀ k id, item.HasChild k id → g.isNonterminal item.lhs = true ∧
    ∃ child, chart.holds child id = true ∧ Fits g tokens item.toDottedRule k child

variable {g : Grammar} {tokens : List Token} {root : Symbol} {chart chart' : Chart}

theorem FromRule.isNonterminal {r : DottedRule} (h : FromRule g tokens root r) :
    g.isNonterminal r.lhs = true :=
  Grammar.isNonterminal_eq_true_iff.2 (h.rule.imp fun _ => And.left)

/-- Tokens are complete as soon as they are scanned. -/
theorem FromToken.next?_eq_none {r : DottedRule} (h : FromToken g tokens root r) : r.next? = none := by
  obtain ⟨word, _, _, hr⟩ := h.scanned
  rw [hr]
  rfl

theorem FromToken.current_eq {r : DottedRule} (h : FromToken g tokens root r) :
    r.current = r.origin + 1 := by
  obtain ⟨word, _, _, hr⟩ := h.scanned
  rw [hr]
  rfl

theorem Sound.mono {item : Item} (h : Sound g tokens root chart item) (hgrows : chart.Grows chart') :
    Sound g tokens root chart' item where
  source := h.source
  children k id hchild := by
    obtain ⟨hnonterminal, child, hholds, hfits⟩ := h.children k id hchild
    exact ⟨hnonterminal, child, hgrows.holds hholds, hfits⟩

theorem Sound.origin_le {item : Item} (h : Sound g tokens root chart item) :
    item.origin ≤ item.current := by
  rcases h.source with hrule | htoken
  · exact hrule.derives.le
  · rw [htoken.current_eq]
    exact Nat.le_succ _

/-- An item that waits for a symbol comes from a rule. -/
theorem Sound.fromRule {item : Item} (h : Sound g tokens root chart item) {s : Symbol}
    (hs : item.next? = some s) : FromRule g tokens root item.toDottedRule := by
  rcases h.source with hrule | htoken
  · exact hrule
  · simp [htoken.next?_eq_none] at hs

/-- The symbol of a complete item derives its stretch, unless it is the epsilon marker. -/
theorem Sound.derives {item : Item} (h : Sound g tokens root chart item)
    (hcomplete : item.isComplete = true) (hne : item.lhs ≠ g.epsilon) :
    g.Derives tokens [item.lhs] item.origin item.current := by
  rcases h.source with hrule | htoken
  · -- The dot is behind the last symbol, so what is derived up to it is a whole alternative.
    obtain ⟨alternatives, halternatives, hrhs⟩ := hrule.rule
    refine Grammar.derives_nonterminal hne halternatives hrhs ?_
    have hderives := hrule.derives
    rwa [DottedRule.isComplete_eq_true_iff.1 hcomplete, Alternative.part_zero_length] at hderives
  · -- The terminal derives the token that was scanned for it.
    obtain ⟨word, hword, hmem, _⟩ := htoken.scanned
    rw [htoken.current_eq]
    exact Grammar.derives_terminal htoken.terminal hword hmem

/-! ## The invariant -/

/-- The chart is well-formed, has a column for each boundary between tokens, and what its items say is
true. -/
structure Invariant (g : Grammar) (tokens : List Token) (root : Symbol) (chart : Chart) : Prop where
  wellFormed : chart.WellFormed
  size_columns : chart.columns.size = tokens.length + 1
  sound : ∀ {id : ItemId} {item : Item}, chart.items[id]? = some item →
    Sound g tokens root chart item

theorem invariant_empty (g : Grammar) (tokens : List Token) (root : Symbol) :
    Invariant g tokens root (Chart.empty tokens.length) where
  wellFormed := Chart.wellFormed_empty _
  size_columns := Chart.size_columns_empty _
  sound hitem := by simp [Chart.empty] at hitem

theorem Invariant.exists_column (h : Invariant g tokens root chart) {i : Nat}
    (hi : i ≤ tokens.length) : ∃ ids, chart.columns[i]? = some ids := by
  have hlt : i < chart.columns.size := by
    rw [h.size_columns]
    exact Nat.lt_succ_of_le hi
  exact ⟨chart.columns[i], Array.getElem?_eq_getElem hlt⟩

theorem Invariant.le_of_column (h : Invariant g tokens root chart) {i : Nat} {ids : Array ItemId}
    (hids : chart.columns[i]? = some ids) : i ≤ tokens.length := by
  have hlt := (Array.getElem?_eq_some_iff.1 hids).1
  rw [h.size_columns] at hlt
  exact Nat.le_of_lt_succ hlt

theorem Invariant.current_le (h : Invariant g tokens root chart) {id : ItemId} {item : Item}
    (hitem : chart.items[id]? = some item) : item.current ≤ tokens.length := by
  have hlt := h.wellFormed.current_lt hitem
  rw [h.size_columns] at hlt
  omega

theorem Invariant.origin_lt (h : Invariant g tokens root chart) {id : ItemId} {item : Item}
    (hitem : chart.items[id]? = some item) : item.origin < chart.columns.size :=
  Nat.lt_of_le_of_lt (h.sound hitem).origin_le (h.wellFormed.current_lt hitem)

/-- The rules are not refused for any item of the chart. -/
theorem Invariant.exists_proposals (h : Invariant g tokens root chart) {id : ItemId} {item : Item}
    (hitem : chart.items[id]? = some item) :
    ∃ items, proposals g tokens chart id = .ok items ∧
      ∀ p, p ∈ items ↔ Proposal g tokens chart id item p :=
  Parse.exists_proposals h.wellFormed hitem (h.origin_lt hitem)

/-- Filing an item keeps the invariant if what the item says is true. -/
theorem Invariant.file (h : Invariant g tokens root chart) {item : Item}
    (hsound : Sound g tokens root chart item) (hcurrent : item.current < chart.columns.size)
    {filing : Option Filing} (hfiled : chart.Filed item chart' filing) :
    Invariant g tokens root chart' where
  wellFormed := hfiled.wellFormed h.wellFormed hcurrent
  size_columns := hfiled.grows.size_columns.trans h.size_columns
  sound := by
    intro id new hnew
    -- The items other than the one with the filed dotted rule are as before.
    rcases hfiled.item_cases hnew with hold | ⟨hrule, hchildren⟩
    · exact (h.sound hold).mono hfiled.grows
    · refine ⟨hrule ▸ hsound.source, fun k child hchild => ?_⟩
      -- A child of that one is from the filed item, or from the item that it was merged into. Both
      -- spell the same dotted rule, so the child fits either way.
      rcases hchildren k child hchild with hchild | ⟨known, hknown, hsame, hchild⟩
      · have := (hsound.mono hfiled.grows).children k child hchild
        rwa [hrule]
      · have := ((h.sound hknown).mono hfiled.grows).children k child hchild
        rwa [hsame.trans hrule.symm] at this

/-! ## Proposals are sound -/

/-- A symbol that is due somewhere can be begun there. -/
theorem fromRule_predicted {s : Symbol} {alternatives : List Alternative} {rhs : Alternative} {i : Nat}
    (halternatives : g.alternatives? s = some alternatives) (hrhs : rhs ∈ alternatives)
    (hpredicted : g.Predicted tokens root s i) :
    FromRule g tokens root (.predicted g s rhs i) where
  rule := ⟨alternatives, halternatives, hrhs⟩
  next_ne h := g.ne_epsilon_of_getElem?_skipMarkers h rfl
  derives := (Grammar.derives_part_skipMarkers_iff (Nat.le_refl 0)).2 <| by
    rw [Alternative.part_self]
    exact .nil i
  predicted := hpredicted

theorem sound_bare {r : DottedRule} (h : FromRule g tokens root r ∨ FromToken g tokens root r) :
    Sound g tokens root chart (.bare r) where
  source := h
  children _ _ hchild := absurd hchild Item.not_hasChild_bare

/-- A symbol with rules that an item waits for is due where the item ends. -/
theorem FromRule.predicted_next {r : DottedRule} (h : FromRule g tokens root r) {s : Symbol}
    (hs : r.next? = some s) (hnonterminal : g.isNonterminal s = true) :
    g.Predicted tokens root s r.current := by
  obtain ⟨alternatives, halternatives, hrhs⟩ := h.rule
  -- The alternative is what is before the dot, the symbol itself, and the rest.
  rw [Alternative.eq_part_append_cons hs] at hrhs
  refine .next h.predicted halternatives hrhs ?_ hnonterminal h.derives
  rintro rfl
  exact h.next_ne hs

/-- A derivation up to the dot of an item goes on over the symbol that a child completes. -/
theorem derives_advanced {r : DottedRule} {s : Symbol} (hs : r.next? = some s) {first i j : Nat}
    (hfirst : first ≤ r.dot) (hbefore : g.Derives tokens (r.rhs.part first r.dot) i r.current)
    (hsymbol : g.Derives tokens [s] r.current j) :
    g.Derives tokens (r.rhs.part first (g.skipMarkers r.rhs (r.dot + 1))) i j := by
  -- Markers behind the symbol derive nothing, so it is enough to step over the symbol alone.
  rw [Grammar.derives_part_skipMarkers_iff (Nat.le_succ_of_le hfirst),
    Grammar.derives_part_iff hfirst (Nat.le_succ r.dot), Alternative.part_succ hs]
  exact ⟨r.current, hbefore, hsymbol⟩

/-- What a waiting item says stays true when a child that ends later completes its next symbol. -/
theorem FromRule.advanced {r : DottedRule} (h : FromRule g tokens root r) {s : Symbol}
    (hs : r.next? = some s) {j : Nat} (hsymbol : g.Derives tokens [s] r.current j)
    (hdot : r.dot < r.rhs.length) : FromRule g tokens root (r.advanced g j hdot) where
  rule := h.rule
  next_ne hnext := g.ne_epsilon_of_getElem?_skipMarkers hnext rfl
  derives := derives_advanced hs (Nat.zero_le _) h.derives hsymbol
  predicted := h.predicted

/-- A child that fits a waiting item fits the advanced one. -/
theorem Fits.advanced {r child : DottedRule} {k : Nat} (h : Fits g tokens r k child) {s : Symbol}
    (hs : r.next? = some s) {j : Nat} (hsymbol : g.Derives tokens [s] r.current j)
    (hdot : r.dot < r.rhs.length) : Fits g tokens (r.advanced g j hdot) k child where
  lt_dot := Nat.lt_of_lt_of_le h.lt_dot
    (Nat.le_trans (Nat.le_succ _) (g.le_skipMarkers r.rhs (r.dot + 1)))
  symbol := h.symbol
  ne_epsilon := h.ne_epsilon
  complete := h.complete
  before := h.before
  after := derives_advanced hs h.lt_dot h.after hsymbol

/-- The child over which an item advances fits it. -/
theorem fits_advanced {r child : DottedRule} (h : FromRule g tokens root r)
    (hs : r.next? = some child.lhs) (hcomplete : child.isComplete = true)
    (horigin : r.current = child.origin) (hdot : r.dot < r.rhs.length) :
    Fits g tokens (r.advanced g child.current hdot) r.dot child where
  lt_dot := g.le_skipMarkers r.rhs (r.dot + 1)
  symbol := hs
  ne_epsilon he := h.next_ne (he ▸ hs)
  complete := hcomplete
  before := horigin ▸ h.derives
  -- Between the child and the new dot there are only markers.
  after := (Grammar.derives_part_skipMarkers_iff (Nat.le_refl _)).2 <| by
    rw [Alternative.part_self]
    exact .nil _

/-- The rules propose only items that say the truth. -/
theorem Invariant.sound_proposal (h : Invariant g tokens root chart) {id : ItemId} {item p : Item}
    (hitem : chart.items[id]? = some item) (hp : Proposal g tokens chart id item p) :
    Sound g tokens root chart p := by
  have hsound := h.sound hitem
  cases hp with
  | @predict s alternatives rhs hnext halternatives hrhs =>
    have hnonterminal : g.isNonterminal s = true :=
      Grammar.isNonterminal_eq_true_iff.2 ⟨alternatives, halternatives⟩
    exact sound_bare <| Or.inl <| fromRule_predicted halternatives hrhs <|
      (hsound.fromRule hnext).predicted_next hnext hnonterminal
  | @scan s word hnext hnone hword hmem =>
    have hwaits := hsound.fromRule hnext
    -- The item for which the token is scanned is the one that wants it.
    exact sound_bare <| Or.inr
      ⟨hnone, ⟨word, hword, hmem, rfl⟩, item.toDottedRule, hwaits, hnext, rfl⟩
  | @complete waitingId waiting advanced hcomplete hwaiting hcurrent hnext hadvance =>
    have hwaits := (h.sound hwaiting).fromRule hnext
    obtain ⟨hdot, hrule, hchildren⟩ := Item.advance_spec hadvance
    have hne : item.lhs ≠ g.epsilon := fun he => hwaits.next_ne (he ▸ hnext)
    -- The complete item derives its symbol over the stretch behind the waiting item.
    have hsymbol : g.Derives tokens [item.lhs] waiting.current item.current := by
      rw [hcurrent]
      exact hsound.derives hcomplete hne
    have hfrom := hwaits.advanced hnext hsymbol hdot
    refine ⟨Or.inl (hrule ▸ hfrom), fun k child hchild => ⟨?_, ?_⟩⟩
    · rw [hrule]
      exact hfrom.isNonterminal
    rw [hrule]
    -- A child is one that the waiting item had, or the one it advances over.
    rcases (hchildren k child).1 hchild with hold | ⟨rfl, rfl⟩
    · obtain ⟨_, r, hholds, hfits⟩ := (h.sound hwaiting).children k child hold
      exact ⟨r, hholds, hfits.advanced hnext hsymbol hdot⟩
    · exact ⟨item.toDottedRule, Chart.holds_eq_true_iff.2 ⟨item, hitem, rfl⟩,
        fits_advanced hwaits hnext hcomplete hcurrent hdot⟩

/-- The alternatives of the root say the truth before anything is matched. -/
theorem sound_seed {p : Item} (hp : p ∈ seedItems g root) : Sound g tokens root chart p := by
  obtain ⟨rhs, hrhs, rfl⟩ := List.mem_map.1 hp
  cases halternatives : g.alternatives? root with
  | none => simp [halternatives] at hrhs
  | some alternatives =>
    rw [halternatives, Option.getD_some] at hrhs
    exact sound_bare <| Or.inl <| fromRule_predicted halternatives hrhs .root

/-- A proposal for an item ends where the item ends, or it is the token behind it. -/
theorem Invariant.proposal_ends (h : Invariant g tokens root chart) {id : ItemId} {item p : Item}
    (hitem : chart.items[id]? = some item) (hp : Proposal g tokens chart id item p) :
    p.current = item.current ∨
      (p.current = item.current + 1 ∧ item.current < tokens.length ∧
        FromToken g tokens root p.toDottedRule) := by
  cases hp with
  | predict => exact Or.inl rfl
  | @scan s word hnext hnone hword hmem =>
    exact Or.inr ⟨rfl, (List.getElem?_eq_some_iff.1 hword).1, hnone, ⟨word, hword, hmem, rfl⟩,
      item.toDottedRule, (h.sound hitem).fromRule hnext, hnext, rfl⟩
  | complete _ _ _ _ hadvance =>
    obtain ⟨_, hrule, _⟩ := Item.advance_spec hadvance
    exact Or.inl (by rw [hrule]; rfl)

end ChartParser.Parse
