import ChartParser.Proofs.Parse.Settling

/-!
# What is true is in the chart of a parse

The converse of soundness. Once all columns are settled, an item that is in the chart goes on over
whatever the symbols after its dot derive, with all its children, because each step of the derivation
is one that some rule proposes. So the chart has every item that says the truth, and every item has
every child that fits it: it does not matter in which order items and children were found.
-/

namespace ChartParser.Parse

variable {g : Grammar} {tokens : List Token} {root : Symbol} {chart : Chart}

/-! ## Going on from an item -/

/-- The later item matches more of the same alternative from the same origin, and it has kept the
children. -/
structure GoesOn (item later : Item) : Prop where
  lhs : later.lhs = item.lhs
  rhs : later.rhs = item.rhs
  origin : later.origin = item.origin
  children : ∀ k child, item.HasChild k child → later.HasChild k child

theorem GoesOn.refl (item : Item) : GoesOn item item :=
  ⟨rfl, rfl, rfl, fun _ _ => id⟩

theorem GoesOn.trans {first second third : Item} (h : GoesOn first second) (h' : GoesOn second third) :
    GoesOn first third where
  lhs := h'.lhs.trans h.lhs
  rhs := h'.rhs.trans h.rhs
  origin := h'.origin.trans h.origin
  children k child hchild := h'.children k child (h.children k child hchild)

/-- An item goes on over a complete child that starts where the item has come to. -/
theorem Converged.exists_advanced (h : Converged g tokens root chart) {id waitingId : ItemId}
    {child waiting : Item} (hchild : chart.items[id]? = some child)
    (hcomplete : child.isComplete = true) (hwaiting : chart.items[waitingId]? = some waiting)
    (hcurrent : waiting.current = child.origin) (hnext : waiting.next? = some child.lhs) :
    ∃ (laterId : ItemId) (later : Item), chart.items[laterId]? = some later ∧ GoesOn waiting later ∧
      later.dot = g.skipMarkers waiting.rhs (waiting.dot + 1) ∧ later.current = child.current ∧
      later.HasChild waiting.dot id := by
  obtain ⟨advanced, hadvance⟩ :=
    waiting.exists_advance g id child.current (DottedRule.dot_lt_of_next? hnext)
  -- The rules propose the item advanced, and its column is settled.
  have hproposal : Proposal g tokens chart id child advanced :=
    .complete hcomplete hwaiting hcurrent hnext hadvance
  obtain ⟨laterId, later, hlater, hrule, hchildren⟩ :=
    h.settled child.current id child advanced hchild rfl hproposal
  obtain ⟨_, hadvanced, hmoved⟩ := Item.advance_spec hadvance
  rw [hadvanced] at hrule
  refine ⟨laterId, later, hlater, ⟨?_, ?_, ?_, fun k other hother => ?_⟩, ?_, ?_, ?_⟩
  · rw [hrule]
    rfl
  · rw [hrule]
    rfl
  · rw [hrule]
    rfl
  · exact hchildren k other ((hmoved k other).2 (Or.inl hother))
  · rw [hrule]
    rfl
  · rw [hrule]
    rfl
  · exact hchildren waiting.dot id ((hmoved waiting.dot id).2 (Or.inr ⟨rfl, rfl⟩))

/-! ## Going on over a derivation -/

/-- Some complete item of the symbol spans the stretch. -/
def Completes (chart : Chart) (s : Symbol) (i j : Nat) : Prop :=
  ∃ (id : ItemId) (item : Item), chart.items[id]? = some item ∧ item.isComplete = true ∧
    item.lhs = s ∧ item.origin = i ∧ item.current = j

/-- Every item that has come to `i`, and whose next symbols are the given ones, goes on over them to
`j`. -/
def GoesOver (g : Grammar) (chart : Chart) (symbols : List Symbol) (i j : Nat) : Prop :=
  ∀ (id : ItemId) (item : Item) (first : Nat), chart.items[id]? = some item → item.current = i →
    item.dot = g.skipMarkers item.rhs first → symbols <+: item.rhs.drop first →
    ∃ (laterId : ItemId) (later : Item), chart.items[laterId]? = some later ∧ GoesOn item later ∧
      later.dot = g.skipMarkers item.rhs (first + symbols.length) ∧ later.current = j

theorem of_cons_prefix_drop {s : Symbol} {rest rhs : List Symbol} {k : Nat}
    (h : s :: rest <+: rhs.drop k) : rhs[k]? = some s ∧ rest <+: rhs.drop (k + 1) := by
  obtain ⟨tail, htail⟩ := h
  have hsymbol : (rhs.drop k)[0]? = some s := by rw [← htail]; rfl
  refine ⟨by simpa using hsymbol, tail, ?_⟩
  rw [← List.tail_drop, ← htail]
  rfl

theorem goesOver_nil (i : Nat) : GoesOver g chart [] i i :=
  fun id item _ hitem hcurrent hdot _ => ⟨id, item, hitem, .refl item, hdot, hcurrent⟩

theorem GoesOver.marker {rest : List Symbol} {i j : Nat} (h : GoesOver g chart rest i j) :
    GoesOver g chart (g.epsilon :: rest) i j := by
  intro id item first hitem hcurrent hdot hsymbols
  obtain ⟨hmarker, hrest⟩ := of_cons_prefix_drop hsymbols
  -- The dot has passed over the marker already, so it is the rest that is gone over.
  rw [List.length_cons, Nat.add_comm rest.length 1, ← Nat.add_assoc]
  exact h id item (first + 1) hitem hcurrent (hdot.trans (Grammar.skipMarkers_of_marker hmarker)) hrest

/-- An item goes on over a symbol if some complete item of the symbol is there whenever it waits for
one. -/
theorem GoesOver.cons {s : Symbol} {rest : List Symbol} {i j k : Nat}
    (hrest : GoesOver g chart rest k j) (h : Converged g tokens root chart) (hne : s ≠ g.epsilon)
    (hsymbol : ∀ {id : ItemId} {item : Item}, chart.items[id]? = some item → item.next? = some s →
      item.current = i → Completes chart s i k) : GoesOver g chart (s :: rest) i j := by
  intro id item first hitem hcurrent hdot hsymbols
  obtain ⟨hs, hprefix⟩ := of_cons_prefix_drop hsymbols
  -- No marker stands before the symbol, so the dot does.
  have hfirst : item.dot = first := by
    rw [hdot]
    exact Grammar.skipMarkers_of_ne fun he => hne (Option.some.inj (hs.symm.trans he))
  have hnext : item.next? = some s := by rw [DottedRule.next?, hfirst, hs]
  obtain ⟨childId, child, hchild, hcomplete, rfl, horigin, hend⟩ := hsymbol hitem hnext hcurrent
  -- The item advances over the child and goes on over the rest from there.
  obtain ⟨nextId, next, hnextItem, hgoes, hnextDot, hnextCurrent, _⟩ :=
    h.exists_advanced hchild hcomplete hitem (hcurrent.trans horigin.symm) hnext
  rw [hfirst, ← hgoes.rhs] at hnextDot
  obtain ⟨laterId, later, hlater, hgoes', hlaterDot, hlaterCurrent⟩ :=
    hrest nextId next (first + 1) hnextItem (hnextCurrent.trans hend) hnextDot (hgoes.rhs ▸ hprefix)
  refine ⟨laterId, later, hlater, hgoes.trans hgoes', ?_, hlaterCurrent⟩
  rw [hlaterDot, hgoes.rhs, List.length_cons, Nat.add_right_comm, Nat.add_assoc]

/-- A token that satisfies a symbol completes it for an item that waits for it. -/
theorem Converged.completes_token (h : Converged g tokens root chart) {id : ItemId} {item : Item}
    (hitem : chart.items[id]? = some item) {s : Symbol} (hnext : item.next? = some s)
    (hnone : g.alternatives? s = none) {word : Token} (hword : tokens[item.current]? = some word)
    (hmem : s ∈ g.terminalsFor word) : Completes chart s item.current (item.current + 1) := by
  obtain ⟨childId, child, hchild, hrule, _⟩ :=
    h.settled item.current id item _ hitem rfl (.scan hnext hnone hword hmem)
  refine ⟨childId, child, hchild, ?_, ?_, ?_, ?_⟩
  all_goals
    rw [hrule]
    rfl

/-- An item that has come to the end of its alternative is complete. -/
theorem completes_of_goesOver {id : ItemId} {item : Item} {i j : Nat}
    (hitem : chart.items[id]? = some item) {s : Symbol} {rhs : Alternative}
    (hrule : item.toDottedRule = .predicted g s rhs i) (h : GoesOver g chart rhs i j) :
    Completes chart s i j := by
  -- The item begins the alternative, so the whole of it is still to come.
  obtain ⟨laterId, later, hlater, hgoes, hdot, hcurrent⟩ := h id item 0 hitem
    (by rw [hrule]; rfl) (by rw [hrule]; rfl) (by rw [hrule]; exact List.prefix_rfl)
  have hrhs : item.rhs = rhs := by rw [hrule]; rfl
  refine ⟨laterId, later, hlater, ?_, ?_, ?_, hcurrent⟩
  · rw [DottedRule.isComplete_eq_true_iff, hdot, hgoes.rhs, hrhs, Nat.zero_add]
    exact g.skipMarkers_of_length_le (Nat.le_refl _)
  · rw [hgoes.lhs, hrule]
    rfl
  · rw [hgoes.origin, hrule]
    rfl

/-- Items go on over whatever the symbols after their dots derive. -/
theorem Converged.goesOver (h : Converged g tokens root chart) {symbols : List Symbol} {i j : Nat}
    (hderives : g.Derives tokens symbols i j) : GoesOver g chart symbols i j := by
  -- Each step of the derivation is one that a rule proposes: a terminal is scanned, a symbol with rules
  -- is predicted and then completed.
  induction hderives with
  | nil i => exact goesOver_nil i
  | marker _ ih => exact ih.marker
  | terminal hne hnone hword hmem _ ih =>
    refine ih.cons h hne fun hitem hnext hcurrent => ?_
    subst hcurrent
    exact h.completes_token hitem hnext hnone hword hmem
  | rule hne halternatives hrhs _ _ ihrhs ihrest =>
    refine ihrest.cons h hne fun {id item} hitem hnext hcurrent => ?_
    subst hcurrent
    obtain ⟨begunId, begun, hbegun, hrule, _⟩ :=
      h.settled item.current id item _ hitem rfl (.predict hnext halternatives hrhs)
    exact completes_of_goesOver hbegun hrule ihrhs

/-! ## Every true item is there -/

/-- A symbol that is due somewhere is begun there, with each of its alternatives. -/
theorem Converged.exists_predicted (h : Converged g tokens root chart) {s : Symbol} {i : Nat}
    (hpredicted : g.Predicted tokens root s i) {alternatives : List Alternative}
    (halternatives : g.alternatives? s = some alternatives) {rhs : Alternative}
    (hrhs : rhs ∈ alternatives) :
    ∃ (id : ItemId) (item : Item), chart.items[id]? = some item ∧
      item.toDottedRule = .predicted g s rhs i := by
  induction hpredicted generalizing alternatives rhs with
  | root =>
    -- The alternatives of the root are filed at the start.
    have hseed : Item.bare (.predicted g root rhs 0) ∈ seedItems g root := by
      rw [seedItems, halternatives]
      exact List.mem_map.2 ⟨rhs, hrhs, rfl⟩
    obtain ⟨id, item, hitem, hrule, _⟩ := h.seeded _ hseed
    exact ⟨id, item, hitem, hrule⟩
  | @next a b _ before after j i _ houter hmem hne _ hderives ih =>
    obtain ⟨id, item, hitem, hrule⟩ := ih houter hmem
    have hitemRhs : item.rhs = before ++ b :: after := by rw [hrule]; rfl
    -- The outer alternative is matched up to the symbol, whose alternatives are then predicted.
    obtain ⟨waitingId, waiting, hwaiting, hgoes, hdot, hcurrent⟩ :=
      h.goesOver hderives id item 0 hitem (by rw [hrule]; rfl) (by rw [hrule]; rfl)
        (by rw [hitemRhs]; exact List.prefix_append ..)
    have hb : item.rhs[before.length]? = some b := by simp [hitemRhs]
    have hnext : waiting.next? = some b := by
      rw [DottedRule.next?, hdot, hgoes.rhs, Nat.zero_add, Grammar.skipMarkers_of_ne, hb]
      exact fun he => hne (Option.some.inj (hb.symm.trans he))
    obtain ⟨begunId, begun, hbegun, hbegunRule, _⟩ :=
      h.settled waiting.current waitingId waiting _ hwaiting rfl
        (.predict hnext halternatives hrhs)
    exact ⟨begunId, begun, hbegun, hcurrent ▸ hbegunRule⟩

/-- An item that begins an alternative goes on over its first symbols. -/
theorem Converged.exists_matched (h : Converged g tokens root chart) {s : Symbol} {o i : Nat}
    (hpredicted : g.Predicted tokens root s o) {alternatives : List Alternative}
    (halternatives : g.alternatives? s = some alternatives) {rhs : Alternative}
    (hrhs : rhs ∈ alternatives) {k : Nat} (hk : k ≤ rhs.length)
    (hderives : g.Derives tokens (rhs.part 0 k) o i) :
    ∃ (id : ItemId) (item : Item), chart.items[id]? = some item ∧ item.lhs = s ∧ item.rhs = rhs ∧
      item.origin = o ∧ item.dot = g.skipMarkers rhs k ∧ item.current = i := by
  obtain ⟨id, item, hitem, hrule⟩ := h.exists_predicted hpredicted halternatives hrhs
  have hitemRhs : item.rhs = rhs := by rw [hrule]; rfl
  obtain ⟨laterId, later, hlater, hgoes, hdot, hcurrent⟩ :=
    h.goesOver hderives id item 0 hitem (by rw [hrule]; rfl) (by rw [hrule]; rfl)
      (by rw [hitemRhs]; exact List.take_prefix ..)
  refine ⟨laterId, later, hlater, ?_, hgoes.rhs.trans hitemRhs, ?_, ?_, hcurrent⟩
  · rw [hgoes.lhs, hrule]
    rfl
  · rw [hgoes.origin, hrule]
    rfl
  · rw [hdot, hitemRhs, Alternative.part, List.drop_zero, List.length_take, Nat.zero_add,
      Nat.min_eq_left hk]

/-- The dot of a dotted rule that comes from a rule is not before a marker. -/
theorem FromRule.skipMarkers_dot {r : DottedRule} (h : FromRule g tokens root r) :
    g.skipMarkers r.rhs r.dot = r.dot :=
  Grammar.skipMarkers_of_ne h.next_ne

theorem Converged.exists_fromRule (h : Converged g tokens root chart) {r : DottedRule}
    (hrule : FromRule g tokens root r) :
    ∃ (id : ItemId) (item : Item), chart.items[id]? = some item ∧ item.toDottedRule = r := by
  obtain ⟨alternatives, halternatives, hrhs⟩ := hrule.rule
  obtain ⟨id, item, hitem, hlhs, hitemRhs, horigin, hdot, hcurrent⟩ :=
    h.exists_matched hrule.predicted halternatives hrhs r.dot_le hrule.derives
  rw [hrule.skipMarkers_dot] at hdot
  exact ⟨id, item, hitem, DottedRule.ext hlhs hitemRhs hdot horigin hcurrent⟩

theorem Converged.exists_fromToken (h : Converged g tokens root chart) {r : DottedRule}
    (htoken : FromToken g tokens root r) :
    ∃ (id : ItemId) (item : Item), chart.items[id]? = some item ∧ item.toDottedRule = r := by
  obtain ⟨word, hword, hmem, hr⟩ := htoken.scanned
  obtain ⟨_, hwaits, hnext, hcurrent⟩ := htoken.wanted
  -- The rule that wants the token is there, and the token is scanned for it.
  obtain ⟨id, waiting, hwaiting, rfl⟩ := h.exists_fromRule hwaits
  rw [← hcurrent] at hword hr
  obtain ⟨childId, child, hchild, hrule, _⟩ :=
    h.settled waiting.current id waiting _ hwaiting rfl (.scan hnext htoken.terminal hword hmem)
  exact ⟨childId, child, hchild, hrule.trans hr.symm⟩

/-- The items of the chart are exactly those that say the truth. -/
theorem Converged.exists_item_iff (h : Converged g tokens root chart) {r : DottedRule} :
    (∃ (id : ItemId) (item : Item), chart.items[id]? = some item ∧ item.toDottedRule = r) ↔
      FromRule g tokens root r ∨ FromToken g tokens root r := by
  constructor
  · rintro ⟨id, item, hitem, rfl⟩
    exact (h.sound hitem).source
  · rintro (hrule | htoken)
    · exact h.exists_fromRule hrule
    · exact h.exists_fromToken htoken

/-! ## Every child that fits is there -/

/-- An item has every child that fits it. The child may have been found after the items that go on
from the one that waited for it. -/
theorem Converged.hasChild_of_fits (h : Converged g tokens root chart) {id childId : ItemId}
    {item child : Item} {k : Nat} (hitem : chart.items[id]? = some item)
    (hrule : FromRule g tokens root item.toDottedRule) (hchild : chart.items[childId]? = some child)
    (hfits : Fits g tokens item.toDottedRule k child.toDottedRule) : item.HasChild k childId := by
  obtain ⟨alternatives, halternatives, hrhs⟩ := hrule.rule
  have hsymbol := hfits.symbol
  have hk : k < item.rhs.length := (List.getElem?_eq_some_iff.1 hsymbol).1
  -- The item is matched up to the child, then advanced over it, then matched up to its dot.
  obtain ⟨waitingId, waiting, hwaiting, hlhs, hwaitingRhs, horigin, hdot, hcurrent⟩ :=
    h.exists_matched hrule.predicted halternatives hrhs (Nat.le_of_lt hk) hfits.before
  rw [Grammar.skipMarkers_of_ne fun he =>
    hfits.ne_epsilon (Option.some.inj (hsymbol.symm.trans he))] at hdot
  have hnext : waiting.next? = some child.lhs := by
    rw [DottedRule.next?, hdot, hwaitingRhs, hsymbol]
  obtain ⟨nextId, next, hnextItem, hgoes, hnextDot, hnextCurrent, hhas⟩ :=
    h.exists_advanced hchild hfits.complete hwaiting hcurrent hnext
  have hnextRhs : next.rhs = item.rhs := hgoes.rhs.trans hwaitingRhs
  -- What stands between the child and the dot comes next in the alternative.
  have hafter : item.rhs.part (k + 1) item.dot <+: item.rhs.drop (k + 1) := by
    rw [Alternative.part, List.drop_take]
    exact List.take_prefix ..
  have hlength : k + 1 + (item.rhs.part (k + 1) item.dot).length = item.dot := by
    have := hfits.lt_dot
    have := item.dot_le
    rw [Alternative.part, List.length_drop, List.length_take]
    omega
  obtain ⟨laterId, later, hlater, hgoes', hlaterDot, hlaterCurrent⟩ :=
    h.goesOver hfits.after nextId next (k + 1) hnextItem hnextCurrent
      (by rw [hnextDot, hdot, hwaitingRhs, hnextRhs]) (by rw [hnextRhs]; exact hafter)
  -- No dotted rule has two numbers, so the item that is reached is the one in question.
  have hsame : later.toDottedRule = item.toDottedRule := by
    refine DottedRule.ext ?_ ?_ ?_ ?_ hlaterCurrent
    · rw [hgoes'.lhs, hgoes.lhs, hlhs]
    · rw [hgoes'.rhs, hnextRhs]
    · rw [hlaterDot, hlength, hnextRhs, hrule.skipMarkers_dot]
    · rw [hgoes'.origin, hgoes.origin, horigin]
  obtain rfl := h.wellFormed.distinct hlater hitem hsame
  obtain rfl := Option.some.inj (hlater.symm.trans hitem)
  exact hgoes'.children k childId (hdot ▸ hhas)

/-- The children of an item that comes from a rule are exactly those that fit it. -/
theorem Converged.hasChild_iff (h : Converged g tokens root chart) {id childId : ItemId}
    {item : Item} {k : Nat} (hitem : chart.items[id]? = some item)
    (hrule : FromRule g tokens root item.toDottedRule) :
    item.HasChild k childId ↔ ∃ child, chart.items[childId]? = some child ∧
      Fits g tokens item.toDottedRule k child.toDottedRule := by
  constructor
  · intro hhas
    obtain ⟨_, r, hholds, hfits⟩ := (h.sound hitem).children k childId hhas
    obtain ⟨child, hchild, rfl⟩ := Chart.holds_eq_true_iff.1 hholds
    exact ⟨child, hchild, hfits⟩
  · rintro ⟨child, hchild, hfits⟩
    exact h.hasChild_of_fits hitem hrule hchild hfits

end ChartParser.Parse
