import ChartParser.Proofs.Parse.Completeness

/-!
# The children in the slots

A slot tells exactly which complete items can stand at its position: those for the symbol there that
leave stretches on their two sides which the other symbols up to the dot derive. So a slot before the
dot is empty only where a marker stands, and a slot behind the dot always is.
-/

namespace ChartParser.Parse

variable {g : Grammar} {tokens : List Token} {root : Symbol} {chart : Chart}

/-! ## Slots that have children -/

/-- If an item waits for a symbol that derives a stretch from where it ends, some complete item of the
symbol spans that stretch. -/
theorem Converged.completes_of_derives (h : Converged g tokens root chart) {id : ItemId} {item : Item}
    (hitem : chart.items[id]? = some item) {s : Symbol} (hnext : item.next? = some s)
    (hne : s ≠ g.epsilon) {j : Nat} (hderives : g.Derives tokens [s] item.current j) :
    Completes chart s item.current j := by
  cases hderives with
  | marker => exact absurd rfl hne
  | terminal _ hnone hword hmem hrest =>
    obtain rfl := Grammar.derives_nil_iff.1 hrest
    exact h.completes_token hitem hnext hnone hword hmem
  | rule _ halternatives hrhs hderives hrest =>
    obtain rfl := Grammar.derives_nil_iff.1 hrest
    -- The alternative was begun where the item ends, and the chart goes over the whole of it.
    obtain ⟨begunId, begun, hbegun, hrule, _⟩ :=
      h.settled item.current id item _ hitem rfl (.predict hnext halternatives hrhs)
    exact completes_of_goesOver hbegun hrule (h.goesOver hderives)

/-- Every symbol before the dot that is not a marker has a child. -/
theorem Converged.exists_hasChild (h : Converged g tokens root chart) {id : ItemId} {item : Item}
    (hitem : chart.items[id]? = some item) (hrule : FromRule g tokens root item.toDottedRule)
    {k : Nat} {s : Symbol} (hk : k < item.dot) (hs : item.rhs[k]? = some s) (hne : s ≠ g.epsilon) :
    ∃ childId, item.HasChild k childId := by
  obtain ⟨alternatives, halternatives, hrhs⟩ := hrule.rule
  -- The derivation of the symbols up to the dot is cut before and behind the symbol.
  obtain ⟨i, hbefore, hrest⟩ :=
    (Grammar.derives_part_iff (Nat.zero_le k) (Nat.le_of_lt hk)).1 hrule.derives
  obtain ⟨j, hsymbol, hafter⟩ := (Grammar.derives_part_cons_iff hs hk).1 hrest
  -- The item was there with its dot before the symbol, so the symbol was completed.
  obtain ⟨waitingId, waiting, hwaiting, _, hwaitingRhs, _, hdot, hcurrent⟩ :=
    h.exists_matched hrule.predicted halternatives hrhs
      (Nat.le_of_lt (Nat.lt_of_lt_of_le hk item.dot_le)) hbefore
  rw [Grammar.skipMarkers_of_ne fun he => hne (Option.some.inj (hs.symm.trans he))] at hdot
  have hnext : waiting.next? = some s := by
    rw [DottedRule.next?, hdot, hwaitingRhs, hs]
  obtain ⟨childId, child, hchild, hcomplete, rfl, horigin, hend⟩ :=
    h.completes_of_derives hwaiting hnext hne (hcurrent ▸ hsymbol)
  refine ⟨childId, h.hasChild_of_fits hitem hrule hchild ⟨hk, hs, hne, hcomplete, ?_, ?_⟩⟩
  · rwa [horigin, hcurrent]
  · rwa [hend]

/-! ## Items by origin -/

/-- An item comes from a rule exactly if its symbol has rules. -/
theorem Sound.fromRule_iff {item : Item} (h : Sound g tokens root chart item) :
    FromRule g tokens root item.toDottedRule ↔ g.isNonterminal item.lhs = true := by
  refine ⟨FromRule.isNonterminal, fun hnonterminal => ?_⟩
  rcases h.source with hrule | htoken
  · exact hrule
  · rw [Grammar.isNonterminal_eq_false_iff.2 htoken.terminal] at hnonterminal
    exact Bool.noConfusion hnonterminal

theorem Sound.fromToken_of_terminal {item : Item} (h : Sound g tokens root chart item)
    (hterminal : g.isNonterminal item.lhs = false) : FromToken g tokens root item.toDottedRule := by
  rcases h.source with hrule | htoken
  · rw [hrule.isNonterminal] at hterminal
    exact Bool.noConfusion hterminal
  · exact htoken

/-! ## Exact slots -/

/-- A slot holds exactly the complete items that can stand at its position. -/
theorem Converged.mem_slot_iff (h : Converged g tokens root chart) {id childId : ItemId} {item : Item}
    (hitem : chart.items[id]? = some item) (hrule : FromRule g tokens root item.toDottedRule)
    {k : Nat} {slot : Slot} (hslot : item.slots[k]? = some slot) :
    childId ∈ slot.ids ↔
      k < item.dot ∧ item.rhs[k]? ≠ some g.epsilon ∧
      ∃ child, chart.items[childId]? = some child ∧ child.isComplete = true ∧
        item.rhs[k]? = some child.lhs ∧ item.origin ≤ child.origin ∧
        child.origin ≤ child.current ∧ child.current ≤ item.current ∧
        g.Derives tokens (item.rhs.part 0 k) item.origin child.origin ∧
        g.Derives tokens (item.rhs.part (k + 1) item.dot) child.current item.current := by
  have hhas : childId ∈ slot.ids ↔ item.HasChild k childId := by
    simp [Item.HasChild, Slot.RowHas, hslot]
  rw [hhas, h.hasChild_iff hitem hrule]
  constructor
  · rintro ⟨child, hchild, hfits⟩
    refine ⟨hfits.lt_dot, ?_, child, hchild, hfits.complete, hfits.symbol, hfits.before.le,
      (h.sound hchild).origin_le, hfits.after.le, hfits.before, hfits.after⟩
    intro he
    exact hfits.ne_epsilon (Option.some.inj (hfits.symbol.symm.trans he))
  · rintro ⟨hk, hne, child, hchild, hcomplete, hsymbol, _, _, _, hbefore, hafter⟩
    exact ⟨child, hchild, hk, hsymbol, fun he => hne (he ▸ hsymbol), hcomplete, hbefore, hafter⟩

/-- A slot is empty only behind the dot and where a marker stands. -/
theorem Converged.slot_eq_nil_iff (h : Converged g tokens root chart) {id : ItemId} {item : Item}
    (hitem : chart.items[id]? = some item) (hrule : FromRule g tokens root item.toDottedRule)
    {k : Nat} {slot : Slot} (hslot : item.slots[k]? = some slot) :
    slot.ids = [] ↔ item.dot ≤ k ∨ item.rhs[k]? = some g.epsilon := by
  constructor
  · intro hempty
    -- Before the dot, a symbol that is not a marker was completed by some child.
    by_contra hnot
    obtain ⟨hk, hne⟩ := not_or.1 hnot
    have hk : k < item.dot := Nat.lt_of_not_le hk
    have hlt : k < item.rhs.length := Nat.lt_of_lt_of_le hk item.dot_le
    have hs : item.rhs[k]? = some item.rhs[k] := List.getElem?_eq_getElem hlt
    obtain ⟨childId, slot', hslot', hmem⟩ :=
      h.exists_hasChild hitem hrule hk hs fun he => hne (he ▸ hs)
    obtain rfl := Option.some.inj (hslot.symm.trans hslot')
    rw [hempty] at hmem
    exact List.not_mem_nil hmem
  · intro hnot
    -- A child fits its slot, so it stands before the dot and for no marker.
    refine List.eq_nil_iff_forall_not_mem.2 fun childId hmem => ?_
    obtain ⟨hk, hne, _⟩ := (h.mem_slot_iff hitem hrule hslot).1 hmem
    rcases hnot with hle | he
    · exact absurd hk (Nat.not_lt.2 hle)
    · exact hne he

/-- A token has no children. -/
theorem Invariant.slot_eq_nil_of_terminal (h : Invariant g tokens root chart) {id : ItemId}
    {item : Item} (hitem : chart.items[id]? = some item) (hterminal : g.isNonterminal item.lhs = false)
    {slot : Slot} (hslot : slot ∈ item.slots) : slot.ids = [] := by
  obtain ⟨k, hk⟩ := List.mem_iff_getElem?.1 hslot
  refine List.eq_nil_iff_forall_not_mem.2 fun childId hmem => ?_
  have hnonterminal := ((h.sound hitem).children k childId ⟨slot, hk, hmem⟩).1
  rw [hterminal] at hnonterminal
  exact Bool.noConfusion hnonterminal

/-- The slots of an item are exact. Those of a token are empty. That of a position in an alternative
holds exactly the complete items that can stand there, and it is empty only behind the dot and where a
marker stands. -/
theorem parse_slots_exact (g : Grammar) (tokens : List Token) (root : Symbol) :
    ∃ chart, parse g tokens root = .ok chart ∧
      ∀ (id : ItemId) (item : Item), chart.items[id]? = some item →
        (g.alternatives? item.lhs = none →
          (∃ word, tokens[item.origin]? = some word ∧
            item.toDottedRule = .scanned item.lhs word item.origin) ∧
          ∀ slot ∈ item.slots, slot.ids = []) ∧
        ∀ alternatives, g.alternatives? item.lhs = some alternatives →
          item.rhs ∈ alternatives ∧
          ∀ (k : Nat) (slot : Slot), item.slots[k]? = some slot →
            (∀ childId, childId ∈ slot.ids ↔
              k < item.dot ∧ item.rhs[k]? ≠ some g.epsilon ∧
              ∃ child, chart.items[childId]? = some child ∧ child.isComplete = true ∧
                item.rhs[k]? = some child.lhs ∧ item.origin ≤ child.origin ∧
                child.origin ≤ child.current ∧ child.current ≤ item.current ∧
                g.Derives tokens (item.rhs.part 0 k) item.origin child.origin ∧
                g.Derives tokens (item.rhs.part (k + 1) item.dot) child.current item.current) ∧
            (slot.ids = [] ↔ item.dot ≤ k ∨ item.rhs[k]? = some g.epsilon) := by
  obtain ⟨chart, hparse, h⟩ := exists_parse g tokens root
  refine ⟨chart, hparse, fun id item hitem => ⟨fun hnone => ?_, fun alternatives hsome => ?_⟩⟩
  · -- An item of a symbol without rules comes from a token.
    have hterminal := Grammar.isNonterminal_eq_false_iff.2 hnone
    obtain ⟨word, hword, _, hr⟩ := ((h.sound hitem).fromToken_of_terminal hterminal).scanned
    exact ⟨⟨word, hword, hr⟩, fun slot => h.slot_eq_nil_of_terminal hitem hterminal⟩
  · have hrule := (h.sound hitem).fromRule_iff.2
      (Grammar.isNonterminal_eq_true_iff.2 ⟨alternatives, hsome⟩)
    obtain ⟨alternatives', halternatives, hrhs⟩ := hrule.rule
    obtain rfl := Option.some.inj (hsome.symm.trans halternatives)
    exact ⟨hrhs, fun k slot hslot =>
      ⟨fun childId => h.mem_slot_iff hitem hrule hslot, h.slot_eq_nil_iff hitem hrule hslot⟩⟩

end ChartParser.Parse
