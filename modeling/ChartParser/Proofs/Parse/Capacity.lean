import ChartParser.Proofs.Parse.Run
import Mathlib.Algebra.BigOperators.Ring.List
import Mathlib.Algebra.Order.BigOperators.Group.List
import Mathlib.Algebra.Order.Ring.Nat
import Mathlib.Data.List.Dedup
import Mathlib.Data.List.Nodup
import Mathlib.Data.List.Perm.Subperm

/-!
# How much a column can hold

An item of a column is told by its dotted rule: a rule of the grammar with a dot in it and an origin, or
a terminal that the token before the column satisfies. There are finitely many of these, and a column
lists none twice. The number of records that settling a column can leave is bounded in turn: each one
adds an item to this column or the next, or a child to one of them.
-/

namespace ChartParser.Parse

/-! ## Dotted rules that a column can hold -/

/-- The number of ways to set a dot into a rule of the grammar, repeated rules counted once. -/
def distinctDottings (g : Grammar) : Nat :=
  (g.rules.entries.map fun entry => (entry.2.dedup.map fun rhs => rhs.length + 1).sum).sum

/-- The terminals that the token before column `c` satisfies, each once. -/
def terminalsInto (g : Grammar) (tokens : List Token) : Nat → List Symbol
  | 0 => []
  | c + 1 => ((tokens[c]?.map fun word => g.terminalsFor word).getD []).dedup

/-- The number of dotted rules that column `c` can hold. -/
def columnBound (g : Grammar) (tokens : List Token) (c : Nat) : Nat :=
  (c + 1) * distinctDottings g + (terminalsInto g tokens c).length

/-- What tells a dotted rule from others. -/
abbrev Key := Symbol × Alternative × Nat × Nat × Nat

end Parse

/-- The parts of a dotted rule. -/
def DottedRule.key (r : DottedRule) : Parse.Key := (r.lhs, r.rhs, r.dot, r.origin, r.current)

theorem DottedRule.key_injective {r r' : DottedRule} (h : r.key = r'.key) : r = r' := by
  obtain ⟨lhs, rhs, dot, origin, current, dot_le⟩ := r
  obtain ⟨lhs', rhs', dot', origin', current', dot_le'⟩ := r'
  simp only [key, Prod.mk.injEq] at h
  obtain ⟨rfl, rfl, rfl, rfl, rfl⟩ := h
  rfl

namespace Parse

/-- The dotted rules that end at column `c`, as far as the grammar goes. -/
def ruleKeys (g : Grammar) (c : Nat) : List Key :=
  g.rules.entries.flatMap fun entry => entry.2.dedup.flatMap fun rhs =>
    (List.range (rhs.length + 1)).flatMap fun dot =>
      (List.range (c + 1)).map fun origin => (entry.1, rhs, dot, origin, c)

/-- The tokens that end at column `c`, matched as each of their terminals. -/
def tokenKeys (g : Grammar) (tokens : List Token) (c : Nat) : List Key :=
  (terminalsInto g tokens c).map fun s => (s, tokens[c - 1]?.toList, 1, c - 1, c)

/-- All dotted rules that column `c` can hold. -/
def columnKeys (g : Grammar) (tokens : List Token) (c : Nat) : List Key :=
  ruleKeys g c ++ tokenKeys g tokens c

theorem length_ruleKeys (g : Grammar) (c : Nat) :
    (ruleKeys g c).length = (c + 1) * distinctDottings g := by
  -- For each rule there is one key for each dot and each origin.
  have hdots : ∀ (s : Symbol) (rhs : Alternative),
      ((List.range (rhs.length + 1)).flatMap fun dot =>
        (List.range (c + 1)).map fun origin => ((s, rhs, dot, origin, c) : Key)).length =
        (c + 1) * (rhs.length + 1) := by
    intro s rhs
    simp [List.length_flatMap, Nat.mul_comm]
  have hentry : ∀ entry : Symbol × List Alternative,
      (entry.2.dedup.flatMap fun rhs => (List.range (rhs.length + 1)).flatMap fun dot =>
        (List.range (c + 1)).map fun origin => ((entry.1, rhs, dot, origin, c) : Key)).length =
        (c + 1) * (entry.2.dedup.map fun rhs => rhs.length + 1).sum := by
    intro entry
    simp only [List.length_flatMap, hdots, List.sum_map_mul_left]
  rw [ruleKeys, List.length_flatMap, distinctDottings]
  simp only [hentry, List.sum_map_mul_left]

theorem length_columnKeys (g : Grammar) (tokens : List Token) (c : Nat) :
    (columnKeys g tokens c).length = columnBound g tokens c := by
  rw [columnKeys, List.length_append, length_ruleKeys, tokenKeys, List.length_map, columnBound]

theorem dottings_eq_sum (g : Grammar) :
    dottings g =
      (g.rules.entries.map fun entry => (entry.2.map fun rhs => rhs.length + 1).sum).sum := by
  rw [dottings]
  induction g.rules.entries with
  | nil => rfl
  | cons entry rest ih =>
    rw [List.flatMap_cons, List.map_cons, List.sum_cons, ← ih]
    induction entry.2 with
    | nil => simp
    | cons rhs alternatives ihalternatives =>
      rw [List.cons_append, List.foldr_cons, ihalternatives, List.map_cons, List.sum_cons]
      omega

/-- The bound is within the capacity by which the length of a sweep is budgeted. -/
theorem columnBound_le_columnCapacity (g : Grammar) (tokens : List Token) (c : Nat) :
    columnBound g tokens c ≤ columnCapacity g tokens c := by
  have hdistinct : distinctDottings g ≤ dottings g := by
    rw [dottings_eq_sum, distinctDottings]
    refine List.sum_le_sum fun entry _ => ?_
    -- A sum over a sublist is no greater, as no summand is negative.
    exact ((List.dedup_sublist entry.2).map _).sum_le_sum fun _ _ => Nat.zero_le _
  have hterminals : (terminalsInto g tokens c).length ≤ terminalsBefore g tokens c := by
    cases c with
    | zero => exact Nat.zero_le _
    | succ c =>
      rw [terminalsInto, terminalsBefore]
      cases tokens[c]? with
      | none => simp
      | some word => exact (List.dedup_sublist _).length_le
  exact Nat.add_le_add (Nat.mul_le_mul_left _ hdistinct) hterminals

/-! ## Columns -/

variable {g : Grammar} {tokens : List Token} {root : Symbol} {chart : Chart}

theorem mem_entries_of_alternatives? {s : Symbol} {alternatives : List Alternative}
    (h : g.alternatives? s = some alternatives) : (s, alternatives) ∈ g.rules.entries := by
  rw [Grammar.alternatives?, Table.get?] at h
  obtain ⟨before, after, hentries, _⟩ := List.lookup_eq_some_iff.1 h
  rw [hentries]
  exact List.mem_append_right before List.mem_cons_self

/-- A true item is among the dotted rules that its column can hold. -/
theorem Sound.key_mem {item : Item} (h : Sound g tokens root chart item) :
    item.toDottedRule.key ∈ columnKeys g tokens item.current := by
  refine List.mem_append.2 (h.source.imp (fun hrule => ?_) fun htoken => ?_)
  · obtain ⟨alternatives, halternatives, hrhs⟩ := hrule.rule
    simp only [ruleKeys, List.mem_flatMap, List.mem_map, List.mem_range]
    exact ⟨(item.lhs, alternatives), mem_entries_of_alternatives? halternatives, item.rhs,
      List.mem_dedup.2 hrhs, item.dot, Nat.lt_succ_of_le item.dot_le, item.origin,
      Nat.lt_succ_of_le h.origin_le, rfl⟩
  · obtain ⟨word, hword, hmem, hr⟩ := htoken.scanned
    refine List.mem_map.2 ⟨item.lhs, ?_, ?_⟩
    · rw [htoken.current_eq, terminalsInto, hword]
      exact List.mem_dedup.2 hmem
    · rw [htoken.current_eq, Nat.add_sub_cancel, hword, hr]
      rfl

/-- No dotted rule has two numbers, so numbers can be counted by dotted rules. -/
theorem nodup_keys (hwf : chart.WellFormed) :
    (chart.items.toList.map fun item => item.toDottedRule.key).Nodup := by
  rw [List.nodup_iff_injective_get]
  intro a b hab
  have ha : chart.items[a.val]? = some chart.items.toList[a.val] := by simp
  have hb : chart.items[b.val]? = some chart.items.toList[b.val] := by simp
  refine Fin.ext (hwf.distinct ha hb (DottedRule.key_injective ?_))
  simpa using hab

/-- A column holds no more than one item for each dotted rule that can end there. -/
theorem Invariant.column_size_le (h : Invariant g tokens root chart) {c : Nat} {ids : Array ItemId}
    (hids : chart.columns[c]? = some ids) : ids.size ≤ columnBound g tokens c := by
  -- Every listed item is true, so its key is one of those that the column can hold.
  have hmap : ids.toList.map (fun id => chart.items[id]?.map fun item => item.toDottedRule.key) ⊆
      (columnKeys g tokens c).map some := by
    intro key hkey
    obtain ⟨id, hid, rfl⟩ := List.mem_map.1 hkey
    obtain ⟨item, hitem, rfl⟩ := h.wellFormed.listed hids (Array.mem_toList_iff.1 hid)
    rw [hitem]
    exact List.mem_map_of_mem (h.sound hitem).key_mem
  -- No two listed items have the same key, since no two have the same dotted rule.
  have hnodup : (ids.toList.map fun id =>
      chart.items[id]?.map fun item => item.toDottedRule.key).Nodup := by
    refine (h.wellFormed.nodup hids).map_on fun id hid id' hid' heq => ?_
    obtain ⟨item, hitem, _⟩ := h.wellFormed.listed hids (Array.mem_toList_iff.1 hid)
    obtain ⟨item', hitem', _⟩ := h.wellFormed.listed hids (Array.mem_toList_iff.1 hid')
    rw [hitem, hitem', Option.map_some, Option.map_some, Option.some.injEq] at heq
    exact h.wellFormed.distinct hitem hitem' (DottedRule.key_injective heq)
  have hle := (hnodup.subperm hmap).length_le
  rwa [List.length_map, List.length_map, length_columnKeys, Array.length_toList] at hle

/-! ## Load -/

/-- The item ends at column `i` or the next one. -/
def isNear (i : Nat) (item : Item) : Bool := item.current == i || item.current == i + 1

/-- An item counts for itself and for each of its children. -/
def weight (item : Item) : Nat := 1 + (item.slots.map fun slot => slot.ids.length).sum

/-- What column `i` and the next one hold, children included. -/
def load (i : Nat) (chart : Chart) : Nat :=
  ((chart.items.toList.filter (isNear i)).map weight).sum

/-- The number of items in all other columns. -/
def elsewhere (i : Nat) (chart : Chart) : Nat :=
  (chart.items.toList.filter fun item => ! isNear i item).length

theorem size_items_eq (i : Nat) (chart : Chart) :
    chart.items.size = (chart.items.toList.filter (isNear i)).length + elsewhere i chart := by
  rw [elsewhere, ← Array.length_toList]
  induction chart.items.toList with
  | nil => rfl
  | cons item rest ih =>
    cases h : isNear i item <;> simp [h, ih] <;> omega

theorem isNear_eq_true_iff {i : Nat} {item : Item} :
    isNear i item = true ↔ item.current = i ∨ item.current = i + 1 := by
  simp [isNear]

theorem EndsNear.isNear {i : Nat} {item : Item} (h : EndsNear g tokens root i item) :
    isNear i item = true :=
  isNear_eq_true_iff.2 (h.imp id And.left)

theorem sum_length_le_of_rowGrows {row later : List Slot} (h : Slot.RowGrows row later) :
    (row.map fun slot => slot.ids.length).sum ≤ (later.map fun slot => slot.ids.length).sum := by
  induction h with
  | nil => exact Nat.le_refl _
  | cons hprefix _ ih => exact Nat.add_le_add hprefix.length_le ih

/-- Uniting slots loses no child, and gains one unless nothing changes. -/
theorem sum_length_lt_of_unionRow_ne {slots others : List Slot}
    (h : Slot.unionRow slots others ≠ slots) :
    (slots.map fun slot => slot.ids.length).sum <
      ((Slot.unionRow slots others).map fun slot => slot.ids.length).sum := by
  fun_induction Slot.unionRow slots others with
  | case1 slot slots other others ih =>
    have hslot : slot.ids.length ≤ (slot.union other).ids.length :=
      (Slot.prefix_union slot other).length_le
    have hrest := sum_length_le_of_rowGrows (Slot.rowGrows_unionRow slots others)
    simp only [List.map_cons, List.sum_cons]
    -- Either only the first slot gains a child, or the rest of the row does.
    by_cases hsame : Slot.unionRow slots others = slots
    · have hne : slot.union other ≠ slot := fun heq => h (by rw [heq, hsame])
      have hlt : slot.ids.length < (slot.union other).ids.length := by
        refine Nat.lt_of_le_of_ne hslot fun hlength => hne ?_
        have hids := (Slot.prefix_union slot other).eq_of_length hlength
        cases hunion : slot.union other
        cases slot
        simp_all
      omega
    · have hlt := ih hsame
      omega
  | case2 => exact absurd rfl h
  | case3 => exact absurd rfl h

theorem weight_lt_merge {known item : Item} (h : known.includes item.slots = false) :
    weight known < weight (known.merge item.slots) := by
  refine Nat.add_lt_add_left (sum_length_lt_of_unionRow_ne fun hsame => ?_) 1
  rw [Item.includes, Slot.unionRow_eq_self_iff.1 hsame] at h
  exact Bool.noConfusion h

/-- A list with one entry changed differs from the list in that entry. -/
theorem exists_modify_eq {α : Type} (f : α → α) {items : List α} {n : Nat} {x : α}
    (hx : items[n]? = some x) :
    ∃ front back, items = front ++ x :: back ∧ items.modify n f = front ++ f x :: back := by
  obtain ⟨hlt, rfl⟩ := List.getElem?_eq_some_iff.1 hx
  refine ⟨items.take n, items.drop (n + 1), ?_, List.modify_eq_take_cons_drop hlt⟩
  rw [List.cons_getElem_drop_succ, List.take_append_drop]

/-- Making one entry of a list heavier makes the entries of its kind heavier together. -/
theorem sum_filter_modify_lt {α : Type} {p : α → Bool} {w : α → Nat} {f : α → α} {items : List α}
    {n : Nat} {x : α} (hx : items[n]? = some x) (hp : p x = true) (hp' : p (f x) = true)
    (hw : w x < w (f x)) :
    ((items.filter p).map w).sum < (((items.modify n f).filter p).map w).sum := by
  obtain ⟨front, back, hitems, hmodify⟩ := exists_modify_eq f hx
  rw [hmodify, hitems]
  simp [hp, hp', hw]

theorem filter_modify_of_false {α : Type} {p : α → Bool} {f : α → α} {items : List α} {n : Nat}
    {x : α} (hx : items[n]? = some x) (hp : p x = false) (hp' : p (f x) = false) :
    (items.modify n f).filter p = items.filter p := by
  obtain ⟨front, back, hitems, hmodify⟩ := exists_modify_eq f hx
  rw [hmodify, hitems]
  simp [hp, hp']

/-- Each recorded filing near a column adds to the load there, and none touches what lies elsewhere. -/
theorem load_of_filed {i : Nat} {item : Item} {next : Chart} {filing : Option Filing}
    (h : chart.Filed item next filing) (hnear : isNear i item = true) :
    load i chart + filing.toList.length ≤ load i next ∧ elsewhere i next = elsewhere i chart := by
  cases h with
  | known => exact ⟨Nat.le_refl _, rfl⟩
  | @merged id known hknown hrule hincludes =>
    -- The known item ends where the filed one does, so it is the load near the column that grows.
    have hnear' : isNear i known = true := by
      rw [isNear_eq_true_iff, hrule]
      exact isNear_eq_true_iff.1 hnear
    have hmerge : isNear i (known.merge item.slots) = true := hnear'
    have hlist : chart.items.toList[id]? = some known := by simpa using hknown
    simp only [load, elsewhere, Chart.mergeAt, Array.toList_modify]
    exact ⟨sum_filter_modify_lt hlist hnear' hmerge (weight_lt_merge hincludes),
      by rw [filter_modify_of_false hlist (by simpa using hnear') (by simpa using hmerge)]⟩
  | added =>
    simp only [load, elsewhere, Chart.push, Array.toList_push]
    simp [hnear, weight]

theorem Run.load_le {i : Nat} {last : Chart} {filings : List Filing}
    (h : Run g tokens root i chart filings last) (hinv : Invariant g tokens root chart) :
    load i chart + filings.length ≤ load i last ∧ elsewhere i last = elsewhere i chart := by
  refine h.induct (motive := fun chart filings =>
    load i chart + filings.length ≤ load i last ∧ elsewhere i last = elsewhere i chart)
    (fun _ => ⟨Nat.le_refl _, rfl⟩) (fun _ _ hends hfiled _ ih => ?_) hinv
  obtain ⟨hload, helse⟩ := load_of_filed hfiled hends.isNear
  rw [List.length_append]
  exact ⟨by omega, ih.2.trans helse⟩

/-! ## The load is bounded -/

/-- The items that end at column `i` or the next one are no more than these columns can hold. -/
theorem Invariant.length_near_le (h : Invariant g tokens root chart) (i : Nat) :
    (chart.items.toList.filter (isNear i)).length ≤
      columnBound g tokens i + columnBound g tokens (i + 1) := by
  have hnodup : ((chart.items.toList.filter (isNear i)).map fun item => item.toDottedRule.key).Nodup :=
    (nodup_keys h.wellFormed).sublist (List.filter_sublist.map _)
  have hsubset : ((chart.items.toList.filter (isNear i)).map fun item => item.toDottedRule.key) ⊆
      columnKeys g tokens i ++ columnKeys g tokens (i + 1) := by
    intro key hkey
    obtain ⟨item, hitem, rfl⟩ := List.mem_map.1 hkey
    obtain ⟨hmem, hnear⟩ := List.mem_filter.1 hitem
    obtain ⟨id, hid⟩ := List.mem_iff_getElem?.1 hmem
    have hkey := (h.sound (Array.getElem?_toList.symm.trans hid)).key_mem
    rcases isNear_eq_true_iff.1 hnear with hi | hi <;> rw [hi] at hkey
    · exact List.mem_append_left _ hkey
    · exact List.mem_append_right _ hkey
  have hle := (hnodup.subperm hsubset).length_le
  rwa [List.length_map, List.length_append, length_columnKeys, length_columnKeys] at hle

/-- An alternative is no longer than there are ways to set dots. -/
theorem length_le_dottings {s : Symbol} {alternatives : List Alternative} {rhs : Alternative}
    (halternatives : g.alternatives? s = some alternatives) (hrhs : rhs ∈ alternatives) :
    rhs.length ≤ dottings g := by
  rw [dottings_eq_sum]
  refine Nat.le_trans ?_ (List.single_le_sum (fun _ _ => Nat.zero_le _) _
    (List.mem_map_of_mem (mem_entries_of_alternatives? halternatives)))
  exact Nat.le_trans (Nat.le_succ _) (List.single_le_sum (fun _ _ => Nat.zero_le _) _
    (List.mem_map_of_mem hrhs))

/-- An item counts for at most itself and each item of the chart in each of its slots. -/
theorem Invariant.weight_le (h : Invariant g tokens root chart) {id : ItemId} {item : Item}
    (hitem : chart.items[id]? = some item) :
    weight item ≤ 1 + dottings g * chart.items.size := by
  refine Nat.add_le_add_left ?_ 1
  have hsound := h.sound hitem
  have hslot : ∀ slot ∈ item.slots, slot.ids.length ≤ chart.items.size := by
    intro slot hslot
    obtain ⟨k, hk⟩ := List.mem_iff_getElem?.1 hslot
    -- A slot lists no number twice, and every number in it is that of an item.
    have hsubset : slot.ids ⊆ List.range chart.items.size := by
      intro child hchild
      obtain ⟨_, _, hholds, _⟩ := hsound.children k child ⟨slot, hk, hchild⟩
      obtain ⟨known, hknown, _⟩ := Chart.holds_eq_true_iff.1 hholds
      exact List.mem_range.2 (Array.getElem?_eq_some_iff.1 hknown).1
    simpa using (slot.ids_nodup.subperm hsubset).length_le
  rcases hsound.source with hrule | htoken
  · obtain ⟨alternatives, halternatives, hrhs⟩ := hrule.rule
    have hsum := List.sum_le_card_nsmul (item.slots.map fun slot => slot.ids.length)
      chart.items.size (by simpa using hslot)
    rw [List.length_map, item.slots_length, Nat.nsmul_eq_mul] at hsum
    exact hsum.trans (Nat.mul_le_mul_right _ (length_le_dottings halternatives hrhs))
  · -- A token has no children, so it counts for itself only.
    have hempty : ∀ slot ∈ item.slots, slot.ids.length = 0 := by
      intro slot hslot
      obtain ⟨k, hk⟩ := List.mem_iff_getElem?.1 hslot
      rw [List.length_eq_zero_iff, List.eq_nil_iff_forall_not_mem]
      intro child hchild
      have hnonterminal := (hsound.children k child ⟨slot, hk, hchild⟩).1
      rw [Grammar.isNonterminal_eq_false_iff.2 htoken.terminal] at hnonterminal
      exact Bool.noConfusion hnonterminal
    rw [List.sum_eq_zero (by simpa using hempty)]
    exact Nat.zero_le _

/-- The load near a column stays within the budget for settling it. -/
theorem Invariant.load_le (h : Invariant g tokens root chart) {i : Nat} {start : Chart}
    (helse : elsewhere i chart = elsewhere i start) :
    load i chart ≤ changeCapacity g tokens i start := by
  have hroom : (chart.items.toList.filter (isNear i)).length ≤
      columnCapacity g tokens i + columnCapacity g tokens (i + 1) :=
    (h.length_near_le i).trans (Nat.add_le_add (columnBound_le_columnCapacity ..)
      (columnBound_le_columnCapacity ..))
  -- The items elsewhere are those from the start, so the chart has grown by near items alone.
  have hsize : chart.items.size ≤ start.items.size +
      (columnCapacity g tokens i + columnCapacity g tokens (i + 1)) := by
    rw [size_items_eq i chart, size_items_eq i start, helse]
    omega
  have hweight : ∀ w ∈ (chart.items.toList.filter (isNear i)).map weight,
      w ≤ 1 + dottings g * chart.items.size := by
    intro w hw
    obtain ⟨item, hitem, rfl⟩ := List.mem_map.1 hw
    obtain ⟨id, hid⟩ := List.mem_iff_getElem?.1 (List.mem_filter.1 hitem).1
    exact h.weight_le (Array.getElem?_toList.symm.trans hid)
  have hsum := List.sum_le_card_nsmul _ _ hweight
  rw [List.length_map, Nat.nsmul_eq_mul] at hsum
  exact hsum.trans (Nat.mul_le_mul hroom (Nat.add_le_add_left (Nat.mul_le_mul_left _ hsize) 1))

end ChartParser.Parse
