import ChartParser.Proofs.Chart.Correspondence
import ChartParser.Proofs.Parse.Lockstep

/-!
# Charts that mirror each other

Up to a column, two charts may say the same with different numbers: their columns list items with the
same dotted rules in the same order, and the slots of these items have children with the same dotted
rules in the same order. Filing corresponding items in both charts keeps it so. So does filing in one
of them whatever ends behind the column, and this is where the numbers part.
-/

namespace ChartParser.Parse

open Relator

/-- The numbers are those of items with one dotted rule, which ends at column `k` or before. -/
def Alike (k : Nat) (chart chart' : Chart) (id id' : ItemId) : Prop :=
  ∃ r : DottedRule, r.current ≤ k ∧ chart.holds r id = true ∧ chart'.holds r id' = true

/-- Up to column `k`, the charts say the same in the same order. -/
structure Mirrors (k : Nat) (chart chart' : Chart) : Prop where
  columns : ∀ c ≤ k, ∃ ids ids', chart.columns[c]? = some ids ∧ chart'.columns[c]? = some ids' ∧
    List.Forall₂ (Alike k chart chart') ids.toList ids'.toList
  slots : ∀ {id id' : ItemId} {item item' : Item}, chart.items[id]? = some item →
    chart'.items[id']? = some item' → item'.toDottedRule = item.toDottedRule → item.current ≤ k →
    Slot.RowMatches (Alike k chart chart') item.slots item'.slots

variable {g : Grammar} {tokens tokens' : List Token} {root : Symbol} {k : Nat}
variable {chart chart' next next' : Chart} {id id' : ItemId} {item item' : Item} {p p' : Item}
variable {filing filing' : Option Filing} {filings filings' : List Filing}

/-! ## Alike numbers -/

theorem Alike.symm (h : Alike k chart chart' id id') : Alike k chart' chart id' id := by
  obtain ⟨r, hr, hholds, hholds'⟩ := h
  exact ⟨r, hr, hholds', hholds⟩

theorem Alike.mono (hgrows : chart.Grows next) (hgrows' : chart'.Grows next')
    (h : Alike k chart chart' id id') : Alike k next next' id id' := by
  obtain ⟨r, hr, hholds, hholds'⟩ := h
  exact ⟨r, hr, hgrows.holds hholds, hgrows'.holds hholds'⟩

theorem Alike.of_items (hitem : chart.items[id]? = some item) (hitem' : chart'.items[id']? = some item')
    (hrule : item'.toDottedRule = item.toDottedRule) (hk : item.current ≤ k) :
    Alike k chart chart' id id' :=
  ⟨item.toDottedRule, hk, Chart.holds_eq_true_iff.2 ⟨item, hitem, rfl⟩,
    Chart.holds_eq_true_iff.2 ⟨item', hitem', hrule⟩⟩

theorem Alike.exists_items (h : Alike k chart chart' id id') :
    ∃ item item', chart.items[id]? = some item ∧ chart'.items[id']? = some item' ∧
      item'.toDottedRule = item.toDottedRule ∧ item.current ≤ k := by
  obtain ⟨r, hr, hholds, hholds'⟩ := h
  obtain ⟨item, hitem, rfl⟩ := Chart.holds_eq_true_iff.1 hholds
  obtain ⟨item', hitem', hrule⟩ := Chart.holds_eq_true_iff.1 hholds'
  exact ⟨item, item', hitem, hitem', hrule, hr⟩

/-- The numbers of alike items determine each other, since no dotted rule has two numbers. -/
theorem biUnique_alike (hwf : chart.WellFormed) (hwf' : chart'.WellFormed) :
    BiUnique (Alike k chart chart') := by
  constructor
  · intro id other id' h hother
    obtain ⟨item, item', hitem, hitem', hrule, _⟩ := h.exists_items
    obtain ⟨second, item'', hsecond, hitem'', hrule', _⟩ := hother.exists_items
    -- Both are alike to one item, so they have its dotted rule.
    obtain rfl := Option.some.inj (hitem'.symm.trans hitem'')
    exact hwf.distinct hitem hsecond (hrule.symm.trans hrule')
  · intro id id' other' h hother
    obtain ⟨item, item', hitem, hitem', hrule, _⟩ := h.exists_items
    obtain ⟨item'', second', hitem'', hsecond', hrule', _⟩ := hother.exists_items
    obtain rfl := Option.some.inj (hitem.symm.trans hitem'')
    exact hwf'.distinct hitem' hsecond' (hrule.trans hrule'.symm)

/-! ## Mirroring -/

theorem Mirrors.symm (h : Mirrors k chart chart') : Mirrors k chart' chart where
  columns c hc := by
    obtain ⟨ids, ids', hids, hids', halike⟩ := h.columns c hc
    exact ⟨ids', ids, hids', hids, List.Forall₂.flip (halike.imp fun _ _ => Alike.symm)⟩
  slots hitem hitem' hrule hk := by
    have hslots := h.slots hitem' hitem hrule.symm (hrule ▸ hk)
    exact hslots.flip.mono fun _ _ => Alike.symm

/-- At a place of a column where one chart has an item, the other has one like it. -/
theorem Mirrors.exists_place (h : Mirrors k chart chart') {c n : Nat} {ids ids' : Array ItemId}
    (hc : c ≤ k) (hids : chart.columns[c]? = some ids) (hids' : chart'.columns[c]? = some ids')
    (hplace : ids[n]? = some id) : ∃ id', ids'[n]? = some id' ∧ Alike k chart chart' id id' := by
  obtain ⟨_, _, hlisted, hlisted', halike⟩ := h.columns c hc
  obtain rfl := Option.some.inj (hids.symm.trans hlisted)
  obtain rfl := Option.some.inj (hids'.symm.trans hlisted')
  obtain ⟨hlt, rfl⟩ := Array.getElem?_eq_some_iff.1 hplace
  have hlt' : n < ids'.toList.length := by
    rw [← halike.length_eq]
    exact hlt
  exact ⟨ids'[n], Array.getElem?_eq_getElem hlt', halike.get hlt hlt'⟩

/-- A dotted rule up to the column is known in both charts or in neither. -/
theorem Mirrors.knows_iff (h : Mirrors k chart chart') (hwf : chart.WellFormed)
    (hwf' : chart'.WellFormed) {r : DottedRule} (hr : r.current ≤ k) :
    chart.Knows r ↔ chart'.Knows r := by
  have hone : ∀ {first second : Chart}, Mirrors k first second → first.WellFormed → first.Knows r →
      second.Knows r := by
    rintro first second h hwf ⟨id, hholds⟩
    obtain ⟨item, hitem, rfl⟩ := Chart.holds_eq_true_iff.1 hholds
    obtain ⟨ids, hids, hmem⟩ := hwf.filed hitem
    obtain ⟨_, ids', _, hids', _⟩ := h.columns _ hr
    -- The item stands at some place of its column, and the other chart has one like it there.
    obtain ⟨n, hplace⟩ := Array.mem_iff_getElem?.1 hmem
    obtain ⟨id', _, halike⟩ := h.exists_place hr hids hids' hplace
    obtain ⟨known, item', hknown, hitem', hrule, _⟩ := halike.exists_items
    obtain rfl := Option.some.inj (hitem.symm.trans hknown)
    exact hrule ▸ Chart.knows_of_item hitem'
  exact ⟨hone h hwf, hone h.symm hwf'⟩

/-- Charts that coincide mirror each other. -/
theorem Coincide.mirrors (h : Coincide k chart chart') (hinv : Invariant g tokens root chart)
    (hk : k ≤ tokens.length) : Mirrors k chart chart' where
  columns c hc := by
    obtain ⟨ids, hids⟩ := hinv.exists_column (Nat.le_trans hc hk)
    refine ⟨ids, ids, hids, (h.columns c hc).trans hids, List.forall₂_same.2 fun id hid => ?_⟩
    obtain ⟨item, hitem, rfl⟩ := hinv.wellFormed.listed hids (Array.mem_toList_iff.1 hid)
    exact .of_items hitem (h.items ▸ hitem) rfl hc
  slots {id id' item item'} hitem hitem' hrule hend := by
    rw [h.items] at hitem'
    -- The items are the same in both charts, so one dotted rule means one item.
    obtain rfl := hinv.wellFormed.distinct hitem hitem' hrule.symm
    obtain rfl := Option.some.inj (hitem.symm.trans hitem')
    refine List.forall₂_same.2 fun slot hslot => List.forall₂_same.2 fun childId hchild => ?_
    -- A child is an item that ends no later than its parent.
    obtain ⟨position, hposition⟩ := List.mem_iff_getElem?.1 hslot
    obtain ⟨_, r, hholds, hfits⟩ :=
      (hinv.sound hitem).children position childId ⟨slot, hposition, hchild⟩
    obtain ⟨child, hchildItem, rfl⟩ := Chart.holds_eq_true_iff.1 hholds
    exact .of_items hchildItem (h.items ▸ hchildItem) rfl (hfits.after.le.trans hend)

/-- What ends behind the column has no part in it. -/
theorem Mirrors.of_agreeBelow (h : Mirrors k chart chart') (hagree : AgreeBelow (k + 1) chart next) :
    Mirrors k next chart' := by
  -- An item that ends in the columns up to `k` is still there under its number.
  have hmono : ∀ id id', Alike k chart chart' id id' → Alike k next chart' id id' := by
    intro id id' halike
    obtain ⟨item, item', hitem, hitem', hrule, hk⟩ := halike.exists_items
    exact .of_items ((hagree.items (Nat.lt_succ_of_le hk)).2 hitem) hitem' hrule hk
  constructor
  · intro c hc
    obtain ⟨ids, ids', hids, hids', halike⟩ := h.columns c hc
    exact ⟨ids, ids', (hagree.columns (Nat.lt_succ_of_le hc)).trans hids, hids', halike.imp hmono⟩
  · intro id id' item item' hitem hitem' hrule hk
    exact (h.slots ((hagree.items (Nat.lt_succ_of_le hk)).1 hitem) hitem' hrule hk).mono hmono

/-! ## Filing -/

/-- Adding corresponding items with a new dotted rule keeps the charts mirrored. -/
theorem Mirrors.push (h : Mirrors k chart chart') (hp : p.Matches (Alike k chart chart') p')
    (hk : p.current ≤ k) (hfresh : ¬ chart.Knows p.toDottedRule)
    (hfresh' : ¬ chart'.Knows p.toDottedRule) (hgrows : chart.Grows (chart.push p p.current))
    (hgrows' : chart'.Grows (chart'.push p' p'.current)) :
    Mirrors k (chart.push p p.current) (chart'.push p' p'.current) where
  columns c hc := by
    obtain ⟨ids, ids', hids, hids', halike⟩ := h.columns c hc
    have hends : p'.current = p.current := congrArg DottedRule.current hp.rule
    have hold := halike.imp fun _ _ => Alike.mono hgrows hgrows'
    rw [Chart.getElem?_columns_push, Chart.getElem?_columns_push, hids, hids', hends]
    by_cases hcolumn : p.current = c
    · -- The new numbers stand behind the others.
      have hnew : (chart.push p p.current).items[chart.items.size]? = some p := by
        rw [Chart.getElem?_items_push, if_pos rfl]
      have hnew' : (chart'.push p' p'.current).items[chart'.items.size]? = some p' := by
        rw [Chart.getElem?_items_push, if_pos rfl]
      rw [if_pos hcolumn, if_pos hcolumn]
      refine ⟨_, _, rfl, rfl, ?_⟩
      rw [Array.toList_push, Array.toList_push]
      exact List.rel_append hold (.cons (.of_items hnew hnew' hp.rule hk) .nil)
    · rw [if_neg hcolumn, if_neg hcolumn]
      exact ⟨ids, ids', rfl, rfl, hold⟩
  slots hitem hitem' hrule hend := by
    -- The new items correspond to each other, and to no old one, since their dotted rule is new.
    rcases Chart.eq_or_of_push hitem with ⟨_, rfl⟩ | hold
    · rcases Chart.eq_or_of_push hitem' with ⟨_, rfl⟩ | hold'
      · exact hp.slots.mono fun _ _ => Alike.mono hgrows hgrows'
      · exact absurd (hrule ▸ Chart.knows_of_item hold') hfresh'
    · rcases Chart.eq_or_of_push hitem' with ⟨_, rfl⟩ | hold'
      · exact absurd ((hp.rule.symm.trans hrule) ▸ Chart.knows_of_item hold) hfresh
      · exact (h.slots hold hold' hrule hend).mono fun _ _ => Alike.mono hgrows hgrows'

/-- Merging corresponding items into known ones keeps the charts mirrored. -/
theorem Mirrors.merged (h : Mirrors k chart chart') (hwf : chart.WellFormed)
    (hwf' : chart'.WellFormed) (hp : p.Matches (Alike k chart chart') p')
    (hknows : chart.Knows p.toDottedRule) (hknows' : chart'.Knows p'.toDottedRule)
    (hfiled : chart.Filed p next filing) (hfiled' : chart'.Filed p' next' filing') :
    Mirrors k next next' := by
  have hmono : ∀ id id', Alike k chart chart' id id' → Alike k next next' id id' :=
    fun _ _ => Alike.mono hfiled.grows hfiled'.grows
  constructor
  · intro c hc
    rw [hfiled.columns_eq_of_knows hknows, hfiled'.columns_eq_of_knows hknows']
    obtain ⟨ids, ids', hids, hids', halike⟩ := h.columns c hc
    exact ⟨ids, ids', hids, hids', halike.imp hmono⟩
  · intro id id' item item' hitem hitem' hrule hend
    apply Slot.RowMatches.mono _ hmono
    by_cases hsame : item.toDottedRule = p.toDottedRule
    · -- Both items gained the children that were filed.
      have hsame' : item'.toDottedRule = p'.toDottedRule := by rw [hrule, hsame, hp.rule]
      obtain ⟨known, hknown, _, rfl⟩ := hfiled.eq_merge_of_knows hwf hknows hitem hsame
      obtain ⟨known', hknown', _, rfl⟩ := hfiled'.eq_merge_of_knows hwf' hknows' hitem' hsame'
      have hslots := h.slots hknown hknown' hrule hend
      exact hslots.unionRow (biUnique_alike hwf hwf') hp.slots
    · -- Neither item was touched.
      have hsame' : ¬ item'.toDottedRule = p'.toDottedRule := by rwa [hrule, hp.rule]
      have hbefore := (hfiled.item_cases hitem).resolve_right fun hcase => hsame hcase.1
      have hbefore' := (hfiled'.item_cases hitem').resolve_right fun hcase => hsame' hcase.1
      exact h.slots hbefore hbefore' hrule hend

/-- Filing corresponding items up to the column keeps the charts mirrored. -/
theorem Mirrors.filed (h : Mirrors k chart chart') (hwf : chart.WellFormed) (hwf' : chart'.WellFormed)
    (hp : p.Matches (Alike k chart chart') p') (hk : p.current ≤ k)
    (hfiled : chart.Filed p next filing) (hfiled' : chart'.Filed p' next' filing') :
    Mirrors k next next' := by
  -- Whether the children are merged or the item is added is the same in both charts.
  have hknows : chart.Knows p.toDottedRule ↔ chart'.Knows p.toDottedRule := h.knows_iff hwf hwf' hk
  by_cases hold : chart.Knows p.toDottedRule
  · exact h.merged hwf hwf' hp hold (hp.rule ▸ hknows.1 hold) hfiled hfiled'
  · have hfresh' : ¬ chart'.Knows p.toDottedRule := mt hknows.2 hold
    obtain rfl := hfiled.eq_push_of_not_knows hold
    obtain rfl := hfiled'.eq_push_of_not_knows (hp.rule ▸ hfresh')
    exact h.push hp hk hold hfresh' hfiled.grows hfiled'.grows

/-- The same for rows of items. -/
theorem Mirrors.fileAll {items items' : List Item} (h : Mirrors k chart chart')
    (hwf : chart.WellFormed) (hwf' : chart'.WellFormed)
    (hitems : List.Forall₂ (fun p p' => p.Matches (Alike k chart chart') p' ∧ p.current ≤ k)
      items items')
    (hfileAll : chart.fileAll items = .ok (next, filings))
    (hfileAll' : chart'.fileAll items' = .ok (next', filings')) : Mirrors k next next' := by
  induction items generalizing items' chart chart' filings filings' with
  | nil =>
    cases hitems
    cases hfileAll
    cases hfileAll'
    exact h
  | cons p rest ih =>
    cases hitems with
    | cons hp hrest =>
      obtain ⟨middle, _, _, hfile, hfileRest, _⟩ := Chart.fileAll_cons_eq_ok_iff.1 hfileAll
      obtain ⟨middle', _, _, hfile', hfileRest', _⟩ := Chart.fileAll_cons_eq_ok_iff.1 hfileAll'
      obtain ⟨_, hlt, hfiled⟩ := hwf.filed_of_file hfile
      obtain ⟨_, hlt', hfiled'⟩ := hwf'.filed_of_file hfile'
      -- What was alike before the first filing is alike after it, so the other items still match.
      refine ih (h.filed hwf hwf' hp.1 hp.2 hfiled hfiled') (hfiled.wellFormed hwf hlt)
        (hfiled'.wellFormed hwf' hlt') (hrest.imp ?_) hfileRest hfileRest'
      intro q q' hq
      exact ⟨hq.1.mono fun _ _ => Alike.mono hfiled.grows hfiled'.grows, hq.2⟩

/-- Filing items that end behind a column leaves all columns up to it as they are. -/
theorem agreeBelow_of_fileAll {items : List Item} {i : Nat} (hwf : chart.WellFormed)
    (hitems : ∀ p ∈ items, i ≤ p.current) (hfileAll : chart.fileAll items = .ok (next, filings)) :
    AgreeBelow i chart next := by
  induction items generalizing chart filings with
  | nil =>
    cases hfileAll
    exact AgreeBelow.refl i _
  | cons p rest ih =>
    obtain ⟨middle, _, _, hfile, hfileRest, _⟩ := Chart.fileAll_cons_eq_ok_iff.1 hfileAll
    obtain ⟨_, hlt, hfiled⟩ := hwf.filed_of_file hfile
    have hfirst := agreeBelow_of_filed hfiled (hitems p List.mem_cons_self)
    exact hfirst.trans <| ih (hfiled.wellFormed hwf hlt)
      (fun q hq => hitems q (List.mem_cons_of_mem p hq)) hfileRest

end ChartParser.Parse
