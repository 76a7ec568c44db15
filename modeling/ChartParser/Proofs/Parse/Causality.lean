import ChartParser.Proofs.Parse.Freezing
import ChartParser.Proofs.Parse.Mirroring

/-!
# A column depends on the tokens before it only

Settling a column scans the next token, and it does so in the middle of the sweeps: scanned tokens take
numbers and count as changes, so the next token has a say in the numbers of a column and in how often
the column is swept. It has none in what the column says. Two parses of token lists that begin alike
are in lockstep up to the column where the lists part. While that column is settled, their charts mirror
each other, and a sweep more or less makes no difference, since the sweeps go on until nothing changes.
-/

namespace ChartParser.Parse

variable {g : Grammar} {tokens tokens' : List Token} {root : Symbol} {j k : Nat}
variable {chart chart' last last' : Chart} {id id' : ItemId} {item : Item} {items items' : List Item}
variable {visited visited' : List ItemId} {filings filings' : List Filing}
variable {sweeps sweeps' : List (List Filing)}

/-! ## What the rules propose -/

/-- Complete items that are alike advance items that correspond. -/
theorem Mirrors.completions (h : Mirrors k chart chart') (hwf : chart.WellFormed)
    (hwf' : chart'.WellFormed) (halike : Alike k chart chart' id id') {item' : Item}
    (hrule : item'.toDottedRule = item.toDottedRule) (horigin : item.origin ≤ k)
    (hcurrent : item.current ≤ k) (hitems : chart.completions g id item = .ok items)
    (hitems' : chart'.completions g id' item' = .ok items') :
    List.Forall₂ (fun p p' => p.Matches (Alike k chart chart') p' ∧ p.current ≤ k) items items' := by
  rw [Chart.completions] at hitems hitems'
  rw [hrule] at hitems'
  split at hitems
  · rename_i hcomplete
    rw [if_pos hcomplete] at hitems'
    obtain ⟨ids, hids, hrest⟩ := bind_eq_ok_iff.1 hitems
    obtain ⟨found, hfound, hadvanced⟩ := bind_eq_ok_iff.1 hrest
    obtain ⟨ids', hids', hrest'⟩ := bind_eq_ok_iff.1 hitems'
    obtain ⟨found', hfound', hadvanced'⟩ := bind_eq_ok_iff.1 hrest'
    obtain ⟨column, hcolumn, rfl⟩ := column_eq_ok_iff.1 hids
    obtain ⟨column', hcolumn', rfl⟩ := column_eq_ok_iff.1 hids'
    -- The columns where the two start list items that correspond.
    obtain ⟨_, _, hlisted, hlisted', hcolumns⟩ := h.columns _ horigin
    obtain rfl := Option.some.inj (hcolumn.symm.trans hlisted)
    obtain rfl := Option.some.inj (hcolumn'.symm.trans hlisted')
    have hmatch : List.Forall₂ (Item.Matches (Alike k chart chart')) found found' := by
      refine forall₂_outputs_of_mapM_eq_ok hcolumns ?_ hfound hfound'
      intro a a' waiting waiting' hwaits hwaiting hwaiting'
      obtain ⟨known, known', hknown, hknown', hsame, hend⟩ := hwaits.exists_items
      obtain rfl := Option.some.inj ((item_eq_ok_iff.1 hwaiting).symm.trans hknown)
      obtain rfl := Option.some.inj ((item_eq_ok_iff.1 hwaiting').symm.trans hknown')
      exact ⟨hsame, h.slots hknown hknown' hsame hend⟩
    -- Those that wait correspond as well, and so they do once they are advanced.
    refine forall₂_outputs_of_mapM_eq_ok (List.rel_filter ?_ hmatch) ?_ hadvanced hadvanced'
    · intro waiting waiting' hwaits
      simp only [hwaits.rule]
    · intro waiting waiting' p p' hwaits hp hp'
      obtain ⟨hmatches, hends⟩ := hwaits.advance (biUnique_alike hwf hwf') halike hp hp'
      exact ⟨hmatches, hends.le.trans hcurrent⟩
  · rename_i hcomplete
    rw [if_neg hcomplete] at hitems'
    cases hitems
    cases hitems'
    exact .nil

/-- For items of column `k` that are alike the rules propose corresponding items in the column, or, in
either chart, nothing but items behind it. -/
theorem Mirrors.proposals (h : Mirrors k chart chart') (hinv : Invariant g tokens root chart)
    (hwf' : chart'.WellFormed) (halike : Alike k chart chart' id id')
    (hitem : chart.items[id]? = some item) (hcurrent : item.current = k)
    (hitems : proposals g tokens chart id = .ok items)
    (hitems' : proposals g tokens' chart' id' = .ok items') :
    List.Forall₂ (fun p p' => p.Matches (Alike k chart chart') p' ∧ p.current ≤ k) items items' ∨
      ((∀ p ∈ items, k + 1 ≤ p.current) ∧ ∀ p ∈ items', k + 1 ≤ p.current) := by
  obtain ⟨_, item', hknown, hitem', hrule, _⟩ := halike.exists_items
  obtain rfl := Option.some.inj (hitem.symm.trans hknown)
  simp only [Parse.proposals, hitem, hitem', hrule] at hitems hitems'
  split at hitems
  · rename_i hcomplete
    rw [if_pos hcomplete] at hitems'
    have horigin : item.origin ≤ k := hcurrent ▸ (hinv.sound hitem).origin_le
    apply Or.inl
    exact h.completions hinv.wellFormed hwf' halike hrule horigin hcurrent.le hitems hitems'
  · rename_i hcomplete
    rw [if_neg hcomplete] at hitems'
    split at hitems
    · -- Both predict the same items, which have no children.
      rename_i hexpects
      rw [if_pos hexpects] at hitems'
      cases hitems
      cases hitems'
      have hsame : item'.predictions g = item.predictions g := by
        rw [Item.predictions, Item.predictions, hrule]
      rw [hsame]
      refine Or.inl (List.forall₂_same.2 fun p hp => ?_)
      obtain ⟨s, _, rhs, _, _, _, rfl⟩ := Item.mem_predictions_iff.1 hp
      exact ⟨Item.matches_bare _ _, hcurrent.le⟩
    · -- What is scanned ends behind the column, whichever tokens come there.
      rename_i hexpects
      rw [if_neg hexpects] at hitems'
      cases hitems
      cases hitems'
      refine Or.inr ⟨fun p hp => ?_, fun p hp => ?_⟩
      · obtain ⟨_, _, _, _, _, rfl⟩ := Item.scan_eq_some_iff.1 (Option.mem_toList.1 hp)
        exact Nat.succ_le_succ hcurrent.ge
      · obtain ⟨_, _, _, _, _, rfl⟩ := Item.scan_eq_some_iff.1 (Option.mem_toList.1 hp)
        have hends : item'.current = k := by rw [hrule, hcurrent]
        exact Nat.succ_le_succ hends.ge

/-! ## Settling -/

/-- Sweeping column `k` in both charts keeps them mirrored. -/
theorem Mirrors.sweep (h : Mirrors k chart chart') (hinv : Invariant g tokens root chart)
    (hinv' : Invariant g tokens' root chart') (hk : k ≤ tokens.length) (hk' : k ≤ tokens'.length)
    (hsweeps : Sweeps g tokens k j chart visited filings last)
    (hsweeps' : Sweeps g tokens' k j chart' visited' filings' last') : Mirrors k last last' := by
  induction hsweeps generalizing chart' visited' filings' with
  | done hids hid =>
    cases hsweeps' with
    | done => exact h
    | visit hids' hid' =>
      -- A place of the other column would be one of this column as well.
      obtain ⟨_, hplace, _⟩ := h.symm.exists_place (Nat.le_refl k) hids' hids hid'
      rw [hid] at hplace
      cases hplace
  | visit hids hid hitems hfileAll _ ih =>
    obtain ⟨_, ids', _, hids', _⟩ := h.columns k (Nat.le_refl k)
    obtain ⟨id', hid', halike⟩ := h.exists_place (Nat.le_refl k) hids hids' hid
    cases hsweeps' with
    | done hlisted' hnone' =>
      obtain rfl := Option.some.inj (hids'.symm.trans hlisted')
      rw [hid'] at hnone'
      cases hnone'
    | visit hlisted' hplace' hitems' hfileAll' hrest' =>
      obtain rfl := Option.some.inj (hids'.symm.trans hlisted')
      obtain rfl := Option.some.inj (hid'.symm.trans hplace')
      obtain ⟨item, hitem, hcurrent⟩ := hinv.wellFormed.listed hids (Array.mem_of_getElem? hid)
      have hnext := (run_of_visit hinv hk hids hid hitems hfileAll).invariant hinv
      have hnext' := (run_of_visit hinv' hk' hids' hid' hitems' hfileAll').invariant hinv'
      apply ih _ hnext hnext' hrest'
      rcases h.proposals hinv hinv'.wellFormed halike hitem hcurrent hitems hitems' with
        hmatch | ⟨hbehind, hbehind'⟩
      · exact h.fileAll hinv.wellFormed hinv'.wellFormed hmatch hfileAll hfileAll'
      · -- What is filed behind the column on either side does not show.
        have hleft := h.of_agreeBelow (agreeBelow_of_fileAll hinv.wellFormed hbehind hfileAll)
        have hright := agreeBelow_of_fileAll hinv'.wellFormed hbehind' hfileAll'
        exact (hleft.symm.of_agreeBelow hright).symm

/-- A chart that a sweep leaves alone stays the mirror of another one while that is settled. -/
theorem Mirrors.settles_right (h : Mirrors k chart chart') (hinv : Invariant g tokens root chart)
    (hinv' : Invariant g tokens' root chart') (hk : k ≤ tokens.length) (hk' : k ≤ tokens'.length)
    (hsame : Sweeps g tokens k 0 chart visited [] chart)
    (hsettles' : Settles g tokens' k chart' sweeps' last') : Mirrors k chart last' := by
  induction hsettles' with
  | unchanged hsweep => exact h.sweep hinv hinv' hk hk' hsame hsweep
  | changed hsweep _ _ ih =>
    exact ih (h.sweep hinv hinv' hk hk' hsame hsweep) ((hsweep.run hinv' hk').invariant hinv')

/-- Settling column `k` in both charts keeps them mirrored, however many sweeps each takes. -/
theorem Mirrors.settle (h : Mirrors k chart chart') (hinv : Invariant g tokens root chart)
    (hinv' : Invariant g tokens' root chart') (hk : k ≤ tokens.length) (hk' : k ≤ tokens'.length)
    (hsettles : Settles g tokens k chart sweeps last)
    (hsettles' : Settles g tokens' k chart' sweeps' last') : Mirrors k last last' := by
  induction hsettles generalizing chart' sweeps' with
  | unchanged hsweep =>
    obtain rfl := (hsweep.run hinv hk).eq_of_nil hinv
    exact h.settles_right hinv hinv' hk hk' hsweep hsettles'
  | changed hsweep hne hrest ih =>
    have hnext := (hsweep.run hinv hk).invariant hinv
    cases hsettles' with
    | changed hsweep' _ hrest' =>
      have hnext' := (hsweep'.run hinv' hk').invariant hinv'
      exact ih (h.sweep hinv hinv' hk hk' hsweep hsweep') hnext hnext' hrest'
    | unchanged hsweep' =>
      -- The other chart is settled, and it waits while this one is swept on.
      obtain rfl := (hsweep'.run hinv' hk').eq_of_nil hinv'
      have hmirror := h.sweep hinv hinv' hk hk' hsweep hsweep'
      exact (hmirror.symm.settles_right hinv' hnext hk' hk hsweep' hrest).symm

/-! ## Parses cut at a column -/

/-- A parse that comes to the chart `before` when it has settled the columns before `k`, to `settled`
when it has settled column `k` as well, and to `last` in the end. -/
structure CutAt (g : Grammar) (tokens : List Token) (root : Symbol) (k : Nat)
    (before settled last : Chart) : Prop where
  le_length : k ≤ tokens.length
  parse_eq : parse g tokens root = .ok last
  reached : ∃ start seeds stages, (Chart.empty tokens.length).fileAll (seedItems g root) =
    .ok (start, seeds) ∧ Invariant g tokens root start ∧ stages.length = k ∧
    SettlesEach g tokens 0 start stages before
  settles : ∃ sweeps, Settles g tokens k before sweeps settled
  ahead : ScansAhead g tokens root k settled
  rest : ∃ stages, Progress g tokens root (k + 1) settled stages last
  invariant_before : Invariant g tokens root before
  invariant_last : Invariant g tokens root last
  agree_before : AgreeBelow k before last
  agree_settled : AgreeBelow (k + 1) settled last

theorem exists_cutAt (g : Grammar) (root : Symbol) (hk : k ≤ tokens.length) :
    ∃ before settled last, CutAt g tokens root k before settled last := by
  obtain ⟨t, htrace, _, _, hseeds, _, hlength, hprogress⟩ := exists_trace g tokens root
  have hstart := hseeds.invariant (invariant_empty g tokens root)
  have hfileAll : (Chart.empty tokens.length).fileAll (seedItems g root) = .ok (t.start, t.seeds) := by
    obtain ⟨⟨start, seeds⟩, hfileAll, hrest⟩ := bind_eq_ok_iff.1 htrace
    obtain ⟨stages, _, hrest⟩ := bind_eq_ok_iff.1 hrest
    cases hrest
    exact hfileAll
  obtain ⟨before, sweeps, settled, _, hfirst, hsettle, hrun, hrest⟩ :=
    hprogress.exists_stage (k := k) (by omega)
  rw [Nat.zero_add] at hsettle hrun hrest
  have htake : (t.stages.take k).length = k := by
    rw [List.length_take]
    omega
  have hbefore := hfirst.invariant hstart
  have hsettled := hrun.invariant hbefore
  have hahead : ScansAhead g tokens root k settled := by
    rw [← htake] at hrun ⊢
    exact hfirst.scansAhead_of_settled hseeds hrun
  -- What is settled behind the column leaves it and the columns before it alone.
  have hagree := hrest.agreeBelow hsettled
  exact ⟨before, settled, t.chart,
    { le_length := hk
      parse_eq := by rw [parse, htrace]; rfl
      reached := ⟨t.start, t.seeds, _, hfileAll, hstart, htake, hfirst.settlesEach hstart (by omega)⟩
      settles := ⟨_, settles_of_settleWithin hsettle⟩
      ahead := hahead
      rest := ⟨_, hrest⟩
      invariant_before := hbefore
      invariant_last := hrest.invariant hsettled
      agree_before := (hrun.agreeBelow hbefore).trans (hagree.mono (Nat.le_succ k))
      agree_settled := hagree }⟩

variable {before before' settled settled' : Chart}

/-- Up to the column where the lists part, the parses are in lockstep. -/
theorem CutAt.coincide (h : CutAt g tokens root k before settled last)
    (h' : CutAt g tokens' root k before' settled' last')
    (htokens : ∀ c < k, tokens'[c]? = tokens[c]?) : Coincide k before before' := by
  obtain ⟨start, seeds, stages, hfileAll, hstart, hlength, hsettles⟩ := h.reached
  obtain ⟨start', seeds', stages', hfileAll', _, hlength', hsettles'⟩ := h'.reached
  have hseeds : ∀ p ∈ seedItems g root, p.current ≤ k := by
    intro p hp
    obtain ⟨rhs, _, rfl⟩ := List.mem_map.1 hp
    exact Nat.zero_le k
  obtain ⟨_, hsame, hcoincide⟩ :=
    (coincide_empty h.le_length h'.le_length).exists_fileAll hseeds hfileAll
  obtain ⟨rfl, _⟩ := Prod.mk.inj (Except.ok.inj (hfileAll'.symm.trans hsame))
  exact hcoincide.settlesEach (by omega) h.le_length htokens hstart hsettles hsettles' (by omega)

/-- In the end the charts mirror each other up to that column. -/
theorem CutAt.mirrors (h : CutAt g tokens root k before settled last)
    (h' : CutAt g tokens' root k before' settled' last')
    (htokens : ∀ c < k, tokens'[c]? = tokens[c]?) : Mirrors k last last' := by
  obtain ⟨sweeps, hsettles⟩ := h.settles
  obtain ⟨sweeps', hsettles'⟩ := h'.settles
  have hmirrors := (h.coincide h' htokens).mirrors h.invariant_before h.le_length
  have hsettled := hmirrors.settle h.invariant_before h'.invariant_before h.le_length h'.le_length
    hsettles hsettles'
  exact ((hsettled.of_agreeBelow h.agree_settled).symm.of_agreeBelow h'.agree_settled).symm

/-- An item before that column has the same number in both charts. -/
theorem CutAt.item_eq (h : CutAt g tokens root k before settled last)
    (h' : CutAt g tokens' root k before' settled' last')
    (htokens : ∀ c < k, tokens'[c]? = tokens[c]?) (hitem : last.items[id]? = some item)
    (hlt : item.current < k) : last'.items[id]? = some item := by
  have hbefore := (h.agree_before.items hlt).1 hitem
  rw [← (h.coincide h' htokens).items] at hbefore
  exact (h'.agree_before.items hlt).2 hbefore

/-! ## Causality -/

/-- The renaming between two charts that leaves the numbers of the columns before `k` alone and takes
each number of column `k` to the one at the same place of that column in the other chart. -/
def Renames (k : Nat) (chart chart' : Chart) (id id' : ItemId) : Prop :=
  (id' = id ∧ ∃ c < k, ∃ ids, chart.columns[c]? = some ids ∧ id ∈ ids) ∨
    ∃ ids ids', chart.columns[k]? = some ids ∧ chart'.columns[k]? = some ids' ∧
      ∃ place : Nat, ids[place]? = some id ∧ ids'[place]? = some id'

/-- Numbers that are alike are renamed into each other. -/
theorem CutAt.renames (h : CutAt g tokens root k before settled last)
    (h' : CutAt g tokens' root k before' settled' last')
    (htokens : ∀ c < k, tokens'[c]? = tokens[c]?) (halike : Alike k last last' id id') :
    Renames k last last' id id' := by
  have hwf := h.invariant_last.wellFormed
  have hwf' := h'.invariant_last.wellFormed
  obtain ⟨item, item', hitem, hitem', hrule, hend⟩ := halike.exists_items
  obtain ⟨ids, hids, hmem⟩ := hwf.filed hitem
  rcases Nat.eq_or_lt_of_le hend with heq | hlt
  · -- The number stands at some place of the column, and the other one at the same place.
    rw [heq] at hids
    obtain ⟨_, ids', _, hids', _⟩ := (h.mirrors h' htokens).columns k (Nat.le_refl k)
    obtain ⟨place, hplace⟩ := Array.mem_iff_getElem?.1 hmem
    obtain ⟨other, hplace', hother⟩ :=
      (h.mirrors h' htokens).exists_place (Nat.le_refl k) hids hids' hplace
    obtain rfl := (biUnique_alike hwf hwf').2 halike hother
    exact Or.inr ⟨ids, ids', hids, hids', place, hplace, hplace'⟩
  · have hsame := h.item_eq h' htokens hitem hlt
    exact Or.inl ⟨(hwf'.distinct hsame hitem' hrule.symm).symm, item.current, hlt, ids, hids, hmem⟩

/-- The tokens from a column on have no say in it or in the columns before. If two token lists agree up
to column `k`, the charts have the same numbers in each column before, and these are the numbers of the
same items with the same children. Column `k` lists the same dotted rules in the same order, with
children that are the same but for the numbers in column `k` itself. -/
theorem parse_causal (g : Grammar) (root : Symbol) {tokens tokens' : List Token} {k : Nat}
    (hk : k ≤ tokens.length) (hk' : k ≤ tokens'.length) (hsame : tokens.take k = tokens'.take k) :
    ∃ chart chart', parse g tokens root = .ok chart ∧ parse g tokens' root = .ok chart' ∧
      (∀ j < k, ∃ ids, chart.columns[j]? = some ids ∧ chart'.columns[j]? = some ids ∧
        ∀ id ∈ ids, ∃ item, chart.items[id]? = some item ∧ chart'.items[id]? = some item) ∧
      ∃ ids ids', chart.columns[k]? = some ids ∧ chart'.columns[k]? = some ids' ∧
        List.Forall₂ (fun id id' => ∃ item item', chart.items[id]? = some item ∧
          chart'.items[id']? = some item' ∧ item'.toDottedRule = item.toDottedRule ∧
          Slot.RowMatches (Renames k chart chart') item.slots item'.slots) ids.toList ids'.toList := by
  have htokens : ∀ c < k, tokens'[c]? = tokens[c]? := by
    intro c hc
    rw [← List.getElem?_take_of_lt hc, ← hsame, List.getElem?_take_of_lt hc]
  obtain ⟨before, settled, chart, h⟩ := exists_cutAt g root hk
  obtain ⟨before', settled', chart', h'⟩ := exists_cutAt g root hk'
  refine ⟨chart, chart', h.parse_eq, h'.parse_eq, fun j hj => ?_, ?_⟩
  · obtain ⟨ids, hids⟩ := h.invariant_last.exists_column (hj.le.trans hk)
    refine ⟨ids, hids, ?_, fun id hid => ?_⟩
    · rw [h'.agree_before.columns hj, (h.coincide h' htokens).columns j hj.le,
        ← h.agree_before.columns hj, hids]
    · obtain ⟨item, hitem, rfl⟩ := h.invariant_last.wellFormed.listed hids hid
      exact ⟨item, hitem, h.item_eq h' htokens hitem hj⟩
  · have hmirrors := h.mirrors h' htokens
    obtain ⟨ids, ids', hids, hids', hcolumns⟩ := hmirrors.columns k (Nat.le_refl k)
    refine ⟨ids, ids', hids, hids', hcolumns.imp fun id id' halike => ?_⟩
    obtain ⟨item, item', hitem, hitem', hrule, hend⟩ := halike.exists_items
    have hslots := hmirrors.slots hitem hitem' hrule hend
    exact ⟨item, item', hitem, hitem', hrule, hslots.mono fun _ _ => h.renames h' htokens⟩

/-- A letter, and perhaps another one. -/
def oneOrTwo : Grammar where
  rules := ⟨[("S", [["a", "T"]]), ("T", [["a"], []])], by simp⟩
  epsilon := Grammar.defaultEpsilon
  classifier := none

/-- A second letter is scanned, and numbered, while the column after the first one is settled. The last
item of that column gets another number, but it is the same up to this. -/
theorem oneOrTwo_causal :
    ["a"].take 1 = ["a", "a"].take 1 ∧ ∃ chart chart', parse oneOrTwo ["a"] "S" = .ok chart ∧
      parse oneOrTwo ["a", "a"] "S" = .ok chart' ∧
      chart.columns[1]? = some #[1, 2, 3, 4, 5] ∧ chart'.columns[1]? = some #[1, 2, 3, 4, 6] ∧
      List.Forall₂ (fun id id' => ∃ item item', chart.items[id]? = some item ∧
        chart'.items[id']? = some item' ∧ item'.toDottedRule = item.toDottedRule ∧
        Slot.RowMatches (Renames 1 chart chart') item.slots item'.slots)
        [1, 2, 3, 4, 5] [1, 2, 3, 4, 6] := by
  have hsame : ["a"].take 1 = ["a", "a"].take 1 := by decide
  obtain ⟨chart, chart', hparse, hparse', _, ids, ids', hids, hids', hcolumns⟩ :=
    parse_causal oneOrTwo "S" (by decide : 1 ≤ ["a"].length) (by decide : 1 ≤ ["a", "a"].length) hsame
  have hcolumn : ((parse oneOrTwo ["a"] "S").toOption.bind fun chart => chart.columns[1]?) =
      some #[1, 2, 3, 4, 5] := by decide +kernel
  have hcolumn' : ((parse oneOrTwo ["a", "a"] "S").toOption.bind fun chart => chart.columns[1]?) =
      some #[1, 2, 3, 4, 6] := by decide +kernel
  rw [hparse] at hcolumn
  rw [hparse'] at hcolumn'
  obtain rfl := Option.some.inj (hids.symm.trans hcolumn)
  obtain rfl := Option.some.inj (hids'.symm.trans hcolumn')
  exact ⟨hsame, chart, chart', hparse, hparse', hcolumn, hcolumn', hcolumns⟩

end ChartParser.Parse
