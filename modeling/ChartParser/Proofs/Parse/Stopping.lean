import ChartParser.Proofs.Parse.Causality
import ChartParser.Proofs.Parse.Recognition
import ChartParser.Proofs.Tree.Extraction

/-!
# Where a parse stops

A token that no item of its column waits for ends the parse: nothing is scanned there, and an empty
column gives the rules nothing to work on, so all columns behind it stay empty as well. The chart is
then the one of the tokens before. As long as each token is awaited, the columns fill up, whatever the
classifier says of it.

## Main results

- `Progress.eq_of_endsBy`: columns that nothing has reached are settled as they are
- `CutAt.coincide_of_not_awaits`: two parses do the same in a column where neither token is awaited
- `parse_stops`: what a token that is not awaited leaves of a parse
-/

namespace ChartParser

/-- A token that is spelled like the marker satisfies nothing, whatever the classifier says of it. -/
theorem Grammar.terminalsFor_epsilon (g : Grammar) : g.terminalsFor g.epsilon = [] :=
  if_pos (isEpsilon_eq_true_iff.2 rfl)

/-- Some item of column `k` waits for a terminal that the token satisfies. -/
def Chart.Awaits (chart : Chart) (g : Grammar) (k : Nat) (word : Token) : Prop :=
  ∃ ids id item s, chart.columns[k]? = some ids ∧ id ∈ ids ∧ chart.items[id]? = some item ∧
    item.next? = some s ∧ g.alternatives? s = none ∧ s ∈ g.terminalsFor word

namespace Parse

variable {g : Grammar} {tokens tokens' : List Token} {root : Symbol} {i j k : Nat} {word : Token}
variable {chart last before settled : Chart} {last' before' settled' : Chart}
variable {visited : List ItemId} {filings : List Filing} {sweeps : List (List Filing)}

/-! ## Nothing comes of an empty column -/

theorem Sweeps.eq_of_empty (h : Sweeps g tokens i j chart visited filings last)
    (hempty : ∀ ids, chart.columns[i]? = some ids → ids = #[]) : filings = [] ∧ last = chart := by
  cases h with
  | done => exact ⟨rfl, rfl⟩
  | visit hids hid =>
    rw [hempty _ hids] at hid
    simp at hid

theorem Settles.eq_of_empty (h : Settles g tokens i chart sweeps last)
    (hempty : ∀ ids, chart.columns[i]? = some ids → ids = #[]) : last = chart := by
  cases h with
  | unchanged hsweep => exact (hsweep.eq_of_empty hempty).2
  | changed hsweep hne => exact absurd (hsweep.eq_of_empty hempty).1 hne

/-- No item of the chart ends behind column `k`. -/
def EndsBy (k : Nat) (chart : Chart) : Prop :=
  ∀ (id : ItemId) (item : Item), chart.items[id]? = some item → item.current ≤ k

theorem EndsBy.column_eq_empty (h : EndsBy k chart) (hwf : chart.WellFormed) (hk : k < i)
    {ids : Array ItemId} (hids : chart.columns[i]? = some ids) : ids = #[] := by
  apply Array.eq_empty_iff_forall_not_mem.2
  intro id hid
  obtain ⟨item, hitem, hcurrent⟩ := hwf.listed hids hid
  have hle := h id item hitem
  omega

/-- If all items end before the columns that are left, these are settled as they are. -/
theorem Progress.eq_of_endsBy {stages : List Stage} (h : Progress g tokens root i chart stages last)
    (hinv : Invariant g tokens root chart) (hends : EndsBy k chart) (hk : k < i) : last = chart := by
  induction h with
  | nil => rfl
  | cons hsettle _ _ _ ih =>
    -- The next column is empty and settles as it is, and so the items still end where they did.
    obtain rfl := (settles_of_settleWithin hsettle).eq_of_empty fun ids hids =>
      hends.column_eq_empty hinv.wellFormed hk hids
    exact ih hinv hends (Nat.lt_succ_of_lt hk)

/-! ## Tokens that are awaited -/

theorem awaits_of_item {id : ItemId} {item : Item} {s : Symbol} (hwf : chart.WellFormed)
    (hitem : chart.items[id]? = some item) (hnext : item.next? = some s)
    (hnone : g.alternatives? s = none) (hmem : s ∈ g.terminalsFor word) :
    chart.Awaits g item.current word := by
  obtain ⟨ids, hids, hid⟩ := hwf.filed hitem
  exact ⟨ids, id, item, s, hids, hid, hitem, hnext, hnone, hmem⟩

/-- What is scanned from a column was awaited there. -/
theorem Converged.awaits_of_fromToken (h : Converged g tokens root chart) {r : DottedRule}
    (htoken : FromToken g tokens root r) (hword : tokens[r.origin]? = some word) :
    chart.Awaits g r.origin word := by
  obtain ⟨word', hword', hmem, _⟩ := htoken.scanned
  obtain rfl := Option.some.inj (hword.symm.trans hword')
  obtain ⟨_, hwaits, hnext, hcurrent⟩ := htoken.wanted
  -- The rule that wants the token stands for an item of the chart.
  obtain ⟨id, waiting, hwaiting, rfl⟩ := h.exists_fromRule hwaits
  rw [← hcurrent]
  exact awaits_of_item h.wellFormed hwaiting hnext htoken.terminal hmem

/-- If the token is awaited, it is scanned, and the next column has an item. -/
theorem Converged.column_ne_empty_of_awaits (h : Converged g tokens root chart)
    (hword : tokens[k]? = some word) (hawaits : chart.Awaits g k word) :
    ∃ ids, chart.columns[k + 1]? = some ids ∧ ids ≠ #[] := by
  obtain ⟨ids, id, item, s, hids, hid, hitem, hnext, hnone, hmem⟩ := hawaits
  obtain ⟨known, hknown, hcurrent⟩ := h.wellFormed.listed hids hid
  obtain rfl := Option.some.inj (hitem.symm.trans hknown)
  rw [← hcurrent] at hword ⊢
  -- The column is settled, so the chart covers what is scanned for the item.
  obtain ⟨childId, child, hchild, hrule, _⟩ :=
    h.settled item.current id item _ hitem rfl (.scan hnext hnone hword hmem)
  obtain ⟨later, hlater, hmember⟩ := h.wellFormed.filed hchild
  have hends : child.current = item.current + 1 := by
    rw [hrule]
    rfl
  rw [hends] at hlater
  refine ⟨later, hlater, ?_⟩
  rintro rfl
  exact Array.not_mem_empty _ hmember

/-! ## Parses cut where a token is not awaited -/

/-- If the token behind the column is not awaited, nothing ends behind the column once it is settled. -/
theorem CutAt.endsBy_of_not_awaits (h : CutAt g tokens root k before settled last)
    (hlast : Converged g tokens root last)
    (hawaits : ∀ word, tokens[k]? = some word → ¬ last.Awaits g k word) : EndsBy k settled := by
  intro id item hitem
  apply Nat.le_of_not_lt
  intro hlt
  -- What ends behind column `k` by now was scanned from it, so its token was awaited there.
  obtain ⟨hcurrent, htoken⟩ := h.ahead id item hitem hlt
  have horigin : item.origin = k := by
    have := htoken.current_eq
    omega
  obtain ⟨word, hword, _⟩ := htoken.scanned
  have hwaits := hlast.awaits_of_fromToken htoken hword
  rw [horigin] at hword hwaits
  exact hawaits word hword hwaits

/-- Then the parse is over. -/
theorem CutAt.last_eq (h : CutAt g tokens root k before settled last) (hends : EndsBy k settled) :
    last = settled := by
  obtain ⟨sweeps, hsettles⟩ := h.settles
  obtain ⟨stages, hrest⟩ := h.rest
  have hsettled := (hsettles.run h.invariant_before h.le_length).invariant h.invariant_before
  exact hrest.eq_of_endsBy hsettled hends (Nat.lt_succ_self k)

/-- So the chart of the parse is the one with which the column is settled. -/
theorem exists_cutAt_of_not_awaits (hparse : parse g tokens root = .ok chart) (hk : k ≤ tokens.length)
    (hawaits : ∀ word, tokens[k]? = some word → ¬ chart.Awaits g k word) :
    ∃ before, CutAt g tokens root k before chart chart ∧ EndsBy k chart ∧
      Converged g tokens root chart := by
  obtain ⟨before, settled, last, hcut⟩ := exists_cutAt g root hk
  obtain rfl := Except.ok.inj (hparse.symm.trans hcut.parse_eq)
  obtain ⟨_, hparse', hconverged⟩ := exists_parse g tokens root
  obtain rfl := Except.ok.inj (hparse.symm.trans hparse')
  -- What is awaited is read off the finished chart, which has converged.
  have hends := hcut.endsBy_of_not_awaits hconverged hawaits
  obtain rfl := hcut.last_eq hends
  exact ⟨before, hcut, hends, hconverged⟩

/-- Where neither token is awaited, the parses are in lockstep for one more column. -/
theorem CutAt.coincide_of_not_awaits (h : CutAt g tokens root k before settled last)
    (h' : CutAt g tokens' root k before' settled' last')
    (htokens : ∀ c < k, tokens'[c]? = tokens[c]?) (hwf : settled.WellFormed)
    (hawaits : ∀ word, tokens[k]? = some word ∨ tokens'[k]? = some word →
      ¬ settled.Awaits g k word) : Coincide k settled settled' := by
  obtain ⟨sweeps, hsettles⟩ := h.settles
  obtain ⟨sweeps', hsettles'⟩ := h'.settles
  -- In neither parse is anything scanned for an item of the column.
  have hscans : ∀ id r, settled.holds r id = true → r.current = k →
      ScansAlike g tokens tokens' k r := by
    rintro id r hholds rfl
    obtain ⟨item, hitem, rfl⟩ := Chart.holds_eq_true_iff.1 hholds
    apply Or.inr
    constructor
    · rintro ⟨s, word, hnext, hnone, hword, hmem⟩
      exact hawaits word (Or.inl hword) (awaits_of_item hwf hitem hnext hnone hmem)
    · rintro ⟨s, word, hnext, hnone, hword, hmem⟩
      exact hawaits word (Or.inr hword) (awaits_of_item hwf hitem hnext hnone hmem)
  -- There is only one outcome of settling the column, the one that the other parse has.
  obtain ⟨next, hnext, hsame⟩ := (h.coincide h' htokens).exists_settles (Nat.le_refl k) h.le_length
    h.invariant_before hsettles hscans
  obtain ⟨_, rfl⟩ := hnext.unique hsettles'
  exact hsame

/-! ## The stop -/

/-- What is left of a parse that stops at column `k`: the columns behind it are empty, nothing is
finished, and all the rest is what the parse of the tokens before the column ends with. -/
structure StopsAt (tokens : List Token) (k : Nat) (chart shorter : Chart) : Prop where
  empty : ∀ c ≤ tokens.length, k < c → chart.columns[c]? = some #[]
  unfinished : ∀ q, chart.finishedRoots q = [] ∧ chart.trees q = .ok []
  items_eq : chart.items = shorter.items
  columns_eq : ∀ c ≤ k, chart.columns[c]? = shorter.columns[c]?

/-- No symbol is finished if nothing reaches the last column. -/
theorem EndsBy.unfinished (h : EndsBy k chart) (hinv : Invariant g tokens root chart)
    (hk : k < tokens.length) (q : Symbol) : chart.finishedRoots q = [] ∧ chart.trees q = .ok [] := by
  have hroots : chart.finishedRoots q = [] := by
    apply List.eq_nil_iff_forall_not_mem.2
    intro id hid
    obtain ⟨item, hitem, _, _, _, hcurrent⟩ := hinv.mem_finishedRoots_iff.1 hid
    have hle := h id item hitem
    omega
  refine ⟨hroots, Chart.trees_eq_ok_iff.2 ⟨[], ?_, rfl⟩⟩
  rw [hroots]
  rfl

theorem stopsAt_of_not_awaits {shorter : Chart} (hchart : parse g tokens root = .ok chart)
    (hshorter : parse g (tokens.take k) root = .ok shorter) (hword : tokens[k]? = some word)
    (hawaits : ¬ chart.Awaits g k word) : StopsAt tokens k chart shorter := by
  have hk : k < tokens.length := (List.getElem?_eq_some_iff.1 hword).1
  have htake : (tokens.take k).length = k := by
    rw [List.length_take]
    omega
  have hawaits' : ∀ word', tokens[k]? = some word' → ¬ chart.Awaits g k word' := fun word' hword' =>
    Option.some.inj (hword.symm.trans hword') ▸ hawaits
  -- Both parses are over once they have settled column `k`.
  obtain ⟨before, hcut, hends, hconverged⟩ := exists_cutAt_of_not_awaits hchart hk.le hawaits'
  obtain ⟨before', hcut', _⟩ := exists_cutAt_of_not_awaits hshorter htake.ge fun word' hword' => by
    simp at hword'
  have hsame := hcut.coincide_of_not_awaits hcut' (fun c hc => List.getElem?_take_of_lt hc)
    hconverged.wellFormed fun word' hword' => hawaits' word' (hword'.resolve_right (by simp))
  constructor
  case empty =>
    intro c hle hlt
    obtain ⟨ids, hids⟩ := hconverged.exists_column hle
    rw [hids, hends.column_eq_empty hconverged.wellFormed hlt hids]
  case unfinished => exact hends.unfinished hconverged.toInvariant hk
  case items_eq => exact hsame.items.symm
  case columns_eq => exact fun c hc => (hsame.columns c hc).symm

/-- A token that is not awaited stops the parse. If the token behind column `k` is the epsilon marker, or
no item of the column waits for a terminal that it satisfies, then all columns behind are empty, no
symbol is finished, and the items are those of the parse of the tokens before, with the same numbers and
the same children. Otherwise the next column has an item. -/
theorem parse_stops (g : Grammar) (root : Symbol) {tokens : List Token} {k : Nat} {word : Token}
    (hword : tokens[k]? = some word) :
    ∃ chart shorter, parse g tokens root = .ok chart ∧
      parse g (tokens.take k) root = .ok shorter ∧
      (word = g.epsilon ∨ ¬ chart.Awaits g k word → StopsAt tokens k chart shorter) ∧
      (¬ (word = g.epsilon ∨ ¬ chart.Awaits g k word) →
        ∃ ids, chart.columns[k + 1]? = some ids ∧ ids ≠ #[]) := by
  obtain ⟨chart, hchart, hconverged⟩ := exists_parse g tokens root
  obtain ⟨shorter, hshorter, _⟩ := exists_parse g (tokens.take k) root
  refine ⟨chart, shorter, hchart, hshorter, fun hstop => ?_, fun hgoes => ?_⟩
  · have hawaits : ¬ chart.Awaits g k word := by
      -- A token spelled like the marker is awaited by nothing, as it satisfies no terminal.
      rcases hstop with rfl | hawaits
      · rintro ⟨_, _, _, s, _, _, _, _, _, hmem⟩
        rw [g.terminalsFor_epsilon] at hmem
        exact List.not_mem_nil hmem
      · exact hawaits
    exact stopsAt_of_not_awaits hchart hshorter hword hawaits
  · apply hconverged.column_ne_empty_of_awaits hword
    exact Classical.not_not.1 fun hawaits => hgoes (Or.inr hawaits)

/-- Rows of one letter. The classifier takes another letter for the symbol with rules and for the
marker. -/
def letters : Grammar where
  rules := ⟨[("S", [["a", "S"], ["a"]])], by simp⟩
  epsilon := Grammar.defaultEpsilon
  classifier := some fun token => if token = "b" then ["S", Grammar.defaultEpsilon, "c"] else []

/-- A letter that only a symbol with rules would match stops the parse behind the first letter, although
an item waits for that symbol there. -/
theorem letters_stop :
    ["a", "b", "a"][1]? = some "b" ∧ "S" ∈ letters.terminalsFor "b" ∧
      ∃ chart shorter, parse letters ["a", "b", "a"] "S" = .ok chart ∧
        parse letters ["a"] "S" = .ok shorter ∧ ¬ chart.Awaits letters 1 "b" ∧
        StopsAt ["a", "b", "a"] 1 chart shorter ∧ chart.items.size = 7 := by
  have hword : ["a", "b", "a"][1]? = some "b" := by decide
  obtain ⟨chart, shorter, hchart, hshorter, hstops, hgoes⟩ := parse_stops letters "S" hword
  have hcolumn : ((parse letters ["a", "b", "a"] "S").toOption.bind fun chart => chart.columns[2]?) =
      some #[] := by decide +kernel
  have hsize : ((parse letters ["a", "b", "a"] "S").toOption.map fun chart => chart.items.size) =
      some 7 := by decide +kernel
  rw [hchart] at hcolumn hsize
  have hawaits : ¬ chart.Awaits letters 1 "b" := by
    intro hawaits
    obtain ⟨ids, hids, hne⟩ := hgoes fun hstop => hstop.elim (by decide) fun hnot => hnot hawaits
    exact hne (Option.some.inj (hids.symm.trans hcolumn))
  exact ⟨hword, by decide, chart, shorter, hchart, hshorter, hawaits, hstops (Or.inr hawaits),
    Option.some.inj hsize⟩

end Parse

end ChartParser
