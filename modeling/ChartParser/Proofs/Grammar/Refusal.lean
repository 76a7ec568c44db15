import ChartParser.Proofs.Grammar.RoundTrip

/-!
# Which texts are no rules

A text that is no layout of any rule is refused, and what stands before its first arrow tells why: there
is no arrow, or nothing but white space before it, or white space inside of what is left there after
trimming. Nothing that stands behind the first arrow is a reason to refuse a text.

## Main results

- `ofText_eq_error_iff`: when a text is refused, and for which cause
- `ofText_exact`: which rule is read from which text, and which texts are refused
-/

namespace ChartParser.Rule

open ChartParser.Text

variable {text : String} {left right : List Char} {e : FormatError}

/-- Why a text is no rule. The cause carries the text as it is. -/
inductive Refused (text : String) : FormatError → Prop
  /-- There is no arrow. -/
  | missingArrow : ¬ arrow <:+: text.toList → Refused text (.missingArrow text)
  /-- There is only white space before the first arrow. -/
  | emptyLeftHandSide {left right : List Char} :
      text.toList = left ++ arrow ++ right → ¬ arrow <:+: left → trim left = [] →
      Refused text (.emptyLeftHandSide text)
  /-- There is white space inside of what stands before the first arrow. -/
  | multipleLeftHandSymbols {left right : List Char} :
      text.toList = left ++ arrow ++ right → ¬ arrow <:+: left → trim left ≠ [] →
      (∃ c ∈ trim left, isBlank c = true) → Refused text (.multipleLeftHandSymbols text)

/-! ## Refusals -/

theorem ofSides_eq_error_iff :
    ofSides text (trim left) right = .error e ↔
      (trim left = [] ∧ e = .emptyLeftHandSide text) ∨
        (trim left ≠ [] ∧ (∃ c ∈ trim left, isBlank c = true) ∧ e = .multipleLeftHandSymbols text) := by
  simp only [ofSides, isSome_second_word_iff]
  split
  · rename_i hempty
    simp only [hempty, Except.error.injEq, ne_eq, not_true_eq_false, false_and, or_false, true_and]
    exact eq_comm
  · rename_i hne
    split
    · rename_i hblank
      simp only [hne, hblank, Except.error.injEq, ne_eq, not_false_eq_true, true_and, false_and, false_or]
      exact eq_comm
    · rename_i hword
      simp only [hne, hword, reduceCtorEq, false_and, and_false, or_false]

/-- A text is refused for what stands before its first arrow. -/
theorem ofText_eq_error_iff : ofText text = .error e ↔ Refused text e := by
  constructor
  · -- Reading cuts at the first arrow, so each way to fail is one of the causes.
    intro h
    rw [ofText_eq_cut] at h
    cases hcut : cut arrow text.toList with
    | none =>
      rw [hcut] at h
      cases h
      exact .missingArrow ((cut_eq_none_iff (by decide)).1 hcut)
    | some sides =>
      obtain ⟨left, right⟩ := sides
      rw [hcut] at h
      obtain ⟨htext, hleft⟩ := cut_eq_some_iff.1 hcut
      rcases ofSides_eq_error_iff.1 h with ⟨hempty, rfl⟩ | ⟨hne, hblank, rfl⟩
      · exact .emptyLeftHandSide htext hleft hempty
      · exact .multipleLeftHandSymbols htext hleft hne hblank
  · -- Each cause fixes the cut, and with it the branch that reading takes.
    intro h
    cases h with
    | missingArrow hnone => rw [ofText_eq_cut, (cut_eq_none_iff (by decide)).2 hnone]
    | emptyLeftHandSide htext hleft hempty =>
      rw [ofText_eq_cut, cut_eq_some_iff.2 ⟨htext, hleft⟩]
      exact ofSides_eq_error_iff.2 (Or.inl ⟨hempty, rfl⟩)
    | multipleLeftHandSymbols htext hleft hne hblank =>
      rw [ofText_eq_cut, cut_eq_some_iff.2 ⟨htext, hleft⟩]
      exact ofSides_eq_error_iff.2 (Or.inr ⟨hne, hblank, rfl⟩)

/-- A text is refused exactly if it is no layout of any rule. -/
theorem exists_refused_iff : (∃ e, Refused text e) ↔ ∀ r, ¬ Layout r text.toList := by
  simp only [← ofText_eq_error_iff, ← ofText_eq_ok_iff]
  cases ofText text <;> simp

/-- The rules that have a layout are those that can be written. -/
theorem wellSpelled_iff_exists_layout {r : Rule} :
    WellSpelled r ↔ ∃ text : String, Layout r text.toList := by
  constructor
  · intro h
    -- One layout is the line in which the rule is written back.
    have hentry : WellSpelled (Grammar.entryRule (r.lhs, r.alternatives)) := h
    exact ⟨_, Grammar.layout_ruleLine hentry⟩
  · rintro ⟨text, h⟩
    exact h.wellSpelled

/-- A rule has layouts exactly if its left-hand symbol is a word without an arrow, it has an alternative,
and the symbols of its alternatives are words without a bar. It is read from exactly the texts that are
layouts of it. Every other text is refused: for want of an arrow, or because what stands before the first
arrow is empty or holds white space when it is trimmed. The refusal carries the text unchanged. -/
theorem ofText_exact :
    (∀ r : Rule, WellSpelled r ↔ ∃ text : String, Layout r text.toList) ∧
      (∀ (text : String) (r : Rule), ofText text = .ok r ↔ Layout r text.toList) ∧
      (∀ text : String, (∃ e, Refused text e) ↔ ∀ r, ¬ Layout r text.toList) ∧
      ∀ (text : String) (e : FormatError), ofText text = .error e ↔ Refused text e :=
  ⟨fun _ => wellSpelled_iff_exists_layout, fun _ _ => ofText_eq_ok_iff, fun _ => exists_refused_iff,
    fun _ _ => ofText_eq_error_iff⟩

/-- Of several arrows the first one counts, also right behind a symbol that ends like one begins. -/
example : ofText "S--> ->\n|" = .ok ⟨"S-", [["->"], []]⟩ ∧
    ofText "A B -> -> c" = .error (.multipleLeftHandSymbols "A B -> -> c") :=
  ⟨rfl, rfl⟩

end ChartParser.Rule
