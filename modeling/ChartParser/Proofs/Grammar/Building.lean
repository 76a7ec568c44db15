import ChartParser.Proofs.FirstMention
import ChartParser.Proofs.Grammar.Refusal

/-!
# What a declaration is built into

A declaration comes to a row of rule texts, in the order of its steps, whether the rules are given one by
one, several at once or as lines of a text. The first text in this row that is no rule decides the
refusal. If there is none, the rules are gathered: left-hand symbols in the order in which they are first
mentioned, each with the alternatives of all its rules. So it makes no difference to the alternatives of
a symbol how its rules are cut up, what stands between them, and through which step they came.

## Main results

- `build_eq_error_iff`: the first text that is no rule decides
- `exists_build_of_spells`: what the rules are gathered into
- `Splits.build_rules_eq`, `Moves.build_alternatives_eq`, `build_text`: what makes no difference
- `build_gathers`: all of this together
-/

namespace ChartParser

open Rule

/-- The text that is refused. -/
def FormatError.text : FormatError → String
  | missingArrow rule => rule
  | emptyLeftHandSide rule => rule
  | multipleLeftHandSymbols rule => rule
  | missingCategorySeparator line => line

/-- A refusal carries the text that is no rule. -/
theorem Rule.Refused.text_eq {text : String} {e : FormatError} (h : Refused text e) :
    e.text = text := by
  cases h <;> rfl

theorem Rule.Layout.ne_nil {r : Rule} {chars : List Char} (h : Layout r chars) : chars ≠ [] := by
  cases h
  simp [arrow]

namespace Grammar

variable {steps steps' later : List Declaration} {texts texts' lines : List String}
variable {rules rules' front back : List Rule} {e : FormatError} {text : String} {r : Rule}

/-- All rule texts of a declaration, in the order of its steps. -/
def declared (steps : List Declaration) : List String := steps.flatMap Declaration.ruleTexts

/-- The texts spell the rules, one each. -/
def Spells (texts : List String) (rules : List Rule) : Prop :=
  List.Forall₂ (fun text r => Rule.ofText text = .ok r) texts rules

theorem spells_iff : Spells texts rules ↔ texts.mapM Rule.ofText = .ok rules :=
  mapM_eq_ok_iff.symm

/-! ## Reading the texts -/

/-- Apart from the rules, a declaration gives a marker and a classifier. -/
theorem build_eq_map (steps : List Declaration) :
    build steps = ((declared steps).mapM Rule.ofText).map fun rules =>
      ⟨gather rules, (steps.filterMap Declaration.epsilon?).getLast?.getD defaultEpsilon,
        (steps.filterMap Declaration.classifier?).getLast?⟩ := by
  unfold build declared
  cases (steps.flatMap Declaration.ruleTexts).mapM Rule.ofText <;> rfl

theorem map_rules_build (steps : List Declaration) :
    (build steps).map Grammar.rules = ((declared steps).mapM Rule.ofText).map gather := by
  rw [build_eq_map]
  cases (declared steps).mapM Rule.ofText <;> rfl

theorem map_alternatives_build (steps : List Declaration) :
    (build steps).map Grammar.alternatives? =
      ((declared steps).mapM Rule.ofText).map fun rules => (gather rules).get? := by
  rw [build_eq_map]
  cases (declared steps).mapM Rule.ofText <;> rfl

/-- A declaration is refused for its rules only. -/
theorem build_eq_error_iff_mapM :
    build steps = .error e ↔ (declared steps).mapM Rule.ofText = .error e := by
  rw [build_eq_map]
  cases (declared steps).mapM Rule.ofText <;> simp [Except.map]

theorem exists_build_eq_error_iff :
    (∃ e, build steps = .error e) ↔ ∃ text ∈ declared steps, ∃ e, Rule.ofText text = .error e := by
  simp only [build_eq_error_iff_mapM]
  exact exists_mapM_eq_error_iff

/-- The first text that is no rule decides the refusal, which carries this text. -/
theorem build_eq_error_iff :
    build steps = .error e ↔ ∃ before text after, declared steps = before ++ text :: after ∧
      (∀ earlier ∈ before, ∃ r, Rule.ofText earlier = .ok r) ∧ Rule.ofText text = .error e ∧
      e.text = text := by
  -- Each refusal carries its text, so that part is there for free.
  rw [build_eq_error_iff_mapM, mapM_eq_error_iff]
  constructor
  · rintro ⟨before, text, after, hsteps, hbefore, htext⟩
    exact ⟨before, text, after, hsteps, hbefore, htext, (ofText_eq_error_iff.1 htext).text_eq⟩
  · rintro ⟨before, text, after, hsteps, hbefore, htext, -⟩
    exact ⟨before, text, after, hsteps, hbefore, htext⟩

/-- Rules are gathered by left-hand symbol, everything in the order of first mention. -/
theorem exists_build_of_spells (h : Spells (declared steps) rules) :
    ∃ g, build steps = .ok g ∧ g.rules.keys = (rules.map Rule.lhs).eraseDups ∧
      ∀ s, g.alternatives? s =
        if s ∈ rules.map Rule.lhs then
          some ((rules.filter fun r => r.lhs == s).flatMap Rule.alternatives)
        else none := by
  rw [build_eq_map, spells_iff.1 h]
  exact ⟨_, rfl, keys_gather rules, get?_gather rules⟩

/-! ## Cutting up rules -/

theorem addRule_addRule (known : Table (List Alternative)) (lhs : Symbol)
    (first second : List Alternative) :
    addRule (addRule known ⟨lhs, first⟩) ⟨lhs, second⟩ = addRule known ⟨lhs, first ++ second⟩ := by
  unfold addRule
  simp [Table.update_update]

/-- One text is replaced by two that share its alternatives out in order. -/
inductive Splits : List String → List String → Prop
  | intro {before after : List String} {whole first second : String} {lhs : Symbol}
      {xs ys : List Alternative} :
      Layout ⟨lhs, xs ++ ys⟩ whole.toList →
      Layout ⟨lhs, xs⟩ first.toList → Layout ⟨lhs, ys⟩ second.toList →
      Splits (before ++ [whole] ++ after) (before ++ [first, second] ++ after)

/-- A rule can be cut up between two alternatives. -/
theorem Splits.build_rules_eq (h : Splits (declared steps) (declared steps')) :
    (build steps).map Grammar.rules = (build steps').map Grammar.rules := by
  rw [map_rules_build, map_rules_build]
  generalize declared steps = texts at h
  generalize declared steps' = texts' at h
  cases h with
  | intro hwhole hfirst hsecond =>
    -- Whatever is gathered before, adding the whole rule is adding its two parts in turn.
    apply map_mapM_replace
    · exact spells_iff.1 (.cons hwhole.ofText_eq .nil)
    · exact spells_iff.1 (.cons hfirst.ofText_eq (.cons hsecond.ofText_eq .nil))
    · intro front back
      simp [gather, addRule_addRule]

/-! ## Moving rules -/

/-- Two rows of texts change places, of which no rule in one is for a symbol of the other. -/
inductive Moves : List String → List String → Prop
  | intro {before first second after : List String} {rules rules' : List Rule} :
      Spells first rules → Spells second rules' →
      (∀ r ∈ rules, ∀ r' ∈ rules', r.lhs ≠ r'.lhs) →
      Moves (before ++ (first ++ second) ++ after) (before ++ (second ++ first) ++ after)

/-- Rules for one symbol are in one of the rows only, so they stay in order. -/
theorem filter_append_comm (h : ∀ r ∈ rules, ∀ r' ∈ rules', r.lhs ≠ r'.lhs) (s : Symbol) :
    (rules ++ rules').filter (fun r => r.lhs == s) = (rules' ++ rules).filter fun r => r.lhs == s := by
  rw [List.filter_append, List.filter_append]
  -- If the first row has a rule for the symbol, the second has none.
  by_cases hmem : ∃ r ∈ rules, r.lhs = s
  · obtain ⟨r, hr, rfl⟩ := hmem
    have hnone : (rules'.filter fun r' => r'.lhs == r.lhs) = [] := by
      simpa [List.filter_eq_nil_iff] using fun r' hr' => (h r hr r' hr').symm
    simp [hnone]
  · have hnone : (rules.filter fun r => r.lhs == s) = [] := by
      simpa [List.filter_eq_nil_iff] using hmem
    simp [hnone]

theorem get?_gather_move (h : ∀ r ∈ rules, ∀ r' ∈ rules', r.lhs ≠ r'.lhs) :
    (gather (front ++ (rules ++ rules') ++ back)).get? =
      (gather (front ++ (rules' ++ rules) ++ back)).get? := by
  funext s
  -- The symbols are the same up to their order, and the rules for one symbol keep theirs.
  have hmem : s ∈ (front ++ (rules ++ rules') ++ back).map Rule.lhs ↔
      s ∈ (front ++ (rules' ++ rules) ++ back).map Rule.lhs :=
    (((List.perm_append_comm.append_left front).append_right back).map Rule.lhs).mem_iff
  have hfilter : (front ++ (rules ++ rules') ++ back).filter (fun r => r.lhs == s) =
      (front ++ (rules' ++ rules) ++ back).filter fun r => r.lhs == s := by
    rw [List.filter_append, List.filter_append, filter_append_comm h, ← List.filter_append,
      ← List.filter_append]
  rw [get?_gather, get?_gather, hfilter]
  exact if_congr hmem rfl rfl

/-- Rules for different symbols can be moved past each other. -/
theorem Moves.build_alternatives_eq (h : Moves (declared steps) (declared steps')) :
    (build steps).map Grammar.alternatives? = (build steps').map Grammar.alternatives? := by
  rw [map_alternatives_build, map_alternatives_build]
  generalize declared steps = texts at h
  generalize declared steps' = texts' at h
  cases h with
  | intro hfirst hsecond hne =>
    -- Both orders are read without a refusal, each as the two rows of rules in its order.
    apply map_mapM_replace
    · exact spells_iff.1 (List.rel_append hfirst hsecond)
    · exact spells_iff.1 (List.rel_append hsecond hfirst)
    · intro front back
      exact get?_gather_move hne

/-! ## Rules as lines of a text -/

/-- The text is a rule and can stand as a line among others. -/
structure IsLine (text : String) : Prop where
  newline_notMem : '\n' ∉ text.toList
  not_comment : (Text.trim text.toList).head? ≠ some '#'
  exists_rule : ∃ r, Rule.ofText text = .ok r

/-- A line of rule text, as it is found in the text. -/
def trimmed (line : String) : String := String.ofList (Text.trim line.toList)

theorem ofText_trimmed (h : Rule.ofText text = .ok r) : Rule.ofText (trimmed text) = .ok r := by
  apply Layout.ofText_eq
  rw [trimmed, String.toList_ofList]
  exact (layout_of_ofText h).trim

theorem ruleTexts_intercalate (h : ∀ line ∈ lines, IsLine line) :
    (Declaration.text (String.intercalate "\n" lines)).ruleTexts = lines.map trimmed := by
  have hrows : ∀ row ∈ lines.map String.toList, '\n' ∉ row :=
    List.forall_mem_map.2 fun line hline => (h line hline).newline_notMem
  -- No line is left out, since a rule is not empty and none of these lines is a comment.
  have hkept : ((lines.map String.toList).map Text.trim).filter
      (fun line => ! line.isEmpty && line.head? != some '#') =
        (lines.map String.toList).map Text.trim := by
    rw [List.filter_eq_self, List.map_map, List.forall_mem_map]
    intro line hline
    obtain ⟨r, hr⟩ := (h line hline).exists_rule
    have hne := (layout_of_ofText hr).trim.ne_nil
    simpa [hne] using (h line hline).not_comment
  show (Text.significantLines (String.intercalate "\n" lines).toList).map String.ofList = _
  rw [String.toList_intercalate]
  show (Text.significantLines (['\n'].intercalate _)).map String.ofList = _
  rw [Text.significantLines_intercalate hrows, hkept, List.map_map, List.map_map]
  rfl

/-- Rules can be given as lines of a text as well as one by one. -/
theorem build_text (h : ∀ line ∈ lines, IsLine line) :
    build (steps ++ .text (String.intercalate "\n" lines) :: later) =
      build (steps ++ lines.map .rule ++ later) := by
  obtain ⟨rules, hrules⟩ := exists_mapM_eq_ok fun line hline => (h line hline).exists_rule
  -- A line in a text is read trimmed, which makes no difference to its rule.
  have htrimmed : (lines.map trimmed).mapM Rule.ofText = .ok rules := by
    rw [← spells_iff, Spells, List.forall₂_map_left_iff]
    exact (spells_iff.2 hrules).imp fun _ _ => ofText_trimmed
  have htext : declared (steps ++ .text (String.intercalate "\n" lines) :: later) =
      declared steps ++ (lines.map trimmed ++ declared later) := by
    simp [declared, ruleTexts_intercalate h]
  have hsingle : declared (steps ++ lines.map .rule ++ later) =
      declared steps ++ (lines ++ declared later) := by
    simp [declared, List.flatMap_map, Declaration.ruleTexts]
  have hepsilon : (lines.map Declaration.rule).filterMap Declaration.epsilon? = [] := by
    simp [Declaration.epsilon?]
  have hclassifier : (lines.map Declaration.rule).filterMap Declaration.classifier? = [] := by
    simp [Declaration.classifier?]
  -- The rules are the same, and neither way gives a marker or a classifier.
  rw [build_eq_map, build_eq_map, htext, hsingle]
  simp only [List.mapM_append, hrules, htrimmed, List.filterMap_append, hepsilon, hclassifier]
  simp [Declaration.epsilon?, Declaration.classifier?]

/-! ## The whole outcome -/

/-- The first text of a declaration that is no rule decides the refusal, which carries it. If all of them
are rules, the left-hand symbols are listed once each in the order of first mention, and a symbol has the
alternatives of all its rules, in the order of the rules, or none if there is no rule for it. Hence it
makes no difference to the rules if one is cut up into two, nor to the alternatives of any symbol if rules
for different symbols are moved past each other, nor to the grammar if rules are lines of a text. -/
theorem build_gathers (steps : List Declaration) :
    ((∃ e, build steps = .error e) ↔ ∃ text ∈ declared steps, ∃ e, Rule.ofText text = .error e) ∧
    (∀ e, build steps = .error e ↔ ∃ before text after, declared steps = before ++ text :: after ∧
      (∀ earlier ∈ before, ∃ r, Rule.ofText earlier = .ok r) ∧ Rule.ofText text = .error e ∧
      e.text = text) ∧
    ((∀ text ∈ declared steps, ∃ r, Rule.ofText text = .ok r) →
      ∃ rules g, Spells (declared steps) rules ∧ build steps = .ok g ∧
        g.rules.keys = (rules.map Rule.lhs).eraseDups ∧
        ∀ s, g.alternatives? s =
          if s ∈ rules.map Rule.lhs then
            some ((rules.filter fun r => r.lhs == s).flatMap Rule.alternatives)
          else none) ∧
    (∀ steps', Splits (declared steps) (declared steps') →
      (build steps).map Grammar.rules = (build steps').map Grammar.rules) ∧
    (∀ steps', Moves (declared steps) (declared steps') →
      (build steps).map Grammar.alternatives? = (build steps').map Grammar.alternatives?) ∧
    ∀ lines later, (∀ line ∈ lines, IsLine line) →
      build (steps ++ .text (String.intercalate "\n" lines) :: later) =
        build (steps ++ lines.map .rule ++ later) := by
  -- What is left is that texts which are rules, each for itself, spell a row of rules.
  refine ⟨exists_build_eq_error_iff, fun _ => build_eq_error_iff, fun h => ?_,
    fun _ => Splits.build_rules_eq, fun _ => Moves.build_alternatives_eq, fun _ _ => build_text⟩
  obtain ⟨rules, hrules⟩ := exists_mapM_eq_ok h
  obtain ⟨g, hg⟩ := exists_build_of_spells (spells_iff.2 hrules)
  exact ⟨rules, g, spells_iff.2 hrules, hg⟩

/-- Rules for two symbols in between each other, a comment, an empty line and an alternative of nothing;
then a rule cut up, two rules that change places, and the same two as lines of a text. -/
theorem build_gathers_letters :
    (∃ g, build [.text "# S\nS -> a | b\n\n T ->", .rules ["S->c"]] = .ok g ∧
      g.rules.keys = ["S", "T"] ∧ g.alternatives? "S" = some [["a"], ["b"], ["c"]]) ∧
    (build [.rule "S -> a | b"]).map Grammar.rules =
      (build [.rule "S -> a", .text " S->b "]).map Grammar.rules ∧
    (build [.rules ["S -> a", "T -> b"]]).map Grammar.alternatives? =
      (build [.rules ["T -> b", "S -> a"]]).map Grammar.alternatives? ∧
    build [.text (String.intercalate "\n" ["S -> a", " T -> b"])] =
      build [.rule "S -> a", .rule " T -> b"] := by
  refine ⟨?_, ?_, ?_, ?_⟩
  · obtain ⟨-, -, hgather, -⟩ :=
      build_gathers [.text "# S\nS -> a | b\n\n T ->", .rules ["S->c"]]
    have hdeclared : declared [.text "# S\nS -> a | b\n\n T ->", .rules ["S->c"]] =
        ["S -> a | b", "T ->", "S->c"] := by decide
    have hread : Spells ["S -> a | b", "T ->", "S->c"]
        [⟨"S", [["a"], ["b"]]⟩, ⟨"T", [[]]⟩, ⟨"S", [["c"]]⟩] := spells_iff.2 rfl
    rw [hdeclared] at hgather
    obtain ⟨rules, g, hrules, hbuild, hkeys, halternatives⟩ :=
      hgather fun text htext => exists_of_mapM_eq_ok (spells_iff.1 hread) htext
    obtain rfl := Except.ok.inj ((spells_iff.1 hrules).symm.trans (spells_iff.1 hread))
    exact ⟨g, hbuild, hkeys.trans (by decide), (halternatives "S").trans (by decide)⟩
  · obtain ⟨-, -, -, hsplit, -⟩ := build_gathers [.rule "S -> a | b"]
    have hwhole : Layout ⟨"S", [["a"]] ++ [["b"]]⟩ "S -> a | b".toList := layout_of_ofText rfl
    have hfirst : Layout ⟨"S", [["a"]]⟩ "S -> a".toList := layout_of_ofText rfl
    have hsecond : Layout ⟨"S", [["b"]]⟩ "S->b".toList := layout_of_ofText rfl
    apply hsplit
    show Splits ([] ++ ["S -> a | b"] ++ []) ([] ++ ["S -> a", "S->b"] ++ [])
    exact .intro hwhole hfirst hsecond
  · obtain ⟨-, -, -, -, hmove, -⟩ := build_gathers [.rules ["S -> a", "T -> b"]]
    have hfirst : Spells ["S -> a"] [⟨"S", [["a"]]⟩] := spells_iff.2 rfl
    have hsecond : Spells ["T -> b"] [⟨"T", [["b"]]⟩] := spells_iff.2 rfl
    apply hmove
    show Moves ([] ++ (["S -> a"] ++ ["T -> b"]) ++ []) ([] ++ (["T -> b"] ++ ["S -> a"]) ++ [])
    exact .intro hfirst hsecond (by decide)
  · obtain ⟨-, -, -, -, -, hlines⟩ := build_gathers []
    apply hlines ["S -> a", " T -> b"] []
    have hfirst : IsLine "S -> a" := ⟨by decide, by decide, _, rfl⟩
    have hsecond : IsLine " T -> b" := ⟨by decide, by decide, _, rfl⟩
    exact List.forall_mem_cons.2 ⟨hfirst, List.forall_mem_singleton.2 hsecond⟩

end Grammar

end ChartParser
