import Mathlib.Data.List.Forall2
import ChartParser.Grammar.Declaration
import ChartParser.Grammar.Printer
import ChartParser.Proofs.Grammar.Reading
import ChartParser.Proofs.Outcome

/-!
# Written grammars can be read back

The text of a grammar has a line for each left-hand symbol, and each line is a layout of what stands in
the rule table, so reading the text gathers the same table again. The exception are left-hand symbols that
start with a number sign: a rule for such a symbol can be declared on its own, but in a text its line is
taken for a comment.

## Main results

- `layout_ruleLine`: the line of an entry is a layout of it
- `entries_foldl_addRule`: rules of different symbols are gathered as they are
- `exists_ofText_render`: what reading the text of a grammar comes to
- `ofText_render_iff`: when that is the same grammar again
-/

namespace ChartParser

attribute [ext] Table

/-! ## Rows of text -/

namespace Text

variable {c : Char} {rows : List (List Char)}

/-- The rows that are joined hold all characters but those of the separator. -/
theorem notMem_intercalate {separator : List Char} (hseparator : c ∉ separator)
    (hrows : ∀ row ∈ rows, c ∉ row) : c ∉ separator.intercalate rows := by
  induction rows with
  | nil => exact List.not_mem_nil
  | cons row rows ih =>
    obtain ⟨hrow, hrest⟩ := List.forall_mem_cons.1 hrows
    -- The last row has no separator behind it.
    cases rows with
    | nil => simpa using hrow
    | cons row' rows =>
      rw [List.intercalate_cons_cons]
      simpa [hrow, hseparator] using ih hrest

/-- The rows that each end with the separator are cut off the text behind them. -/
theorem splitOn_flatMap_append (h : ∀ row ∈ rows, c ∉ row) (text : List Char) :
    ((rows.flatMap fun row => row ++ [c]) ++ text).splitOn c = rows ++ text.splitOn c := by
  induction rows with
  | nil => rfl
  | cons row rows ih =>
    obtain ⟨hrow, hrest⟩ := List.forall_mem_cons.1 h
    rw [List.flatMap_cons, List.append_assoc, List.append_assoc, List.singleton_append,
      List.splitOn_append_cons_self_of_not_mem hrow, ih hrest, List.cons_append]

/-- The significant lines of lines put together are among them. -/
theorem significantLines_flatMap (h : ∀ row ∈ rows, '\n' ∉ row) :
    significantLines (rows.flatMap fun row => row ++ ['\n']) =
      (rows.map trim).filter fun line => ! line.isEmpty && line.head? != some '#' := by
  unfold significantLines
  -- Behind the last line end an empty line is left, which is not significant.
  rw [← List.append_nil (rows.flatMap _), splitOn_flatMap_append h, List.splitOn_nil, List.map_append,
    List.filter_append]
  simp

/-- The significant lines of lines joined by line ends are among them. -/
theorem significantLines_intercalate (h : ∀ row ∈ rows, '\n' ∉ row) :
    significantLines (['\n'].intercalate rows) =
      (rows.map trim).filter fun line => ! line.isEmpty && line.head? != some '#' := by
  cases rows with
  | nil => rfl
  | cons row rows =>
    unfold significantLines
    rw [List.splitOn_intercalate _ h (List.cons_ne_nil _ _)]

end Text

/-! ## Well-spelled rules -/

namespace Rule

variable {r : Rule} {text : List Char} {alternatives : List Alternative} {symbols : List Symbol}

/-- The rule can be written: its symbols are words that hold no mark where the mark would be taken for
one. -/
structure WellSpelled (r : Rule) : Prop where
  lhs : IsWord r.lhs.toList
  arrow_not_infix : ¬ arrow <:+: r.lhs.toList
  alternatives_ne_nil : r.alternatives ≠ []
  symbols : ∀ alternative ∈ r.alternatives, ∀ s ∈ alternative, IsWord s.toList ∧ bar ∉ s.toList

theorem IsWord.notMem {word : List Char} {c : Char} (h : IsWord word)
    (hc : Text.isBlank c = true) : c ∉ word := by
  intro hmem
  rw [h.2 c hmem] at hc
  cases hc

theorem Barred.ne_nil (h : Barred alternatives text) : alternatives ≠ [] := by
  cases h <;> exact List.cons_ne_nil _ _

theorem Spaced.wellSpelled (h : Spaced (symbols.map String.toList) text) (hbar : bar ∉ text) :
    ∀ s ∈ symbols, IsWord s.toList ∧ bar ∉ s.toList := by
  intro s hs
  have hmem := List.mem_map_of_mem (f := String.toList) hs
  exact ⟨h.isWord _ hmem, fun hin => hbar (h.subset _ hmem hin)⟩

theorem Barred.wellSpelled (h : Barred alternatives text) :
    ∀ alternative ∈ alternatives, ∀ s ∈ alternative, IsWord s.toList ∧ bar ∉ s.toList := by
  induction h with
  | last hspaced hbar => exact List.forall_mem_singleton.2 (hspaced.wellSpelled hbar)
  | cons hspaced hbar _ ih => exact List.forall_mem_cons.2 ⟨hspaced.wellSpelled hbar, ih⟩

theorem Layout.wellSpelled (h : Layout r text) : WellSpelled r := by
  cases h with
  | intro _ hword hlhs _ hbarred => exact ⟨hword, hlhs, hbarred.ne_nil, hbarred.wellSpelled⟩

/-- A layout that starts with something starts with the left-hand symbol. -/
theorem Layout.head?_eq (h : Layout r text) (hhead : ∀ c ∈ text.head?, Text.isBlank c = false) :
    text.head? = r.lhs.toList.head? := by
  cases h with
  | @intro before after right hbefore hword _ _ _ =>
    -- A gap in front would start the text with white space.
    cases before with
    | nil =>
      obtain ⟨c, rest, hlhs⟩ := List.exists_cons_of_ne_nil hword.1
      simp [hlhs]
    | cons c before =>
      have hblank := hbefore c List.mem_cons_self
      rw [hhead c rfl] at hblank
      cases hblank

end Rule

/-! ## Lines -/

namespace Grammar

open Rule

variable {g : Grammar} {r : Rule} {rules : List Rule} {symbols : List Symbol}
variable {alternatives : List Alternative} {entry : Symbol × List Alternative}
variable {entries : List (Symbol × List Alternative)}

theorem isBlank_space : Text.isBlank ' ' = true := by decide

theorem isGap_space : IsGap [' '] := by
  intro c hc
  rw [List.mem_singleton.1 hc]
  exact isBlank_space

/-- A line of symbols spells them. -/
theorem spaced_line (h : ∀ s ∈ symbols, IsWord s.toList) :
    Spaced (symbols.map String.toList) (Symbol.line symbols).toList := by
  rw [Symbol.line, String.toList_intercalate]
  induction symbols with
  | nil => exact .nil isGap_nil
  | cons s symbols ih =>
    obtain ⟨hs, hrest⟩ := List.forall_mem_cons.1 h
    -- The space between two symbols is a gap in front of the second one.
    cases symbols with
    | nil => simpa using Spaced.cons isGap_nil hs (by simp) (.nil isGap_nil)
    | cons t symbols =>
      have hspaced := (ih hrest).gap_append isGap_space
      rw [List.map_cons, List.map_cons, List.intercalate_cons_cons, ← List.map_cons, List.append_assoc]
      exact .cons isGap_nil hs (by simpa using isBlank_space) hspaced

/-- A line of symbols holds no characters but theirs, spaces apart. -/
theorem notMem_line {c : Char} (hc : c ≠ ' ') (h : ∀ s ∈ symbols, c ∉ s.toList) :
    c ∉ (Symbol.line symbols).toList := by
  rw [Symbol.line, String.toList_intercalate]
  apply Text.notMem_intercalate
  · show c ∉ [' ']
    rw [List.mem_singleton]
    exact hc
  · exact List.forall_mem_map.2 h

/-- Alternatives joined by bars are spelled by the text. -/
theorem barred_intercalate (hne : alternatives ≠ [])
    (h : ∀ alternative ∈ alternatives, ∀ s ∈ alternative, IsWord s.toList ∧ bar ∉ s.toList) :
    Barred alternatives (' ' :: (String.intercalate " | " (alternatives.map Symbol.line)).toList) := by
  rw [String.toList_intercalate]
  -- The induction is on the alternatives. The text starts with the space behind the arrow or a bar, so
  -- that the first alternative is spelled like the others.
  induction alternatives with
  | nil => exact absurd rfl hne
  | cons alternative alternatives ih =>
    obtain ⟨hsymbols, hrest⟩ := List.forall_mem_cons.1 h
    have hspaced := (spaced_line fun s hs => (hsymbols s hs).1).gap_append isGap_space
    -- A bar would have to be in one of the symbols.
    have hbar : bar ∉ [' '] ++ (Symbol.line alternative).toList := by
      have hline := notMem_line (by decide) fun s hs => (hsymbols s hs).2
      simpa [bar] using hline
    cases alternatives with
    | nil => simpa using Barred.last hspaced hbar
    | cons alternative' alternatives =>
      -- The space before a bar belongs to the alternative on the left.
      have hbarred := Barred.cons (hspaced.append_gap isGap_space) (by simpa [bar] using hbar)
        (ih (List.cons_ne_nil _ _) hrest)
      simpa [bar] using hbarred

/-- An entry of a rule table as a rule. -/
def entryRule (entry : Symbol × List Alternative) : Rule := ⟨entry.1, entry.2⟩

/-- The line of an entry is a layout of it. -/
theorem layout_ruleLine (h : WellSpelled (entryRule entry)) :
    Layout (entryRule entry) (ruleLine entry).toList := by
  -- Nothing stands before the left-hand symbol, and a space on both sides of the arrow.
  have hlayout := Layout.intro isGap_nil h.lhs h.arrow_not_infix isGap_space
    (barred_intercalate h.alternatives_ne_nil h.symbols)
  unfold ruleLine
  simpa [arrow, entryRule] using hlayout

theorem newline_notMem_ruleLine (h : WellSpelled (entryRule entry)) :
    '\n' ∉ (ruleLine entry).toList := by
  -- A line end is white space and no separator, so it would have to be in one of the symbols.
  have hblank : Text.isBlank '\n' = true := by decide
  have hlhs : '\n' ∉ entry.1.toList := h.lhs.notMem hblank
  have hlines : '\n' ∉ (String.intercalate " | " (entry.2.map Symbol.line)).toList := by
    rw [String.toList_intercalate]
    apply Text.notMem_intercalate (by decide)
    rw [List.map_map, List.forall_mem_map]
    intro alternative halternative
    apply notMem_line (by decide)
    intro s hs
    exact (h.symbols alternative halternative s hs).1.notMem hblank
  unfold ruleLine
  rw [String.toList_append, String.toList_append, List.mem_append, List.mem_append]
  exact not_or.2 ⟨not_or.2 ⟨hlhs, by decide⟩, hlines⟩

/-! ## Reading the lines -/

/-- The line of the entry is taken for a comment. -/
def isComment (entry : Symbol × List Alternative) : Bool := entry.1.toList.head? == some '#'

/-- A trimmed line of an entry starts as its left-hand symbol does. -/
theorem head?_trim_ruleLine (h : WellSpelled (entryRule entry)) :
    (Text.trim (ruleLine entry).toList).head? = entry.1.toList.head? :=
  (layout_ruleLine h).trim.head?_eq fun _ hc => Text.not_blank_of_head?_trim hc

theorem toList_render : g.render.toList =
    (g.rules.entries.map fun entry => (ruleLine entry).toList).flatMap fun row => row ++ ['\n'] := by
  unfold render
  rw [String.toList_join]
  simp [List.flatMap_map]

/-- The significant lines of a written grammar are those of the entries that are not taken for
comments. -/
theorem ruleTexts_render (h : ∀ entry ∈ g.rules.entries, WellSpelled (entryRule entry)) :
    (Declaration.text g.render).ruleTexts = (g.rules.entries.filter fun entry => ! isComment entry).map
      fun entry => String.ofList (Text.trim (ruleLine entry).toList) := by
  have hrows : ∀ row ∈ g.rules.entries.map fun entry => (ruleLine entry).toList, '\n' ∉ row :=
    List.forall_mem_map.2 fun entry hentry => newline_notMem_ruleLine (h entry hentry)
  show (Text.significantLines g.render.toList).map String.ofList = _
  rw [toList_render, Text.significantLines_flatMap hrows, List.map_map, List.filter_map, List.map_map]
  -- It is left to show that a line is kept exactly if its entry is not taken for a comment. The line is
  -- not empty, and it starts as its left-hand symbol does.
  congr 1
  apply List.filter_congr
  intro entry hentry
  have hhead := head?_trim_ruleLine (h entry hentry)
  have hne : (Text.trim (ruleLine entry).toList).isEmpty = false := by
    obtain ⟨c, rest, hlhs⟩ := List.exists_cons_of_ne_nil (h entry hentry).lhs.1
    rw [show entry.1.toList = c :: rest from hlhs] at hhead
    obtain ⟨rest', htrim⟩ := List.head?_eq_some_iff.1 hhead
    rw [htrim]
    rfl
  show (! (Text.trim (ruleLine entry).toList).isEmpty &&
    (Text.trim (ruleLine entry).toList).head? != some '#') = ! isComment entry
  rw [hne, hhead]
  rfl

/-- A rule for a symbol that starts with a number sign is written like any other, but not read back. -/
example :
    let g : Grammar := ⟨⟨[("#", [["a"]]), ("S", [["#"], []])], by simp⟩, "e", none⟩
    g.render = "# -> a\nS -> # | \n" ∧ (Declaration.text g.render).ruleTexts = ["S -> # |"] :=
  ⟨rfl, rfl⟩

/-! ## Gathering the rules -/

/-- Rules of different symbols are gathered as they are. -/
theorem entries_foldl_addRule {known : Table (List Alternative)}
    (h : ((known.entries ++ entries).map Prod.fst).Nodup) :
    ((entries.map entryRule).foldl addRule known).entries = known.entries ++ entries := by
  induction entries generalizing known with
  | nil => exact (List.append_nil _).symm
  | cons entry entries ih =>
    -- The symbol is new to the table, so its entry goes to the end.
    have hnew : entry.1 ∉ known.entries.map Prod.fst := by
      rw [List.map_append, List.nodup_append] at h
      exact fun hmem => h.2.2 _ hmem _ (by simp) rfl
    have hadd : (addRule known (entryRule entry)).entries = known.entries ++ [entry] := by
      show Table.alter entry.1 _ known.entries = _
      rw [Table.alter_of_notMem hnew]
      rfl
    rw [List.map_cons, List.foldl_cons, ih, hadd, List.append_assoc]
    · rfl
    · rw [hadd, List.append_assoc]
      exact h

/-- Well-spelled rules are gathered into well-spelled entries. -/
theorem wellSpelled_foldl_addRule {known : Table (List Alternative)}
    (hknown : ∀ entry ∈ known.entries, WellSpelled (entryRule entry))
    (hrules : ∀ r ∈ rules, WellSpelled r) :
    ∀ entry ∈ (rules.foldl addRule known).entries, WellSpelled (entryRule entry) := by
  induction rules generalizing known with
  | nil => exact hknown
  | cons r rules ih =>
    obtain ⟨hr, hrest⟩ := List.forall_mem_cons.1 hrules
    refine ih (fun entry hentry => ?_) hrest
    -- An entry was there before, or it is the first of its symbol, or it takes in the new alternatives.
    rcases Table.mem_alter hentry with hold | rfl | ⟨value, hvalue, rfl⟩
    · exact hknown entry hold
    · exact hr
    · -- The alternatives of the rule stand behind those that the symbol had.
      refine ⟨hr.lhs, hr.arrow_not_infix, List.append_ne_nil_of_right_ne_nil _ hr.alternatives_ne_nil, ?_⟩
      intro alternative halternative
      rcases List.mem_append.1 halternative with hmem | hmem
      · exact (hknown _ hvalue).symbols alternative hmem
      · exact hr.symbols alternative hmem

/-! ## Reading back -/

/-- What a declaration is built into. -/
theorem build_eq_ok_iff {steps : List Declaration} :
    build steps = .ok g ↔ ∃ rules, (steps.flatMap Declaration.ruleTexts).mapM Rule.ofText = .ok rules ∧
      g = ⟨gather rules, (steps.filterMap Declaration.epsilon?).getLast?.getD defaultEpsilon,
        (steps.filterMap Declaration.classifier?).getLast?⟩ := by
  rw [build, bind_eq_ok_iff]
  refine exists_congr fun rules => and_congr_right fun _ => ?_
  exact ⟨fun h => (Except.ok.inj h).symm, fun h => h ▸ rfl⟩

theorem wellSpelled_of_build {steps : List Declaration} (h : build steps = .ok g) :
    ∀ entry ∈ g.rules.entries, WellSpelled (entryRule entry) := by
  obtain ⟨rules, hrules, rfl⟩ := build_eq_ok_iff.1 h
  -- The table starts empty, and each rule was read from a text, of which it is spelled.
  refine wellSpelled_foldl_addRule (fun _ hentry => absurd hentry List.not_mem_nil) fun r hr => ?_
  obtain ⟨text, _, htext⟩ := (mem_of_mapM_eq_ok hrules).1 hr
  exact (layout_of_ofText htext).wellSpelled

/-- Reading the text of a grammar comes to the entries whose lines are not taken for comments. -/
theorem exists_ofText_render (h : ∀ entry ∈ g.rules.entries, WellSpelled (entryRule entry)) :
    ∃ g', ofText g.render = .ok g' ∧
      g'.rules.entries = g.rules.entries.filter fun entry => ! isComment entry := by
  obtain ⟨kept, hkept⟩ :
      ∃ kept, kept = g.rules.entries.filter fun entry => ! isComment entry := ⟨_, rfl⟩
  -- The kept entries are named first, as they are read from the text and gathered again.
  have hsublist : kept.Sublist g.rules.entries := hkept ▸ List.filter_sublist
  have hread : (([Declaration.text g.render]).flatMap Declaration.ruleTexts).mapM Rule.ofText =
      .ok (kept.map entryRule) := by
    rw [List.flatMap_singleton, ruleTexts_render h, ← hkept, mapM_eq_ok_iff, List.forall₂_map_left_iff,
      List.forall₂_map_right_iff, List.forall₂_same]
    -- Each of the lines is a trimmed layout of its entry.
    intro entry hentry
    apply Layout.ofText_eq
    rw [String.toList_ofList]
    exact (layout_ruleLine (h entry (hsublist.subset hentry))).trim
  refine ⟨_, build_eq_ok_iff.2 ⟨_, hread, rfl⟩, ?_⟩
  show ((kept.map entryRule).foldl addRule Table.empty).entries = _
  -- The symbols of the entries are different, so gathering puts none of them together.
  rw [entries_foldl_addRule, ← hkept]
  · rfl
  · exact (hsublist.map Prod.fst).nodup g.rules.keys_nodup

/-- No line of a text declares a symbol that starts with a number sign. -/
theorem head?_ne_of_ofText {text : String} (h : ofText text = .ok g) {s : Symbol}
    (hs : s ∈ g.rules.keys) : s.toList.head? ≠ some '#' := by
  obtain ⟨rules, hrules, rfl⟩ := build_eq_ok_iff.1 h
  -- The symbol comes from a line that is not a comment, and that line starts with it.
  obtain ⟨r, hr, rfl⟩ := List.mem_map.1 (mem_keys_gather_iff.1 hs)
  obtain ⟨line, hline, hread⟩ := (mem_of_mapM_eq_ok hrules).1 hr
  rw [List.flatMap_singleton] at hline
  obtain ⟨chars, hchars, rfl⟩ := List.mem_map.1 hline
  obtain ⟨⟨raw, _, rfl⟩, _, hcomment⟩ := Text.mem_significantLines.1 hchars
  have hlayout := layout_of_ofText hread
  rw [String.toList_ofList] at hlayout
  rw [← hlayout.head?_eq fun _ hc => Text.not_blank_of_head?_trim hc]
  exact hcomment

/-- A grammar that was built, with whatever marker and classifier, can be written and read back. The
outcome has the same left-hand symbols in the same order, with the same alternatives in the same order,
exactly if no left-hand symbol starts with a number sign, as none does if the grammar is that of a
text. -/
theorem ofText_render_iff {steps : List Declaration} {g : Grammar} (h : build steps = .ok g) :
    ∃ g', ofText g.render = .ok g' ∧
      (g'.rules = g.rules ↔ ∀ s ∈ g.rules.keys, s.toList.head? ≠ some '#') ∧
      ∀ text, ofText text = .ok g → g'.rules = g.rules := by
  obtain ⟨g', hread, hentries⟩ := exists_ofText_render (wellSpelled_of_build h)
  have hsame : g'.rules = g.rules ↔ ∀ s ∈ g.rules.keys, s.toList.head? ≠ some '#' := by
    -- Filtering changes nothing exactly if every entry is kept.
    rw [Table.ext_iff, hentries, List.filter_eq_self]
    simp [Table.keys, isComment]
  exact ⟨g', hread, hsame, fun text htext => hsame.2 fun s hs => head?_ne_of_ofText htext hs⟩

/-- Marks in all places where they are symbols or parts of them, an alternative of nothing among them. -/
def marks : Grammar where
  rules := ⟨[("S|", [["-", "->", "b"], [], ["c"]]), ("-", [["e"]])], by simp⟩
  epsilon := "e"
  classifier := some fun _ => ["c"]

/-- The marks of rules come back from the text as the symbols that they were. -/
theorem ofText_render_marks :
    build [.epsilon "e", .classifier fun _ => ["c"],
        .rules ["S| -> - -> b |", "- -> e", "S| -> c"]] = .ok marks ∧
      ∃ g', ofText marks.render = .ok g' ∧ g'.rules = marks.rules := by
  have hbuild : build [.epsilon "e", .classifier fun _ => ["c"],
      .rules ["S| -> - -> b |", "- -> e", "S| -> c"]] = .ok marks := rfl
  obtain ⟨g', hread, hsame, _⟩ := ofText_render_iff hbuild
  exact ⟨hbuild, g', hread, hsame.2 (by decide)⟩

end Grammar

end ChartParser
