import ChartParser.Proofs.Grammar.RoundTrip
import ChartParser.Proofs.Text.Boundary
import ChartParser.Tree.Printer

/-!
# Forests can be told by their outline

An outline has a line for each node, in preorder, and an empty line between two trees. A line shows how
deep its node is by its indentation, and everything that the node carries: a symbol ends at the space
behind it, matched input at the second quote, a number behind its digits. The lines of the subtrees of a
node are those behind it that are deeper than it, up to the first that is not. So the forest can be put
together again. The empty lines are not even needed for that, since every tree starts without indentation.

## Main results

- `Label.text_append_inj`: a label in front of a space
- `outlineLine_inj`: a line tells its depth, its label and its span
- `forestLines_append_inj`: the lines of a forest in front of lines of nodes further up
- `filledLines_outlines`: the lines of an outline that are not empty
- `outlines_inj`: forests of plain symbols with one outline are the same
-/

namespace ChartParser

/-! ## Lines of a text -/

namespace Text

variable {rows : List (List Char)}

/-- The lines of a text that are not empty. -/
def filledLines (text : List Char) : List (List Char) :=
  (text.splitOn '\n').filter fun line => ! line.isEmpty

theorem filledLines_newline_cons (text : List Char) : filledLines ('\n' :: text) = filledLines text := by
  have hsplit : (('\n' :: text).splitOn '\n') = [] :: text.splitOn '\n' :=
    List.splitOn_append_cons_self_of_not_mem List.not_mem_nil text
  unfold filledLines
  rw [hsplit]
  rfl

theorem filledLines_flatMap_append (hnewline : ∀ row ∈ rows, '\n' ∉ row) (hne : ∀ row ∈ rows, row ≠ [])
    (text : List Char) :
    filledLines ((rows.flatMap fun row => row ++ ['\n']) ++ text) = rows ++ filledLines text := by
  unfold filledLines
  -- The text falls into the rows and what is behind them, and no row is empty.
  rw [splitOn_flatMap_append hnewline, List.filter_append, List.filter_eq_self.2]
  intro row hrow
  simpa using hne row hrow

end Text

/-! ## Plain symbols -/

/-- The symbol can be told wherever it stands in a line: it is a word, without double quotes. -/
def Symbol.IsPlain (s : Symbol) : Prop := Rule.IsWord s.toList ∧ '"' ∉ s.toList

instance (s : Symbol) : Decidable s.IsPlain :=
  -- The characters of the symbol are gone through, not all characters there are.
  decidable_of_iff
    ((s.toList ≠ [] ∧ (s.toList.all fun c => ! Text.isBlank c) = true) ∧ '"' ∉ s.toList)
    (by simp [Symbol.IsPlain, Rule.IsWord])

namespace Symbol

variable {s : Symbol} {words words' : List Symbol}

theorem IsPlain.notMem {c : Char} (h : s.IsPlain) (hc : Text.isBlank c = true) : c ∉ s.toList :=
  h.1.notMem hc

/-- A plain symbol starts with a character of its own. -/
theorem IsPlain.exists_cons (h : s.IsPlain) : ∃ c chars, s.toList = c :: chars ∧ c ≠ ' ' ∧ c ≠ '"' := by
  obtain ⟨c, chars, hs⟩ := List.exists_cons_of_ne_nil h.1.1
  have hspace : ' ' ∉ s.toList := h.notMem Grammar.isBlank_space
  have hquote : '"' ∉ s.toList := h.2
  -- What the symbol does not hold is not its first character either.
  rw [hs, List.mem_cons, not_or] at hspace hquote
  exact ⟨c, chars, hs, Ne.symm hspace.1, Ne.symm hquote.1⟩

/-- The words of a line are told by it. -/
theorem line_inj (h : ∀ s ∈ words, s.IsPlain) (h' : ∀ s ∈ words', s.IsPlain) :
    line words = line words' ↔ words = words' := by
  constructor
  · intro hline
    -- The words of the line, read back, are those that it was made of.
    have hread := (Grammar.spaced_line fun s hs => (h s hs).1).words_eq
    have hread' := (Grammar.spaced_line fun s hs => (h' s hs).1).words_eq
    rw [hline, hread'] at hread
    exact (List.map_injective_iff.2 fun _ _ => String.toList_inj.1) hread.symm
  · exact congrArg line

end Symbol

/-! ## Labels -/

namespace Label

variable {label label' : Label} {name : Symbol} {words : List Symbol} {rest rest' : List Char}

/-- A symbol does not start like matched input. -/
theorem text_append_ne_quote (h : name.IsPlain) : (symbol name).text.toList ++ rest ≠ '"' :: rest' := by
  obtain ⟨c, chars, hname, _, hquote⟩ := h.exists_cons
  show name.toList ++ rest ≠ _
  rw [hname, List.cons_append]
  exact fun e => hquote (List.cons.inj e).1

/-- A label is told by its text, up to the space behind it. -/
theorem text_append_inj (h : ∀ s ∈ label.symbols, s.IsPlain) (h' : ∀ s ∈ label'.symbols, s.IsPlain)
    (htext : label.text.toList ++ ' ' :: rest = label'.text.toList ++ ' ' :: rest') :
    label = label' ∧ rest = rest' := by
  -- Two labels of one kind are told apart by what they hold, two of different kinds by the quote.
  cases label with
  | symbol name =>
    have hname : name.IsPlain := h name List.mem_cons_self
    cases label' with
    | symbol name' =>
      have hname' : name'.IsPlain := h' name' List.mem_cons_self
      -- A symbol holds no space, so it reaches up to the first one.
      obtain ⟨hnames, hrest⟩ := (Text.append_mark_inj (hname.notMem Grammar.isBlank_space)
        (hname'.notMem Grammar.isBlank_space)).1 htext
      exact ⟨congrArg symbol (String.toList_inj.1 hnames), hrest⟩
    | matched words' =>
      rw [toList_text_matched] at htext
      exact absurd htext (text_append_ne_quote hname)
  | matched words =>
    cases label' with
    | symbol name' =>
      rw [toList_text_matched] at htext
      exact absurd htext.symm (text_append_ne_quote (h' name' List.mem_cons_self))
    | matched words' =>
      have hwords : ∀ s ∈ words, s.IsPlain := h
      have hwords' : ∀ s ∈ words', s.IsPlain := h'
      -- The words hold no quote, so matched input reaches up to the second one.
      have hquote := Grammar.notMem_line (c := '"') (by decide) fun s hs => (hwords s hs).2
      have hquote' := Grammar.notMem_line (c := '"') (by decide) fun s hs => (hwords' s hs).2
      rw [toList_text_matched, toList_text_matched, Text.quotes_append_inj hquote hquote',
        String.toList_inj, Symbol.line_inj hwords hwords'] at htext
      obtain ⟨hsame, hrest⟩ := htext
      exact ⟨congrArg matched hsame, (List.cons.inj hrest).2⟩

/-- A label does not start with a space. -/
theorem head?_text_ne (h : ∀ s ∈ label.symbols, s.IsPlain) (rest : List Char) :
    (label.text.toList ++ rest).head? ≠ some ' ' := by
  cases label with
  | symbol name =>
    obtain ⟨c, chars, hname, hspace, _⟩ := (h name List.mem_cons_self).exists_cons
    show (name.toList ++ rest).head? ≠ some ' '
    rw [hname]
    simpa using hspace
  | matched words =>
    rw [toList_text_matched]
    simp

theorem newline_notMem_text (h : ∀ s ∈ label.symbols, s.IsPlain) : '\n' ∉ label.text.toList := by
  have hblank : Text.isBlank '\n' = true := by decide
  cases label with
  | symbol name => exact (h name List.mem_cons_self).notMem hblank
  | matched words =>
    -- The words are joined by spaces, so a line end would have to be in one of them.
    have hwords : ∀ s ∈ words, s.IsPlain := h
    have hline := Grammar.notMem_line (c := '\n') (by decide) fun s hs => (hwords s hs).notMem hblank
    rw [toList_text_matched]
    simpa using hline

end Label

namespace ParseTree

variable {depth depth' left left' right right' : Nat} {root root' : Label} {t : ParseTree}
variable {forest forest' : List ParseTree} {lines rest rest' : List String}

/-! ## Lines -/

theorem toList_outlineLine (depth : Nat) (root : Label) (left right : Nat) :
    (outlineLine depth root left right).toList = List.replicate (2 * depth) ' ' ++
      (root.text.toList ++ ' ' :: '[' :: (Nat.toDigits 10 left ++
        ',' :: ' ' :: (Nat.toDigits 10 right ++ [')']))) := by
  simp [outlineLine, Nat.toString_eq_repr, Nat.toList_repr]

/-- A line tells its depth, its label and its span. -/
theorem outlineLine_inj (h : ∀ s ∈ root.symbols, s.IsPlain) (h' : ∀ s ∈ root'.symbols, s.IsPlain) :
    outlineLine depth root left right = outlineLine depth' root' left' right' ↔
      depth = depth' ∧ root = root' ∧ left = left' ∧ right = right' := by
  constructor
  · intro hline
    rw [← String.toList_inj, toList_outlineLine, toList_outlineLine,
      Text.indent_append_inj (Label.head?_text_ne h _) (Label.head?_text_ne h' _)] at hline
    -- The indentation ends where the label starts, as no label starts with a space.
    obtain ⟨hdepth, hline⟩ := hline
    obtain ⟨hroot, hspan⟩ := Label.text_append_inj h h' hline
    -- Digits are neither a comma nor a bracket, so each number ends at the mark behind it.
    have hcomma : ∀ n, ',' ∉ Nat.toDigits 10 n := Text.notMem_toDigits (by decide)
    have hbracket : ∀ n, ')' ∉ Nat.toDigits 10 n := Text.notMem_toDigits (by decide)
    rw [List.cons.injEq, Text.append_mark_inj (hcomma _) (hcomma _), List.cons.injEq,
      Text.append_mark_inj (hbracket _) (hbracket _), Text.toDigits_inj, Text.toDigits_inj] at hspan
    obtain ⟨-, hleft, -, hright, -⟩ := hspan
    exact ⟨by omega, hroot, hleft, hright⟩
  · rintro ⟨rfl, rfl, rfl, rfl⟩
    rfl

theorem newline_notMem_outlineLine (h : ∀ s ∈ root.symbols, s.IsPlain) :
    '\n' ∉ (outlineLine depth root left right).toList := by
  have hlabel := Label.newline_notMem_text h
  have hdigits : ∀ n, '\n' ∉ Nat.toDigits 10 n := Text.notMem_toDigits (by decide)
  rw [toList_outlineLine]
  simp [hlabel, hdigits]

theorem forestLines_cons (depth : Nat) (t : ParseTree) (rest : List ParseTree) :
    forestLines depth (t :: rest) = outlineLine depth t.root t.left t.right ::
      (forestLines (depth + 1) t.subtrees ++ forestLines depth rest) := by
  cases t
  rfl

/-- The line of a node is one line, and not empty. -/
theorem isLine_of_mem_forestLines (h : ∀ s ∈ forestSymbols forest, s.IsPlain) {line : String}
    (hline : line ∈ forestLines depth forest) : '\n' ∉ line.toList ∧ line.toList ≠ [] := by
  induction forest using forest_induct generalizing depth with
  | nil => exact absurd hline List.not_mem_nil
  | cons t more ihSubtrees ihMore =>
    obtain ⟨hroot, hsubtrees, hmore⟩ := forall_forestSymbols_cons.1 h
    rw [forestLines_cons, List.mem_cons, List.mem_append] at hline
    rcases hline with rfl | hline | hline
    · -- The line of the node itself holds at least the brackets of its span.
      refine ⟨newline_notMem_outlineLine hroot, ?_⟩
      rw [toList_outlineLine]
      simp
    · exact ihSubtrees hsubtrees hline
    · exact ihMore hmore hline

/-! ## From lines to forests -/

/-- There are no lines, or the first of them is that of a node further up. -/
def GoesOnAbove (depth : Nat) (lines : List String) : Prop :=
  ∀ line ∈ lines.head?, ∃ d < depth, ∃ root left right, (∀ s ∈ root.symbols, s.IsPlain) ∧
    line = outlineLine d root left right

theorem goesOnAbove_nil (depth : Nat) : GoesOnAbove depth [] := by
  intro line hline
  cases hline

theorem GoesOnAbove.mono (h : GoesOnAbove depth lines) (hle : depth ≤ depth') :
    GoesOnAbove depth' lines := by
  intro line hline
  obtain ⟨d, hd, hnode⟩ := h line hline
  exact ⟨d, Nat.lt_of_lt_of_le hd hle, hnode⟩

theorem goesOnAbove_cons (h : ∀ s ∈ root.symbols, s.IsPlain) (hlt : depth < depth') :
    GoesOnAbove depth' (outlineLine depth root left right :: lines) := by
  intro line hline
  obtain rfl : outlineLine depth root left right = line := Option.some.inj hline
  exact ⟨depth, hlt, root, left, right, h, rfl⟩

/-- Lines of nodes further up do not start with the line of a node at the depth. -/
theorem GoesOnAbove.ne_cons (h : GoesOnAbove depth rest) (hroot : ∀ s ∈ root.symbols, s.IsPlain) :
    rest ≠ outlineLine depth root left right :: lines := by
  rintro rfl
  obtain ⟨d, hd, root', left', right', hroot', hline⟩ := h _ rfl
  -- Equal lines would have equal depths, but one node is further up.
  have hdepth := ((outlineLine_inj hroot hroot').1 hline).1
  omega

/-- Behind the subtrees of a node come the nodes beside it, and then those further up. -/
theorem GoesOnAbove.forestLines_append (h : GoesOnAbove depth rest)
    (hforest : ∀ s ∈ forestSymbols forest, s.IsPlain) :
    GoesOnAbove (depth + 1) (forestLines depth forest ++ rest) := by
  -- Without a node beside it, what is further up goes on.
  cases forest with
  | nil => exact h.mono (Nat.le_succ depth)
  | cons t more =>
    obtain ⟨hroot, -, -⟩ := forall_forestSymbols_cons.1 hforest
    rw [forestLines_cons]
    -- The next node beside it is one level up from the subtrees.
    exact goesOnAbove_cons hroot (Nat.lt_succ_self depth)

/-- The lines of a forest end where the nodes further up go on, so they tell the forest. -/
theorem forestLines_append_inj (h : ∀ s ∈ forestSymbols forest, s.IsPlain)
    (h' : ∀ s ∈ forestSymbols forest', s.IsPlain) (hrest : GoesOnAbove depth rest)
    (hrest' : GoesOnAbove depth rest')
    (hlines : forestLines depth forest ++ rest = forestLines depth forest' ++ rest') :
    forest = forest' ∧ rest = rest' := by
  -- The induction is on the forest, with any lines behind it that go on above. The first line tells the
  -- root of the first tree, the lines behind it its subtrees, and then the other trees.
  induction forest using forest_induct generalizing depth forest' rest rest' with
  | nil =>
    cases forest' with
    | nil => exact ⟨rfl, hlines⟩
    | cons t' more' =>
      obtain ⟨hroot', -, -⟩ := forall_forestSymbols_cons.1 h'
      rw [forestLines_cons] at hlines
      -- One forest ends here, so the other one would have to go on with what is further up.
      exact absurd hlines (hrest.ne_cons hroot')
  | cons t more ihSubtrees ihMore =>
    obtain ⟨hroot, hsubtrees, hmore⟩ := forall_forestSymbols_cons.1 h
    rw [forestLines_cons, List.cons_append, List.append_assoc] at hlines
    cases forest' with
    | nil => exact absurd hlines.symm (hrest'.ne_cons hroot)
    | cons t' more' =>
      obtain ⟨hroot', hsubtrees', hmore'⟩ := forall_forestSymbols_cons.1 h'
      rw [forestLines_cons, List.cons_append, List.append_assoc, List.cons.injEq,
        outlineLine_inj hroot hroot'] at hlines
      obtain ⟨⟨-, hroots, hlefts, hrights⟩, hlines⟩ := hlines
      -- What stands behind the subtrees is not as deep as they are, so their lines end at one place.
      obtain ⟨hsame, hlines⟩ := ihSubtrees hsubtrees hsubtrees' (hrest.forestLines_append hmore)
        (hrest'.forestLines_append hmore') hlines
      obtain ⟨hsameMore, hsameRest⟩ := ihMore hmore hmore' hrest hrest' hlines
      have htrees : t = t' := ParseTree.ext hroots hlefts hrights hsame
      exact ⟨by rw [htrees, hsameMore], hsameRest⟩

/-! ## From texts to lines -/

theorem toList_outline (t : ParseTree) :
    t.outline.toList =
      ((t.outlineLines 0).map String.toList).flatMap fun row => row ++ ['\n'] := by
  unfold outline
  rw [String.toList_join]
  simp [List.flatMap_map]

theorem outlines_cons_cons (t u : ParseTree) (more : List ParseTree) :
    (outlines (t :: u :: more)).toList = t.outline.toList ++ '\n' :: (outlines (u :: more)).toList := by
  simp [outlines, String.toList_intercalate]

/-- The lines of an outline that are not empty are those of the nodes, if each of these is one line. -/
theorem filledLines_outlines
    (h : ∀ line ∈ forestLines 0 forest, '\n' ∉ line.toList ∧ line.toList ≠ []) :
    Text.filledLines (outlines forest).toList = (forestLines 0 forest).map String.toList := by
  induction forest with
  | nil => rfl
  | cons t more ih =>
    rw [forestLines, List.forall_mem_append] at h
    obtain ⟨hfirst, hmore⟩ := h
    have hcut := Text.filledLines_flatMap_append
      (List.forall_mem_map.2 fun line hline => (hfirst line hline).1)
      (List.forall_mem_map.2 fun line hline => (hfirst line hline).2)
    rw [← toList_outline] at hcut
    rw [forestLines, List.map_append]
    -- An empty line stands between this outline and the next one, if there is one.
    cases more with
    | nil =>
      -- The last outline is not followed by an empty line.
      have hone : outlines [t] = t.outline := by simp [outlines]
      have hlast := hcut []
      rw [List.append_nil] at hlast
      rw [hone, hlast]
      rfl
    | cons u more => rw [outlines_cons_cons, hcut, Text.filledLines_newline_cons, ih hmore]

/-- Two forests of plain symbols have the same outline only if they are the same. -/
theorem outlines_inj (h : ∀ s ∈ forestSymbols forest, s.IsPlain)
    (h' : ∀ s ∈ forestSymbols forest', s.IsPlain) :
    outlines forest = outlines forest' ↔ forest = forest' := by
  constructor
  · intro htext
    -- The text tells the lines, the lines tell the forest.
    have hlines := filledLines_outlines fun _ hline => isLine_of_mem_forestLines h hline
    rw [htext, filledLines_outlines fun _ hline => isLine_of_mem_forestLines h' hline] at hlines
    have hsame : forestLines 0 forest = forestLines 0 forest' :=
      (List.map_injective_iff.2 fun _ _ => String.toList_inj.1) hlines.symm
    exact (forestLines_append_inj h h' (goesOnAbove_nil 0) (goesOnAbove_nil 0) (by rw [hsame])).1
  · exact congrArg outlines

/-- Two words that were matched, below a node. -/
def oneBelow : List ParseTree := [⟨.symbol "S", 0, 2, [⟨.matched ["a", "b"], 0, 2, []⟩]⟩]

/-- The same two nodes, one behind the other. -/
def oneBehind : List ParseTree := [⟨.symbol "S", 0, 2, []⟩, ⟨.matched ["a", "b"], 0, 2, []⟩]

/-- Only the depth of the second node tells one from the other. -/
theorem outlines_inj_oneBelow :
    (∀ s ∈ forestSymbols oneBelow, s.IsPlain) ∧ (∀ s ∈ forestSymbols oneBehind, s.IsPlain) ∧
      (outlines oneBelow = outlines oneBehind ↔ oneBelow = oneBehind) ∧ oneBelow ≠ oneBehind := by
  have h : ∀ s ∈ forestSymbols oneBelow, s.IsPlain := by decide
  have h' : ∀ s ∈ forestSymbols oneBehind, s.IsPlain := by decide
  exact ⟨h, h', outlines_inj h h', by decide⟩

/-- A symbol with a line end in it can look like two nodes. -/
example :
    outlines [⟨.symbol "A [0, 1)\n  b", 0, 1, []⟩] =
      outlines [⟨.symbol "A", 0, 1, [⟨.symbol "b", 0, 1, []⟩]⟩] :=
  rfl

end ParseTree

end ChartParser
