import ChartParser.Text.Blank

/-!
# Words and lines

How a text falls into parts: trimming at both ends, the words between white space, the lines that
carry something, and the cut at the first occurrence of a mark. Texts are lists of characters here,
so that each part can be reasoned about by induction.

Main statements: a trimmed text neither starts nor ends with white space (`not_blank_of_head?_trim`,
`not_blank_of_getLast?_trim`), and a cut loses nothing and happens at the first occurrence of its mark, if
there is one (`eq_append_of_cut`, `not_infix_of_cut`, `cut_eq_none_iff`).
-/

namespace ChartParser.Text

/-! ## Trimming -/

/-- The text without the white space it ends with. -/
def trimEnd (text : List Char) : List Char := (text.reverse.dropWhile isBlank).reverse

/-- The text without white space at either end. -/
def trim (text : List Char) : List Char := trimEnd (text.dropWhile isBlank)

@[simp] theorem trim_nil : trim [] = [] := rfl

theorem trimEnd_append_blank {text gap : List Char} (h : ∀ c ∈ gap, isBlank c = true) :
    trimEnd (text ++ gap) = trimEnd text := by
  rw [trimEnd, List.reverse_append, List.dropWhile_append_of_pos (by simpa using h), trimEnd]

theorem trim_blank_append {gap text : List Char} (h : ∀ c ∈ gap, isBlank c = true) :
    trim (gap ++ text) = trim text := by
  rw [trim, List.dropWhile_append_of_pos h, trim]

theorem not_blank_of_head?_dropWhile {text : List Char} {c : Char}
    (h : (text.dropWhile isBlank).head? = some c) : isBlank c = false := by
  have hhead := List.head?_dropWhile_not isBlank text
  rw [h] at hhead
  simpa using hhead

theorem trimEnd_prefix (text : List Char) : trimEnd text <+: text := by
  rw [trimEnd, ← List.reverse_suffix, List.reverse_reverse]
  exact List.dropWhile_suffix _

/-- A trimmed text does not start with white space. -/
theorem not_blank_of_head?_trim {text : List Char} {c : Char} (h : (trim text).head? = some c) :
    isBlank c = false := by
  obtain ⟨rest, hrest⟩ := trimEnd_prefix (text.dropWhile isBlank)
  have hhead : (text.dropWhile isBlank).head? = some c := by
    rw [← hrest, List.head?_append, ← trim, h, Option.some_or]
  exact not_blank_of_head?_dropWhile hhead

/-- A trimmed text does not end with white space. -/
theorem not_blank_of_getLast?_trim {text : List Char} {c : Char}
    (h : (trim text).getLast? = some c) : isBlank c = false := by
  rw [trim, trimEnd, List.getLast?_reverse] at h
  exact not_blank_of_head?_dropWhile h

/-! ## Words -/

/-- The longest runs of characters without white space, in order. -/
def words (text : List Char) : List (List Char) :=
  (text.splitOnP isBlank).filter (! ·.isEmpty)

/-! ## Lines -/

/-- The lines of a text, trimmed, without the empty ones and without the comments, which start with
a number sign. -/
def significantLines (text : List Char) : List (List Char) :=
  ((text.splitOn '\n').map trim).filter fun line => ! line.isEmpty && line.head? != some '#'

theorem mem_significantLines {text line : List Char} :
    line ∈ significantLines text ↔
      (∃ raw ∈ text.splitOn '\n', trim raw = line) ∧ line ≠ [] ∧ line.head? ≠ some '#' := by
  simp [significantLines]

/-! ## Cutting at a mark -/

/-- What stands before and after the first occurrence of the mark. -/
def cut (mark : List Char) : List Char → Option (List Char × List Char)
  | [] => none
  | c :: rest =>
    if mark.isPrefixOf (c :: rest) then some ([], (c :: rest).drop mark.length)
    else (cut mark rest).map fun parts => (c :: parts.1, parts.2)

/-- A cut loses nothing. -/
theorem eq_append_of_cut {mark text before after : List Char}
    (h : cut mark text = some (before, after)) : text = before ++ mark ++ after := by
  induction text generalizing before with
  | nil => simp [cut] at h
  | cons c rest ih =>
    by_cases hc : mark.isPrefixOf (c :: rest) = true
    · simp only [cut, hc, if_true, Option.some.injEq, Prod.mk.injEq] at h
      obtain ⟨rfl, rfl⟩ := h
      obtain ⟨tail, htail⟩ := List.isPrefixOf_iff_prefix.1 hc
      simp [← htail]
    · simp only [cut, hc, Bool.false_eq_true, if_false, Option.map_eq_some_iff, Prod.exists,
        Prod.mk.injEq] at h
      obtain ⟨front, back, hcut, rfl, rfl⟩ := h
      simp [ih hcut]

/-- The part before a cut does not hold the mark. -/
theorem not_infix_of_cut {mark text before after : List Char} (hmark : mark ≠ [])
    (h : cut mark text = some (before, after)) : ¬ mark <:+: before := by
  induction text generalizing before with
  | nil => simp [cut] at h
  | cons c rest ih =>
    by_cases hc : mark.isPrefixOf (c :: rest) = true
    · simp only [cut, hc, if_true, Option.some.injEq, Prod.mk.injEq] at h
      obtain ⟨rfl, _⟩ := h
      simpa using hmark
    · simp only [cut, hc, Bool.false_eq_true, if_false, Option.map_eq_some_iff, Prod.exists,
        Prod.mk.injEq] at h
      obtain ⟨front, back, hcut, rfl, rfl⟩ := h
      rw [List.infix_cons_iff]
      -- A mark in the front part would stand at its start, where there is none, or further on.
      rintro (hstart | hlater)
      · apply hc
        rw [List.isPrefixOf_iff_prefix, eq_append_of_cut hcut, List.append_assoc, ← List.cons_append]
        exact hstart.trans (List.prefix_append _ _)
      · exact ih hcut hlater

/-- There is nothing to cut exactly when the text does not hold the mark. -/
theorem cut_eq_none_iff {mark text : List Char} (hmark : mark ≠ []) :
    cut mark text = none ↔ ¬ mark <:+: text := by
  induction text with
  | nil => simpa [cut] using hmark
  | cons c rest ih =>
    rw [List.infix_cons_iff, cut, ← List.isPrefixOf_iff_prefix]
    split
    · simp_all
    · simp_all

end ChartParser.Text
