import ChartParser.Proofs.Grammar.Spelling
import ChartParser.Proofs.Text.Pattern

/-!
# The shape of a rule finds its sides

A text matches the shape of a rule if it has an arrow. The left-hand side could reach over several
arrows, or take in the white space around it, and the search for patterns decides that. What it comes to
is that the text is cut at its first arrow and trimmed on the left: the white space at the start is taken
as a whole before the left-hand side begins, and as the left-hand side prefers to be short, it stops where
nothing but white space is left before the first arrow.

## Main results

- `cut_eq_some_iff`: the first arrow is the one with none in front of it
- `captures?_shape`: what the shape captures in a text
- `isSome_second_word_iff`: a trimmed text has a second word exactly if it holds white space
- `ofText_eq_cut`: how a rule is read, without the search for patterns
-/

namespace ChartParser.Rule

open ChartParser.Text

variable {gap text rest left right : List Char} {c : Char}

/-! ## The first arrow -/

theorem isPrefixOf_arrow_cons (h : isBlank c = true) : arrow.isPrefixOf (c :: rest) = false := by
  have hne : c ≠ '-' := by
    rintro rfl
    revert h
    decide
  simp [arrow, List.isPrefixOf, hne.symm]

/-- White space is passed over on the way to the arrow. -/
theorem cut_gap_append (h : IsGap gap) :
    cut arrow (gap ++ text) = (cut arrow text).map fun parts => (gap ++ parts.1, parts.2) := by
  induction gap with
  | nil => simp
  | cons c gap ih =>
    have hprefix : arrow.isPrefixOf (c :: (gap ++ text)) = false :=
      isPrefixOf_arrow_cons (h c List.mem_cons_self)
    have hrest := ih fun d hd => h d (List.mem_cons_of_mem c hd)
    rw [List.cons_append, cut, hprefix, if_neg Bool.false_ne_true, hrest, Option.map_map]
    rfl

/-- A text without an arrow is passed over, unless it makes an arrow with what follows. -/
theorem cut_append (hleft : ¬ arrow <:+: left) (hhead : text.head? ≠ some '>') :
    cut arrow (left ++ text) = (cut arrow text).map fun parts => (left ++ parts.1, parts.2) := by
  induction left with
  | nil => simp
  | cons c left ih =>
    rw [List.infix_cons_iff, not_or] at hleft
    have hprefix : arrow.isPrefixOf (c :: (left ++ text)) = false := by
      rw [← Bool.not_eq_true, List.isPrefixOf_iff_prefix]
      intro hstart
      cases left with
      | nil =>
        cases text with
        | nil => simp [arrow] at hstart
        | cons d text =>
          obtain ⟨_, hd⟩ : '-' = c ∧ '>' = d := by simpa [arrow] using hstart
          exact hhead (congrArg some hd.symm)
      | cons d left =>
        apply hleft.1
        obtain ⟨hc, hd⟩ : '-' = c ∧ '>' = d := by simpa [arrow] using hstart
        rw [← hc, ← hd]
        exact List.prefix_append arrow left
    rw [List.cons_append, cut, hprefix, if_neg Bool.false_ne_true, ih hleft.2, Option.map_map]
    rfl

theorem cut_arrow_append (right : List Char) : cut arrow (arrow ++ right) = some ([], right) := by
  simp [arrow, cut]

/-- The text is cut at an arrow exactly if there is none in front of it. An arrow does not start with the
mark it ends with, so no arrow begins in front and ends behind. -/
theorem cut_eq_some_iff :
    cut arrow text = some (left, right) ↔ text = left ++ arrow ++ right ∧ ¬ arrow <:+: left := by
  constructor
  · intro hcut
    exact ⟨eq_append_of_cut hcut, not_infix_of_cut (by decide) hcut⟩
  · rintro ⟨rfl, hleft⟩
    have hhead : (arrow ++ right).head? ≠ some '>' := by simp [arrow]
    rw [List.append_assoc, cut_append hleft hhead, cut_arrow_append]
    simp

/-- The first arrow is not in the white space that a text starts with. -/
theorem cut_eq_map_dropWhile (text : List Char) :
    cut arrow text = (cut arrow (text.dropWhile isBlank)).map fun sides =>
      (text.takeWhile isBlank ++ sides.1, sides.2) := by
  have hgap : IsGap (text.takeWhile isBlank) := fun _ hc => List.mem_takeWhile_imp hc
  rw [← cut_gap_append hgap, List.takeWhile_append_dropWhile]

/-! ## What the shape captures -/

/-- The parts behind the arrow. -/
def rhsParts : List Part := [.run (fun _ => true) .most (some "rhs"), .stop]

/-- The parts behind the left-hand side. -/
def gapParts : List Part := .run isBlank .most none :: .literal arrow :: rhsParts

theorem takeWhile_any (text : List Char) : text.takeWhile (fun _ => true) = text :=
  List.takeWhile_eq_self_iff.2 fun _ _ => rfl

/-- The last run takes all that is left. -/
theorem matchHere_rhsParts (atStart : Bool) (text : List Char) :
    matchHere rhsParts atStart text = some [("rhs", text)] := by
  have hstop : ∀ atStart rest,
      matchHere [.stop] atStart rest = if rest.isEmpty then some [] else none := fun _ _ => rfl
  have hnone : text.dropWhile (fun _ => true) = [] := List.dropWhile_eq_nil_iff.2 fun _ _ => rfl
  rw [rhsParts, matchHere_run_most hstop, takeWhile_any, hnone]
  · rfl
  · -- Behind the longest run is the end, so no shorter run has to be tried.
    rw [hnone]
    intro _ _ h
    cases h

theorem matchHere_arrow (atStart : Bool) (text : List Char) :
    matchHere (.literal arrow :: rhsParts) atStart text =
      if arrow.isPrefixOf text then some [("rhs", text.drop arrow.length)] else none := by
  rw [matchHere]
  split
  · exact matchHere_rhsParts _ _
  · rfl

/-- These parts match where nothing but white space is left before the first arrow. An arrow does not
start with white space, so the run takes all of it. -/
theorem matchHere_gapParts (atStart : Bool) (text : List Char) :
    matchHere gapParts atStart text =
      (cut arrow text).bind fun sides =>
        if trimEnd sides.1 = [] then some [("rhs", sides.2)] else none := by
  have hgap : IsGap (text.takeWhile isBlank) := fun _ hc => List.mem_takeWhile_imp hc
  rw [gapParts, matchHere_run_most matchHere_arrow, cut_eq_map_dropWhile]
  · -- What the run leaves starts with an arrow, or with a character that is not white space.
    by_cases harrow : arrow.isPrefixOf (text.dropWhile isBlank) = true
    · obtain ⟨right, hright⟩ := List.isPrefixOf_iff_prefix.1 harrow
      rw [if_pos harrow, ← hright, cut_arrow_append, List.drop_left]
      simp [keep, trimEnd_of_isGap hgap]
    · rw [if_neg harrow]
      cases hcut : cut arrow (text.dropWhile isBlank) with
      | none => rfl
      | some sides =>
        obtain ⟨left, right⟩ := sides
        obtain ⟨hsolid, -⟩ := cut_eq_some_iff.1 hcut
        cases left with
        | nil => exact absurd (List.isPrefixOf_iff_prefix.2 ⟨right, hsolid.symm⟩) harrow
        | cons c left =>
          -- Trimming the end does not get past that character.
          have hc : isBlank c = false := not_blank_of_head?_dropWhile (by rw [hsolid]; rfl)
          simp [trimEnd_append_cons hc]
  · -- Behind a shorter run there is white space and hence no arrow.
    intro length hlength _
    obtain ⟨c, more, hdrop, hc⟩ := exists_cons_of_lt_takeWhile hlength
    rw [hdrop, isPrefixOf_arrow_cons hc]
    rfl

/-- The left-hand side stops at the first place where only white space is left before the first arrow. The
induction is on the text: if the place is not here, it is one character on. -/
theorem findSome?_lhs (text before : List Char) :
    (List.range (text.length + 1)).findSome? (fun length =>
      ((cut arrow (text.drop length)).bind fun sides =>
        if trimEnd sides.1 = [] then some [("rhs", sides.2)] else none).map
          (keep (some "lhs") (before ++ text.take length))) =
      (cut arrow text).map fun sides => [("lhs", before ++ trimEnd sides.1), ("rhs", sides.2)] := by
  induction text generalizing before with
  | nil => rfl
  | cons c text ih =>
    -- All lengths but the first are one more than those that are tried in the rest of the text.
    have hnext := ih (before ++ [c])
    simp only [List.append_assoc, List.singleton_append] at hnext
    rw [List.length_cons, List.range_succ_eq_map, List.findSome?_cons, List.findSome?_map]
    simp only [Function.comp_def, List.drop_zero, List.take_zero, List.drop_succ_cons,
      List.take_succ_cons, List.append_nil, hnext]
    rw [cut]
    by_cases harrow : arrow.isPrefixOf (c :: text) = true
    · rw [if_pos harrow]
      simp [keep, trimEnd_nil]
    · rw [if_neg harrow]
      cases hcut : cut arrow text with
      | none => simp
      | some sides =>
        -- With a gap before the arrow the side ends here, and otherwise it takes in the character.
        by_cases hgap : trimEnd (c :: sides.1) = []
        · simp [keep, hgap]
        · simp [trimEnd_cons_of_ne_nil hgap]

theorem matchHere_lhs (atStart : Bool) (text : List Char) :
    matchHere (.run (fun _ => true) .fewest (some "lhs") :: gapParts) atStart text =
      (cut arrow text).map fun sides => [("lhs", trimEnd sides.1), ("rhs", sides.2)] := by
  have hfind := findSome?_lhs text []
  simp only [List.nil_append] at hfind
  rw [matchHere, Preference.lengths, takeWhile_any, ← hfind]
  simp only [matchHere_gapParts]

/-- What stands before the first arrow is trimmed at its end only, if the text does not start with white
space. -/
theorem trim_takeWhile_append (h : cut arrow (text.dropWhile isBlank) = some (left, right)) :
    trim (text.takeWhile isBlank ++ left) = trimEnd left := by
  have hgap : IsGap (text.takeWhile isBlank) := fun _ hc => List.mem_takeWhile_imp hc
  obtain ⟨hsolid, -⟩ := cut_eq_some_iff.1 h
  have hleft : left.dropWhile isBlank = left := by
    cases left with
    | nil => rfl
    | cons c left =>
      have hc : isBlank c = false := not_blank_of_head?_dropWhile (by rw [hsolid]; rfl)
      exact List.dropWhile_cons_of_neg (by simp [hc])
  rw [trim_blank_append hgap, trim, hleft]

/-- The shape of a rule captures what stands on both sides of the first arrow, the left-hand side trimmed.
It matches nowhere if there is no arrow. -/
theorem captures?_shape (text : List Char) :
    captures? shape text =
      (cut arrow text).map fun sides => [("lhs", trim sides.1), ("rhs", sides.2)] := by
  have hshape : shape =
    .start :: .run isBlank .most none :: .run (fun _ => true) .fewest (some "lhs") :: gapParts := rfl
  rw [hshape, captures?_start, matchHere_run_most matchHere_lhs, cut_eq_map_dropWhile text]
  · -- The first run takes all white space at the start.
    cases hcut : cut arrow (text.dropWhile isBlank) with
    | none => rfl
    | some sides => simp [keep, trim_takeWhile_append hcut]
  · -- With less of it, what is left holds an arrow only if it does so anyway.
    intro length _ hnone
    rw [Option.map_eq_none_iff] at hnone ⊢
    have htext : cut arrow text = none := by rw [cut_eq_map_dropWhile, hnone, Option.map_none]
    rw [cut_eq_none_iff (by decide)] at htext ⊢
    exact fun harrow => htext (harrow.trans (List.drop_suffix length text).isInfix)

/-! ## The second word -/

/-- A gap at one of the ends of a text would be white space there. -/
theorem IsGap.eq_nil_of_head? (hgap : IsGap gap) (h : ∀ c ∈ (gap ++ rest).head?, isBlank c = false) :
    gap = [] := by
  cases gap with
  | nil => rfl
  | cons c gap =>
    have hblank := hgap c List.mem_cons_self
    rw [h c rfl] at hblank
    cases hblank

theorem IsGap.eq_nil_of_getLast? (hgap : IsGap gap)
    (h : ∀ c ∈ (text ++ gap).getLast?, isBlank c = false) : gap = [] := by
  rcases List.eq_nil_or_concat gap with rfl | ⟨init, c, rfl⟩
  · rfl
  · have hblank := hgap c (by simp)
    rw [h c (by simp)] at hblank
    cases hblank

/-- A trimmed text has a second word exactly if it holds white space. -/
theorem isSome_second_word_iff :
    (Text.words (trim text))[1]?.isSome = true ↔ ∃ c ∈ trim text, isBlank c = true := by
  have hhead : ∀ c ∈ (trim text).head?, isBlank c = false := fun _ hc => not_blank_of_head?_trim hc
  have hlast : ∀ c ∈ (trim text).getLast?, isBlank c = false := fun _ hc =>
    not_blank_of_getLast?_trim hc
  have hspaced := spaced_words (trim text)
  generalize Text.words (trim text) = words at hspaced
  generalize trim text = solid at hhead hlast hspaced
  -- The cases are those of no word, one word, and more.
  cases hspaced with
  | nil hgap =>
    have hhead' : ∀ c ∈ (solid ++ []).head?, isBlank c = false := by simpa using hhead
    simp [hgap.eq_nil_of_head? hhead']
  | @cons gap word rest words hgap hword hrest hspaced =>
    cases hspaced with
    | nil hgap' =>
      rw [List.append_assoc] at hhead
      obtain rfl := hgap.eq_nil_of_head? hhead
      obtain rfl := hgap'.eq_nil_of_getLast? hlast
      simpa using hword.2
    | @cons gap' word' rest' words' hgap' hword' hrest' hspaced' =>
      -- What stands behind the first word starts with white space.
      obtain ⟨c, more, hmore⟩ : ∃ c more, gap' ++ word' ++ rest' = c :: more :=
        List.exists_cons_of_ne_nil (by simp [hword'.1])
      rw [hmore] at hrest ⊢
      have hc : isBlank c = true := hrest c rfl
      exact iff_of_true rfl ⟨c, by simp, hc⟩

/-! ## Reading without the search -/

/-- A rule is read from what stands on both sides of its first arrow, the left-hand side trimmed. -/
theorem ofText_eq_cut (text : String) :
    ofText text = match cut arrow text.toList with
      | none => .error (.missingArrow text)
      | some (left, right) => ofSides text (trim left) right := by
  rw [ofText, captures?_shape]
  cases cut arrow text.toList <;> rfl

end ChartParser.Rule
