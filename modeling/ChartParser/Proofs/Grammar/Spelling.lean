import Mathlib.Data.List.TakeWhile
import ChartParser.Grammar.Layout

/-!
# What a text spells

The words of a text are the ones that it spells with white space between them, and likewise for the
alternatives of a right-hand side. White space in front and behind plays no part, so trimming a text makes
no difference to what it spells.

## Main results

- `Spaced.words_eq`, `spaced_words`: the words of a text are those that it spells
- `Barred.alternativesOf_eq`, `barred_alternativesOf`: likewise for alternatives
- `Spaced.trimEnd`, `Barred.trimEnd`: a text spells the same without the white space it ends with
-/

namespace ChartParser.Rule

open ChartParser.Text

variable {gap word text rest : List Char} {words : List (List Char)}
variable {alternatives : List Alternative} {c : Char}

/-! ## Words -/

theorem isWord_arrow : IsWord arrow :=
  ⟨by decide, List.forall_mem_cons.2 ⟨by decide, List.forall_mem_singleton.2 (by decide)⟩⟩

theorem isGap_nil : IsGap [] := fun _ hc => absurd hc List.not_mem_nil

theorem IsGap.append {gap' : List Char} (h : IsGap gap) (h' : IsGap gap') : IsGap (gap ++ gap') := by
  intro c hc
  rcases List.mem_append.1 hc with hc | hc
  · exact h c hc
  · exact h' c hc

theorem words_gap_append (h : IsGap gap) : Text.words (gap ++ text) = Text.words text := by
  induction gap with
  | nil => rfl
  | cons c gap ih =>
    have hc : isBlank c = true := h c List.mem_cons_self
    have hrest := ih fun d hd => h d (List.mem_cons_of_mem c hd)
    rw [← hrest]
    unfold Text.words
    -- A cut at the first character leaves an empty piece, which is no word.
    rw [List.cons_append, List.splitOnP_cons_eq_if_modifyHead, if_pos hc]
    rfl

/-- A word reaches as far as there is no white space. -/
theorem words_word_append (h : IsWord word) (hrest : ∀ c ∈ rest.head?, isBlank c = true) :
    Text.words (word ++ rest) = word :: Text.words rest := by
  have hempty : (! word.isEmpty) = true := by simpa using h.1
  unfold Text.words
  cases rest with
  | nil =>
    rw [List.append_nil, List.splitOnP_eq_singleton h.2]
    simp [hempty]
  | cons c rest =>
    have hc : isBlank c = true := hrest c rfl
    -- The first cut is behind the word, as there is no white space in it.
    rw [List.splitOnP_append_cons_of_forall_mem h.2 c hc, List.splitOnP_cons_eq_if_modifyHead,
      if_pos hc]
    simp [hempty]

theorem Spaced.words_eq (h : Spaced words text) : Text.words text = words := by
  induction h with
  | @nil gap hgap =>
    have hnone : Text.words (gap ++ []) = Text.words [] := words_gap_append hgap
    rwa [List.append_nil] at hnone
  | cons hgap hword hrest _ ih =>
    rw [List.append_assoc, words_gap_append hgap, words_word_append hword hrest, ih]

/-- White space in front changes nothing. -/
theorem Spaced.gap_append (hgap : IsGap gap) (h : Spaced words text) : Spaced words (gap ++ text) := by
  cases h with
  | nil hgap' => exact .nil (hgap.append hgap')
  | cons hgap' hword hrest hspaced =>
    rw [← List.append_assoc, ← List.append_assoc]
    exact .cons (hgap.append hgap') hword hrest hspaced

/-- White space behind changes nothing. -/
theorem Spaced.append_gap (h : Spaced words text) (hgap : IsGap gap) : Spaced words (text ++ gap) := by
  induction h with
  | nil hgap' => exact .nil (hgap'.append hgap)
  | @cons gap' word rest words hgap' hword hrest _ ih =>
    rw [List.append_assoc]
    refine .cons hgap' hword (fun c hc => ?_) ih
    -- A word that ended the text now ends at the white space.
    cases rest with
    | nil => exact hgap c (List.mem_of_mem_head? hc)
    | cons d rest => exact hrest c hc

/-- A text falls into what satisfies a test from its start on, and the rest. -/
theorem exists_span (p : Char → Bool) (text : List Char) :
    ∃ front back, front ++ back = text ∧ (∀ c ∈ front, p c = true) ∧
      ∀ c ∈ back.head?, p c = false := by
  refine ⟨text.takeWhile p, text.dropWhile p, List.takeWhile_append_dropWhile,
    fun c hc => List.mem_takeWhile_imp hc, fun c hc => ?_⟩
  have hhead := List.head?_dropWhile_not p text
  rw [Option.mem_def.1 hc] at hhead
  simpa using hhead

/-- Every text spells some words. -/
theorem exists_spaced (text : List Char) : ∃ words, Spaced words text := by
  -- The induction is on the length: behind a gap and a word, less of the text is left.
  induction hlength : text.length using Nat.strongRecOn generalizing text with
  | ind n ih =>
    obtain ⟨gap, solid, rfl, hgap, hsolid⟩ := exists_span isBlank text
    obtain ⟨word, rest, rfl, hword, hrest⟩ := exists_span (fun c => ! isBlank c) solid
    have hblank : ∀ c ∈ rest.head?, isBlank c = true := by simpa using hrest
    cases word with
    | nil =>
      -- Behind the gap there is neither white space nor anything else.
      cases rest with
      | nil => exact ⟨[], by simpa using Spaced.nil hgap⟩
      | cons c rest =>
        have hc := hblank c rfl
        rw [hsolid c rfl] at hc
        cases hc
    | cons c word =>
      have hisWord : IsWord (c :: word) := ⟨List.cons_ne_nil c word, by simpa using hword⟩
      obtain ⟨words, hspaced⟩ := ih rest.length (by simp at hlength; omega) rest rfl
      rw [← List.append_assoc]
      exact ⟨(c :: word) :: words, .cons hgap hisWord hblank hspaced⟩

/-- A text spells its words. -/
theorem spaced_words (text : List Char) : Spaced (Text.words text) text := by
  obtain ⟨words, h⟩ := exists_spaced text
  rwa [h.words_eq]

theorem Spaced.isWord (h : Spaced words text) : ∀ word ∈ words, IsWord word := by
  induction h with
  | nil => exact fun _ hword => absurd hword List.not_mem_nil
  | cons _ hword _ _ ih => exact List.forall_mem_cons.2 ⟨hword, ih⟩

theorem Spaced.subset (h : Spaced words text) : ∀ word ∈ words, word ⊆ text := by
  induction h with
  | nil => exact fun _ hword => absurd hword List.not_mem_nil
  | @cons gap word rest words _ _ _ _ ih =>
    intro other hother
    rcases List.mem_cons.1 hother with rfl | hother
    · exact List.subset_append_of_subset_left _ (List.subset_append_right _ _)
    · exact List.subset_append_of_subset_right _ (ih other hother)

/-! ## Alternatives -/

theorem map_ofList_map_toList (symbols : List Symbol) :
    (symbols.map String.toList).map String.ofList = symbols := by
  simp

theorem alternativesOf_eq_singleton (h : bar ∉ text) :
    alternativesOf text = [(Text.words text).map String.ofList] := by
  rw [alternativesOf, List.splitOn_eq_singleton h]
  rfl

theorem alternativesOf_append_bar (h : bar ∉ text) :
    alternativesOf (text ++ bar :: rest) =
      (Text.words text).map String.ofList :: alternativesOf rest := by
  rw [alternativesOf, List.splitOn_append_cons_self_of_not_mem h]
  rfl

theorem Barred.alternativesOf_eq (h : Barred alternatives text) :
    alternativesOf text = alternatives := by
  induction h with
  | last hspaced hbar => rw [alternativesOf_eq_singleton hbar, hspaced.words_eq, map_ofList_map_toList]
  | cons hspaced hbar _ ih =>
    rw [alternativesOf_append_bar hbar, hspaced.words_eq, map_ofList_map_toList, ih]

/-- A text spells the alternatives that are read from it. -/
theorem barred_alternativesOf (text : List Char) : Barred (alternativesOf text) text := by
  have hspaced : ∀ part, Spaced (((Text.words part).map String.ofList).map String.toList) part := by
    intro part
    simpa using spaced_words part
  -- The induction is on the length: less is left behind the first bar.
  induction hlength : text.length using Nat.strongRecOn generalizing text with
  | ind n ih =>
    by_cases hbar : bar ∈ text
    · obtain ⟨part, rest, rfl, hpart⟩ := List.eq_append_cons_of_mem hbar
      rw [alternativesOf_append_bar hpart]
      refine .cons (hspaced part) hpart (ih rest.length ?_ rest rfl)
      rw [← hlength, List.length_append, List.length_cons]
      omega
    · rw [alternativesOf_eq_singleton hbar]
      exact .last (hspaced text) hbar

/-! ## Trimming -/

theorem trimEnd_append_cons (h : isBlank c = false) :
    trimEnd (text ++ c :: rest) = text ++ c :: trimEnd rest := by
  have hfirst : (c :: text.reverse).dropWhile isBlank = c :: text.reverse :=
    List.dropWhile_cons_of_neg (by simp [h])
  unfold trimEnd
  -- From behind, the trimming takes the white space of the rest and stops at the character at the
  -- latest.
  rw [List.reverse_append, List.reverse_cons, List.append_assoc, List.singleton_append,
    List.dropWhile_append]
  split
  · rename_i hempty
    rw [List.isEmpty_iff] at hempty
    simp [hfirst, hempty]
  · simp

/-- White space is trimmed only behind the last word. -/
theorem trimEnd_append_word (h : IsWord word) :
    trimEnd (text ++ word ++ rest) = text ++ word ++ trimEnd rest := by
  -- The last character of the word is where the trimming stops.
  obtain ⟨init, c, rfl⟩ : ∃ init c, word = init ++ [c] :=
    ⟨_, _, (List.dropLast_concat_getLast h.1).symm⟩
  have hc : isBlank c = false := h.2 c (by simp)
  have hlast : trimEnd (text ++ init ++ c :: rest) = text ++ init ++ c :: trimEnd rest :=
    trimEnd_append_cons hc
  simpa using hlast

theorem dropWhile_word_append (h : IsWord word) :
    (word ++ rest).dropWhile isBlank = word ++ rest := by
  obtain ⟨c, tail, rfl⟩ := List.exists_cons_of_ne_nil h.1
  have hc : isBlank c = false := h.2 c List.mem_cons_self
  exact List.dropWhile_cons_of_neg (by simp [hc])

theorem trim_word_append (h : IsWord word) : trim (word ++ rest) = word ++ trimEnd rest := by
  rw [trim, dropWhile_word_append h]
  show trimEnd ([] ++ word ++ rest) = [] ++ word ++ trimEnd rest
  exact trimEnd_append_word h

@[simp] theorem trimEnd_nil : trimEnd [] = [] := rfl

theorem trimEnd_of_isGap (h : IsGap gap) : trimEnd gap = [] := by
  have hgap : trimEnd ([] ++ gap) = trimEnd [] := trimEnd_append_blank h
  simpa using hgap

/-- A character in front makes no difference to how a text is trimmed at its end, unless nothing is
left. -/
theorem trimEnd_cons_of_ne_nil (h : trimEnd (c :: text) ≠ []) :
    trimEnd (c :: text) = c :: trimEnd text := by
  unfold trimEnd at h ⊢
  rw [List.reverse_cons, List.dropWhile_append] at h ⊢
  split
  · -- The rest is white space, so the character is not.
    rename_i hempty
    rw [if_pos hempty] at h
    rw [List.isEmpty_iff.1 hempty]
    by_cases hc : isBlank c = true
    · exact absurd (by simp [hc]) h
    · simp [hc]
  · simp

/-- Trimming takes white space off both ends. -/
theorem exists_gaps (text : List Char) :
    ∃ before after, IsGap before ∧ IsGap after ∧ text = before ++ trim text ++ after := by
  refine ⟨text.takeWhile isBlank, ((text.dropWhile isBlank).reverse.takeWhile isBlank).reverse,
    fun c hc => List.mem_takeWhile_imp hc, fun c hc => List.mem_takeWhile_imp (List.mem_reverse.1 hc),
    ?_⟩
  rw [List.append_assoc, trim, trimEnd, ← List.reverse_append, List.takeWhile_append_dropWhile,
    List.reverse_reverse, List.takeWhile_append_dropWhile]

theorem Spaced.trimEnd (h : Spaced words text) : Spaced words (trimEnd text) := by
  induction h with
  | @nil gap hgap =>
    have hfront := trimEnd_prefix gap
    exact .nil fun c hc => hgap c (hfront.subset hc)
  | @cons gap word rest words hgap hword hrest _ ih =>
    rw [trimEnd_append_word hword]
    refine .cons hgap hword (fun c hc => hrest c ?_) ih
    -- What is left of the rest starts as the rest does.
    obtain ⟨trimmed, hrest'⟩ := trimEnd_prefix rest
    rw [← hrest', List.head?_append, Option.mem_def.1 hc]
    rfl

theorem Barred.trimEnd (h : Barred alternatives text) : Barred alternatives (trimEnd text) := by
  induction h with
  | @last _ text hspaced hbar =>
    have hfront := trimEnd_prefix text
    exact .last hspaced.trimEnd fun hmem => hbar (hfront.subset hmem)
  | cons hspaced hbar _ ih =>
    -- The bar is not white space, so nothing in front of it is trimmed.
    rw [trimEnd_append_cons (by decide)]
    exact .cons hspaced hbar ih

end ChartParser.Rule
