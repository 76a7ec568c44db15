import ChartParser.Proofs.FirstMention
import ChartParser.Proofs.Outcome

/-!
# What a lexicon knows

The text of a lexicon lists words by category, the lexicon keeps categories by word. A category counts
for a word at its first mention, so the categories of a word are those of the lines that hold it, and then
those recorded later, without repetitions, in the order of mention. What is recorded for one word has no
say in the categories of any other. Only a line without a colon is refused, and the first such line
decides.

## Main results

- `cut_singleton`: the first colon of a line
- `splitOnP_flatMap`: cutting at bars and then at white space is cutting at both at once
- `categories_addLines`, `categories_insertEach`: what lines and later calls add
- `ofText_categories`: the categories of every word after reading a text and any calls
-/

namespace ChartParser

/-! ## Cutting lines -/

namespace Text

/-- A cut at one character is a cut at its first occurrence. -/
theorem cut_singleton (mark : Char) (text : List Char) :
    cut [mark] text =
      if mark ∈ text then
        some (text.takeWhile (· != mark), (text.dropWhile (· != mark)).drop 1)
      else none := by
  induction text with
  | nil => rfl
  | cons c rest ih =>
    by_cases hc : c = mark
    · subst hc
      simp [cut, List.isPrefixOf]
    · have hmem : mark ∈ c :: rest ↔ mark ∈ rest := by simp [Ne.symm hc]
      have hbeq : (mark == c) = false := by simpa using Ne.symm hc
      -- The mark does not stand at the front, so the cut is in the rest if there is one.
      rw [cut, ih]
      simp only [List.isPrefixOf, hbeq, hmem, Bool.false_and, Bool.false_eq_true, if_false]
      split <;> simp [hc]

/-- To cut at marks of two kinds, one can cut at the one kind first and then cut the pieces at the
other. -/
theorem splitOnP_flatMap (p q : Char → Bool) (text : List Char) :
    (text.splitOnP p).flatMap (fun piece => piece.splitOnP q) =
      text.splitOnP fun c => p c || q c := by
  induction text with
  | nil => rfl
  | cons c rest ih =>
    rw [List.splitOnP_cons_eq_if_modifyHead, List.splitOnP_cons_eq_if_modifyHead, ← ih]
    by_cases hp : p c = true
    · simp [hp]
    · -- The character goes with the first piece, and is a mark of the other kind or is not.
      obtain ⟨first, others, hsplit⟩ := List.exists_cons_of_ne_nil (List.splitOnP_ne_nil p rest)
      obtain ⟨first', others', hsplit'⟩ := List.exists_cons_of_ne_nil (List.splitOnP_ne_nil q first)
      by_cases hq : q c = true
      · simp [hp, hq, hsplit, List.splitOnP_cons_eq_if_modifyHead]
      · simp [hp, hq, hsplit, hsplit', List.splitOnP_cons_eq_if_modifyHead]

end Text

namespace Lexicon

open Text

variable {line : List Char} {lines : List (List Char)} {lexicon : Lexicon} {text : String}
variable {token word : Token} {category : Symbol} {e : FormatError}

/-! ## Lines -/

/-- The character parts two words of a line. -/
def isBreak (c : Char) : Bool := c == '|' || isBlank c

/-- The category that a line gives: what stands before its first colon, trimmed. -/
def lineCategory (line : List Char) : Symbol :=
  String.ofList (trim (line.takeWhile (· != ':')))

/-- The words that a line gives the category to: the longest runs without a break, behind its first
colon. -/
def lineWords (line : List Char) : List Token :=
  ((((line.dropWhile (· != ':')).drop 1).splitOnP isBreak).filter (! ·.isEmpty)).map String.ofList

/-- The words between bars are the runs without a break. -/
theorem flatMap_words (text : List Char) :
    (text.splitOn '|').flatMap (fun part => (Text.words part).map String.ofList) =
      ((text.splitOnP isBreak).filter (! ·.isEmpty)).map String.ofList := by
  unfold isBreak
  rw [← splitOnP_flatMap, List.filter_flatMap, List.map_flatMap]
  rfl

theorem ofLine_of_mem (h : ':' ∈ line) : ofLine line = .ok (lineCategory line, lineWords line) := by
  rw [ofLine, cut_singleton, if_pos h]
  exact congrArg (fun found => Except.ok (lineCategory line, found)) (flatMap_words _)

theorem ofLine_of_notMem (h : ':' ∉ line) :
    ofLine line = .error (.missingCategorySeparator (String.ofList line)) := by
  rw [ofLine, cut_singleton, if_neg h]

theorem exists_ofLine_iff : (∃ entry, ofLine line = .ok entry) ↔ ':' ∈ line := by
  by_cases h : ':' ∈ line
  · simp [h, ofLine_of_mem]
  · simp [h, ofLine_of_notMem]

theorem ofLine_eq_error_iff :
    ofLine line = .error e ↔
      ':' ∉ line ∧ e = .missingCategorySeparator (String.ofList line) := by
  by_cases h : ':' ∈ line
  · simp [h, ofLine_of_mem]
  · simp [h, ofLine_of_notMem, eq_comm]

/-! ## Recording -/

theorem mention_mention (known : List Symbol) (category : Symbol) :
    mention (mention known category) category = mention known category := by
  unfold mention
  split <;> simp_all

/-- A line gives its category to its words and to no others, however often it holds them. -/
theorem categories_addLine (lexicon : Lexicon) (category : Symbol) (tokens : List Token)
    (token : Token) :
    (lexicon.addLine (category, tokens)).categories token =
      if token ∈ tokens then mention (lexicon.categories token) category
      else lexicon.categories token := by
  -- The lexicon varies, as it takes in the first word before the others. If that word comes again, the
  -- category is known.
  induction tokens generalizing lexicon with
  | nil => rfl
  | cons first tokens ih =>
    have hstep : lexicon.addLine (category, first :: tokens) =
        (lexicon.insert first [category]).addLine (category, tokens) := rfl
    rw [hstep, ih, categories_insert]
    by_cases hfirst : token = first
    · subst hfirst
      simp [mention_mention]
    · simp [hfirst]

/-- Lines are taken in order, and those that do not hold the word do not count. -/
theorem categories_addLines (lexicon : Lexicon) (lines : List (List Char)) (token : Token) :
    ((lines.map fun line => (lineCategory line, lineWords line)).foldl addLine lexicon).categories
        token =
      ((lines.filter fun line => token ∈ lineWords line).map lineCategory).foldl mention
        (lexicon.categories token) := by
  induction lines generalizing lexicon with
  | nil => rfl
  | cons line lines ih =>
    rw [List.map_cons, List.foldl_cons, ih, categories_addLine]
    by_cases htoken : token ∈ lineWords line
    · simp [htoken]
    · simp [htoken]

/-- Records categories for one token after the other. -/
def insertEach (lexicon : Lexicon) (calls : List (Token × List Symbol)) : Lexicon :=
  calls.foldl (fun lexicon call => lexicon.insert call.1 call.2) lexicon

/-- Calls are taken in order, and those for other tokens do not count. -/
theorem categories_insertEach (lexicon : Lexicon) (calls : List (Token × List Symbol))
    (token : Token) :
    (lexicon.insertEach calls).categories token =
      ((calls.filter fun call => call.1 == token).flatMap Prod.snd).foldl mention
        (lexicon.categories token) := by
  -- The lexicon varies, as the calls that are left go on from what the first one leaves.
  induction calls generalizing lexicon with
  | nil => rfl
  | cons call calls ih =>
    have hstep : lexicon.insertEach (call :: calls) =
        (lexicon.insert call.1 call.2).insertEach calls := rfl
    rw [hstep, ih, categories_insert]
    by_cases htoken : call.1 = token
    · simp [htoken]
    · simp [htoken, Ne.symm htoken]

/-! ## Texts -/

theorem ofText_eq_error_iff_mapM :
    ofText text = .error e ↔ (significantLines text.toList).mapM ofLine = .error e := by
  unfold ofText
  cases (significantLines text.toList).mapM ofLine <;> simp [bind, Except.bind, pure, Except.pure]

/-- A text is refused exactly if a significant line has no colon. -/
theorem exists_ofText_eq_error_iff :
    (∃ e, ofText text = .error e) ↔ ∃ line ∈ significantLines text.toList, ':' ∉ line := by
  simp only [ofText_eq_error_iff_mapM, exists_mapM_eq_error_iff, ofLine_eq_error_iff]
  simp

/-- The first line without a colon decides. -/
theorem ofText_eq_error_iff :
    ofText text = .error e ↔ ∃ before line after,
      significantLines text.toList = before ++ line :: after ∧
      (∀ earlier ∈ before, ':' ∈ earlier) ∧ ':' ∉ line ∧
      e = .missingCategorySeparator (String.ofList line) := by
  rw [ofText_eq_error_iff_mapM, mapM_eq_error_iff]
  simp only [exists_ofLine_iff, ofLine_eq_error_iff]

/-- Otherwise, the categories of a word are those of the lines that hold it. -/
theorem exists_ofText (h : ∀ line ∈ significantLines text.toList, ':' ∈ line) :
    ∃ lexicon, ofText text = .ok lexicon ∧ ∀ token, lexicon.categories token =
      (((significantLines text.toList).filter fun line => token ∈ lineWords line).map
        lineCategory).eraseDups := by
  have hread : (significantLines text.toList).mapM ofLine =
      .ok ((significantLines text.toList).map fun line => (lineCategory line, lineWords line)) := by
    rw [mapM_eq_ok_iff, List.forall₂_map_right_iff, List.forall₂_same]
    exact fun line hline => ofLine_of_mem (h line hline)
  refine ⟨_, by rw [ofText, hread]; rfl, fun token => ?_⟩
  -- Mentioning categories one after the other keeps the first of each.
  have hempty := foldl_mention_eraseDups []
    (((significantLines text.toList).filter fun line => token ∈ lineWords line).map lineCategory)
  rw [categories_addLines]
  exact hempty

/-- A text is refused exactly if a significant line has no colon, and the first such line is carried by
the refusal. Otherwise, whatever is recorded later, a word has the categories of those significant lines
that hold it behind their first colon, between bars and white space, and then those that are recorded for
it, all in order without later repetitions. What is recorded for another word changes nothing. -/
theorem ofText_categories (text : String) :
    ((∃ e, ofText text = .error e) ↔ ∃ line ∈ significantLines text.toList, ':' ∉ line) ∧
    (∀ e, ofText text = .error e ↔ ∃ before line after,
      significantLines text.toList = before ++ line :: after ∧
      (∀ earlier ∈ before, ':' ∈ earlier) ∧ ':' ∉ line ∧
      e = .missingCategorySeparator (String.ofList line)) ∧
    ((∀ line ∈ significantLines text.toList, ':' ∈ line) →
      ∃ lexicon, ofText text = .ok lexicon ∧ ∀ calls token,
        (lexicon.insertEach calls).categories token =
          (((significantLines text.toList).filter fun line => token ∈ lineWords line).map
              lineCategory ++
            (calls.filter fun call => call.1 == token).flatMap Prod.snd).eraseDups ∧
        ((lexicon.insertEach calls).categories token).Nodup ∧
        ∀ other added, other ≠ token →
          ((lexicon.insertEach calls).insert other added).categories token =
            (lexicon.insertEach calls).categories token) := by
  refine ⟨exists_ofText_eq_error_iff, fun _ => ofText_eq_error_iff, fun h => ?_⟩
  obtain ⟨lexicon, hread, hcategories⟩ := exists_ofText h
  refine ⟨lexicon, hread, fun calls token => ?_⟩
  have hall := categories_insertEach lexicon calls token
  -- What the text leaves is without repetitions, so the calls go on from it as if they were lines.
  rw [hcategories, foldl_mention_eraseDups] at hall
  refine ⟨hall, hall ▸ nodup_eraseDups _, fun other added hother => ?_⟩
  rw [categories_insert, if_neg (Ne.symm hother)]

/-- A word that lines of two categories hold, one of them twice, and that gets a new one and an old one
later. Behind the first colon, a colon is a part of words like any other character. -/
theorem ofText_categories_eats :
    ∃ lexicon, ofText "# nouns\n N: fish|fork\tfork |\n\nV:eats eats: | eats\nN : eats" = .ok lexicon ∧
      let later := lexicon.insertEach [("eats", ["W", "N"]), ("a", ["D"])]
      later.categories "eats" = ["V", "N", "W"] ∧ later.categories "fork" = ["N"] ∧
        later.categories "eats:" = ["V"] := by
  obtain ⟨-, -, h⟩ :=
    ofText_categories "# nouns\n N: fish|fork\tfork |\n\nV:eats eats: | eats\nN : eats"
  obtain ⟨lexicon, hread, hcategories⟩ := h (by decide)
  refine ⟨lexicon, hread, (hcategories _ _).1.trans ?_, (hcategories _ _).1.trans ?_,
    (hcategories _ _).1.trans ?_⟩ <;> decide

/-- The lexicon without words is that of the empty text. -/
example : ofText "" = .ok empty := rfl

end Lexicon

end ChartParser
