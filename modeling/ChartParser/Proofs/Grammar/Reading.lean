import ChartParser.Proofs.Grammar.Shape

/-!
# Rules are read in every layout

What the reader of a rule makes of a text is told by the layouts of rules: it finds the rule of which the
text is a layout, and there is one whenever it accepts the text. The white space of a layout plays no
part, so trimming a text makes no difference.

## Main results

- `ofText_eq_ok_iff`: a rule is read from exactly the texts that are layouts of it
- `Layout.trim`: a layout stays one if it is trimmed
-/

namespace ChartParser.Rule

open ChartParser.Text

variable {left right : List Char} {r : Rule}

/-- A layout stays one if it is trimmed. -/
theorem Layout.trim (h : Layout r text) : Layout r (trim text) := by
  cases h with
  | @intro before after right hbefore hword hlhs hafter hbarred =>
    have htrim : Text.trim (before ++ r.lhs.toList ++ after ++ arrow ++ right) =
        [] ++ r.lhs.toList ++ after ++ arrow ++ Text.trimEnd right := by
      -- In front the trimming stops at the left-hand symbol, behind it stops at the arrow at the
      -- latest.
      rw [List.append_assoc, List.append_assoc, List.append_assoc, trim_blank_append hbefore,
        trim_word_append hword, ← List.append_assoc, trimEnd_append_word isWord_arrow]
      simp
    rw [htrim]
    exact .intro isGap_nil hword hlhs hafter hbarred.trimEnd

/-! ## Reading rules -/

/-- The sides of a rule are accepted exactly when one word stands on the left. -/
theorem ofSides_eq_ok_iff {text : String} :
    ofSides text (trim left) right = .ok r ↔
      trim left ≠ [] ∧ (∀ c ∈ trim left, isBlank c = false) ∧
        r = ⟨String.ofList (trim left), alternativesOf right⟩ := by
  simp only [ofSides]
  split
  · rename_i hempty
    simp [hempty]
  · rename_i hempty
    split
    · rename_i hsecond
      obtain ⟨c, hc, hblank⟩ := isSome_second_word_iff.1 hsecond
      simp only [reduceCtorEq, false_iff]
      rintro ⟨_, hword, _⟩
      rw [hword c hc] at hblank
      exact Bool.noConfusion hblank
    · rename_i hsecond
      rw [isSome_second_word_iff] at hsecond
      have hword : ∀ c ∈ trim left, isBlank c = false := by simpa using hsecond
      rw [Except.ok.injEq, eq_comm]
      exact ⟨fun h => ⟨hempty, hword, h⟩, fun h => h.2.2⟩

/-- A rule is read from each of its layouts. -/
theorem Layout.ofText_eq {text : String} (h : Layout r text.toList) : ofText text = .ok r := by
  generalize hchars : text.toList = chars at h
  cases h with
  | @intro before after right hbefore hword hlhs hafter hbarred =>
    -- What follows the left-hand symbol starts with white space or with the arrow itself.
    have hhead : (after ++ (arrow ++ right)).head? ≠ some '>' := by
      cases after with
      | nil => simp [arrow]
      | cons c after =>
        rintro hc
        have hblank := hafter '>' (by simp_all)
        revert hblank
        decide
    have hcut : cut arrow text.toList = some (before ++ (r.lhs.toList ++ (after ++ [])), right) := by
      rw [hchars, List.append_assoc, List.append_assoc, List.append_assoc, cut_gap_append hbefore,
        cut_append hlhs hhead, cut_gap_append hafter, cut_arrow_append]
      rfl
    -- Without the white space around it, what stands before the arrow is the symbol.
    have htrim : Text.trim (before ++ (r.lhs.toList ++ (after ++ []))) = r.lhs.toList := by
      rw [trim_blank_append hbefore, List.append_nil, trim_word_append hword, trimEnd_of_isGap hafter,
        List.append_nil]
    rw [ofText_eq_cut, hcut]
    apply ofSides_eq_ok_iff.2
    rw [htrim, hbarred.alternativesOf_eq, String.ofList_toList]
    exact ⟨hword.1, hword.2, rfl⟩

/-- A text from which a rule is read is a layout of it. -/
theorem layout_of_ofText {text : String} (h : ofText text = .ok r) : Layout r text.toList := by
  rw [ofText_eq_cut] at h
  cases hcut : cut arrow text.toList with
  | none => simp [hcut] at h
  | some parts =>
    obtain ⟨left, right⟩ := parts
    simp only [hcut] at h
    obtain ⟨hne, hword, rfl⟩ := ofSides_eq_ok_iff.1 h
    -- The white space that was trimmed is that of the layout on the two sides of the symbol.
    obtain ⟨before, after, hbefore, hafter, hleft⟩ := exists_gaps left
    have hinfix : Text.trim left <:+: left := ⟨before, after, hleft.symm⟩
    have hlhs : (String.ofList (Text.trim left)).toList = Text.trim left := String.toList_ofList
    have htext : text.toList =
        before ++ (String.ofList (Text.trim left)).toList ++ after ++ arrow ++ right := by
      rw [hlhs, ← hleft]
      exact eq_append_of_cut hcut
    rw [htext]
    refine .intro hbefore ?_ (fun harrow => ?_) hafter (barred_alternativesOf right)
    · rw [hlhs]
      exact ⟨hne, hword⟩
    · rw [hlhs] at harrow
      -- The cut is at the first arrow, so there is none in the symbol.
      exact not_infix_of_cut (by decide) hcut (harrow.trans hinfix)

/-- A rule is read from exactly the texts that are layouts of it. -/
theorem ofText_eq_ok_iff {text : String} : ofText text = .ok r ↔ Layout r text.toList :=
  ⟨layout_of_ofText, Layout.ofText_eq⟩

end ChartParser.Rule
