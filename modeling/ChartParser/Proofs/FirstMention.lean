import Mathlib.Data.List.Induction
import ChartParser.Grammar.Declaration
import ChartParser.Lexicon

/-!
# First mentions

Where names are recorded as they come, a name that comes again changes nothing. What is recorded in the
end are the names without later repetitions, in the order in which each came first. The left-hand symbols
of a grammar are recorded in this way, and so are the categories of a token.
-/

namespace ChartParser

section

variable {α : Type} [BEq α] [LawfulBEq α]

/-- A name at the end is recorded unless it was there before. -/
theorem eraseDups_append_singleton (names : List α) (name : α) :
    (names ++ [name]).eraseDups =
      if name ∈ names then names.eraseDups else names.eraseDups ++ [name] := by
  rw [List.eraseDups_append]
  split
  · rename_i hmem
    simp [List.removeAll, hmem]
  · rename_i hmem
    simp [List.removeAll, hmem, List.eraseDups_cons]

/-- No name is recorded twice. -/
theorem nodup_eraseDups (names : List α) : names.eraseDups.Nodup := by
  -- The induction is on the length: behind the first name, its repetitions are gone.
  induction hlength : names.length using Nat.strongRecOn generalizing names with
  | ind n ih =>
    cases names with
    | nil => simp
    | cons name names =>
      rw [List.eraseDups_cons, List.nodup_cons]
      have hle := List.length_filter_le (fun other => ! other == name) names
      rw [List.length_cons] at hlength
      exact ⟨by simp, ih _ (by omega) _ rfl⟩

end

/-- The left-hand symbols of gathered rules come in the order in which they are first mentioned. -/
theorem Grammar.keys_gather (rules : List Rule) :
    (gather rules).keys = (rules.map Rule.lhs).eraseDups := by
  induction rules using List.reverseRecOn with
  | nil => rfl
  | append_singleton rules r ih =>
    rw [keys_gather_append, List.map_append, List.map_singleton, eraseDups_append_singleton, ih]
    simp only [List.mem_eraseDups]

/-- Categories that are mentioned in turn count at their first mention. -/
theorem Lexicon.foldl_mention_eraseDups (known added : List Symbol) :
    added.foldl mention known.eraseDups = (known ++ added).eraseDups := by
  -- What is known varies: one mention more, and it is again without repetitions.
  induction added generalizing known with
  | nil => simp
  | cons category added ih =>
    have hmention : mention known.eraseDups category = (known ++ [category]).eraseDups := by
      rw [eraseDups_append_singleton, mention]
      simp only [List.mem_eraseDups]
    rw [List.foldl_cons, hmention, ih, List.append_assoc, List.singleton_append]

end ChartParser
