import Mathlib.Data.List.TakeWhile
import ChartParser.Text.Pattern

/-!
# Where a search for a pattern ends

A search goes through the places of a text and through the lengths of each run. For two kinds of patterns
it is clear beforehand which of them count.

## Main results

- `captures?_start`: a pattern that asks for the start of the text is only looked for there
- `matchHere_run_most`: a run that prefers to be long is as long as it can be, if being shorter does not
  help the rest of the pattern
-/

namespace ChartParser.Text

/-! ## Anchored patterns -/

theorem search_start_false (parts : List Part) (rest : List Char) :
    search (.start :: parts) false rest = none := by
  induction rest with
  | nil => rfl
  | cons c rest ih => exact ih

/-- A pattern that starts with the start of the text matches nowhere else. -/
theorem captures?_start (parts : List Part) (text : List Char) :
    captures? (.start :: parts) text = matchHere parts true text := by
  have hhere : matchHere (.start :: parts) true text = matchHere parts true text := rfl
  rw [captures?, search.eq_def, hhere]
  cases matchHere parts true text with
  | some groups => rfl
  | none =>
    cases text with
    | nil => rfl
    | cons c rest => exact search_start_false parts rest

/-! ## Runs -/

variable {parts : List Part} {after : List Char → Option Groups} {test : Char → Bool}
  {name : Option String} {rest : List Char}

/-- Behind a shorter run than there could be, one more of its characters stands. -/
theorem exists_cons_of_lt_takeWhile {length : Nat} (h : length < (rest.takeWhile test).length) :
    ∃ c more, rest.drop length = c :: more ∧ test c = true := by
  have hdrop : (rest.takeWhile test ++ rest.dropWhile test).drop length =
      (rest.takeWhile test)[length] ::
        ((rest.takeWhile test).drop (length + 1) ++ rest.dropWhile test) := by
    rw [List.drop_append_of_le_length (Nat.le_of_lt h), List.drop_eq_getElem_cons h, List.cons_append]
  rw [List.takeWhile_append_dropWhile] at hdrop
  exact ⟨_, _, hdrop, List.mem_takeWhile_imp (List.getElem_mem h)⟩

/-- A run that prefers to be long takes all that satisfies its test, if the rest of the pattern, which
does not ask for the start, matches behind a shorter run only if it matches behind that. -/
theorem matchHere_run_most (hafter : ∀ atStart rest, matchHere parts atStart rest = after rest)
    (hshorter : ∀ length < (rest.takeWhile test).length, after (rest.dropWhile test) = none →
      after (rest.drop length) = none) (atStart : Bool) :
    matchHere (.run test .most name :: parts) atStart rest =
      (after (rest.dropWhile test)).map (keep name (rest.takeWhile test)) := by
  have hsplit : rest.takeWhile test ++ rest.dropWhile test = rest := List.takeWhile_append_dropWhile
  have htake : (rest.takeWhile test ++ rest.dropWhile test).take (rest.takeWhile test).length =
      rest.takeWhile test := List.take_left
  have hdrop : (rest.takeWhile test ++ rest.dropWhile test).drop (rest.takeWhile test).length =
      rest.dropWhile test := List.drop_left
  rw [hsplit] at htake hdrop
  -- The lengths are tried from the longest on, which settles the search if the rest matches behind it.
  rw [matchHere, Preference.lengths, List.range_succ, List.reverse_append, List.reverse_singleton,
    List.singleton_append, List.findSome?_cons, hafter, htake, hdrop]
  cases hlongest : after (rest.dropWhile test) with
  | some groups => rfl
  | none =>
    -- If it does not, nothing shorter helps.
    show List.findSome? _ _ = none
    rw [List.findSome?_eq_none_iff]
    intro length hlength
    rw [hafter, hshorter length (by simpa using hlength) hlongest]
    rfl

end ChartParser.Text
