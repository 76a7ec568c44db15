/-!
# Where a piece of text ends

A text that is put together of pieces gives them back only if it shows where each of them ends. A piece
ends at the first occurrence of a mark that it does not hold itself, a run of one character where another
one comes, a number behind its last digit.

## Main results

- `append_mark_inj`: a mark shows where a piece ends that does not hold it
- `quotes_append_inj`: likewise of the second quote
- `indent_append_inj`: an indentation ends where the text starts
- `toDigits_inj`, `notMem_toDigits`: a decimal number is told by its digits, and holds nothing else
-/

namespace ChartParser.Text

variable {c mark : Char} {piece piece' rest rest' : List Char} {m n : Nat}

/-- What stands in front of a mark and does not hold it can be told from what follows. -/
theorem append_mark_inj (h : mark ∉ piece) (h' : mark ∉ piece') :
    piece ++ mark :: rest = piece' ++ mark :: rest' ↔ piece = piece' ∧ rest = rest' := by
  -- The induction goes along the first piece, and the second has to keep pace with it.
  induction piece generalizing piece' with
  | nil =>
    cases piece' with
    | nil => simp
    | cons d piece' =>
      have hd : mark ≠ d := fun e => h' (e ▸ List.mem_cons_self)
      simp [hd]
  | cons c piece ih =>
    have hc : c ≠ mark := fun e => h (e ▸ List.mem_cons_self)
    cases piece' with
    | nil => simp [hc]
    | cons d piece' =>
      have hrest := @ih piece' (fun hm => h (List.mem_cons_of_mem _ hm))
        fun hm => h' (List.mem_cons_of_mem _ hm)
      rw [List.cons_append, List.cons_append, List.cons.injEq, List.cons.injEq, hrest, and_assoc]

/-- What stands in quotes and does not hold them can be told from what follows. -/
theorem quotes_append_inj (h : '"' ∉ piece) (h' : '"' ∉ piece') :
    '"' :: (piece ++ ['"']) ++ rest = '"' :: (piece' ++ ['"']) ++ rest' ↔
      piece = piece' ∧ rest = rest' := by
  have hmark : piece ++ '"' :: rest = piece' ++ '"' :: rest' ↔ piece = piece' ∧ rest = rest' :=
    append_mark_inj h h'
  simpa using hmark

/-- The depth of an indentation can be told if the text behind it does not start with the same
character. -/
theorem indent_append_inj (h : rest.head? ≠ some c) (h' : rest'.head? ≠ some c) :
    List.replicate m c ++ rest = List.replicate n c ++ rest' ↔ m = n ∧ rest = rest' := by
  induction m generalizing n with
  | zero =>
    cases n with
    | zero => simp
    | succ n =>
      have hne : rest ≠ c :: (List.replicate n c ++ rest') := fun e => h (e ▸ rfl)
      simp [List.replicate_succ, hne]
  | succ m ih =>
    cases n with
    | zero =>
      have hne : c :: (List.replicate m c ++ rest) ≠ rest' := fun e => h' (e ▸ rfl)
      simp [List.replicate_succ, hne]
    | succ n => simp [List.replicate_succ, ih]

/-! ## Decimal numbers -/

/-- A decimal number holds digits only. -/
theorem notMem_toDigits (h : c.isDigit = false) (n : Nat) : c ∉ Nat.toDigits 10 n := by
  intro hc
  rw [Nat.isDigit_of_mem_toDigits (by decide) (by decide) hc] at h
  cases h

/-- A decimal number is told by its digits. -/
theorem toDigits_inj : Nat.toDigits 10 m = Nat.toDigits 10 n ↔ m = n := by
  constructor
  · intro h
    -- Reading the digits gives the number back.
    rw [← Nat.ofDigitChars_ten_toDigits (n := m), h, Nat.ofDigitChars_ten_toDigits]
  · intro h
    rw [h]

end ChartParser.Text
