import ChartParser.Proofs.Text.Boundary
import ChartParser.Proofs.Tree.Completeness
import ChartParser.Proofs.Tree.Distinctness
import ChartParser.Tree.Printer

/-!
# Trees can be told by their bracketed text

The bracketed text of a tree shows no spans, and writes what is matched by nothing in quotes like a
token. Still it tells one tree of the input from all others. Read from its start, a text shows where each
of its pieces ends: a symbol at the bracket behind it, a token at the second quote, a row of subtrees at
the bracket that closes it. So the labels can be read off. The spans follow from them: a tree starts where
the one before it ends, and what is matched is as wide as the text in quotes says, one position for a
token and none for nothing.

## Main results

- `bracketed_append_inj`: a tree in front of other text
- `spacedText_append_inj`: a row of trees up to its closing bracket
- `Shows.isTold`: what is below a tree that shows a derivation
- `parse_trees_bracketed_inj`: no two trees of the input have one text
-/

namespace ChartParser

/-! ## Legible grammars and tokens -/

/-- The end of the symbol can be seen in front of an opening bracket, and the symbol is not taken for a
token. Closing brackets do no harm, as no symbol ends in front of one. -/
def Symbol.IsLegible (s : Symbol) : Prop := '(' ∉ s.toList ∧ '"' ∉ s.toList

instance (s : Symbol) : Decidable (Symbol.IsLegible s) :=
  inferInstanceAs (Decidable ('(' ∉ s.toList ∧ '"' ∉ s.toList))

/-- The end of the token can be seen in quotes, and the token is not taken for nothing. -/
def Token.IsLegible (word : Token) : Prop := word ≠ "" ∧ '"' ∉ word.toList

instance (word : Token) : Decidable (Token.IsLegible word) :=
  inferInstanceAs (Decidable (word ≠ "" ∧ '"' ∉ word.toList))

/-- All symbols on right-hand sides are legible. -/
def Grammar.IsLegible (g : Grammar) : Prop :=
  ∀ entry ∈ g.rules.entries, ∀ rhs ∈ entry.2, ∀ s ∈ rhs, Symbol.IsLegible s

instance (g : Grammar) : Decidable g.IsLegible :=
  inferInstanceAs (Decidable (∀ entry ∈ g.rules.entries, ∀ rhs ∈ entry.2, ∀ s ∈ rhs,
    Symbol.IsLegible s))

namespace Token

variable {words words' : List Token}

/-- What is matched at a leaf, one token or nothing, is told by its text. -/
theorem line_inj_of_length_le (hlength : words.length ≤ 1) (hlength' : words'.length ≤ 1)
    (hwords : ∀ word ∈ words, IsLegible word) (hwords' : ∀ word ∈ words', IsLegible word)
    (hline : Symbol.line words = Symbol.line words') : words = words' := by
  match words, words', hlength, hlength' with
  | [], [], _, _ => rfl
  | [], [word'], _, _ => exact absurd hline.symm (hwords' word' List.mem_cons_self).1
  | [word], [], _, _ => exact absurd hline (hwords word List.mem_cons_self).1
  | [word], [word'], _, _ =>
    have hword : word = word' := hline
    rw [hword]

theorem quote_notMem_line (hlength : words.length ≤ 1) (hwords : ∀ word ∈ words, IsLegible word) :
    '"' ∉ (Symbol.line words).toList := by
  match words, hlength with
  | [], _ => exact List.not_mem_nil
  | [word], _ => exact (hwords word List.mem_cons_self).2

end Token

namespace ParseTree

variable {g : Grammar} {tokens : List Token} {t t' : ParseTree} {row row' : List ParseTree}
variable {left right right' : Nat} {rest rest' : List Char}

/-! ## The text of a node -/

/-- What stands between the brackets around a row of subtrees. -/
def rowText (row : List ParseTree) : List Char :=
  [' '].intercalate (row.map fun t => t.bracketed.toList)

/-- A row of trees with a space in front of each. -/
def spacedText (row : List ParseTree) : List Char := row.flatMap fun t => ' ' :: t.bracketed.toList

theorem rowText_cons (t : ParseTree) (more : List ParseTree) :
    rowText (t :: more) = t.bracketed.toList ++ spacedText more := by
  induction more generalizing t with
  | nil => simp [rowText, spacedText]
  | cons u more ih =>
    -- The space in front of the next tree is the one that parts it from this one.
    show _ = t.bracketed.toList ++ ' ' :: (u.bracketed.toList ++ spacedText more)
    rw [← ih u]
    unfold rowText
    rw [List.map_cons, List.map_cons, List.intercalate_cons_cons, List.append_assoc]
    rfl

theorem spacedText_eq (hne : row ≠ []) : spacedText row = ' ' :: rowText row := by
  obtain ⟨t, more, rfl⟩ := List.exists_cons_of_ne_nil hne
  rw [rowText_cons]
  rfl

/-- The text of an inner node: its symbol, and its subtrees in brackets. -/
theorem toList_bracketed {name : Symbol} (hroot : t.root = .symbol name) (hne : t.subtrees ≠ []) :
    t.bracketed.toList = name.toList ++ '(' :: (rowText t.subtrees ++ [')']) := by
  rw [bracketed_eq, if_neg hne, hroot]
  simp [Label.text, rowText, String.toList_intercalate, Function.comp_def]

/-- The text of what is matched stands in quotes. -/
theorem rowText_matched (words : List Symbol) (left right : Nat) :
    rowText [⟨.matched words, left, right, []⟩] = '"' :: ((Symbol.line words).toList ++ ['"']) := by
  rw [rowText_cons, bracketed, Label.toList_text_matched]
  exact List.append_nil _

/-! ## What stands below a node -/

/-- The tree shows a derivation of a legible symbol. -/
structure IsPart (g : Grammar) (tokens : List Token) (t : ParseTree) : Prop where
  shows : t.Shows g tokens
  legible : ∃ name, t.root = .symbol name ∧ Symbol.IsLegible name

/-- Below a node stands one token or nothing, or a row of parts without gaps. -/
inductive Content (g : Grammar) (tokens : List Token) (t : ParseTree) : Prop
  | matched (words : List Token) : words.length ≤ 1 → (∀ word ∈ words, word ∈ tokens) →
      t.right = t.left + words.length → t.subtrees = [⟨.matched words, t.left, t.right, []⟩] →
      Content g tokens t
  | row : t.subtrees ≠ [] → (∀ s ∈ t.subtrees, IsPart g tokens s) →
      Joins t.left t.subtrees t.right → Content g tokens t

theorem Shows.content (hg : g.IsLegible) (h : t.Shows g tokens) : Content g tokens t := by
  cases h with
  | @token name word position _ hword _ =>
    refine .matched [word] (Nat.le_refl 1) ?_ rfl rfl
    exact List.forall_mem_singleton.2 (List.mem_of_getElem? hword)
  | nothing => exact .matched [] (Nat.zero_le 1) (List.forall_mem_nil _) rfl rfl
  | @row lhs alternatives rhs left right subtrees halternatives hrhs hne hroots hjoins hshows =>
    refine .row hne (fun s hs => ⟨hshows s hs, ?_⟩) hjoins
    -- The root of a subtree is a symbol of the alternative.
    have hroot : s.root ∈ (g.solid rhs).map Label.symbol := hroots ▸ List.mem_map_of_mem hs
    obtain ⟨name, hname, hroot⟩ := List.mem_map.1 hroot
    have hmem : name ∈ rhs := (Grammar.mem_solid_iff.1 hname).1
    exact ⟨name, hroot.symm, hg _ (Parse.mem_entries_of_alternatives? halternatives) rhs hrhs name hmem⟩

theorem Shows.subtrees_ne_nil (h : t.Shows g tokens) : t.subtrees ≠ [] := by
  cases h with
  | token => exact List.cons_ne_nil _ _
  | nothing => exact List.cons_ne_nil _ _
  | row _ _ hne => exact hne

/-- A part does not start like a token. -/
theorem IsPart.head?_ne (h : IsPart g tokens t) (rest : List Char) :
    (t.bracketed.toList ++ rest).head? ≠ some '"' := by
  obtain ⟨name, hroot, _, hquote⟩ := h.legible
  rw [toList_bracketed hroot h.shows.subtrees_ne_nil]
  -- The text starts with the symbol, which holds no quote, or with a bracket if the symbol is empty.
  cases hname : name.toList with
  | nil => simp
  | cons c chars =>
    rw [hname] at hquote
    have hc : c ≠ '"' := fun e => hquote (e ▸ List.mem_cons_self)
    simpa using hc

theorem rowText_head?_ne (hne : row ≠ []) (hrow : ∀ t ∈ row, IsPart g tokens t) (rest : List Char) :
    (rowText row ++ rest).head? ≠ some '"' := by
  obtain ⟨t, more, rfl⟩ := List.exists_cons_of_ne_nil hne
  rw [rowText_cons, List.append_assoc]
  exact (hrow t List.mem_cons_self).head?_ne _

/-! ## Reading a text from its start -/

/-- The text between the brackets of the tree, up to the closing one, tells its subtrees and its end among
those of all trees that show a derivation from the same position on. -/
def IsTold (g : Grammar) (tokens : List Token) (t : ParseTree) : Prop :=
  ∀ (t' : ParseTree) (rest rest' : List Char), t'.Shows g tokens → t.left = t'.left →
    rowText t.subtrees ++ ')' :: rest = rowText t'.subtrees ++ ')' :: rest' →
    t.subtrees = t'.subtrees ∧ t.right = t'.right ∧ rest = rest'

/-- A part is told by its text, whatever follows it, if what is below it is told. -/
theorem bracketed_append_inj (htold : IsTold g tokens t) (h : IsPart g tokens t)
    (h' : IsPart g tokens t') (hleft : t.left = t'.left)
    (htext : t.bracketed.toList ++ rest = t'.bracketed.toList ++ rest') : t = t' ∧ rest = rest' := by
  obtain ⟨name, hroot, hbracket, _⟩ := h.legible
  obtain ⟨name', hroot', hbracket', _⟩ := h'.legible
  -- The symbols hold no opening bracket, so the first one ends them.
  rw [toList_bracketed hroot h.shows.subtrees_ne_nil,
    toList_bracketed hroot' h'.shows.subtrees_ne_nil, List.append_assoc, List.append_assoc,
    List.cons_append, List.cons_append, Text.append_mark_inj hbracket hbracket', String.toList_inj,
    List.append_assoc, List.append_assoc] at htext
  obtain ⟨hname, htext⟩ := htext
  obtain ⟨hsubtrees, hright, hrest⟩ := htold t' rest rest' h'.shows hleft htext
  have hroots : t.root = t'.root := by rw [hroot, hroot', hname]
  exact ⟨ParseTree.ext hroots hleft hright hsubtrees, hrest⟩

/-- A row of parts is told by its text up to the closing bracket. Behind each tree there is a space if the
row goes on, and the bracket if it ends. -/
theorem spacedText_append_inj (htold : ∀ t ∈ row, IsTold g tokens t)
    (hrow : ∀ t ∈ row, IsPart g tokens t) (hrow' : ∀ t ∈ row', IsPart g tokens t)
    (hjoins : Joins left row right) (hjoins' : Joins left row' right')
    (htext : spacedText row ++ ')' :: rest = spacedText row' ++ ')' :: rest') :
    row = row' ∧ right = right' ∧ rest = rest' := by
  induction row generalizing left row' with
  | nil =>
    cases row' with
    | nil => exact ⟨rfl, Eq.trans (Eq.symm hjoins) hjoins', (List.cons.inj htext).2⟩
    | cons t' more' => simp [spacedText] at htext
  | cons t more ih =>
    cases row' with
    | nil => simp [spacedText] at htext
    | cons t' more' =>
      obtain ⟨ht, hmore⟩ := List.forall_mem_cons.1 hrow
      obtain ⟨ht', hmore'⟩ := List.forall_mem_cons.1 hrow'
      obtain ⟨htoldFirst, htoldMore⟩ := List.forall_mem_cons.1 htold
      obtain ⟨hleft, hjoins⟩ := hjoins
      obtain ⟨hleft', hjoins'⟩ := hjoins'
      have hfirst : t.bracketed.toList ++ (spacedText more ++ ')' :: rest) =
          t'.bracketed.toList ++ (spacedText more' ++ ')' :: rest') := by
        simpa [spacedText] using htext
      -- The next trees start where the first ones end, which is the same position.
      obtain ⟨rfl, hnext⟩ :=
        bracketed_append_inj htoldFirst ht ht' (hleft.trans hleft'.symm) hfirst
      obtain ⟨rfl, hright, hrest⟩ := ih htoldMore hmore hmore' hjoins hjoins' hnext
      exact ⟨rfl, hright, hrest⟩

/-- What is below a tree that shows a derivation is told by its text. -/
theorem Shows.isTold (hg : g.IsLegible) (htokens : ∀ word ∈ tokens, Token.IsLegible word)
    (h : t.Shows g tokens) : IsTold g tokens t := by
  -- Both trees are read from one position on, which is what carries the widths over to the positions.
  induction t using induct with
  | node t ih =>
    intro t' rest rest' h' hleft htext
    cases h.content hg with
    | matched words hlength hmem hright hsubtrees =>
      have hwords : ∀ word ∈ words, Token.IsLegible word := fun word hword =>
        htokens word (hmem word hword)
      cases h'.content hg with
      | matched words' hlength' hmem' hright' hsubtrees' =>
        have hwords' : ∀ word ∈ words', Token.IsLegible word := fun word hword =>
          htokens word (hmem' word hword)
        have hquote := Token.quote_notMem_line hlength hwords
        have hquote' := Token.quote_notMem_line hlength' hwords'
        -- What is in quotes is told by the second quote, and its number of words is its width.
        rw [hsubtrees, hsubtrees', rowText_matched, rowText_matched,
          Text.quotes_append_inj hquote hquote', String.toList_inj] at htext
        obtain ⟨hline, hrest⟩ := htext
        obtain rfl := Token.line_inj_of_length_le hlength hlength' hwords hwords' hline
        have hrights : t.right = t'.right := by rw [hright, hright', hleft]
        refine ⟨?_, hrights, (List.cons.inj hrest).2⟩
        rw [hsubtrees, hsubtrees', hleft, hrights]
      | row hne' hrow' =>
        -- One text starts with a quote, the other does not.
        rw [hsubtrees, rowText_matched] at htext
        exact absurd (congrArg List.head? htext).symm (rowText_head?_ne hne' hrow' _)
    | row hne hrow hjoins =>
      cases h'.content hg with
      | matched words' _ _ _ hsubtrees' =>
        rw [hsubtrees', rowText_matched] at htext
        exact absurd (congrArg List.head? htext) (rowText_head?_ne hne hrow _)
      | row hne' hrow' hjoins' =>
        have htold : ∀ s ∈ t.subtrees, IsTold g tokens s := fun s hs => ih s hs (hrow s hs).shows
        have hspaced : spacedText t.subtrees ++ ')' :: rest = spacedText t'.subtrees ++ ')' :: rest' := by
          rw [spacedText_eq hne, spacedText_eq hne', List.cons_append, htext, List.cons_append]
        rw [← hleft] at hjoins'
        exact spacedText_append_inj htold hrow hrow' hjoins hjoins' hspaced

/-- An empty token would be written like nothing, though it takes a position. -/
example :
    (⟨.symbol "A", 0, 1, [⟨.matched [""], 0, 1, []⟩]⟩ : ParseTree).bracketed =
      (⟨.symbol "A", 0, 0, [⟨.matched [], 0, 0, []⟩]⟩ : ParseTree).bracketed :=
  rfl

end ParseTree

namespace Parse

open ChartParser.Derivation

variable {g : Grammar} {tokens : List Token} {root q : Symbol} {chart : Chart}
variable {trees : List ParseTree} {t : ParseTree}

/-! ## The trees of the input -/

/-- A tree of the input shows a derivation of its symbol from the first position on. -/
theorem Converged.shows_of_mem_trees (h : Converged g tokens root chart)
    (htrees : chart.trees q = .ok trees) (ht : t ∈ trees) :
    t.Shows g tokens ∧ t.root = .symbol q ∧ t.left = 0 := by
  obtain ⟨d, hby, _, hsymbol, hleft, _, _, rfl⟩ := (h.mem_trees_iff htrees).1 ht
  rw [tree_root, tree_left]
  exact ⟨hby.shows, congrArg Label.symbol hsymbol, hleft⟩

/-- No two trees of the input for one symbol have the same bracketed text, if the symbols on right-hand
sides hold neither opening brackets nor double quotes and no token is empty or holds double quotes. -/
theorem parse_trees_bracketed_inj {g : Grammar} (hg : g.IsLegible) {tokens : List Token}
    (htokens : ∀ word ∈ tokens, Token.IsLegible word) (root : Symbol) :
    ∃ chart, parse g tokens root = .ok chart ∧ ∀ q, ∃ trees, chart.trees q = .ok trees ∧
      ∀ t ∈ trees, ∀ t' ∈ trees, t.bracketed = t'.bracketed → t = t' := by
  obtain ⟨chart, hparse, h⟩ := exists_parse g tokens root
  refine ⟨chart, hparse, fun q => ?_⟩
  obtain ⟨trees, htrees⟩ := h.exists_trees q
  refine ⟨trees, htrees, fun t ht t' ht' htext => ?_⟩
  obtain ⟨hshows, hroot, hleft⟩ := h.shows_of_mem_trees htrees ht
  obtain ⟨hshows', hroot', hleft'⟩ := h.shows_of_mem_trees htrees ht'
  -- Both texts start with the symbol that was asked for, whatever it is spelled like.
  rw [← String.toList_inj, ParseTree.toList_bracketed hroot hshows.subtrees_ne_nil,
    ParseTree.toList_bracketed hroot' hshows'.subtrees_ne_nil, List.append_cancel_left_eq,
    List.cons.injEq] at htext
  have hlefts : t.left = t'.left := hleft.trans hleft'.symm
  obtain ⟨hsubtrees, hright, -⟩ := hshows.isTold hg htokens t' [] [] hshows' hlefts htext.2
  exact ParseTree.ext (hroot.trans hroot'.symm) hlefts hright hsubtrees

/-- All groupings of three letters, with gaps of nothing in all places, are told by their text. -/
theorem pairings_trees_bracketed_inj :
    pairings.IsLegible ∧ (∀ word ∈ ["a", "a", "a"], Token.IsLegible word) ∧
      ∃ chart, parse pairings ["a", "a", "a"] "S" = .ok chart ∧
        ∀ q, ∃ trees, chart.trees q = .ok trees ∧
          ∀ t ∈ trees, ∀ t' ∈ trees, t.bracketed = t'.bracketed → t = t' :=
  have hg : pairings.IsLegible := by decide
  have htokens : ∀ word ∈ ["a", "a", "a"], Token.IsLegible word := by decide
  ⟨hg, htokens, parse_trees_bracketed_inj hg htokens "S"⟩

end Parse

end ChartParser
