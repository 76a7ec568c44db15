import ChartParser.Symbol

/-!
# Parse trees

A parse tree shows how a stretch of the input was derived. An inner node carries the symbol that was
derived, a leaf the input that was matched there, which is empty where nothing had to be matched.
Every node spans the positions from `left` up to `right`.

Functions on trees are defined together with the same functions on forests, and the lemmas in each
section say that the latter work tree by tree.
-/

namespace ChartParser

/-- What a node of a parse tree stands for. -/
inductive Label
  /-- The symbol that was derived. -/
  | symbol (name : Symbol)
  /-- The input that was matched. -/
  | matched (words : List Symbol)
deriving DecidableEq, Repr

namespace Label

/-- The symbol that was derived, if the label is one. -/
def symbol? : Label → Option Symbol
  | symbol name => some name
  | matched _ => none

/-- The input that was matched, if the label is that. -/
def matched? : Label → Option (List Symbol)
  | symbol _ => none
  | matched words => some words

/-- The symbols on the label: the one that was derived, or all that were matched. -/
def symbols : Label → List Symbol
  | symbol name => [name]
  | matched words => words

end Label

/-- A parse tree over a stretch of the input. -/
structure ParseTree where
  root : Label
  /-- The position where the tree starts. -/
  left : Nat
  /-- The position where the tree ends, which no longer belongs to it. -/
  right : Nat
  subtrees : List ParseTree

attribute [ext] ParseTree

namespace ParseTree

/-- What holds of a tree whenever it holds of its subtrees holds of all trees. -/
theorem induct {P : ParseTree → Prop}
    (node : ∀ t : ParseTree, (∀ s ∈ t.subtrees, P s) → P t) (t : ParseTree) : P t :=
  ParseTree.rec (motive_1 := P) (motive_2 := fun ts => ∀ s ∈ ts, P s)
    (fun _ _ _ _ subtrees => node _ subtrees) (fun _ h => nomatch h)
    (fun _ _ first rest _ h => (List.mem_cons.1 h).elim (fun e => e ▸ first) (rest _)) t

/-- What holds of no trees, and of a tree in front of others whenever it holds of its subtrees and of
those others, holds of all forests. -/
theorem forest_induct {P : List ParseTree → Prop} (nil : P [])
    (cons : ∀ (t : ParseTree) (rest : List ParseTree), P t.subtrees → P rest → P (t :: rest))
    (forest : List ParseTree) : P forest :=
  ParseTree.rec_1 (motive_1 := fun t => P t.subtrees) (motive_2 := P) (fun _ _ _ _ h => h) nil cons
    forest

/-- The tree has no subtrees. -/
def isLeaf (t : ParseTree) : Bool := t.subtrees.isEmpty

/-! ## Equality -/

mutual

/-- Decides whether two trees are the same. -/
def decEq : (a b : ParseTree) → Decidable (a = b)
  | ⟨root, left, right, subtrees⟩, ⟨root', left', right', subtrees'⟩ =>
    match decEqForest subtrees subtrees' with
    | isTrue hsub =>
      if h : root = root' ∧ left = left' ∧ right = right' then
        isTrue (by obtain ⟨rfl, rfl, rfl⟩ := h; rw [hsub])
      else isFalse fun e => h (by cases e; exact ⟨rfl, rfl, rfl⟩)
    | isFalse hsub => isFalse fun e => hsub (by cases e; rfl)

/-- Decides whether two forests are the same. -/
def decEqForest : (a b : List ParseTree) → Decidable (a = b)
  | [], [] => isTrue rfl
  | [], _ :: _ => isFalse nofun
  | _ :: _, [] => isFalse nofun
  | a :: as, b :: bs =>
    match decEq a b with
    | isTrue hfirst =>
      match decEqForest as bs with
      | isTrue hrest => isTrue (by rw [hfirst, hrest])
      | isFalse hrest => isFalse fun e => hrest (List.cons.inj e).2
    | isFalse hfirst => isFalse fun e => hfirst (List.cons.inj e).1

end

instance : DecidableEq ParseTree := decEq

/-! ## Size -/

mutual

/-- The number of nodes, leaves included. -/
def size : ParseTree → Nat
  | ⟨_, _, _, subtrees⟩ => 1 + forestSize subtrees

/-- The number of nodes of a forest. -/
def forestSize : List ParseTree → Nat
  | [] => 0
  | t :: rest => t.size + forestSize rest

end

theorem size_eq (t : ParseTree) : t.size = 1 + forestSize t.subtrees := by
  cases t
  rfl

theorem forestSize_append (first second : List ParseTree) :
    forestSize (first ++ second) = forestSize first + forestSize second := by
  induction first with
  | nil => simp [forestSize]
  | cons t rest ih => simp [forestSize, ih, Nat.add_assoc]

/-! ## Leaves -/

mutual

/-- The matched input, from left to right. -/
def leaves : ParseTree → List Symbol
  | ⟨root, _, _, subtrees⟩ => root.matched?.getD [] ++ forestLeaves subtrees

/-- The matched input of a forest, from left to right. -/
def forestLeaves : List ParseTree → List Symbol
  | [] => []
  | t :: rest => t.leaves ++ forestLeaves rest

end

theorem forestLeaves_eq_flatMap (forest : List ParseTree) :
    forestLeaves forest = forest.flatMap leaves := by
  induction forest with
  | nil => rfl
  | cons t rest ih => simp [forestLeaves, ih]

theorem leaves_eq (t : ParseTree) :
    t.leaves = t.root.matched?.getD [] ++ t.subtrees.flatMap leaves := by
  cases t
  simp [leaves, forestLeaves_eq_flatMap]

/-! ## Symbols -/

mutual

/-- The symbols on all labels of the tree. -/
def symbols : ParseTree → List Symbol
  | ⟨root, _, _, subtrees⟩ => root.symbols ++ forestSymbols subtrees

/-- The symbols on all labels of a forest. -/
def forestSymbols : List ParseTree → List Symbol
  | [] => []
  | t :: rest => t.symbols ++ forestSymbols rest

end

/-- What holds of all symbols of a forest holds of those of the first root, of its subtrees and of the
other trees. -/
theorem forall_forestSymbols_cons {P : Symbol → Prop} {t : ParseTree} {rest : List ParseTree} :
    (∀ s ∈ forestSymbols (t :: rest), P s) ↔ (∀ s ∈ t.root.symbols, P s) ∧
      (∀ s ∈ forestSymbols t.subtrees, P s) ∧ ∀ s ∈ forestSymbols rest, P s := by
  cases t
  rw [forestSymbols, symbols, List.forall_mem_append, List.forall_mem_append, and_assoc]

end ParseTree

end ChartParser
