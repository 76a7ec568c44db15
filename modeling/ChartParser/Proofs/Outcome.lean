import Mathlib.Data.List.Forall2
import Mathlib.Data.List.Nodup

/-!
# Computations that may be refused

A sequence of steps succeeds exactly if each of them does. These lemmas take successful computations
apart, step by step and, for a row of them, entry by entry.
-/

namespace ChartParser

variable {ε α β : Type}

theorem ok_bind {x : α} {f : α → Except ε β} : ((Except.ok x : Except ε α) >>= f) = f x := rfl

theorem bind_eq_ok_iff {x : Except ε α} {f : α → Except ε β} {b : β} :
    x >>= f = .ok b ↔ ∃ a, x = .ok a ∧ f a = .ok b := by
  cases x with
  | error e => simp [bind, Except.bind]
  | ok a => simp [bind, Except.bind]

theorem exists_of_bind_eq_error {x : Except ε α} {f : α → Except ε β} {e : ε}
    (h : x >>= f = .error e) : x = .error e ∨ ∃ a, x = .ok a ∧ f a = .error e := by
  cases x with
  | error reason =>
    cases h
    exact Or.inl rfl
  | ok a => exact Or.inr ⟨a, rfl, h⟩

/-- A row of computations succeeds exactly if each of them does; the results stand in the same order. -/
theorem mapM_eq_ok_iff {f : α → Except ε β} {inputs : List α} {outputs : List β} :
    inputs.mapM f = .ok outputs ↔ List.Forall₂ (fun a b => f a = .ok b) inputs outputs := by
  induction inputs generalizing outputs with
  | nil =>
    rw [List.mapM_nil, List.forall₂_nil_left_iff]
    simp [pure, Except.pure, eq_comm]
  | cons a rest ih =>
    -- The first input has to be accepted, and then all others.
    rw [List.mapM_cons, bind_eq_ok_iff, List.forall₂_cons_left_iff]
    constructor
    · rintro ⟨b, hb, h⟩
      obtain ⟨bs, hbs, h⟩ := bind_eq_ok_iff.1 h
      cases h
      exact ⟨b, bs, hb, ih.1 hbs, rfl⟩
    · rintro ⟨b, bs, hb, hbs, rfl⟩
      exact ⟨b, hb, bind_eq_ok_iff.2 ⟨bs, ih.2 hbs, rfl⟩⟩

theorem exists_mapM_eq_ok {f : α → Except ε β} {inputs : List α}
    (h : ∀ a ∈ inputs, ∃ b, f a = .ok b) : ∃ outputs, inputs.mapM f = .ok outputs := by
  simp only [mapM_eq_ok_iff]
  induction inputs with
  | nil => exact ⟨[], .nil⟩
  | cons a rest ih =>
    obtain ⟨b, hb⟩ := h a List.mem_cons_self
    obtain ⟨bs, hbs⟩ := ih fun a' ha' => h a' (List.mem_cons_of_mem a ha')
    exact ⟨b :: bs, .cons hb hbs⟩

theorem mapM_congr {f f' : α → Except ε β} {inputs : List α} (h : ∀ a ∈ inputs, f a = f' a) :
    inputs.mapM f = inputs.mapM f' := by
  induction inputs with
  | nil => rfl
  | cons a rest ih =>
    rw [List.mapM_cons, List.mapM_cons, h a List.mem_cons_self,
      ih fun a' ha' => h a' (List.mem_cons_of_mem a ha')]

/-- A row of computations fails as the first of them that fails. -/
theorem mapM_eq_error_iff {f : α → Except ε β} {inputs : List α} {e : ε} :
    inputs.mapM f = .error e ↔ ∃ before a after, inputs = before ++ a :: after ∧
      (∀ earlier ∈ before, ∃ b, f earlier = .ok b) ∧ f a = .error e := by
  constructor
  · intro h
    induction inputs with
    | nil => cases h
    | cons a rest ih =>
      rw [List.mapM_cons] at h
      rcases exists_of_bind_eq_error h with ha | ⟨b, hb, h⟩
      · exact ⟨[], a, rest, rfl, fun _ hmem => absurd hmem List.not_mem_nil, ha⟩
      · rcases exists_of_bind_eq_error h with hrest | ⟨_, _, h⟩
        · -- The first input was accepted, so it stands before the one that was not.
          obtain ⟨before, a', after, rfl, hbefore, ha'⟩ := ih hrest
          exact ⟨a :: before, a', after, rfl, List.forall_mem_cons.2 ⟨⟨b, hb⟩, hbefore⟩, ha'⟩
        · cases h
  · rintro ⟨before, a, after, rfl, hbefore, ha⟩
    -- All that stands before the refused input is accepted, so it is reached.
    obtain ⟨outputs, houtputs⟩ := exists_mapM_eq_ok hbefore
    rw [List.mapM_append, houtputs, List.mapM_cons, ha]
    rfl

/-- What stops a row of computations stops one of them. -/
theorem exists_of_mapM_eq_error {f : α → Except ε β} {inputs : List α} {e : ε}
    (h : inputs.mapM f = .error e) : ∃ a ∈ inputs, f a = .error e := by
  obtain ⟨before, a, after, rfl, -, ha⟩ := mapM_eq_error_iff.1 h
  exact ⟨a, by simp, ha⟩

theorem mem_of_mapM_eq_ok {f : α → Except ε β} {inputs : List α} {outputs : List β}
    (h : inputs.mapM f = .ok outputs) {b : β} : b ∈ outputs ↔ ∃ a ∈ inputs, f a = .ok b := by
  -- The induction is on the inputs with their outputs, one by one.
  have hrows := mapM_eq_ok_iff.1 h
  clear h
  induction hrows with
  | nil => simp
  | cons hhead _ ih =>
    simp only [List.mem_cons, ih, exists_eq_or_imp, hhead, Except.ok.injEq]
    exact or_congr_left eq_comm

theorem exists_of_mapM_eq_ok {f : α → Except ε β} {inputs : List α} {outputs : List β}
    (h : inputs.mapM f = .ok outputs) {a : α} (ha : a ∈ inputs) : ∃ b, f a = .ok b := by
  have hrows := mapM_eq_ok_iff.1 h
  clear h
  induction hrows with
  | nil => exact absurd ha List.not_mem_nil
  | cons hhead _ ih =>
    rcases List.mem_cons.1 ha with rfl | ha
    · exact ⟨_, hhead⟩
    · exact ih ha

/-- Inputs in the middle can be replaced by others, as long as it makes no difference to what is made of
the results. -/
theorem map_mapM_replace {γ : Type} {f : α → Except ε β} {F : List β → γ}
    {before middle middle' after : List α} {outputs outputs' : List β}
    (h : middle.mapM f = .ok outputs) (h' : middle'.mapM f = .ok outputs')
    (hsame : ∀ front back, F (front ++ outputs ++ back) = F (front ++ outputs' ++ back)) :
    ((before ++ middle ++ after).mapM f).map F = ((before ++ middle' ++ after).mapM f).map F := by
  simp only [List.mapM_append, h, h']
  -- A refusal before the middle or behind it is the same on both sides.
  cases before.mapM f with
  | error e => rfl
  | ok front =>
    cases after.mapM f with
    | error e => rfl
    | ok back => exact congrArg Except.ok (hsame front back)

/-- A row of computations fails exactly if one of them does. -/
theorem exists_mapM_eq_error_iff {f : α → Except ε β} {inputs : List α} :
    (∃ e, inputs.mapM f = .error e) ↔ ∃ a ∈ inputs, ∃ e, f a = .error e := by
  constructor
  · rintro ⟨e, h⟩
    obtain ⟨a, ha, herror⟩ := exists_of_mapM_eq_error h
    exact ⟨a, ha, e, herror⟩
  · rintro ⟨a, ha, e, herror⟩
    cases h : inputs.mapM f with
    | error reason => exact ⟨reason, rfl⟩
    | ok outputs =>
      obtain ⟨b, hb⟩ := exists_of_mapM_eq_ok h ha
      rw [hb] at herror
      cases herror

/-- What can be asked of the results in a row can be asked of their inputs. -/
theorem forall₂_of_mapM_eq_ok {γ : Type} {P : β → γ → Prop} {Q : α → γ → Prop} {f : α → Except ε β}
    {inputs : List α} {outputs : List β} (h : inputs.mapM f = .ok outputs)
    (hsame : ∀ a b, f a = .ok b → ∀ c, P b c ↔ Q a c) {row : List γ} :
    List.Forall₂ P outputs row ↔ List.Forall₂ Q inputs row := by
  have hrows := mapM_eq_ok_iff.1 h
  clear h
  induction hrows generalizing row with
  | nil => simp only [List.forall₂_nil_left_iff]
  | @cons a b inputs outputs hhead _ ih =>
    simp only [List.forall₂_cons_left_iff, ih, hsame a b hhead]

/-- Rows of computations that are related entry by entry have results that are. -/
theorem forall₂_outputs_of_mapM_eq_ok {α' β' : Type} {R : α → α' → Prop} {S : β → β' → Prop}
    {f : α → Except ε β} {f' : α' → Except ε β'} {inputs : List α} {inputs' : List α'}
    {outputs : List β} {outputs' : List β'} (hinputs : List.Forall₂ R inputs inputs')
    (hsame : ∀ a a' b b', R a a' → f a = .ok b → f' a' = .ok b' → S b b')
    (h : inputs.mapM f = .ok outputs) (h' : inputs'.mapM f' = .ok outputs') :
    List.Forall₂ S outputs outputs' := by
  have hrows := mapM_eq_ok_iff.1 h
  have hrows' := mapM_eq_ok_iff.1 h'
  clear h h'
  -- The inputs go together one by one, and the outputs go with the inputs.
  induction hinputs generalizing outputs outputs' with
  | nil =>
    cases hrows
    cases hrows'
    exact .nil
  | cons hhead _ ih =>
    cases hrows with
    | cons hb hrest =>
      cases hrows' with
      | cons hb' hrest' => exact .cons (hsame _ _ _ _ hhead hb hb') (ih hrest hrest')

/-- Results are related two by two, the earlier to the later one, if results of different inputs are. -/
theorem pairwise_of_mapM_eq_ok {R : β → β → Prop} {f : α → Except ε β} {inputs : List α}
    {outputs : List β} (h : inputs.mapM f = .ok outputs) (hinputs : inputs.Nodup)
    (hrelated : ∀ a ∈ inputs, ∀ a' ∈ inputs, ∀ b b', f a = .ok b → f a' = .ok b' → a ≠ a' → R b b') :
    outputs.Pairwise R := by
  have hrows := mapM_eq_ok_iff.1 h
  clear h
  induction hrows with
  | nil => exact .nil
  | @cons a b inputs outputs hb hrows ih =>
    obtain ⟨hnot, hrest⟩ := List.nodup_cons.1 hinputs
    refine .cons (fun b' hb' => ?_) (ih hrest fun a ha a' ha' =>
      hrelated a (List.mem_cons_of_mem _ ha) a' (List.mem_cons_of_mem _ ha'))
    -- A later result comes from a later input, and the first input is not there again.
    obtain ⟨a', ha', hfa'⟩ := (mem_of_mapM_eq_ok (mapM_eq_ok_iff.2 hrows)).1 hb'
    have hne : a ≠ a' := fun hsame => hnot (hsame ▸ ha')
    exact hrelated a List.mem_cons_self a' (List.mem_cons_of_mem _ ha') b b' hb hfa' hne

/-- Results that can be told apart by a key whenever their inputs differ have distinct keys. -/
theorem nodup_map_of_mapM_eq_ok {γ : Type} {key : β → γ} {f : α → Except ε β} {inputs : List α}
    {outputs : List β} (h : inputs.mapM f = .ok outputs) (hinputs : inputs.Nodup)
    (hkey : ∀ a ∈ inputs, ∀ a' ∈ inputs, ∀ b b', f a = .ok b → f a' = .ok b' →
      key b = key b' → a = a') :
    (outputs.map key).Nodup := by
  rw [List.Nodup, List.pairwise_map]
  refine pairwise_of_mapM_eq_ok h hinputs fun a ha a' ha' b b' hb hb' hne hsame => ?_
  exact hne (hkey a ha a' ha' b b' hb hb' hsame)

/-- Rows that repeat nothing, and of which no two from different inputs share an entry, repeat nothing
when they are joined. -/
theorem nodup_flatten_of_mapM_eq_ok {f : α → Except ε (List β)} {inputs : List α}
    {outputs : List (List β)} (h : inputs.mapM f = .ok outputs) (hinputs : inputs.Nodup)
    (hrow : ∀ a ∈ inputs, ∀ row, f a = .ok row → row.Nodup)
    (hshared : ∀ a ∈ inputs, ∀ a' ∈ inputs, ∀ row row', f a = .ok row → f a' = .ok row' →
      ∀ b ∈ row, b ∈ row' → a = a') :
    outputs.flatten.Nodup := by
  refine List.nodup_flatten.2 ⟨fun row hmem => ?_, ?_⟩
  · obtain ⟨a, ha, hfa⟩ := (mem_of_mapM_eq_ok h).1 hmem
    exact hrow a ha row hfa
  · refine pairwise_of_mapM_eq_ok h hinputs fun a ha a' ha' row row' hfa hfa' hne b hb hb' => ?_
    exact hne (hshared a ha a' ha' row row' hfa hfa' b hb hb')

end ChartParser
