/-!
# Tables in order of first mention

A table maps names to values and remembers the order in which the names came. A name that comes again
keeps its place. The rules of a grammar and the words of a lexicon are such tables.

Main statements: an update changes the value of its own name alone (`get?_update`), and it adds the
name at the end unless the table has it (`keys_update`).
-/

namespace ChartParser

/-- A map from names to values, in order of first mention. -/
structure Table (α : Type) where
  /-- The names with their values. -/
  entries : List (String × α)
  keys_nodup : (entries.map Prod.fst).Nodup

namespace Table

variable {α : Type}

/-! ## Reading -/

/-- The table without names. -/
def empty : Table α := ⟨[], by simp⟩

/-- The names, in order of first mention. -/
def keys (t : Table α) : List String := t.entries.map Prod.fst

/-- The value of a name. -/
def get? (t : Table α) (key : String) : Option α := t.entries.lookup key

/-- The table has the name. -/
def contains (t : Table α) (key : String) : Bool := (t.get? key).isSome

@[simp] theorem keys_empty : (empty : Table α).keys = [] := rfl

@[simp] theorem get?_empty (key : String) : (empty : Table α).get? key = none := rfl

theorem contains_eq_true_iff {t : Table α} {key : String} :
    t.contains key = true ↔ key ∈ t.keys := by
  rw [contains, get?, keys]
  -- A lookup goes through the entries in order, as a search for the name does.
  induction t.entries with
  | nil => simp
  | cons entry rest ih =>
    obtain ⟨name, value⟩ := entry
    by_cases h : key = name
    · simp [h]
    · have hbeq : (key == name) = false := by simpa using h
      simp [List.lookup_cons, h, hbeq, ih]

/-! ## Updating -/

/-- The entries after the value of `key` is computed anew from the one it has, if any. -/
def alter (key : String) (f : Option α → α) : List (String × α) → List (String × α)
  | [] => [(key, f none)]
  | (name, value) :: rest =>
    if name = key then (name, f (some value)) :: rest else (name, value) :: alter key f rest

theorem map_fst_alter (key : String) (f : Option α → α) (entries : List (String × α)) :
    (alter key f entries).map Prod.fst =
      if key ∈ entries.map Prod.fst then entries.map Prod.fst
      else entries.map Prod.fst ++ [key] := by
  induction entries with
  | nil => simp [alter]
  | cons entry rest ih =>
    obtain ⟨name, value⟩ := entry
    by_cases h : name = key
    · simp [alter, h]
    · have hne : key ≠ name := fun e => h e.symm
      simp only [alter, h, if_false, List.map_cons, ih, List.mem_cons, hne, false_or]
      split <;> simp

theorem lookup_alter (key key' : String) (f : Option α → α) (entries : List (String × α)) :
    (alter key f entries).lookup key' =
      if key' = key then some (f (entries.lookup key)) else entries.lookup key' := by
  induction entries with
  | nil =>
    by_cases h : key' = key
    · simp [alter, h]
    · have hbeq : (key' == key) = false := by simpa using h
      simp [alter, List.lookup_cons, h, hbeq]
  | cons entry rest ih =>
    obtain ⟨name, value⟩ := entry
    by_cases h : name = key
    · subst h
      by_cases h' : key' = name
      · simp [alter, h']
      · have hbeq : (key' == name) = false := by simpa using h'
        simp [alter, List.lookup_cons, h', hbeq]
    · have hbeq : (key == name) = false := by simpa using fun e : key = name => h e.symm
      by_cases h' : key' = name
      · subst h'
        simp [alter, h]
      · have hbeq' : (key' == name) = false := by simpa using h'
        simp [alter, List.lookup_cons, h, hbeq, hbeq', ih]

/-- Computing a value anew twice comes to doing it once. -/
theorem alter_alter (key : String) (f f' : Option α → α) (entries : List (String × α)) :
    alter key f' (alter key f entries) = alter key (fun value => f' (some (f value))) entries := by
  induction entries with
  | nil => simp [alter]
  | cons entry rest ih =>
    obtain ⟨name, value⟩ := entry
    by_cases h : name = key
    · simp [alter, h]
    · simp [alter, h, ih]

/-- A name that is new comes at the end. -/
theorem alter_of_notMem {key : String} {f : Option α → α} {entries : List (String × α)}
    (h : key ∉ entries.map Prod.fst) : alter key f entries = entries ++ [(key, f none)] := by
  induction entries with
  | nil => rfl
  | cons entry entries ih =>
    rw [List.map_cons, List.mem_cons, not_or] at h
    -- The entry has another name, so it is passed over.
    rw [alter, if_neg (Ne.symm h.1), ih h.2, List.cons_append]

/-- What a table holds after a value was computed anew. -/
theorem mem_alter {key : String} {f : Option α → α} {entries : List (String × α)}
    {entry : String × α} (h : entry ∈ alter key f entries) :
    entry ∈ entries ∨ entry = (key, f none) ∨
      ∃ value, (key, value) ∈ entries ∧ entry = (key, f (some value)) := by
  induction entries with
  | nil => exact Or.inr (Or.inl (List.mem_singleton.1 h))
  | cons first entries ih =>
    obtain ⟨name, value⟩ := first
    unfold alter at h
    split at h
    · rename_i hname
      subst hname
      rcases List.mem_cons.1 h with rfl | h
      · exact Or.inr (Or.inr ⟨value, List.mem_cons_self, rfl⟩)
      · exact Or.inl (List.mem_cons_of_mem _ h)
    · rcases List.mem_cons.1 h with rfl | h
      · exact Or.inl List.mem_cons_self
      · rcases ih h with h | h | ⟨value', hmem, h⟩
        · exact Or.inl (List.mem_cons_of_mem _ h)
        · exact Or.inr (Or.inl h)
        · exact Or.inr (Or.inr ⟨value', List.mem_cons_of_mem _ hmem, h⟩)

/-- Computes the value of `key` anew from the one it has, if any. -/
def update (t : Table α) (key : String) (f : Option α → α) : Table α where
  entries := alter key f t.entries
  keys_nodup := by
    rw [map_fst_alter]
    split
    · exact t.keys_nodup
    · rename_i h
      exact List.nodup_append.2 ⟨t.keys_nodup, by simp, by
        intro name hname other hother hsame
        rw [List.mem_singleton] at hother
        exact h (hother ▸ hsame ▸ hname)⟩

theorem get?_update (t : Table α) (key key' : String) (f : Option α → α) :
    (t.update key f).get? key' = if key' = key then some (f (t.get? key)) else t.get? key' :=
  lookup_alter key key' f t.entries

theorem keys_update (t : Table α) (key : String) (f : Option α → α) :
    (t.update key f).keys = if key ∈ t.keys then t.keys else t.keys ++ [key] :=
  map_fst_alter key f t.entries

theorem update_update (t : Table α) (key : String) (f f' : Option α → α) :
    (t.update key f).update key f' = t.update key fun value => f' (some (f value)) := by
  simp only [update, alter_alter]

/-! ## Changing every value -/

/-- The same names with every value changed by `f`. -/
def map {β : Type} (f : α → β) (t : Table α) : Table β where
  entries := t.entries.map fun entry => (entry.1, f entry.2)
  keys_nodup := by
    rw [List.map_map]
    exact t.keys_nodup

@[simp] theorem get?_map {β : Type} (f : α → β) (t : Table α) (key : String) :
    (t.map f).get? key = (t.get? key).map f := by
  simp only [get?, map]
  induction t.entries with
  | nil => rfl
  | cons entry rest ih =>
    obtain ⟨name, value⟩ := entry
    by_cases h : key = name
    · simp [h]
    · have hbeq : (key == name) = false := by simpa using h
      simp [List.lookup_cons, hbeq, ih]

/-! ## Comparing -/

/-- Both tables have the same names with the same values, in whatever order. -/
def sameEntries [DecidableEq α] (s t : Table α) : Bool :=
  s.entries.length == t.entries.length && s.entries.all fun entry => t.get? entry.1 = some entry.2

end Table

end ChartParser
