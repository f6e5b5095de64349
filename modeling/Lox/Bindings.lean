/-!
# Bindings

`Bindings α` binds names to values of an `α`, each name at most once, and keeps them in the order in
which the names were first bound.  Scopes, frames, the fields of instances and the methods of
classes are all bindings.

The view to reason with is `find?`: `find?_insert` says what binding a name changes.
-/

namespace Lox

/-- Names bound to values. -/
structure Bindings (α : Type) where
  /-- The names and their values; a name occurs once. -/
  entries : List (String × α)

namespace Bindings

variable {α β : Type}

/-- No name is bound. -/
def empty : Bindings α := ⟨[]⟩

instance : Inhabited (Bindings α) := ⟨empty⟩

/-- The value of the first entry with this name. -/
def findIn (name : String) : List (String × α) → Option α
  | [] => none
  | (n, a) :: rest => if n = name then some a else findIn name rest

/-- Bind a name in a list of entries, in place if it is bound already. -/
def insertIn (name : String) (a : α) : List (String × α) → List (String × α)
  | [] => [(name, a)]
  | (n, b) :: rest => if n = name then (name, a) :: rest else (n, b) :: insertIn name a rest

/-- The value that a name is bound to. -/
def find? (bindings : Bindings α) (name : String) : Option α := findIn name bindings.entries

/-- Is the name bound? -/
def contains (bindings : Bindings α) (name : String) : Bool := (bindings.find? name).isSome

/-- Bind a name, in place of what it was bound to. -/
def insert (bindings : Bindings α) (name : String) (a : α) : Bindings α :=
  ⟨insertIn name a bindings.entries⟩

/-- The bound names, in the order in which they were first bound. -/
def names (bindings : Bindings α) : List String := bindings.entries.map Prod.fst

/-- The values, in the order of their names. -/
def values (bindings : Bindings α) : List α := bindings.entries.map Prod.snd

/-- How many names are bound. -/
def size (bindings : Bindings α) : Nat := bindings.entries.length

/-- Bind the names of a list of entries one after the other. -/
def ofList (entries : List (String × α)) : Bindings α :=
  entries.foldl (fun bindings entry => bindings.insert entry.1 entry.2) empty

theorem findIn_insertIn (name name' : String) (a : α) (entries : List (String × α)) :
    findIn name' (insertIn name a entries) =
      if name = name' then some a else findIn name' entries := by
  induction entries with
  | nil => rfl
  | cons entry rest ih =>
    obtain ⟨n, b⟩ := entry
    by_cases same : n = name
    · subst same
      by_cases h : n = name' <;> simp [insertIn, findIn, h]
    · by_cases h : n = name'
      · subst h
        have : ¬name = n := fun h => same h.symm
        simp [insertIn, findIn, same, this]
      · simp [insertIn, findIn, same, h, ih]

theorem find?_insert (bindings : Bindings α) (name name' : String) (a : α) :
    (bindings.insert name a).find? name' =
      if name = name' then some a else bindings.find? name' :=
  findIn_insertIn name name' a bindings.entries

@[simp] theorem find?_insert_self (bindings : Bindings α) (name : String) (a : α) :
    (bindings.insert name a).find? name = some a := by
  rw [find?_insert, if_pos rfl]

theorem find?_insert_of_ne (bindings : Bindings α) {name name' : String} (h : name ≠ name')
    (a : α) : (bindings.insert name a).find? name' = bindings.find? name' := by
  rw [find?_insert, if_neg h]

theorem names_insert (bindings : Bindings α) (name : String) (a : α) :
    (bindings.insert name a).names =
      if bindings.contains name then bindings.names else bindings.names ++ [name] := by
  obtain ⟨entries⟩ := bindings
  simp only [names, insert, contains, find?]
  induction entries with
  | nil => rfl
  | cons entry rest ih =>
    obtain ⟨n, b⟩ := entry
    by_cases same : n = name
    · simp [insertIn, findIn, same]
    · simp only [insertIn, findIn, same, if_false, List.map_cons, ih]
      split <;> simp_all

end Bindings

end Lox
