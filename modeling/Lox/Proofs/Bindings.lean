import Lox.Bindings

/-!
# The values of bindings

What `Lox.Bindings` leaves open: which values there are after a name is bound, and what becomes of
bindings whose values are changed all at once (`Bindings.map`).
-/

namespace Lox.Bindings

variable {α β : Type} {name : String}

theorem insert_insert (bindings : Bindings α) (name : String) (a b : α) :
    (bindings.insert name a).insert name b = bindings.insert name b := by
  obtain ⟨entries⟩ := bindings
  simp only [insert, Bindings.mk.injEq]
  induction entries with
  | nil => simp [insertIn]
  | cons entry rest ih =>
    by_cases same : entry.1 = name
    · simp [insertIn, same]
    · simp [insertIn, same, ih]

theorem contains_insert (bindings : Bindings α) (name name' : String) (a : α) :
    (bindings.insert name a).contains name' = (decide (name = name') || bindings.contains name') := by
  rw [contains, contains, find?_insert]
  by_cases same : name = name' <;> simp [same]

theorem mem_values_of_find? {bindings : Bindings α} {name : String} {a : α}
    (h : bindings.find? name = some a) : a ∈ bindings.values := by
  obtain ⟨entries⟩ := bindings
  simp only [find?, values] at h ⊢
  induction entries with
  | nil => cases h
  | cons entry rest ih =>
    rw [findIn] at h
    split at h
    · cases h
      exact List.mem_cons_self
    · exact List.mem_cons_of_mem _ (ih h)

theorem mem_values_insert {bindings : Bindings α} {name : String} {a b : α}
    (h : b ∈ (bindings.insert name a).values) : b = a ∨ b ∈ bindings.values := by
  obtain ⟨entries⟩ := bindings
  simp only [insert, values] at h ⊢
  induction entries with
  | nil => exact .inl (by simpa [insertIn] using h)
  | cons entry rest ih =>
    rw [insertIn] at h
    split at h
    · rcases List.mem_cons.mp h with same | mem
      · exact .inl same
      · exact .inr (List.mem_cons_of_mem _ mem)
    · rcases List.mem_cons.mp h with same | mem
      · exact .inr (same ▸ List.mem_cons_self)
      · exact (ih mem).imp_right (List.mem_cons_of_mem _)

/-! ## Changing every value -/

/-- Change every value. -/
def map (f : α → β) (bindings : Bindings α) : Bindings β :=
  ⟨bindings.entries.map fun entry => (entry.1, f entry.2)⟩

@[simp] theorem map_empty (f : α → β) : (empty : Bindings α).map f = empty := rfl

@[simp] theorem find?_map (f : α → β) (bindings : Bindings α) :
    (bindings.map f).find? name = (bindings.find? name).map f := by
  obtain ⟨entries⟩ := bindings
  simp only [find?, map]
  induction entries with
  | nil => rfl
  | cons entry rest ih =>
    simp only [List.map_cons, findIn]
    split
    · rfl
    · exact ih

@[simp] theorem contains_map (f : α → β) (bindings : Bindings α) :
    (bindings.map f).contains name = bindings.contains name := by
  rw [contains, contains, find?_map, Option.isSome_map]

theorem map_insert (f : α → β) (bindings : Bindings α) (a : α) :
    (bindings.insert name a).map f = (bindings.map f).insert name (f a) := by
  obtain ⟨entries⟩ := bindings
  simp only [insert, map, Bindings.mk.injEq]
  induction entries with
  | nil => rfl
  | cons entry rest ih =>
    simp only [List.map_cons, insertIn]
    split
    · rfl
    · rw [List.map_cons, ih]

theorem values_map (f : α → β) (bindings : Bindings α) :
    (bindings.map f).values = bindings.values.map f := by
  simp [values, map, Function.comp_def]

theorem map_foldl_insert (f : α → β) (entries : List (String × α)) (bindings : Bindings α) :
    (entries.foldl (fun bindings entry => bindings.insert entry.1 entry.2) bindings).map f =
      (entries.map fun entry => (entry.1, f entry.2)).foldl
        (fun bindings entry => bindings.insert entry.1 entry.2) (bindings.map f) := by
  induction entries generalizing bindings with
  | nil => rfl
  | cons entry rest ih => rw [List.foldl_cons, ih, map_insert, List.map_cons, List.foldl_cons]

theorem map_ofList (f : α → β) (entries : List (String × α)) :
    (ofList entries).map f = ofList (entries.map fun entry => (entry.1, f entry.2)) :=
  map_foldl_insert f entries empty

theorem mem_values_foldl_insert {entries : List (String × α)} {bindings : Bindings α} {a : α}
    (h : a ∈ (entries.foldl (fun bindings entry => bindings.insert entry.1 entry.2)
      bindings).values) : a ∈ bindings.values ∨ ∃ entry ∈ entries, entry.2 = a := by
  induction entries generalizing bindings with
  | nil => exact .inl h
  | cons entry rest ih =>
    rcases ih h with mem | ⟨other, mem, rfl⟩
    · rcases mem_values_insert mem with rfl | mem
      · exact .inr ⟨entry, List.mem_cons_self, rfl⟩
      · exact .inl mem
    · exact .inr ⟨other, List.mem_cons_of_mem _ mem, rfl⟩

theorem mem_values_ofList {entries : List (String × α)} {a : α} (h : a ∈ (ofList entries).values) :
    ∃ entry ∈ entries, entry.2 = a := by
  rcases mem_values_foldl_insert h with mem | found
  · cases mem
  · exact found

/-! ## Lists of entries -/

theorem mem_of_find?_foldl_insert {entries : List (String × α)} {bindings : Bindings α} {a : α}
    (h : (entries.foldl (fun bindings entry => bindings.insert entry.1 entry.2) bindings).find? name =
      some a) : bindings.find? name = some a ∨ (name, a) ∈ entries := by
  induction entries generalizing bindings with
  | nil => exact .inl h
  | cons entry rest ih =>
    rcases ih h with found | mem
    · rw [find?_insert] at found
      split at found
      · rename_i same
        cases found
        exact .inr (same ▸ List.mem_cons_self)
      · exact .inl found
    · exact .inr (List.mem_cons_of_mem _ mem)

theorem mem_of_find?_ofList {entries : List (String × α)} {a : α}
    (h : (ofList entries).find? name = some a) : (name, a) ∈ entries := by
  rcases mem_of_find?_foldl_insert h with found | mem
  · cases found
  · exact mem

/-! ## Different names -/

theorem entries_insert_of_new {bindings : Bindings α} (new : name ∉ bindings.names) (a : α) :
    (bindings.insert name a).entries = bindings.entries ++ [(name, a)] := by
  obtain ⟨entries⟩ := bindings
  simp only [names, insert] at new ⊢
  induction entries with
  | nil => rfl
  | cons entry rest ih =>
    rw [List.map_cons, List.mem_cons, not_or] at new
    rw [insertIn, if_neg (Ne.symm new.1), ih new.2, List.cons_append]

theorem entries_foldl_insert {entries : List (String × α)} {bindings : Bindings α}
    (distinct : (bindings.names ++ entries.map Prod.fst).Nodup) :
    (entries.foldl (fun bindings entry => bindings.insert entry.1 entry.2) bindings).entries =
      bindings.entries ++ entries := by
  induction entries generalizing bindings with
  | nil => rw [List.foldl_nil, List.append_nil]
  | cons entry rest ih =>
    have new : entry.1 ∉ bindings.names := fun mem =>
      (List.nodup_append.mp distinct).2.2 _ mem _ List.mem_cons_self rfl
    have entries := entries_insert_of_new new entry.2
    have names : (bindings.insert entry.1 entry.2).names = bindings.names ++ [entry.1] := by
      rw [Bindings.names, entries, List.map_append]
      rfl
    rw [List.foldl_cons, ih, entries, List.append_assoc, List.singleton_append]
    rw [names, List.append_assoc]
    exact distinct

/-- If the names of a list of entries are different, they are bound as they are listed. -/
theorem ofList_of_nodup {entries : List (String × α)} (distinct : (entries.map Prod.fst).Nodup) :
    ofList entries = ⟨entries⟩ :=
  congrArg mk (@entries_foldl_insert α entries empty distinct)

theorem find?_of_mem {bindings : Bindings α} (distinct : bindings.names.Nodup) {a : α}
    (mem : (name, a) ∈ bindings.entries) : bindings.find? name = some a := by
  obtain ⟨entries⟩ := bindings
  simp only [names, find?] at distinct mem ⊢
  induction entries with
  | nil => cases mem
  | cons entry rest ih =>
    rw [List.map_cons, List.nodup_cons] at distinct
    rw [findIn]
    rcases List.mem_cons.mp mem with rfl | later
    · rw [if_pos rfl]
    · have other : entry.1 ≠ name := by
        rintro rfl
        exact distinct.1 (List.mem_map.mpr ⟨_, later, rfl⟩)
      rw [if_neg other]
      exact ih distinct.2 later

end Lox.Bindings
