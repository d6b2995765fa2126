/-!
# Bindings of names

Variables, parameters and functions are kept by name, in the order in which the names were first bound. Binding a
name again replaces its value and leaves it in its place, so that no name occurs twice.

* **`get?_set`** says what is found after a name is bound.
* **`names_set`** says where a name goes that is bound.
-/

namespace Less

/-- Names with their values, in the order of the first binding. -/
structure Bindings (α : Type) where
  entries : List (String × α)
  /-- No name is bound twice. -/
  nodup : (entries.map Prod.fst).Nodup
deriving DecidableEq

namespace Bindings

variable {α : Type}

/-- No names at all. -/
def empty : Bindings α := ⟨[], List.nodup_nil⟩

instance : Inhabited (Bindings α) := ⟨empty⟩

/-- The value of a name. -/
def get? (b : Bindings α) (name : String) : Option α :=
  b.entries.lookup name

/-- The name is bound. -/
def contains (b : Bindings α) (name : String) : Bool :=
  (b.get? name).isSome

/-- The names, in order. -/
def names (b : Bindings α) : List String :=
  b.entries.map Prod.fst

/-- The number of names. -/
def size (b : Bindings α) : Nat :=
  b.entries.length

/-- Replaces the value of a name in place, or adds the name at the end. -/
def setEntry (name : String) (value : α) : List (String × α) → List (String × α)
  | [] => [(name, value)]
  | (n, v) :: rest => if n = name then (n, value) :: rest else (n, v) :: setEntry name value rest

/-- A name that is there keeps its place, and one that is not goes to the end. -/
theorem map_fst_setEntry (name : String) (value : α) (entries : List (String × α)) :
    (setEntry name value entries).map Prod.fst =
      if name ∈ entries.map Prod.fst then entries.map Prod.fst else entries.map Prod.fst ++ [name] := by
  induction entries with
  | nil => rfl
  | cons entry rest ih =>
    obtain ⟨n, v⟩ := entry
    by_cases h : n = name
    · simp [setEntry, h]
    · have h' : ¬name = n := fun e => h e.symm
      by_cases hmem : name ∈ rest.map Prod.fst
      · rw [if_pos hmem] at ih
        simp only [setEntry, h, if_false, List.map_cons, ih, List.mem_cons, h', hmem, or_true, if_true]
      · rw [if_neg hmem] at ih
        simp only [setEntry, h, if_false, List.map_cons, ih, List.mem_cons, h', hmem, or_false, List.cons_append]

/-- Binding a name leaves no name bound twice. -/
theorem nodup_setEntry {name : String} {value : α} {entries : List (String × α)}
    (h : (entries.map Prod.fst).Nodup) : ((setEntry name value entries).map Prod.fst).Nodup := by
  rw [map_fst_setEntry]
  split
  · exact h
  · rename_i hmem
    rw [List.nodup_append]
    refine ⟨h, List.nodup_cons.mpr ⟨List.not_mem_nil, List.nodup_nil⟩, ?_⟩
    intro a ha b hb hab
    rw [List.mem_singleton] at hb
    exact hmem (hb ▸ hab ▸ ha)

/-- Binds a name. -/
def set (b : Bindings α) (name : String) (value : α) : Bindings α :=
  ⟨setEntry name value b.entries, nodup_setEntry b.nodup⟩

/-- Binds one name after the other. -/
def setAll (b : Bindings α) (entries : List (String × α)) : Bindings α :=
  entries.foldl (fun b (name, value) => b.set name value) b

/-- The bindings made one after the other. -/
def ofList (entries : List (String × α)) : Bindings α :=
  empty.setAll entries

/-! ## Lookup after binding -/

/-- A lookup in entries of which one was replaced or added. -/
theorem lookup_setEntry (name other : String) (value : α) (entries : List (String × α)) :
    (setEntry name value entries).lookup other = if other = name then some value else entries.lookup other := by
  induction entries with
  | nil =>
    by_cases h : other = name
    · simp [setEntry, h]
    · simp [setEntry, List.lookup_cons, h, beq_false_of_ne h]
  | cons entry rest ih =>
    obtain ⟨n, v⟩ := entry
    by_cases hn : n = name
    · subst hn
      by_cases h : other = n
      · simp [setEntry, h]
      · simp [setEntry, List.lookup_cons, h, beq_false_of_ne h]
    · by_cases ho : other = n
      · subst ho
        simp [setEntry, hn]
      · simp [setEntry, hn, List.lookup_cons, beq_false_of_ne ho, ih]

@[simp] theorem get?_empty (name : String) : (empty : Bindings α).get? name = none := rfl

theorem get?_set (b : Bindings α) (name other : String) (value : α) :
    (b.set name value).get? other = if other = name then some value else b.get? other :=
  lookup_setEntry name other value b.entries

theorem names_set (b : Bindings α) (name : String) (value : α) :
    (b.set name value).names = if name ∈ b.names then b.names else b.names ++ [name] :=
  map_fst_setEntry name value b.entries

/-! ## Lookup and entries -/

/-- What is found by name is an entry. -/
theorem mem_of_get? {b : Bindings α} {name : String} {value : α} (h : b.get? name = some value) :
    (name, value) ∈ b.entries := by
  obtain ⟨before, after, hentries, -⟩ := List.lookup_eq_some_iff.mp h
  rw [hentries]
  exact List.mem_append_right before List.mem_cons_self

/-- An entry is found by its name, since no other entry has it. -/
theorem lookup_of_mem {name : String} {value : α} {entries : List (String × α)}
    (hnodup : (entries.map Prod.fst).Nodup) (hmem : (name, value) ∈ entries) :
    entries.lookup name = some value := by
  induction entries with
  | nil => exact absurd hmem List.not_mem_nil
  | cons entry rest ih =>
    obtain ⟨n, v⟩ := entry
    rw [List.map_cons, List.nodup_cons] at hnodup
    cases hmem with
    | head => exact List.lookup_cons_self
    | tail _ hmem =>
      have hname : name ∈ rest.map Prod.fst := List.mem_map_of_mem hmem
      have hne : name ≠ n := fun heq => hnodup.1 (heq ▸ hname)
      rw [List.lookup_cons, beq_false_of_ne hne]
      exact ih hnodup.2 hmem

theorem get?_of_mem {b : Bindings α} {name : String} {value : α} (h : (name, value) ∈ b.entries) :
    b.get? name = some value :=
  lookup_of_mem b.nodup h

/-- An entry after a binding is the new one or was there. -/
theorem mem_setEntry {name : String} {value : α} {entries : List (String × α)} {entry : String × α}
    (h : entry ∈ setEntry name value entries) : entry = (name, value) ∨ entry ∈ entries := by
  induction entries with
  | nil => exact Or.inl (List.mem_singleton.mp h)
  | cons first rest ih =>
    obtain ⟨n, v⟩ := first
    rw [setEntry] at h
    split at h
    · rename_i hn
      rcases List.mem_cons.mp h with h | h
      · exact Or.inl (hn ▸ h)
      · exact Or.inr (List.mem_cons_of_mem _ h)
    · rcases List.mem_cons.mp h with h | h
      · exact Or.inr (h ▸ List.mem_cons_self)
      · rcases ih h with h | h
        · exact Or.inl h
        · exact Or.inr (List.mem_cons_of_mem _ h)

/-- An entry after several bindings is one of them or was there. -/
theorem mem_setAll {b : Bindings α} {entries : List (String × α)} {entry : String × α}
    (h : entry ∈ (b.setAll entries).entries) : entry ∈ b.entries ∨ entry ∈ entries := by
  induction entries generalizing b with
  | nil => exact Or.inl h
  | cons first rest ih =>
    rcases ih (b := b.set first.1 first.2) h with h | h
    · rcases mem_setEntry h with h | h
      · exact Or.inr (h ▸ List.mem_cons_self)
      · exact Or.inl h
    · exact Or.inr (List.mem_cons_of_mem _ h)

/-- A new name goes to the end. -/
theorem setEntry_of_notMem {name : String} (value : α) {entries : List (String × α)}
    (h : name ∉ entries.map Prod.fst) : setEntry name value entries = entries ++ [(name, value)] := by
  induction entries with
  | nil => rfl
  | cons entry rest ih =>
    obtain ⟨n, v⟩ := entry
    rw [List.map_cons, List.mem_cons, not_or] at h
    rw [setEntry, if_neg (fun heq => h.1 heq.symm), ih h.2, List.cons_append]

/-- New names are added in order. -/
theorem entries_setAll {b : Bindings α} {entries : List (String × α)}
    (h : ((b.entries ++ entries).map Prod.fst).Nodup) : (b.setAll entries).entries = b.entries ++ entries := by
  induction entries generalizing b with
  | nil => exact (List.append_nil _).symm
  | cons entry rest ih =>
    obtain ⟨name, value⟩ := entry
    have hnew : name ∉ b.entries.map Prod.fst := by
      intro hmem
      rw [List.map_append, List.nodup_append] at h
      exact h.2.2 name hmem name (by simp) rfl
    have hset : (b.set name value).entries = b.entries ++ [(name, value)] := setEntry_of_notMem value hnew
    have hrest : (((b.set name value).entries ++ rest).map Prod.fst).Nodup := by
      rw [hset, List.append_assoc]
      exact h
    show ((b.set name value).setAll rest).entries = _
    rw [ih hrest, hset, List.append_assoc]
    rfl

/-- Bindings made of distinct names have them as entries. -/
theorem entries_ofList {entries : List (String × α)} (h : (entries.map Prod.fst).Nodup) :
    (ofList entries).entries = entries :=
  entries_setAll h

/-- After several bindings of distinct names, the value of a name is the new one if there is one. -/
theorem get?_setAll {b : Bindings α} {entries : List (String × α)} (h : (entries.map Prod.fst).Nodup)
    (name : String) : (b.setAll entries).get? name = (entries.lookup name).or (b.get? name) := by
  induction entries generalizing b with
  | nil => rfl
  | cons entry rest ih =>
    obtain ⟨n, v⟩ := entry
    rw [List.map_cons, List.nodup_cons] at h
    show ((b.set n v).setAll rest).get? name = _
    rw [ih h.2, get?_set, List.lookup_cons]
    by_cases heq : name = n
    · subst heq
      have hnone : rest.lookup name = none := by
        rw [List.lookup_eq_none_iff]
        intro entry hentry
        have hmem : entry.1 ∈ rest.map Prod.fst := List.mem_map_of_mem hentry
        exact bne_iff_ne.mpr fun hname => h.1 (hname ▸ hmem)
      rw [hnone, if_pos rfl, beq_self_eq_true]
      rfl
    · rw [if_neg heq, beq_false_of_ne heq]

/-- Bindings with the same entries are the same. -/
theorem ext_entries {a b : Bindings α} (h : a.entries = b.entries) : a = b := by
  obtain ⟨ea, ha⟩ := a
  obtain ⟨eb, hb⟩ := b
  cases h
  rfl

end Bindings

end Less
