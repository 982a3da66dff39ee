/-!
# Tables

A finite map from names to values that keeps its names in the order of their
arrival. `get?` is the view that matters: each operation states what it does to
it, and `sorted` lists the entries in an order that the view alone decides.
-/

namespace Formula

/-- Names with their values, no name twice. -/
structure Table (α : Type) where
  entries : List (String × α)
  distinct : (entries.map Prod.fst).Nodup

namespace Table

variable {α : Type}

def empty : Table α :=
  ⟨[], by simp⟩

def get? (table : Table α) (name : String) : Option α :=
  table.entries.lookup name

def contains (table : Table α) (name : String) : Bool :=
  (table.get? name).isSome

/-- Put a value in the place of a name's old one, or at the end. -/
def insertEntry (name : String) (value : α) : List (String × α) → List (String × α)
  | [] => [(name, value)]
  | (other, old) :: rest =>
      if other = name then (name, value) :: rest
      else (other, old) :: insertEntry name value rest

theorem mem_names_insertEntry {name other : String} {value : α} {entries : List (String × α)} :
    other ∈ (insertEntry name value entries).map Prod.fst ↔
      other = name ∨ other ∈ entries.map Prod.fst := by
  induction entries with
  | nil => simp [insertEntry]
  | cons entry rest ih =>
      obtain ⟨first, old⟩ := entry
      by_cases h : first = name
      · simp [insertEntry, h]
      · simp only [insertEntry, h, if_false, List.map_cons, List.mem_cons, ih]
        exact or_left_comm

theorem nodup_insertEntry {name : String} {value : α} {entries : List (String × α)}
    (h : (entries.map Prod.fst).Nodup) :
    ((insertEntry name value entries).map Prod.fst).Nodup := by
  induction entries with
  | nil => simp [insertEntry]
  | cons entry rest ih =>
      obtain ⟨first, old⟩ := entry
      simp only [List.map_cons, List.nodup_cons] at h
      by_cases hname : first = name
      · subst hname
        simpa [insertEntry] using h
      · simp only [insertEntry, hname, if_false, List.map_cons, List.nodup_cons]
        exact ⟨fun hmem => (mem_names_insertEntry.1 hmem).elim hname h.1, ih h.2⟩

def insert (table : Table α) (name : String) (value : α) : Table α :=
  ⟨insertEntry name value table.entries, nodup_insertEntry table.distinct⟩

def insertIfAbsent (table : Table α) (name : String) (value : α) : Table α :=
  if table.contains name then table else table.insert name value

def erase (table : Table α) (name : String) : Table α :=
  ⟨table.entries.filter fun entry => entry.1 != name,
    table.distinct.sublist (List.filter_sublist.map Prod.fst)⟩

def insertAll (table : Table α) (entries : List (String × α)) : Table α :=
  entries.foldl (fun table entry => table.insert entry.1 entry.2) table

/-- The table of a list of entries, where the last entry of a name holds. -/
def ofList (entries : List (String × α)) : Table α :=
  empty.insertAll entries

/-- The entries in rising order of their names, which is the order of their UTF-8 bytes. -/
def sorted (table : Table α) : List (String × α) :=
  table.entries.mergeSort fun a b => a.1 ≤ b.1

/-! ## Overwriting -/

theorem insertEntry_insertEntry (name : String) (old value : α)
    (entries : List (String × α)) :
    insertEntry name value (insertEntry name old entries) = insertEntry name value entries := by
  induction entries with
  | nil => simp [insertEntry]
  | cons entry rest ih =>
      obtain ⟨first, other⟩ := entry
      by_cases h : first = name
      · simp [insertEntry, h]
      · simp [insertEntry, h, ih]

@[simp] theorem insert_insert (table : Table α) (name : String) (old value : α) :
    (table.insert name old).insert name value = table.insert name value := by
  simp only [insert, insertEntry_insertEntry]

/-! ## Looking up -/

@[simp] theorem get?_empty (name : String) : (empty : Table α).get? name = none := rfl

theorem lookup_insertEntry (name other : String) (value : α) (entries : List (String × α)) :
    (insertEntry name value entries).lookup other =
      if other = name then some value else entries.lookup other := by
  induction entries with
  | nil =>
      by_cases h : other = name
      · simp [insertEntry, h]
      · simp [insertEntry, List.lookup_cons, h, beq_false_of_ne h]
  | cons entry rest ih =>
      obtain ⟨first, old⟩ := entry
      by_cases hname : first = name
      · subst hname
        by_cases h : other = first
        · simp [insertEntry, h]
        · simp [insertEntry, List.lookup_cons, h, beq_false_of_ne h]
      · by_cases h : other = first
        · subst h
          simp [insertEntry, hname]
        · simp [insertEntry, List.lookup_cons, hname, ih, beq_false_of_ne h]

@[simp] theorem get?_insert (table : Table α) (name other : String) (value : α) :
    (table.insert name value).get? other =
      if other = name then some value else table.get? other :=
  lookup_insertEntry name other value table.entries

@[simp] theorem get?_insertIfAbsent (table : Table α) (name other : String) (value : α) :
    (table.insertIfAbsent name value).get? other =
      if other = name then some ((table.get? name).getD value) else table.get? other := by
  unfold insertIfAbsent contains
  cases h : table.get? name with
  | none => simp
  | some old => by_cases ho : other = name <;> simp [ho, h]

theorem lookup_filter_ne (name other : String) (entries : List (String × α)) :
    (entries.filter fun entry => entry.1 != name).lookup other =
      if other = name then none else entries.lookup other := by
  induction entries with
  | nil => simp
  | cons entry rest ih =>
      obtain ⟨first, old⟩ := entry
      by_cases hname : first = name
      · subst hname
        by_cases h : other = first
        · simpa [h] using ih
        · simpa [List.lookup_cons, h, beq_false_of_ne h] using ih
      · by_cases h : other = first
        · subst h
          simp [hname]
        · simp [List.lookup_cons, hname, ih, beq_false_of_ne h]

@[simp] theorem get?_erase (table : Table α) (name other : String) :
    (table.erase name).get? other = if other = name then none else table.get? other :=
  lookup_filter_ne name other table.entries

theorem get?_insertAll (table other : Table α) (name : String) :
    (table.insertAll other.entries).get? name = (other.get? name).or (table.get? name) := by
  rcases other with ⟨entries, distinct⟩
  simp only [get?, insertAll]
  induction entries generalizing table with
  | nil => rfl
  | cons entry rest ih =>
      obtain ⟨first, value⟩ := entry
      rw [List.map_cons, List.nodup_cons] at distinct
      rw [List.foldl_cons, ih _ distinct.2, insert, lookup_insertEntry]
      by_cases h : name = first
      · subst h
        have habsent : rest.lookup name = none := by
          rw [List.lookup_eq_none_iff]
          intro entry hmem
          have hname : entry.1 ∈ rest.map Prod.fst := List.mem_map_of_mem hmem
          exact bne_iff_ne.2 fun heq => distinct.1 (heq ▸ hname)
        simp [habsent]
      · simp [List.lookup_cons, h, beq_false_of_ne h]

theorem get?_insertAll_map (table : Table α) (names : List String) (value : α) (name : String) :
    (table.insertAll (names.map fun name => (name, value))).get? name =
      if name ∈ names then some value else table.get? name := by
  induction names generalizing table with
  | nil => rfl
  | cons first rest ih =>
      have hstep : (table.insertAll ((first :: rest).map fun name => (name, value))).get? name =
          ((table.insert first value).insertAll
            (rest.map fun name => (name, value))).get? name := rfl
      rw [hstep, ih, get?_insert]
      by_cases hfirst : name = first <;> simp [hfirst]

theorem get?_ofList_map (names : List String) (value : α) (name : String) :
    (ofList (names.map fun name => (name, value))).get? name =
      if name ∈ names then some value else none :=
  get?_insertAll_map empty names value name

end Table

end Formula
