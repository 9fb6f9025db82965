/-!
# Dictionaries with text keys

A dictionary is the list of its entries in ascending key order, each key once. So equal contents are
equal dictionaries, and every reader sees the entries in the same order. The order of keys is the
order of their code points.

Main facts: what an insertion does to a look-up (`find?_insert_self`, `find?_insert_of_ne`).
-/

namespace Arbor

/-- Entries in ascending key order, each key once. -/
structure Dict (α : Type) where
  entries : List (String × α)
  sorted : entries.Pairwise fun a b => a.1 < b.1
  deriving DecidableEq

namespace Dict

variable {α β : Type}

/-- The entry goes to its place in the order, or takes the place of the entry with its key. -/
def insertEntry (key : String) (value : α) : List (String × α) → List (String × α)
  | [] => [(key, value)]
  | (k, v) :: rest =>
    if key < k then (key, value) :: (k, v) :: rest
    else if key = k then (key, value) :: rest
    else (k, v) :: insertEntry key value rest

/-- The value of the first entry with the key. -/
def lookupIn? (key : String) : List (String × α) → Option α
  | [] => none
  | (k, v) :: rest => if k = key then some v else lookupIn? key rest

theorem mem_insertEntry {key : String} {value : α} {l : List (String × α)} {e : String × α}
    (h : e ∈ insertEntry key value l) : e = (key, value) ∨ e ∈ l := by
  induction l with
  | nil => simpa [insertEntry] using h
  | cons head rest ih =>
    obtain ⟨k, v⟩ := head
    simp only [insertEntry] at h
    split at h
    · simpa using h
    · split at h
      · rcases List.mem_cons.mp h with h | h
        · exact .inl h
        · exact .inr (List.mem_cons_of_mem _ h)
      · rcases List.mem_cons.mp h with h | h
        · exact .inr (h ▸ List.mem_cons_self)
        · rcases ih h with h | h
          · exact .inl h
          · exact .inr (List.mem_cons_of_mem _ h)

private theorem lt_of_not_lt_of_ne {a b : String} (h : ¬a < b) (hne : a ≠ b) : b < a := by
  apply Classical.byContradiction
  intro hba
  exact hne (String.le_antisymm (String.not_lt.mp hba) (String.not_lt.mp h))

theorem pairwise_insertEntry {key : String} {value : α} {l : List (String × α)}
    (h : l.Pairwise fun a b => a.1 < b.1) :
    (insertEntry key value l).Pairwise fun a b => a.1 < b.1 := by
  induction l with
  | nil => simp [insertEntry]
  | cons head rest ih =>
    obtain ⟨k, v⟩ := head
    obtain ⟨hhead, hrest⟩ := List.pairwise_cons.mp h
    simp only [insertEntry]
    split
    · rename_i hlt
      refine List.pairwise_cons.mpr ⟨?_, h⟩
      intro e he
      rcases List.mem_cons.mp he with rfl | he
      · exact hlt
      · exact String.lt_trans hlt (hhead e he)
    · rename_i hnlt
      split
      · rename_i heq
        subst heq
        exact List.pairwise_cons.mpr ⟨hhead, hrest⟩
      · rename_i hne
        refine List.pairwise_cons.mpr ⟨?_, ih hrest⟩
        intro e he
        rcases mem_insertEntry he with rfl | he
        · exact lt_of_not_lt_of_ne hnlt hne
        · exact hhead e he

/-- The dictionary without entries. -/
def empty : Dict α := ⟨[], .nil⟩

instance : EmptyCollection (Dict α) := ⟨empty⟩

instance : Inhabited (Dict α) := ⟨empty⟩

/-- Binds the key to the value; an earlier binding of the key is replaced. -/
def insert (d : Dict α) (key : String) (value : α) : Dict α :=
  ⟨insertEntry key value d.entries, pairwise_insertEntry d.sorted⟩

/-- The value that the key is bound to. -/
def find? (d : Dict α) (key : String) : Option α := lookupIn? key d.entries

/-- Is the key bound? -/
def contains (d : Dict α) (key : String) : Bool := (d.find? key).isSome

/-- The number of entries. -/
def size (d : Dict α) : Nat := d.entries.length

/-- Binds each pair in turn, so that the last binding of a key wins. -/
def insertAll (d : Dict α) (pairs : List (String × α)) : Dict α :=
  pairs.foldl (fun d e => d.insert e.1 e.2) d

/-- The dictionary of the pairs; the last binding of a key wins. -/
def ofList (pairs : List (String × α)) : Dict α := empty.insertAll pairs

theorem lookupIn?_insertEntry_self (key : String) (value : α) (l : List (String × α)) :
    lookupIn? key (insertEntry key value l) = some value := by
  induction l with
  | nil => simp [insertEntry, lookupIn?]
  | cons head rest ih =>
    obtain ⟨k, v⟩ := head
    simp only [insertEntry]
    split
    · simp [lookupIn?]
    · split
      · simp [lookupIn?]
      · rename_i hne
        simp [lookupIn?, Ne.symm hne, ih]

theorem lookupIn?_insertEntry_of_ne {key other : String} (hne : other ≠ key) (value : α)
    (l : List (String × α)) :
    lookupIn? other (insertEntry key value l) = lookupIn? other l := by
  induction l with
  | nil => simp [insertEntry, lookupIn?, Ne.symm hne]
  | cons head rest ih =>
    obtain ⟨k, v⟩ := head
    simp only [insertEntry]
    split
    · simp [lookupIn?, Ne.symm hne]
    · split
      · rename_i heq
        subst heq
        simp [lookupIn?, Ne.symm hne]
      · simp [lookupIn?, ih]

/-- A key that has just been bound is bound to that value. -/
@[simp] theorem find?_insert_self (d : Dict α) (key : String) (value : α) :
    (d.insert key value).find? key = some value :=
  lookupIn?_insertEntry_self key value d.entries

/-- Binding a key leaves every other key alone. -/
theorem find?_insert_of_ne (d : Dict α) {key other : String} (hne : other ≠ key) (value : α) :
    (d.insert key value).find? other = d.find? other :=
  lookupIn?_insertEntry_of_ne hne value d.entries

@[simp] theorem find?_empty (key : String) : (∅ : Dict α).find? key = none := rfl

end Dict

end Arbor
