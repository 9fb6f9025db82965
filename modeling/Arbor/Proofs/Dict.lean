import Arbor.Dict
import Mathlib.Data.List.Forall2
import Mathlib.Data.List.Induction
import Mathlib.Data.List.Sort

/-!
# Maps and ordered insertions of dictionaries

A change of the values, which may depend on their keys, keeps the keys and so the order. It commutes
with look-up and binding. A key behind all others is bound at the end. Dictionaries in which every
look-up finds the same are equal.
-/

namespace Arbor.Dict

variable {α β : Type}

theorem ext {d e : Dict α} (h : d.entries = e.entries) : d = e := by
  cases d
  cases e
  subst h
  rfl

/-! ## 1. Maps -/

/-- Changes every value, each knowing its key, and keeps the keys. -/
def mapEntries (f : String → α → β) (d : Dict α) : Dict β :=
  ⟨d.entries.map fun e => (e.1, f e.1 e.2), List.pairwise_map.mpr d.sorted⟩

/-- Changes every value and keeps the keys. -/
def map (f : α → β) (d : Dict α) : Dict β := d.mapEntries fun _ => f

@[simp] theorem entries_mapEntries (f : String → α → β) (d : Dict α) :
    (d.mapEntries f).entries = d.entries.map fun e => (e.1, f e.1 e.2) := rfl

@[simp] theorem entries_map (f : α → β) (d : Dict α) :
    (d.map f).entries = d.entries.map fun e => (e.1, f e.2) := rfl

@[simp] theorem mapEntries_id (d : Dict α) : (d.mapEntries fun _ v => v) = d :=
  ext (List.map_id d.entries)

theorem lookupIn?_map (f : String → α → β) (key : String) (l : List (String × α)) :
    lookupIn? key (l.map fun e => (e.1, f e.1 e.2)) = (lookupIn? key l).map (f key) := by
  induction l with
  | nil => rfl
  | cons head rest ih =>
    obtain ⟨k, v⟩ := head
    simp only [List.map_cons, lookupIn?]
    by_cases hk : k = key
    · rw [if_pos hk, if_pos hk, hk]
      rfl
    · rw [if_neg hk, if_neg hk]
      exact ih

theorem insertEntry_map (f : String → α → β) (key : String) (value : α) (l : List (String × α)) :
    (insertEntry key value l).map (fun e => (e.1, f e.1 e.2)) =
      insertEntry key (f key value) (l.map fun e => (e.1, f e.1 e.2)) := by
  induction l with
  | nil => rfl
  | cons head rest ih =>
    obtain ⟨k, v⟩ := head
    simp only [List.map_cons, insertEntry]
    by_cases hlt : key < k
    · rw [if_pos hlt, if_pos hlt]
      rfl
    · rw [if_neg hlt, if_neg hlt]
      by_cases heq : key = k
      · rw [if_pos heq, if_pos heq]
        rfl
      · rw [if_neg heq, if_neg heq, List.map_cons, ih]

@[simp] theorem find?_mapEntries (f : String → α → β) (d : Dict α) (key : String) :
    (d.mapEntries f).find? key = (d.find? key).map (f key) := lookupIn?_map f key d.entries

@[simp] theorem find?_map (f : α → β) (d : Dict α) (key : String) :
    (d.map f).find? key = (d.find? key).map f := d.find?_mapEntries (fun _ => f) key

theorem map_insert (f : α → β) (d : Dict α) (key : String) (value : α) :
    (d.insert key value).map f = (d.map f).insert key (f value) :=
  ext (insertEntry_map (fun _ => f) key value d.entries)

theorem map_insertAll (f : α → β) (d : Dict α) (pairs : List (String × α)) :
    (d.insertAll pairs).map f = (d.map f).insertAll (pairs.map fun e => (e.1, f e.2)) := by
  unfold insertAll
  induction pairs generalizing d with
  | nil => rfl
  | cons e pairs ih =>
    rw [List.foldl_cons, ih, map_insert]
    rfl

/-! ## 2. Insertions in key order -/

theorem insertEntry_of_forall_lt {key : String} (value : α) {l : List (String × α)}
    (h : ∀ e ∈ l, e.1 < key) : insertEntry key value l = l ++ [(key, value)] := by
  induction l with
  | nil => rfl
  | cons e l ih =>
    have he : e.1 < key := h e List.mem_cons_self
    have hne : key ≠ e.1 := fun heq => String.lt_irrefl key (heq ▸ he)
    have hnot : ¬key < e.1 := fun hlt => String.lt_irrefl key (String.lt_trans hlt he)
    rw [insertEntry, if_neg hnot, if_neg hne, ih fun d hd => h d (List.mem_cons_of_mem e hd)]
    rfl

theorem lookupIn?_of_notMem {key : String} {l : List (String × α)} (h : key ∉ l.map Prod.fst) :
    lookupIn? key l = none := by
  induction l with
  | nil => rfl
  | cons e l ih =>
    rw [List.map_cons, List.mem_cons, not_or] at h
    rw [lookupIn?, if_neg (Ne.symm h.1), ih h.2]

/-- A key behind all others is not bound yet, and is bound at the end. -/
theorem insert_of_forall_lt {d : Dict α} {key : String} (value : α)
    (h : ∀ e ∈ d.entries, e.1 < key) :
    d.contains key = false ∧ (d.insert key value).entries = d.entries ++ [(key, value)] := by
  refine ⟨?_, insertEntry_of_forall_lt value h⟩
  have hnot : key ∉ d.entries.map Prod.fst := by
    intro hmem
    obtain ⟨e, he, rfl⟩ := List.mem_map.mp hmem
    exact String.lt_irrefl e.1 (h e he)
  unfold contains find?
  rw [lookupIn?_of_notMem hnot]
  rfl

/-! ## 3. Many insertions -/

theorem mem_insertAll {d : Dict α} {pairs : List (String × α)} {e : String × α}
    (he : e ∈ (d.insertAll pairs).entries) : e ∈ d.entries ∨ e ∈ pairs := by
  unfold insertAll at he
  induction pairs generalizing d with
  | nil => exact .inl he
  | cons head pairs ih =>
    rw [List.foldl_cons] at he
    rcases ih he with he | he
    · rcases mem_insertEntry he with rfl | he
      · exact .inr List.mem_cons_self
      · exact .inl he
    · exact .inr (List.mem_cons_of_mem head he)

theorem find?_insertAll {key : String} {value : α} {pairs : List (String × α)} {d : Dict α}
    (hpairs : ∀ e ∈ pairs, e.1 = key → e.2 = value) (hfind : d.find? key = some value) :
    (d.insertAll pairs).find? key = some value := by
  unfold insertAll
  induction pairs generalizing d with
  | nil => exact hfind
  | cons e pairs ih =>
    rw [List.foldl_cons]
    refine ih (fun e' he' => hpairs e' (List.mem_cons_of_mem e he')) ?_
    by_cases hkey : key = e.1
    · rw [hkey, find?_insert_self, hpairs e List.mem_cons_self hkey.symm]
    · rw [find?_insert_of_ne d hkey]
      exact hfind

/-- After many insertions a key is bound as before, or to one of the values beside it. -/
theorem find?_insertAll_cases (d : Dict α) (pairs : List (String × α)) (key : String) :
    key ∉ pairs.map Prod.fst ∧ (d.insertAll pairs).find? key = d.find? key ∨
      ∃ value, (key, value) ∈ pairs ∧ (d.insertAll pairs).find? key = some value := by
  unfold insertAll
  induction pairs generalizing d with
  | nil => exact .inl ⟨List.not_mem_nil, rfl⟩
  | cons e pairs ih =>
    rw [List.foldl_cons]
    obtain ⟨hnot, hfind⟩ | ⟨value, hmem, hfind⟩ := ih (d.insert e.1 e.2)
    · by_cases hkey : key = e.1
      · refine .inr ⟨e.2, hkey ▸ List.mem_cons_self, ?_⟩
        rw [hfind, hkey, find?_insert_self]
      · refine .inl ⟨?_, hfind.trans (find?_insert_of_ne d hkey e.2)⟩
        rw [List.map_cons, List.mem_cons, not_or]
        exact ⟨hkey, hnot⟩
    · exact .inr ⟨value, List.mem_cons_of_mem e hmem, hfind⟩

/-- The pairs take the place of what was bound to their keys. -/
theorem find?_insertAll_or (d : Dict α) (pairs : List (String × α)) (key : String) :
    (d.insertAll pairs).find? key = ((ofList pairs).find? key).or (d.find? key) := by
  induction pairs using List.reverseRecOn with
  | nil => rfl
  | append_singleton pairs e ih =>
    have hlast (d : Dict α) : d.insertAll (pairs ++ [e]) = (d.insertAll pairs).insert e.1 e.2 := by
      unfold insertAll
      rw [List.foldl_append]
      rfl
    unfold ofList at ih ⊢
    rw [hlast, hlast]
    by_cases hkey : key = e.1
    · rw [hkey, find?_insert_self, find?_insert_self, Option.some_or]
    · rw [find?_insert_of_ne _ hkey, find?_insert_of_ne _ hkey]
      exact ih

/-- Relations between the values pass on to pairs with the same keys. -/
theorem rel_ofList_zip {β : Type} {r : α → β → Prop} (keys : List String) {values : List α}
    {values' : List β} (h : List.Forall₂ r values values') (key : String) :
    Option.Rel r ((ofList (keys.zip values)).find? key) ((ofList (keys.zip values')).find? key) := by
  have hrel {d : Dict α} {e : Dict β} (hde : Option.Rel r (d.find? key) (e.find? key)) :
      Option.Rel r ((d.insertAll (keys.zip values)).find? key)
        ((e.insertAll (keys.zip values')).find? key) := by
    induction h generalizing keys d e with
    | nil =>
      rw [List.zip_nil_right, List.zip_nil_right]
      exact hde
    | cons hvalue _ ih =>
      cases keys with
      | nil => exact hde
      | cons k keys =>
        refine ih keys (d := d.insert k _) (e := e.insert k _) ?_
        by_cases hkey : key = k
        · rw [hkey, find?_insert_self, find?_insert_self]
          exact .some hvalue
        · rw [find?_insert_of_ne _ hkey, find?_insert_of_ne _ hkey]
          exact hde
  exact hrel .none

/-- Each of as many keys as there are values is bound. -/
theorem isSome_find?_ofList_zip {keys : List String} {values : List α}
    (hlength : keys.length = values.length) {key : String} (hkey : key ∈ keys) :
    ((ofList (keys.zip values)).find? key).isSome = true := by
  obtain ⟨hnot, -⟩ | ⟨value, -, hfind⟩ := empty.find?_insertAll_cases (keys.zip values) key
  · rw [List.map_fst_zip hlength.le] at hnot
    exact absurd hkey hnot
  · exact Option.isSome_of_eq_some hfind

theorem find?_ofList_zip_of_notMem {keys : List String} (values : List α) {key : String}
    (hkey : key ∉ keys) : (ofList (keys.zip values)).find? key = none := by
  obtain ⟨-, hfind⟩ | ⟨value, hmem, -⟩ := empty.find?_insertAll_cases (keys.zip values) key
  · exact hfind
  · exact absurd (List.of_mem_zip hmem).1 hkey

/-- A key is bound to the value beside its last occurrence among the keys. -/
theorem find?_insertAll_zip_of_last {keys : List String} {values : List α} {i : Nat} {key : String}
    {value : α} (hkey : keys[i]? = some key) (hlast : ∀ j, i < j → keys[j]? ≠ some key)
    (hvalue : values[i]? = some value) (d : Dict α) :
    (d.insertAll (keys.zip values)).find? key = some value := by
  induction keys generalizing values i d with
  | nil => cases hkey
  | cons k keys ih =>
    cases values with
    | nil => cases hvalue
    | cons v values =>
      show ((d.insert k v).insertAll (keys.zip values)).find? key = some value
      cases i with
      | zero =>
        obtain rfl : k = key := Option.some.inj hkey
        obtain rfl : v = value := Option.some.inj hvalue
        refine find?_insertAll (fun e he heq => ?_) (d.find?_insert_self k v)
        -- there is no occurrence behind the first one
        obtain ⟨j, hj⟩ := List.mem_iff_getElem?.mp (heq ▸ (List.of_mem_zip he).1)
        exact absurd hj (hlast (j + 1) j.succ_pos)
      | succ i =>
        exact ih hkey (fun j hj => hlast (j + 1) (Nat.succ_lt_succ hj)) hvalue (d.insert k v)

/-- A key that occurs once among the keys of a list is bound to the value beside it. -/
theorem find?_insertAll_zip {keys : List String} {values : List α} {i : Nat} {key : String}
    {value : α} (honce : keys.count key = 1) (hkey : keys[i]? = some key)
    (hvalue : values[i]? = some value) (d : Dict α) :
    (d.insertAll (keys.zip values)).find? key = some value := by
  refine find?_insertAll_zip_of_last hkey (fun j hj hagain => ?_) hvalue d
  -- an occurrence up to `i` and one behind it are two
  have hsplit : keys.count key =
      (keys.take (i + 1)).count key + (keys.drop (i + 1)).count key := by
    rw [← List.count_append, List.take_append_drop]
  have hfront : 0 < (keys.take (i + 1)).count key := by
    refine List.count_pos_iff.mpr (List.mem_of_getElem? (i := i) ?_)
    rw [List.getElem?_take_of_lt i.lt_succ_self, hkey]
  have hback : 0 < (keys.drop (i + 1)).count key := by
    refine List.count_pos_iff.mpr (List.mem_of_getElem? (i := j - (i + 1)) ?_)
    rw [List.getElem?_drop, Nat.add_sub_cancel' hj, hagain]
  omega

/-! ## 4. Dictionaries as what look-ups find -/

/-- Where no key occurs twice, a look-up finds the entry with the key. -/
theorem lookupIn?_eq_some_iff {l : List (String × α)} (hl : (l.map Prod.fst).Nodup) {key : String}
    {value : α} : lookupIn? key l = some value ↔ (key, value) ∈ l := by
  induction l with
  | nil => simp [lookupIn?]
  | cons e l ih =>
    obtain ⟨hhead, hl⟩ := List.nodup_cons.mp hl
    by_cases hkey : e.1 = key
    · subst hkey
      -- no entry behind the first one has its key
      have hrest : (e.1, value) ∉ l := fun hmem => hhead (List.mem_map.mpr ⟨_, hmem, rfl⟩)
      simp [lookupIn?, hrest, Prod.ext_iff, eq_comm]
    · have hne : (key, value) ≠ e := fun h => hkey (congrArg Prod.fst h.symm)
      rw [lookupIn?, if_neg hkey, ih hl]
      simp [hne]

theorem find?_eq_some_iff {d : Dict α} {key : String} {value : α} :
    d.find? key = some value ↔ (key, value) ∈ d.entries := by
  have hkeys : (d.entries.map Prod.fst).Nodup := by
    refine (List.pairwise_map.mpr d.sorted).imp fun {a b} hlt heq => ?_
    exact String.lt_irrefl b (heq ▸ hlt)
  exact lookupIn?_eq_some_iff hkeys

/-- The entries of a dictionary take the place of those with their keys. -/
theorem find?_insertAll_entries (d e : Dict α) (key : String) :
    (d.insertAll e.entries).find? key = (e.find? key).or (d.find? key) := by
  obtain ⟨hnot, hfind⟩ | ⟨value, hmem, hfind⟩ := d.find?_insertAll_cases e.entries key
  · have hnone : e.find? key = none := by
      refine Option.eq_none_iff_forall_ne_some.mpr fun value hvalue => hnot ?_
      exact List.mem_map_of_mem (f := Prod.fst) (find?_eq_some_iff.mp hvalue)
    rw [hfind, hnone, Option.none_or]
  · rw [hfind, find?_eq_some_iff.mpr hmem, Option.some_or]

theorem ext_find? {d e : Dict α} (h : ∀ key, d.find? key = e.find? key) : d = e := by
  have hirrefl : Std.Irrefl fun a b : String × α => a.1 < b.1 := ⟨fun a => String.lt_irrefl a.1⟩
  have hantisymm : Std.Antisymm fun a b : String × α => a.1 < b.1 :=
    ⟨fun a b hab hba => absurd (String.lt_trans hab hba) (String.lt_irrefl a.1)⟩
  apply ext
  apply d.sorted.eq_of_mem_iff e.sorted
  intro a
  have hfind : d.find? a.1 = e.find? a.1 := h a.1
  rw [← find?_eq_some_iff, ← find?_eq_some_iff, hfind]

end Arbor.Dict
