/-! Maps from texts, kept as a list that rises strictly by key. -/

namespace CallTrace

theorem lookup_cons_eq (s : String) (entry : String × α) (rest : List (String × α)) :
    (entry :: rest).lookup s = if s = entry.1 then some entry.2 else rest.lookup s := by
  rw [List.lookup_cons]
  by_cases heq : s = entry.1
  · simp [heq]
  · rw [beq_false_of_ne heq, if_neg heq]

namespace SortedMap

/-- Puts an entry in its place; an entry with the same key gives way. -/
def insertSorted (key : String) (value : α) : List (String × α) → List (String × α)
  | [] => [(key, value)]
  | (k, v) :: rest =>
      if key < k then (key, value) :: (k, v) :: rest
      else if k < key then (k, v) :: insertSorted key value rest
      else (key, value) :: rest

theorem mem_insertSorted {key : String} {value : α} {entry : String × α}
    {entries : List (String × α)} (h : entry ∈ insertSorted key value entries) :
    entry = (key, value) ∨ entry ∈ entries := by
  induction entries with
  | nil => simpa [insertSorted] using h
  | cons head rest ih =>
      obtain ⟨k, v⟩ := head
      simp only [insertSorted] at h
      split at h
      · simpa using h
      · split at h
        · rcases List.mem_cons.1 h with rfl | h
          · simp
          · rcases ih h with rfl | h
            · simp
            · exact .inr (List.mem_cons_of_mem _ h)
        · rcases List.mem_cons.1 h with rfl | h
          · simp
          · exact .inr (List.mem_cons_of_mem _ h)

theorem insertSorted_sorted {key : String} {value : α} {entries : List (String × α)}
    (h : entries.Pairwise fun a b => a.1 < b.1) :
    (insertSorted key value entries).Pairwise fun a b => a.1 < b.1 := by
  induction entries with
  | nil => simp [insertSorted]
  | cons head rest ih =>
      obtain ⟨k, v⟩ := head
      obtain ⟨hk, hrest⟩ := List.pairwise_cons.1 h
      simp only [insertSorted]
      split
      · rename_i hlt
        refine List.pairwise_cons.2 ⟨?_, h⟩
        intro entry hentry
        rcases List.mem_cons.1 hentry with rfl | hentry
        · exact hlt
        · exact String.lt_trans hlt (hk entry hentry)
      · rename_i hnlt
        split
        · rename_i hgt
          refine List.pairwise_cons.2 ⟨?_, ih hrest⟩
          intro entry hentry
          rcases mem_insertSorted hentry with rfl | hentry
          · exact hgt
          · exact hk entry hentry
        · rename_i hngt
          have heq : key = k := String.le_antisymm hngt hnlt
          subst heq
          exact List.pairwise_cons.2 ⟨hk, hrest⟩

theorem lookup_insertSorted (key : String) (value : α) (entries : List (String × α))
    (s : String) :
    (insertSorted key value entries).lookup s =
      if s = key then some value else entries.lookup s := by
  induction entries with
  | nil => exact lookup_cons_eq s (key, value) []
  | cons head rest ih =>
      obtain ⟨k, v⟩ := head
      simp only [insertSorted]
      split
      · rw [lookup_cons_eq]
      · rename_i hnlt
        split
        · rename_i hgt
          have hne : key ≠ k := fun heq => String.lt_irrefl k (heq ▸ hgt)
          rw [lookup_cons_eq, lookup_cons_eq, ih]
          by_cases heq : s = key
          · simp [heq, hne]
          · rw [if_neg heq, if_neg heq]
        · rename_i hngt
          obtain rfl : key = k := String.le_antisymm hngt hnlt
          rw [lookup_cons_eq, lookup_cons_eq]
          by_cases heq : s = key
          · rw [if_pos heq, if_pos heq]
          · rw [if_neg heq, if_neg heq, if_neg heq]

end SortedMap

structure SortedMap (α : Type) where
  entries : List (String × α)
  sorted : entries.Pairwise fun a b => a.1 < b.1 := by decide
  deriving DecidableEq, Repr

namespace SortedMap

def empty : SortedMap α := ⟨[], List.Pairwise.nil⟩

instance : Inhabited (SortedMap α) := ⟨empty⟩

def insert (map : SortedMap α) (key : String) (value : α) : SortedMap α :=
  ⟨insertSorted key value map.entries, insertSorted_sorted map.sorted⟩

def get? (map : SortedMap α) (key : String) : Option α :=
  map.entries.lookup key

def contains (map : SortedMap α) (key : String) : Bool :=
  (map.get? key).isSome

def keys (map : SortedMap α) : List String :=
  map.entries.map Prod.fst

@[simp] theorem get?_empty (s : String) : (empty : SortedMap α).get? s = none := rfl

theorem get?_insert (map : SortedMap α) (key : String) (value : α) (s : String) :
    (map.insert key value).get? s = if s = key then some value else map.get? s :=
  lookup_insertSorted key value map.entries s

theorem mem_keys {map : SortedMap α} {s : String} :
    s ∈ map.keys ↔ ∃ value, map.get? s = some value := by
  unfold keys get?
  induction map.entries with
  | nil => simp
  | cons head rest ih =>
      rw [List.map_cons, List.mem_cons, ih, lookup_cons_eq]
      by_cases heq : s = head.1 <;> simp [heq]

end SortedMap

end CallTrace
