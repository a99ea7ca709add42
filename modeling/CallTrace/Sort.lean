namespace CallTrace

/-- Puts an item before the first one that it does not exceed. -/
def insertBy (le : α → α → Bool) (a : α) : List α → List α
  | [] => [a]
  | b :: rest => if le a b then a :: b :: rest else b :: insertBy le a rest

def sortBy (le : α → α → Bool) (items : List α) : List α :=
  items.foldr (insertBy le) []

@[simp] theorem length_insertBy (le : α → α → Bool) (a : α) (items : List α) :
    (insertBy le a items).length = items.length + 1 := by
  induction items with
  | nil => rfl
  | cons b rest ih =>
      simp only [insertBy]
      split <;> simp [ih]

@[simp] theorem length_sortBy (le : α → α → Bool) (items : List α) :
    (sortBy le items).length = items.length := by
  induction items with
  | nil => rfl
  | cons a rest ih => simp_all [sortBy]

end CallTrace
