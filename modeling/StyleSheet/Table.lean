import StyleSheet.Text

namespace StyleSheet

/-- A table from texts to values. It has no order of its own, so its keys are kept ascending. -/
abbrev Table (α : Type) := List (Text × α)

namespace Table

variable {α : Type}

def get? : Table α → Text → Option α
  | [], _ => none
  | (k, v) :: rest, key => if k = key then some v else get? rest key

def insert : Table α → Text → α → Table α
  | [], key, value => [(key, value)]
  | (k, v) :: rest, key, value =>
    if k = key then (key, value) :: rest
    else if key < k then (key, value) :: (k, v) :: rest
    else (k, v) :: insert rest key value

/-- The table of a list of entries, the last entry of a key winning. -/
def ofEntries (entries : List (Text × α)) : Table α :=
  entries.foldl (fun table entry => insert table entry.1 entry.2) []

/-- An order in which the entries of tables come out. -/
structure Order where
  arrange : Table Text → List (Text × Text)
  perm : ∀ table, (arrange table).Perm table

def Order.ascending : Order where
  arrange table := table
  perm _ := .refl _

theorem get?_insert (table : Table α) (key other : Text) (value : α) :
    get? (insert table key value) other = if key = other then some value else get? table other := by
  induction table with
  | nil => rfl
  | cons entry rest ih =>
    obtain ⟨k, v⟩ := entry
    rw [insert]
    split
    next same =>
      subst same
      rw [get?, get?]
      split <;> rfl
    next differs =>
      split
      next => rfl
      next =>
        rw [get?, ih, get?]
        by_cases h : k = other
        · rw [if_pos h, if_neg (h ▸ Ne.symm differs), if_pos h]
        · rw [if_neg h, if_neg h]

@[simp]
theorem get?_insert_self (table : Table α) (key : Text) (value : α) :
    get? (insert table key value) key = some value := by
  simp [get?_insert]

end Table

end StyleSheet
