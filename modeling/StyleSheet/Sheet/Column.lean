namespace StyleSheet

/-- Values under indices, each index once, in ascending order. -/
structure Column (α : Type) where
  entries : List (UInt64 × α) := []
  ascending : entries.Pairwise fun a b => a.1 < b.1 := by simp

namespace Column

variable {α : Type}

/-- Sets the value at an index within ascending entries. -/
def insertEntry (index : UInt64) (value : α) : List (UInt64 × α) → List (UInt64 × α)
  | [] => [(index, value)]
  | (i, v) :: rest =>
    if index < i then (index, value) :: (i, v) :: rest
    else if index = i then (index, value) :: rest
    else (i, v) :: insertEntry index value rest

theorem mem_insertEntry {index : UInt64} {value : α} {entries : List (UInt64 × α)}
    {entry : UInt64 × α} (h : entry ∈ insertEntry index value entries) :
    entry.1 = index ∨ entry ∈ entries := by
  induction entries with
  | nil => simp_all [insertEntry]
  | cons e rest ih =>
    simp only [insertEntry] at h
    split at h
    · rcases List.mem_cons.mp h with rfl | h
      · exact .inl rfl
      · exact .inr h
    · split at h
      · rcases List.mem_cons.mp h with rfl | h
        · exact .inl rfl
        · exact .inr (List.mem_cons_of_mem _ h)
      · rcases List.mem_cons.mp h with rfl | h
        · exact .inr List.mem_cons_self
        · exact (ih h).imp_right (List.mem_cons_of_mem _)

theorem pairwise_insertEntry (index : UInt64) (value : α) {entries : List (UInt64 × α)}
    (h : entries.Pairwise fun a b => a.1 < b.1) :
    (insertEntry index value entries).Pairwise fun a b => a.1 < b.1 := by
  induction entries with
  | nil => simp [insertEntry]
  | cons e rest ih =>
    obtain ⟨first, ascending⟩ := List.pairwise_cons.mp h
    simp only [insertEntry]
    split
    next less =>
      refine List.pairwise_cons.mpr ⟨fun entry mem => ?_, h⟩
      rcases List.mem_cons.mp mem with rfl | mem
      · exact less
      · exact UInt64.lt_trans less (first entry mem)
    next notLess =>
      split
      next same => exact List.pairwise_cons.mpr ⟨same ▸ first, ascending⟩
      next differs =>
        refine List.pairwise_cons.mpr ⟨fun entry mem => ?_, ih ascending⟩
        rcases mem_insertEntry mem with rfl | mem
        · exact UInt64.lt_of_le_of_ne (UInt64.not_lt.mp notLess) (Ne.symm differs)
        · exact first entry mem

def insert (column : Column α) (index : UInt64) (value : α) : Column α where
  entries := insertEntry index value column.entries
  ascending := pairwise_insertEntry index value column.ascending

/-- The column of entries in any order, the last entry of an index winning. -/
def ofList (entries : List (UInt64 × α)) : Column α :=
  entries.foldl (fun column entry => column.insert entry.1 entry.2) {}

def get? (column : Column α) (index : UInt64) : Option α :=
  (column.entries.find? fun entry => entry.1 == index).map Prod.snd

def indices (column : Column α) : List UInt64 :=
  column.entries.map Prod.fst

end Column

end StyleSheet
