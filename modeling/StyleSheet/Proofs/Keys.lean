import Mathlib.Data.Char
import Mathlib.Data.List.Induction
import Mathlib.Data.List.Lex
import Mathlib.Data.List.Nodup
import StyleSheet.Table

namespace StyleSheet.Table

variable {α : Type} {table : Table α} {entries others : List (Text × α)} {key : Text} {value : α}

theorem mem_of_get? (h : table.get? key = some value) : (key, value) ∈ table := by
  induction table with
  | nil => cases h
  | cons entry rest ih =>
    rw [get?] at h
    split at h
    next hk =>
      cases h
      rw [← hk]
      exact List.mem_cons_self
    next => exact List.mem_cons_of_mem _ (ih h)

theorem get?_of_mem (hn : (table.map Prod.fst).Nodup) {entry : Text × α} (h : entry ∈ table) :
    table.get? entry.1 = some entry.2 := by
  induction table with
  | nil => cases h
  | cons first rest ih =>
    obtain ⟨hfirst, hrest⟩ := List.nodup_cons.mp hn
    obtain rfl | h := List.mem_cons.mp h
    · exact if_pos rfl
    · have hne : first.1 ≠ entry.1 := by
        intro he
        exact hfirst (he ▸ List.mem_map_of_mem h)
      rw [get?, if_neg hne]
      exact ih hrest h

def Ascending (table : Table α) : Prop :=
  table.Pairwise fun a b => a.1 < b.1

theorem Ascending.nodup (h : table.Ascending) : (table.map Prod.fst).Nodup :=
  List.pairwise_map.mpr (h.imp ne_of_lt)

theorem mem_insert {entry : Text × α} (h : entry ∈ table.insert key value) :
    entry = (key, value) ∨ entry ∈ table := by
  induction table with
  | nil => exact .inl (List.mem_singleton.mp h)
  | cons first rest ih =>
    rw [insert] at h
    split at h
    next => exact (List.mem_cons.mp h).imp_right (List.mem_cons_of_mem _)
    next =>
      split at h
      next => exact List.mem_cons.mp h
      next =>
        rcases List.mem_cons.mp h with rfl | h
        · exact .inr List.mem_cons_self
        · exact (ih h).imp_right (List.mem_cons_of_mem _)

theorem ascending_insert (h : table.Ascending) (key : Text) (value : α) :
    (table.insert key value).Ascending := by
  induction table with
  | nil => exact List.pairwise_singleton _ _
  | cons first rest ih =>
    obtain ⟨hfirst, hrest⟩ := List.pairwise_cons.mp h
    rw [insert]
    split
    next same => exact List.pairwise_cons.mpr ⟨same ▸ hfirst, hrest⟩
    next differs =>
      split
      next less =>
        refine List.pairwise_cons.mpr ⟨fun entry hm => ?_, h⟩
        rcases List.mem_cons.mp hm with rfl | hm
        · exact less
        · exact List.lt_trans less (hfirst entry hm)
      next notLess =>
        refine List.pairwise_cons.mpr ⟨fun entry hm => ?_, ih hrest⟩
        rcases mem_insert hm with rfl | hm
        · exact lt_of_le_of_ne (not_lt.mp notLess) differs
        · exact hfirst entry hm

theorem ascending_ofEntries (entries : List (Text × α)) : (ofEntries entries).Ascending := by
  induction entries using List.reverseRecOn with
  | nil => exact List.Pairwise.nil
  | append_singleton entries last ih =>
    rw [ofEntries, List.foldl_append]
    exact ascending_insert ih last.1 last.2

theorem mem_ofEntries {entry : Text × α} (h : entry ∈ ofEntries entries) : entry ∈ entries := by
  induction entries using List.reverseRecOn with
  | nil => cases h
  | append_singleton entries last ih =>
    rw [ofEntries, List.foldl_append] at h
    rcases mem_insert h with rfl | h
    · exact List.mem_append_right _ List.mem_cons_self
    · exact List.mem_append_left _ (ih h)

theorem perm_insert (h : key ∉ table.map Prod.fst) (value : α) :
    (table.insert key value).Perm ((key, value) :: table) := by
  induction table with
  | nil => exact .refl _
  | cons first rest ih =>
    obtain ⟨hfirst, hrest⟩ := not_or.mp (mt List.mem_cons.mpr h)
    rw [insert, if_neg (Ne.symm hfirst)]
    split
    next => exact .refl _
    next => exact ((ih hrest).cons first).trans (.swap _ _ _)

/-- A table holds all entries of which no two have the same key. -/
theorem perm_ofEntries (h : (entries.map Prod.fst).Nodup) : (ofEntries entries).Perm entries := by
  induction entries using List.reverseRecOn with
  | nil => exact .refl _
  | append_singleton entries last ih =>
    rw [List.map_append, List.nodup_append] at h
    obtain ⟨hn, -, hd⟩ := h
    have fresh : last.1 ∉ (ofEntries entries).map Prod.fst := by
      intro hm
      rw [((ih hn).map Prod.fst).mem_iff] at hm
      exact hd _ hm _ List.mem_cons_self rfl
    rw [ofEntries, List.foldl_append]
    exact ((perm_insert fresh last.2).trans ((ih hn).cons last)).trans
      (List.perm_append_singleton last entries).symm

theorem eq_of_perm {other : Table α} (h : table.Perm other) (ht : table.Ascending)
    (ho : other.Ascending) : table = other :=
  h.eq_of_pairwise (fun _ _ _ _ hab hba => absurd hba (List.lt_asymm hab)) ht ho

theorem ofEntries_eq_self (h : Ascending entries) : ofEntries entries = entries :=
  eq_of_perm (perm_ofEntries h.nodup) (ascending_ofEntries entries) h

/-- Entries make the same table in any order, if no two of them have the same key. -/
theorem ofEntries_eq_of_perm (h : entries.Perm others) (hn : (entries.map Prod.fst).Nodup) :
    ofEntries entries = ofEntries others := by
  have ho : (others.map Prod.fst).Nodup := (h.map Prod.fst).nodup_iff.mp hn
  refine eq_of_perm ?_ (ascending_ofEntries entries) (ascending_ofEntries others)
  exact ((perm_ofEntries hn).trans h).trans (perm_ofEntries ho).symm

namespace Order

/-- An order in which one entry comes first, if it is there. -/
def startingWith (entry : Text × Text) : Order where
  arrange table := if entry ∈ table then entry :: table.erase entry else table
  perm table := by
    split
    next hm => exact (List.perm_cons_erase hm).symm
    next => exact .refl table

theorem arrange_startingWith {entry : Text × Text} {table : Table Text} (h : entry ∈ table) :
    (startingWith entry).arrange table = entry :: table.erase entry :=
  if_pos h

end Order

end StyleSheet.Table
