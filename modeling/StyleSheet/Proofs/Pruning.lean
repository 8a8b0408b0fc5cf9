import StyleSheet.Cascade
import StyleSheet.Proofs.Recoloring

namespace StyleSheet

namespace Cascade

variable {standing : Table Winner} {entries : List (Text × Nat)} {declarations : List Text}

def properties (declarations : List Text) : List Text :=
  declarations.filterMap Declaration.property?

/-- Each property that entries name is held by one of these entries. -/
structure Held (standing : Table Winner) (entries : List (Text × Nat)) : Prop where
  holder : ∀ name winner, standing.get? name = some winner →
    ∃ entry ∈ entries, Declaration.property? entry.1 = some name ∧ winner.position = entry.2
  held : ∀ entry ∈ entries, ∀ name, Declaration.property? entry.1 = some name →
    ∃ winner, standing.get? name = some winner

theorem contend_cases (standing : Table Winner) (entry : Text × Nat) :
    contend standing entry = standing ∧
        (∀ name, Declaration.property? entry.1 = some name →
          ∃ winner, standing.get? name = some winner) ∨
      ∃ name, Declaration.property? entry.1 = some name ∧
        contend standing entry =
          standing.insert name ⟨entry.2, Declaration.isImportant entry.1⟩ := by
  rw [contend]
  cases Declaration.property? entry.1 with
  | none => exact .inl ⟨rfl, fun name h => nomatch h⟩
  | some named =>
    cases hg : standing.get? named with
    | none => exact .inr ⟨named, rfl, by simp only [hg]⟩
    | some holder =>
      simp only [hg]
      split
      next => exact .inr ⟨named, rfl, rfl⟩
      next =>
        refine .inl ⟨rfl, ?_⟩
        intro name h
        cases h
        exact ⟨holder, hg⟩

theorem Held.contend (h : Held standing entries) (entry : Text × Nat) :
    Held (contend standing entry) (entries ++ [entry]) := by
  rcases contend_cases standing entry with ⟨he, hh⟩ | ⟨named, hp, he⟩
  · rw [he]
    constructor
    · intro name winner hw
      obtain ⟨other, hm, ho⟩ := h.holder name winner hw
      exact ⟨other, List.mem_append_left _ hm, ho⟩
    · intro other hm name ho
      rcases List.mem_append.mp hm with hm | hm
      · exact h.held other hm name ho
      · rw [List.mem_singleton.mp hm] at ho
        exact hh name ho
  · rw [he]
    constructor
    · intro name winner hw
      rw [Table.get?_insert] at hw
      split at hw
      next hn =>
        cases hw
        exact ⟨entry, List.mem_append_right _ List.mem_cons_self, hn ▸ hp, rfl⟩
      next =>
        obtain ⟨other, hm, ho⟩ := h.holder name winner hw
        exact ⟨other, List.mem_append_left _ hm, ho⟩
    · intro other hm name ho
      rw [Table.get?_insert]
      split
      next => exact ⟨_, rfl⟩
      next hn =>
        rcases List.mem_append.mp hm with hm | hm
        · exact h.held other hm name ho
        · rw [List.mem_singleton.mp hm, hp] at ho
          exact absurd (Option.some.inj ho) hn

theorem Held.foldl (h : Held standing entries) (others : List (Text × Nat)) :
    Held (others.foldl Cascade.contend standing) (entries ++ others) := by
  induction others generalizing standing entries with
  | nil => rwa [List.append_nil]
  | cons entry others ih =>
    rw [List.append_cons]
    exact ih (h.contend entry)

theorem held_winners (declarations : List Text) :
    Held (winners declarations) declarations.zipIdx := by
  have hn : Held [] [] := by
    constructor
    · intro name winner h
      cases h
    · intro entry h
      cases h
  exact hn.foldl declarations.zipIdx

theorem survives_iff {entry : Text × Nat} :
    survives standing entry = true ↔
      ∀ name, Declaration.property? entry.1 = some name →
        ∀ winner, standing.get? name = some winner → winner.position = entry.2 := by
  rw [survives]
  cases Declaration.property? entry.1 with
  | none => simp
  | some name => simp [Option.all_eq_true]

theorem properties_survivors_nodup (declarations : List Text) :
    (properties (survivors declarations)).Nodup := by
  have ordered : declarations.zipIdx.Pairwise fun entry other => entry.2 < other.2 := by
    apply List.pairwise_map.mp
    rw [List.zipIdx_map_snd]
    exact List.pairwise_lt_range' 1
  have hh := held_winners declarations
  apply List.pairwise_filterMap.mpr
  apply List.pairwise_map.mpr
  apply List.pairwise_filter.mpr
  apply ordered.imp_of_mem
  intro entry other hm _ hlt hs hs' name hp name' hp' he
  subst he
  obtain ⟨winner, hw⟩ := hh.held entry hm name hp
  have hl := survives_iff.mp hs name hp winner hw
  have hr := survives_iff.mp hs' name hp' winner hw
  omega

theorem survivors_of_nodup (h : (properties declarations).Nodup) :
    survivors declarations = declarations := by
  have hd := List.pairwise_iff_getElem.mp (List.pairwise_filterMap.mp h)
  have hs : declarations.zipIdx.filter (survives (winners declarations)) = declarations.zipIdx := by
    apply List.filter_eq_self.mpr
    intro entry hm
    apply survives_iff.mpr
    intro name hp winner hw
    obtain ⟨other, ho, hp', hpos⟩ := (held_winners declarations).holder name winner hw
    rw [hpos]
    obtain ⟨hi, he⟩ := List.getElem?_eq_some_iff.mp (List.mem_zipIdx_iff_getElem?.mp hm)
    obtain ⟨hj, he'⟩ := List.getElem?_eq_some_iff.mp (List.mem_zipIdx_iff_getElem?.mp ho)
    rcases Nat.lt_trichotomy other.2 entry.2 with hlt | heq | hlt
    · exact absurd rfl (hd _ _ hj hi hlt name (he' ▸ hp') name (he ▸ hp))
    · exact heq
    · exact absurd rfl (hd _ _ hi hj hlt name (he ▸ hp) name (he' ▸ hp'))
  rw [survivors, hs, List.zipIdx_map_fst]

theorem survivors_sublist (declarations : List Text) :
    (survivors declarations).Sublist declarations := by
  have hs := (List.filter_sublist (p := survives (winners declarations))
    (l := declarations.zipIdx)).map Prod.fst
  rwa [List.zipIdx_map_fst] at hs

end Cascade

namespace Body

variable {body : Text} {kept : List Text} {closed : Bool} {f : Text → Text}

/-- The pieces of a body that is closed or not and keeps these declarations. -/
def pieces (kept : List Text) (closed : Bool) : List Text :=
  kept ++ if closed then [[]] else []

/-- A body is nothing but declarations of different properties, perhaps with a semicolon behind. -/
structure Pruned (body : Text) (kept : List Text) (closed : Bool) : Prop where
  split_eq : split body = pieces kept closed
  not_blank : ∀ piece ∈ kept, piece.all Text.isBlank = false
  nodup : (Cascade.properties kept).Nodup

theorem join_pieces (h : kept ≠ []) (closed : Bool) :
    join (pieces kept closed) = if closed then join kept ++ [';'] else join kept := by
  cases closed with
  | false => exact congrArg join (List.append_nil kept)
  | true =>
    induction kept with
    | nil => exact absurd rfl h
    | cons piece rest ih =>
      cases rest with
      | nil => simp [pieces, join, List.intercalate]
      | cons second rest =>
        have hr := ih (List.cons_ne_nil second rest)
        rw [if_pos rfl] at hr ⊢
        rw [pieces, List.cons_append, join_cons piece (by simp), ← pieces, hr,
          join_cons piece (List.cons_ne_nil second rest), List.append_assoc, List.cons_append]

theorem join_eq_nil_iff (h : ∀ piece ∈ kept, piece.all Text.isBlank = false) :
    join kept = [] ↔ kept = [] := by
  cases kept with
  | nil => exact ⟨fun _ => rfl, fun _ => rfl⟩
  | cons piece rest =>
    have hp : piece ≠ [] := by
      rintro rfl
      cases h [] List.mem_cons_self
    cases rest with
    | nil => simp [join, List.intercalate, hp]
    | cons second rest => simp [join_cons piece (List.cons_ne_nil second rest)]

theorem pieces_declarations_sublist (body : Text) :
    (pieces (declarations body) (isClosed body)).Sublist (split body) := by
  cases h : isClosed body with
  | false =>
    rw [pieces, if_neg Bool.false_ne_true, List.append_nil]
    exact List.filter_sublist
  | true =>
    rw [pieces, declarations, split_eq_dropLast_concat h, List.filter_append]
    simp

theorem not_blank_of_mem_declarations {piece : Text} (h : piece ∈ declarations body) :
    piece.all Text.isBlank = false := by
  simpa using (List.mem_filter.mp h).2

theorem not_blank_of_mem_survivors {piece : Text}
    (h : piece ∈ Cascade.survivors (declarations body)) : piece.all Text.isBlank = false :=
  not_blank_of_mem_declarations ((Cascade.survivors_sublist _).subset h)

theorem prune_of_survivors_eq_nil (h : Cascade.survivors (declarations body) = []) :
    Cascade.prune body = [] := by
  rw [Cascade.prune, h]
  simp [join, List.intercalate]

theorem prune_eq_join (h : Cascade.survivors (declarations body) ≠ []) :
    Cascade.prune body = join (pieces (Cascade.survivors (declarations body)) (isClosed body)) := by
  have hk : (join (Cascade.survivors (declarations body))).isEmpty = false := by
    rw [List.isEmpty_eq_false_iff]
    intro he
    exact h ((join_eq_nil_iff fun piece hm => not_blank_of_mem_survivors hm).mp he)
  rw [join_pieces h, Cascade.prune]
  simp only [hk, Bool.not_false, Bool.and_true]

namespace Pruned

theorem declarations_eq (h : Pruned body kept closed) : declarations body = kept := by
  have hk : kept.filter (fun piece => !piece.all Text.isBlank) = kept := by
    apply List.filter_eq_self.mpr
    intro piece hm
    rw [h.not_blank piece hm]
    rfl
  rw [declarations, h.split_eq, pieces, List.filter_append, hk]
  cases closed <;> simp

theorem isClosed_eq (h : Pruned body kept closed) : isClosed body = closed := by
  have hn := split_ne_nil body
  rw [h.split_eq] at hn
  rw [isClosed, h.split_eq]
  cases closed with
  | true => simp [pieces]
  | false =>
    rw [pieces, if_neg Bool.false_ne_true, List.append_nil] at hn ⊢
    have hl := h.not_blank _ (List.getLast_mem hn)
    rw [List.getLast?_eq_some_getLast hn]
    apply beq_eq_false_iff_ne.mpr
    intro he
    rw [Option.some.inj he] at hl
    cases hl

theorem properties_nodup (h : Pruned body kept closed) :
    (Cascade.properties (split body)).Nodup := by
  have hp : Cascade.properties (split body) = Cascade.properties kept := by
    rw [h.split_eq, pieces, Cascade.properties, List.filterMap_append]
    cases closed with
    | true => exact List.append_nil _
    | false => exact List.append_nil _
  rw [hp]
  exact h.nodup

theorem nil : Pruned [] [] true :=
  ⟨rfl, fun _ h => (List.not_mem_nil h).elim, List.nodup_nil⟩

theorem prune_eq (h : Pruned body kept closed) : Cascade.prune body = body := by
  have hb : join (pieces kept closed) = body := by
    rw [← h.split_eq, join_split]
  have hs : Cascade.survivors (declarations body) = kept := by
    rw [h.declarations_eq, Cascade.survivors_of_nodup h.nodup]
  by_cases hn : kept = []
  · rw [prune_of_survivors_eq_nil (hs.trans hn), ← hb, hn]
    cases closed <;> rfl
  · rw [prune_eq_join (by rwa [hs]), hs, h.isClosed_eq, hb]

theorem recolor (hf : Value.Tame f) (h : Pruned body kept closed) :
    Pruned (Body.recolor f body) (kept.map (Declaration.recolor f)) closed where
  split_eq := by
    rw [split_recolor hf, h.split_eq, pieces, pieces, List.map_append]
    cases closed <;> rfl
  not_blank := by
    intro piece hm
    obtain ⟨piece, hp, rfl⟩ := List.mem_map.mp hm
    rw [Declaration.all_isBlank_recolor]
    exact h.not_blank piece hp
  nodup := by
    have hp : Cascade.properties (kept.map (Declaration.recolor f)) = Cascade.properties kept := by
      rw [Cascade.properties, List.filterMap_map]
      congr 1
      funext declaration
      exact Declaration.property?_recolor f declaration
    rw [hp]
    exact h.nodup

end Pruned

theorem pieces_survivors_sublist (body : Text) :
    (pieces (Cascade.survivors (declarations body)) (isClosed body)).Sublist (split body) :=
  ((Cascade.survivors_sublist _).append_right _).trans (pieces_declarations_sublist body)

theorem pruned_prune (h : Cascade.survivors (declarations body) ≠ []) :
    Pruned (Cascade.prune body) (Cascade.survivors (declarations body)) (isClosed body) := by
  have hn : pieces (Cascade.survivors (declarations body)) (isClosed body) ≠ [] :=
    List.append_ne_nil_of_left_ne_nil h _
  have hj := ((joinable_split body).sublist (pieces_survivors_sublist body)).split_join hn
  rw [← prune_eq_join h] at hj
  exact ⟨hj, fun piece hm => not_blank_of_mem_survivors hm, Cascade.properties_survivors_nodup _⟩

theorem exists_pruned_prune (body : Text) :
    ∃ kept closed, Pruned (Cascade.prune body) kept closed := by
  by_cases h : Cascade.survivors (declarations body) = []
  · rw [prune_of_survivors_eq_nil h]
    exact ⟨[], true, Pruned.nil⟩
  · exact ⟨_, _, pruned_prune h⟩

theorem declarations_prune (body : Text) :
    declarations (Cascade.prune body) = Cascade.survivors (declarations body) := by
  by_cases h : Cascade.survivors (declarations body) = []
  · rw [prune_of_survivors_eq_nil h, h]
    rfl
  · exact (pruned_prune h).declarations_eq

end Body

end StyleSheet
