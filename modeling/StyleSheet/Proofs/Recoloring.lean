import StyleSheet.Recolor
import StyleSheet.Proofs.Tokens

namespace StyleSheet

open Value (Tame Settles)

variable {f : Text → Text}

namespace Declaration

variable {declaration property value : Text}

theorem parts?_append (h : ':' ∉ property) (value : Text) :
    parts? (property ++ ':' :: value) = some (property, value) := by
  have hp : ∀ c ∈ property, (c != ':') = true := by
    intro c hc
    apply bne_iff_ne.mpr
    rintro rfl
    exact h hc
  rw [parts?, List.dropWhile_append_of_pos hp, List.takeWhile_append_of_pos hp]
  simp

theorem not_mem_of_parts? (h : parts? declaration = some (property, value)) : ':' ∉ property := by
  unfold parts? at h
  split at h
  next => cases h
  next =>
    cases h
    intro hm
    cases List.all_eq_true.mp List.all_takeWhile _ hm

theorem recolor_of_parts?_eq_none (f : Text → Text) (h : parts? declaration = none) :
    recolor f declaration = declaration := by
  rw [recolor, colorParts?, h]
  rfl

theorem recolor_of_parts? (f : Text → Text) (h : parts? declaration = some (property, value)) :
    recolor f declaration =
      property ++ ':' :: if carriesColor property then Value.rewrite f value else value := by
  rw [recolor, colorParts?, h]
  cases hc : carriesColor property with
  | false =>
    simp only [Option.filter, hc]
    exact (append_of_parts? h).symm
  | true => simp [Option.filter, hc]

/-- Rewriting keeps the property and touches the value only if the property carries colours. -/
theorem parts?_recolor (f : Text → Text) (declaration : Text) :
    parts? (recolor f declaration) =
      (parts? declaration).map fun (property, value) =>
        (property, if carriesColor property then Value.rewrite f value else value) := by
  cases h : parts? declaration with
  | none => rwa [recolor_of_parts?_eq_none f h]
  | some parts =>
    rw [recolor_of_parts? f h]
    exact parts?_append (not_mem_of_parts? h) _

theorem property?_recolor (f : Text → Text) (declaration : Text) :
    property? (recolor f declaration) = property? declaration := by
  rw [property?, property?, parts?_recolor]
  cases parts? declaration <;> rfl

theorem recolor_recolor (hf : Settles f) (declaration : Text) :
    recolor f (recolor f declaration) = recolor f declaration := by
  have hp := parts?_recolor f declaration
  cases h : parts? declaration with
  | none =>
    rw [h] at hp
    exact recolor_of_parts?_eq_none f hp
  | some parts =>
    rw [h] at hp
    rw [recolor_of_parts? f hp, recolor_of_parts? f h]
    split
    next => rw [Value.rewrite_rewrite hf]
    next => rfl

theorem recolor_cases (f : Text → Text) (declaration : Text) :
    recolor f declaration = declaration ∨
      ∃ property value, declaration = property ++ ':' :: value ∧
        recolor f declaration = property ++ ':' :: Value.rewrite f value := by
  rw [recolor]
  split
  next => exact .inl rfl
  next property value h =>
    have hp := append_of_parts? (Option.filter_eq_some_iff.mp h).1
    exact .inr ⟨property, value, hp.symm, rfl⟩

theorem all_isBlank_recolor (f : Text → Text) (declaration : Text) :
    (recolor f declaration).all Text.isBlank = declaration.all Text.isBlank := by
  have hc : Text.isBlank ':' = false := by decide
  rcases recolor_cases f declaration with h | ⟨property, value, hd, h⟩
  · rw [h]
  · rw [h, hd]
    simp [hc]

theorem isUnbroken_append_colon (property value : Text) :
    Body.isUnbroken false (property ++ ':' :: value) =
      (Body.isUnbroken false property && Body.isUnbroken false value) := by
  rw [Body.isUnbroken_append, Body.isUnbroken_cons_of_ne (by decide)]
  rfl

theorem endsEscaped_append_colon (property value : Text) :
    Body.endsEscaped false (property ++ ':' :: value) = Body.endsEscaped false value := by
  rw [Body.endsEscaped_append, Body.endsEscaped_cons]
  rfl

theorem isUnbroken_recolor (hf : Tame f) (h : Body.isUnbroken false declaration = true) :
    Body.isUnbroken false (recolor f declaration) = true := by
  rcases recolor_cases f declaration with he | ⟨property, value, hd, he⟩
  · rwa [he]
  · rw [hd, isUnbroken_append_colon] at h
    obtain ⟨hp, hv⟩ := Bool.and_eq_true_iff.mp h
    rw [he, isUnbroken_append_colon, hp, Value.isUnbroken_rewrite hf hv]
    rfl

theorem endsEscaped_recolor (hf : Tame f) (h : Body.endsEscaped false declaration = false) :
    Body.endsEscaped false (recolor f declaration) = false := by
  rcases recolor_cases f declaration with he | ⟨property, value, hd, he⟩
  · rwa [he]
  · rw [hd, endsEscaped_append_colon] at h
    rw [he, endsEscaped_append_colon]
    exact Value.endsEscaped_rewrite hf h

end Declaration

namespace Body

theorem Joinable.recolor {pieces : List Text} (hf : Tame f) (h : Joinable pieces) :
    Joinable (pieces.map (Declaration.recolor f)) where
  unbroken := by
    intro piece hm
    obtain ⟨piece, hp, rfl⟩ := List.mem_map.mp hm
    exact Declaration.isUnbroken_recolor hf (h.unbroken piece hp)
  ends := by
    apply List.pairwise_map.mpr
    apply h.ends.imp
    intro piece _ he
    exact Declaration.endsEscaped_recolor hf he

theorem split_recolor (hf : Tame f) (body : Text) :
    split (recolor f body) = (split body).map (Declaration.recolor f) := by
  have hn : (split body).map (Declaration.recolor f) ≠ [] := by
    simpa using split_ne_nil body
  exact ((joinable_split body).recolor hf).split_join hn

theorem recolor_recolor (hf : Settles f) (body : Text) :
    recolor f (recolor f body) = recolor f body := by
  rw [recolor, split_recolor hf.tame, List.map_map]
  congr 1
  apply List.map_congr_left
  intro declaration _
  exact Declaration.recolor_recolor hf declaration

end Body

end StyleSheet
