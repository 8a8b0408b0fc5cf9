import StyleSheet.Proofs.Color.NormalForm
import StyleSheet.Proofs.Recoloring
import StyleSheet.Proofs.Rewriting

namespace StyleSheet

namespace Color

variable {source : Source} {wording : Wording} {orders : Orders} {tables : Tables}

theorem ColorOptions.exists_lookup (options : ColorOptions) (tables : Tables) :
    ∃ used, options.lookup (.ok tables) = .ok used ∧ ∀ t ∈ used, t = tables := by
  refine ⟨_, options.lookup_of_ok tables, ?_⟩
  intro t ht
  split at ht
  · exact (Option.mem_some.mp ht).symm
  · cases ht

theorem isCode_of_mem_stages {options : ColorOptions} {used : Option Tables} {stage : Stage}
    {literal next : Text} (load : source.load wording orders = .ok tables)
    (hu : ∀ t ∈ used, t = tables)
    (off : options.hexToShortName = false) (hm : stage ∈ options.stages)
    (h : stage.apply used literal = some next) : Hex.isCode next = true := by
  have hs : stage ≠ .hexToShortName := by
    rintro rfl
    have he : options.hexToShortName = true := (List.mem_filter.mp hm).2
    rw [off] at he
    cases he
  refine isCode_of_apply ?_ hs h
  intro t ht
  cases hu t ht
  exact Source.isCode_of_load load

theorem tame_normalize_of_load {options : ColorOptions} {used : Option Tables}
    (load : source.load wording orders = .ok tables) (hu : ∀ t ∈ used, t = tables)
    (off : options.hexToShortName = false) : Value.Tame (normalize options used) :=
  tame_normalize fun _ hm _ _ h =>
    Hex.all_isInert_of_isCode (isCode_of_mem_stages load hu off hm h)

end Color

namespace Session

variable {options : Color.ColorOptions} {session : Session}

/--
How a piece of a body comes out: a piece without a colon or without colours in its property stays,
another keeps its property and colon in front of the shortened value.
-/
structure Frames (session : Session) (options : Color.ColorOptions) (piece image : Text) :
    Prop where
  plain : ':' ∉ piece → image = piece
  other : ∀ property value, piece = property ++ ':' :: value → ':' ∉ property →
    Declaration.carriesColor property = false → image = piece
  color : ∀ property value, piece = property ++ ':' :: value → ':' ∉ property →
    Declaration.carriesColor property = true →
      ∃ written, (session.perform (rewriteValue options value)).1 = .ok written ∧
        image = property ++ ':' :: written

theorem Shortens.fst_perform {α : Type} {work : SessionM α} {literals : List Text}
    {result : Option Color.Tables → α} {tables : Option Color.Tables}
    (h : Shortens options work literals result)
    (hl : options.lookup session.holder.served = .ok tables) :
    (session.perform work).1 = .ok (result tables) := by
  rw [h.computes.fst_perform, hl]
  cases h with
  | pure a => rfl
  | shorten result hn =>
    rw [if_neg (by simpa using hn)]
    rfl

theorem frames_recolor {tables : Option Color.Tables}
    (hl : options.lookup session.holder.served = .ok tables) (piece : Text) :
    session.Frames options piece
      (Declaration.recolor (Color.normalize options tables) piece) where
  plain h := by
    apply Declaration.recolor_of_parts?_eq_none
    cases hp : Declaration.parts? piece with
    | none => rfl
    | some parts =>
      rw [← Declaration.append_of_parts? hp] at h
      simp at h
  other := by
    rintro property value rfl hm hc
    rw [Declaration.recolor_of_parts? _ (Declaration.parts?_append hm value), hc]
    rfl
  color := by
    rintro property value rfl hm hc
    refine ⟨_, (shortens_rewriteValue options value).fst_perform hl, ?_⟩
    rw [Declaration.recolor_of_parts? _ (Declaration.parts?_append hm value), if_pos hc]

/--
With the bundled tables, or with any tables that can be loaded if short names are off, shortening
the colours of a body succeeds, and its pieces come out one by one in their frames.
-/
theorem recolor_frames_pieces (options : Color.ColorOptions) (body : Text) (session : Session)
    (tables : Color.Tables) (serves : session.holder.Serves tables)
    (known : tables = Color.Tables.bundled ∨ options.hexToShortName = false) :
    ∃ result after, session.perform (recolor options body) = (.ok result, after) ∧
      List.Forall₂ (session.Frames options) (Body.split body) (Body.split result) := by
  obtain ⟨used, hl, used_eq⟩ := options.exists_lookup tables
  rw [← serves.served] at hl
  have tame : Value.Tame (Color.normalize options used) := by
    rcases known with rfl | off
    · exact Color.Tables.final_bundled.tame_normalize used_eq options
    · obtain ⟨_, load⟩ := serves.load
      exact Color.tame_normalize_of_load load used_eq off
  obtain ⟨after, hp, -⟩ := (computes_recolor options body).perform_eq session
    (recolored_of_lookup hl body)
  refine ⟨_, after, hp, ?_⟩
  rw [Body.split_recolor tame, List.forall₂_map_right_iff, List.forall₂_same]
  exact fun piece _ => frames_recolor hl piece

/-- A name that closes a parenthesis and ends with a backslash, and escaped semicolons. -/
theorem recolor_frames_escaping_name :
    let tables : Color.Tables := ⟨[(")\\".toList, "#ABC".toList)], []⟩
    let session : Session := ⟨.orderly ⟨.listed tables.names, .listed []⟩ fun _ => "", #[]⟩
    let options : Color.ColorOptions := ⟨true, true, false, true⟩
    let body := "color:red,)\\ )\\;;x;y: )\\;fill:)\\!;z".toList
    session.holder.Serves tables ∧ options.hexToShortName = false ∧
      (session.perform (recolor options body)).1 =
        .ok "color:red,#abc )\\;;x;y: )\\;fill:)\\!;z".toList ∧
      ∃ result after, session.perform (recolor options body) = (.ok result, after) ∧
        List.Forall₂ (session.Frames options) (Body.split body) (Body.split result) := by
  intro tables session options body
  have serves : session.holder.Serves tables := ⟨⟨.ascending, rfl⟩, rfl⟩
  exact ⟨serves, rfl, by decide +kernel,
    recolor_frames_pieces options body session tables serves (.inr rfl)⟩

end Session

end StyleSheet
