import StyleSheet.Proofs.Color.Calls
import StyleSheet.Proofs.Compressing

namespace StyleSheet

namespace Declaration

variable {declaration property value front back t : Text} {c : Char} {f : Text → Text}

def squeeze (t : Text) : Text :=
  Text.lower (t.filter fun c => !Text.isBlank c)

/-- What has to stand behind the last exclamation mark of an important declaration. -/
def importantWord : Text := "important".toList

theorem squeeze_append (t other : Text) : squeeze (t ++ other) = squeeze t ++ squeeze other := by
  rw [squeeze, List.filter_append, Text.lower, List.map_append]
  rfl

theorem squeeze_mark (back : Text) : squeeze ('!' :: back) = '!' :: squeeze back :=
  rfl

theorem exists_of_squeeze_eq {first rest : Text} (h : squeeze t = first ++ '!' :: rest) :
    ∃ front back, t = front ++ '!' :: back ∧ squeeze back = rest := by
  obtain ⟨before, behind, hs, -, hb⟩ := List.map_eq_append_iff.mp h
  obtain ⟨c, cs, rfl, hc, rfl⟩ := List.map_eq_cons_iff.mp hb
  rw [(Text.toLower_eq_iff rfl).mp hc] at hs
  obtain ⟨front, others, rfl, -, ho⟩ := List.filter_eq_append_iff.mp hs
  obtain ⟨skipped, back, rfl, -, -, rfl⟩ := List.filter_eq_cons_iff.mp ho
  exact ⟨front ++ skipped, back, (List.append_assoc ..).symm, rfl⟩

theorem isImportant_iff :
    isImportant t = true ↔ ∃ front back, t = front ++ '!' :: back ∧ squeeze back = importantWord := by
  have hs : isImportant t = true ↔ ('!' :: importantWord) <:+ squeeze t := List.isSuffixOf_iff_suffix
  rw [hs]
  constructor
  · rintro ⟨first, h⟩
    exact exists_of_squeeze_eq h.symm
  · rintro ⟨front, back, rfl, hb⟩
    rw [squeeze_append, squeeze_mark, hb]
    exact List.suffix_append _ _

theorem not_mem_of_squeeze_eq (h : squeeze back = importantWord) (hb : Text.isBlank c = false)
    (hl : c.toLower ∉ importantWord) : c ∉ back := by
  intro hm
  apply hl
  rw [← h]
  exact List.mem_map_of_mem (List.mem_filter.mpr ⟨hm, by rw [hb]; rfl⟩)

/-- The mark of importance stands in the second of two texts, or its exclamation mark in the first. -/
theorem isImportant_append_iff :
    isImportant (front ++ t) = true ↔ isImportant t = true ∨
      ∃ before back, front = before ++ '!' :: back ∧ squeeze (back ++ t) = importantWord := by
  rw [isImportant_iff, isImportant_iff]
  constructor
  · rintro ⟨before, back, he, hs⟩
    rcases List.append_eq_append_iff.mp he with ⟨others, rfl, ht⟩ | ⟨others, rfl, ht⟩
    · exact .inl ⟨others, back, ht, hs⟩
    · cases others with
      | nil => exact .inl ⟨[], back, ht.symm, hs⟩
      | cons c others =>
        obtain ⟨rfl, rfl⟩ := List.cons.inj ht
        exact .inr ⟨before, others, rfl, hs⟩
  · rintro (⟨before, back, rfl, hs⟩ | ⟨before, back, rfl, hs⟩)
    · exact ⟨front ++ before, back, (List.append_assoc ..).symm, hs⟩
    · exact ⟨before, back ++ t, List.append_assoc .., hs⟩

theorem isImportant_cons (h : c ≠ '!') (t : Text) : isImportant (c :: t) = isImportant t := by
  rw [Bool.eq_iff_iff, ← List.singleton_append]
  apply isImportant_append_iff.trans
  apply or_iff_left
  rintro ⟨before, back, he, -⟩
  cases before with
  | nil => exact h (List.cons.inj he).1
  | cons d before => simp at he

theorem isImportant_append_colon (property value : Text) :
    isImportant (property ++ ':' :: value) = isImportant value := by
  rw [Bool.eq_iff_iff, List.append_cons]
  apply isImportant_append_iff.trans
  apply or_iff_left
  rintro ⟨before, back, he, hs⟩
  have hn : ':' ∉ back ++ value := not_mem_of_squeeze_eq hs (by decide) (by decide)
  apply hn
  have hl := congrArg List.getLast? he
  rw [List.getLast?_concat, List.getLast?_append, List.getLast?_cons] at hl
  cases hb : back.getLast? with
  | none => simp [hb] at hl
  | some last =>
    rw [hb] at hl
    cases hl
    exact List.mem_append_left _ (List.mem_of_getLast? hb)

end Declaration

namespace Value

open Declaration (isImportant squeeze)

variable {depth after : Nat} {front back t rest value : Text} {parts : List Segment}
  {f : Text → Text}

theorem le_of_walk (h : walk depth t = some after) (hn : ')' ∉ t) : depth ≤ after := by
  induction t generalizing depth with
  | nil => exact Nat.le_of_eq (Option.some.inj h)
  | cons c cs ih =>
    obtain ⟨hc, hs⟩ := List.ne_and_not_mem_of_not_mem_cons hn
    have hd : depth ≤ nest depth c := by
      rw [nest]
      split
      · exact Nat.le_succ depth
      · rw [if_neg (Ne.symm hc)]
    exact Nat.le_trans hd (ih (walk_cons h).2 hs)

theorem pos_of_walk (h : walk depth (front ++ '!' :: back) = some after) (hn : ')' ∉ back) :
    0 < after := by
  induction front generalizing depth with
  | nil =>
    obtain ⟨hc, hw⟩ := walk_cons h
    cases depth with
    | zero => cases hc
    | succ depth => exact Nat.lt_of_lt_of_le (Nat.succ_pos depth) (le_of_walk hw hn)
  | cons c front ih => exact ih (walk_cons h).2

theorem not_mem_parenthesis (h : squeeze (back ++ t) = Declaration.importantWord) : ')' ∉ back := by
  have hn : ')' ∉ back ++ t := Declaration.not_mem_of_squeeze_eq h (by decide) (by decide)
  exact fun hm => hn (List.mem_append_left t hm)

/-- A value is important by what follows its tokens, or by its last token if that one is open. -/
theorem Scanned.isImportant_iff (h : Scanned depth parts rest) :
    isImportant (parts.flatMap Segment.text ++ rest) = true ↔
      isImportant rest = true ∨
        ∃ t, parts.getLast? = some (.token t) ∧ isImportant t = true := by
  induction h with
  | stop => simp
  | mark rest => simp
  | @separator c parts rest hc h ih =>
    rw [List.flatMap_cons, List.append_assoc, Segment.text, List.singleton_append,
      Declaration.isImportant_cons (ne_of_isSeparator hc).1, ih]
    cases parts with
    | nil => simp
    | cons part parts => rw [List.getLast?_cons_cons]
  | @token depth after t parts rest ht hw hs h ih =>
    rw [List.flatMap_cons, List.append_assoc, Segment.text]
    by_cases hl : parts = [] ∧ rest = []
    · obtain ⟨rfl, rfl⟩ := hl
      simp [Declaration.isImportant_iff]
    · have closed : ∀ front back, t = front ++ '!' :: back → ')' ∈ back := by
        rintro front back rfl
        by_contra hn
        exact hl (h.eq_nil_of_pos hs (pos_of_walk hw hn))
      have mark : ∀ other, ¬∃ front back, t = front ++ '!' :: back ∧
          squeeze (back ++ other) = Declaration.importantWord := by
        rintro other ⟨front, back, he, hb⟩
        exact not_mem_parenthesis hb (closed front back he)
      have hi : isImportant t = false := by
        have hm := mark []
        simp only [List.append_nil, ← Declaration.isImportant_iff] at hm
        exact Bool.eq_false_iff.mpr hm
      rw [Declaration.isImportant_append_iff, or_iff_left (mark _), ih]
      cases parts with
      | nil => simp [hi]
      | cons part parts => rw [List.getLast?_cons_cons]

theorem isImportant_rewrite (hf : Tame f) (hm : ∀ t, '!' ∈ t → f t = t) (value : Text) :
    isImportant (rewrite f value) = isImportant value := by
  have marked {t : Text} (h : isImportant t = true) : '!' ∈ t := by
    obtain ⟨front, back, rfl, -⟩ := Declaration.isImportant_iff.mp h
    simp
  have hs := scanned_segments value
  have hv := hs.isImportant_iff
  rw [flatMap_text_segments] at hv
  rw [Bool.eq_iff_iff]
  apply (hs.rewrite hf rfl).isImportant_iff.trans
  rw [hv, List.getLast?_map]
  apply or_congr_right
  constructor
  · rintro ⟨t, ht, hi⟩
    obtain ⟨part, hp, he⟩ := Option.map_eq_some_iff.mp ht
    cases part with
    | separator c => cases he
    | token s =>
      cases he
      rcases hf s with he | ⟨-, ha⟩
      · exact ⟨s, hp, by rwa [he] at hi⟩
      · cases List.all_eq_true.mp ha '!' (marked hi)
  · rintro ⟨t, ht, hi⟩
    refine ⟨t, ?_, hi⟩
    rw [ht, Option.map_some, Segment.rewrite, hm t (marked hi)]

end Value

namespace Declaration

theorem isImportant_recolor {f : Text → Text} (hf : Value.Tame f) (hm : ∀ t, '!' ∈ t → f t = t)
    (declaration : Text) : isImportant (recolor f declaration) = isImportant declaration := by
  rcases recolor_cases f declaration with h | ⟨property, value, hd, h⟩
  · rw [h]
  · rw [h, hd, isImportant_append_colon, isImportant_append_colon,
      Value.isImportant_rewrite hf hm]

end Declaration

namespace Cascade

variable {f : Text → Text}

theorem winners_map (hp : ∀ d, Declaration.property? (f d) = Declaration.property? d)
    (hi : ∀ d, Declaration.isImportant (f d) = Declaration.isImportant d)
    (declarations : List Text) : winners (declarations.map f) = winners declarations := by
  have hc (standing : Table Winner) (entry : Text × Nat) :
      contend standing (Prod.map f id entry) = contend standing entry := by
    simp only [contend, Prod.map_fst, Prod.map_snd, hp, hi, id]
  simp only [winners, List.zipIdx_map, List.foldl_map, hc]

theorem survivors_map (hp : ∀ d, Declaration.property? (f d) = Declaration.property? d)
    (hi : ∀ d, Declaration.isImportant (f d) = Declaration.isImportant d)
    (declarations : List Text) :
    survivors (declarations.map f) = (survivors declarations).map f := by
  have hs (standing : Table Winner) :
      survives standing ∘ Prod.map f id = survives standing := by
    funext entry
    simp only [Function.comp_apply, survives, Prod.map_fst, Prod.map_snd, hp, id]
  rw [survivors, winners_map hp hi, List.zipIdx_map, List.filter_map, hs, List.map_map, survivors,
    List.map_map]
  rfl

end Cascade

namespace Body

variable {body : Text} {f : Text → Text}

theorem declarations_recolor (hf : Value.Tame f) (body : Text) :
    declarations (recolor f body) = (declarations body).map (Declaration.recolor f) := by
  have hb : (fun piece => !piece.all Text.isBlank) ∘ Declaration.recolor f =
      fun piece => !piece.all Text.isBlank := by
    funext piece
    simp only [Function.comp_apply, Declaration.all_isBlank_recolor]
  rw [declarations, split_recolor hf, List.filter_map, hb]
  rfl

theorem isClosed_recolor (hf : Value.Tame f) (body : Text) :
    isClosed (recolor f body) = isClosed body := by
  have hn {piece : Text} : Declaration.recolor f piece = [] ↔ piece = [] := by
    rcases Declaration.recolor_cases f piece with h | ⟨property, value, hd, h⟩
    · rw [h]
    · rw [h, hd]
      simp
  rw [isClosed, isClosed, split_recolor hf, List.getLast?_map]
  cases (split body).getLast? with
  | none => rfl
  | some last =>
    rw [Option.map_some, Bool.eq_iff_iff, beq_iff_eq, beq_iff_eq, Option.some.injEq,
      Option.some.injEq, hn]

/-- A tame rewriting that leaves exclamation marks alone may come before pruning or after. -/
theorem prune_recolor (hf : Value.Tame f) (hm : ∀ t, '!' ∈ t → f t = t) (body : Text) :
    Cascade.prune (recolor f body) = recolor f (Cascade.prune body) := by
  have hs : Cascade.survivors (declarations (recolor f body)) =
      (Cascade.survivors (declarations body)).map (Declaration.recolor f) := by
    rw [declarations_recolor hf]
    exact Cascade.survivors_map (Declaration.property?_recolor f)
      (Declaration.isImportant_recolor hf hm) _
  by_cases h : Cascade.survivors (declarations body) = []
  · rw [prune_of_survivors_eq_nil (by rw [hs, h]; rfl), prune_of_survivors_eq_nil h]
    rfl
  · have hr := ((pruned_prune h).recolor hf).split_eq
    rw [← hs, ← isClosed_recolor hf body] at hr
    rw [prune_eq_join (by rwa [hs, ne_eq, List.map_eq_nil_iff]), ← hr, join_split]

end Body

namespace Color

variable {used : Option Tables} {stage : Stage} {literal next : Text}

theorem not_mem_of_isCode (h : Hex.isCode literal = true) : '!' ∉ literal := by
  intro hm
  cases List.all_eq_true.mp (Hex.all_isInert_of_isCode h).2 '!' hm

theorem not_mem_of_lower (h : '!' ∉ Text.lower literal) : '!' ∉ literal :=
  fun hm => h (List.mem_map.mpr ⟨'!', hm, rfl⟩)

theorem Rgb.IsCall.not_mem {channels : List Channel.Spelling} (h : IsCall literal channels) :
    '!' ∉ literal := by
  apply not_mem_of_lower
  rw [h.text]
  intro hm
  rcases List.mem_append.mp hm with hm | hm
  · exact absurd hm (by decide)
  · rcases List.mem_append.mp hm with hm | hm
    · exact absurd (mem_marks_of_mem_intercalate '!' hm) (by decide)
    · exact absurd hm (by decide)

theorem not_mem_of_apply (names : ∀ t ∈ used, ∀ entry ∈ t.names, '!' ∉ entry.1)
    (h : stage.apply used literal = some next) : '!' ∉ literal := by
  cases stage with
  | rgbToHex =>
    obtain ⟨color, hr, -⟩ := Option.map_eq_some_iff.mp h
    obtain ⟨channels, hc⟩ := Rgb.exists_isCall hr
    exact hc.not_mem
  | nameToHex =>
    obtain ⟨t, ht, h⟩ := Option.bind_eq_some_iff.mp h
    exact not_mem_of_lower (names t ht _ (Table.mem_of_get? h))
  | hexToShortName =>
    obtain ⟨t, -, h⟩ := Option.bind_eq_some_iff.mp h
    rw [Tables.hexToShortName?] at h
    split at h
    next hf => exact not_mem_of_isCode (Hex.isCode_of_isFull hf)
    next => cases h
  | hexToShortHex => exact not_mem_of_isCode (Hex.color?_shorten? h).1

theorem normalize_of_mark (names : ∀ t ∈ used, ∀ entry ∈ t.names, '!' ∉ entry.1)
    (options : ColorOptions) (h : '!' ∈ literal) : normalize options used literal = literal := by
  have hr : run used options.stages literal = literal := by
    apply run_eq_self
    intro stage _
    cases ha : stage.apply used literal with
    | none => rfl
    | some next => exact absurd h (not_mem_of_apply names ha)
  have hc : Hex.isCode literal = false :=
    Bool.eq_false_iff.mpr fun hc => not_mem_of_isCode hc h
  rw [normalize, hr, Hex.lowercase, if_neg (Bool.eq_false_iff.mp hc)]

theorem Tables.not_mem_names_bundled : ∀ entry ∈ Tables.bundled.names, '!' ∉ entry.1 := by
  intro entry hm
  obtain ⟨pair, hp, rfl⟩ := Palette.mem_table hm
  have hw := Palette.sound.name_word pair hp
  rw [lower_of_isWord hw]
  intro hc
  cases List.all_eq_true.mp hw '!' hc

end Color

namespace Session

/-- With the bundled tables, whatever stages are on, a body may be pruned before its colours are
shortened or afterwards. -/
theorem prune_recolor_interchange (options : Color.ColorOptions) (body : Text) (session : Session)
    (bundled : session.holder.served = .ok Color.Tables.bundled) :
    ∃ result, (session.perform (recolor options body >>= prune)).1 = .ok result ∧
      (session.perform (prune body >>= recolor options)).1 = .ok result := by
  have hf := options.settles_normalize.tame
  have hm : ∀ t, '!' ∈ t → Color.normalize options options.bundledTables t = t := by
    intro t ht
    apply Color.normalize_of_mark _ options ht
    intro tables hu
    cases options.eq_bundled hu
    exact Color.Tables.not_mem_names_bundled
  have hl : options.lookup session.holder.served = .ok options.bundledTables := by
    rw [bundled]
    exact options.lookup_of_ok _
  refine ⟨Cascade.prune (Body.recolor (Color.normalize options options.bundledTables) body), ?_, ?_⟩
  · rw [((computes_recolor options body).bind computes_prune).fst_perform,
      recolored_of_lookup hl]
    rfl
  · rw [((computes_prune body).seq (computes_recolor options _)).fst_perform,
      recolored_of_lookup hl, Body.prune_recolor hf hm]

/-- A mark of importance behind a colour, and one inside parentheses that are never closed. -/
theorem prune_recolor_interchange_open :
    let session : Session := ⟨.orderly .bundled fun _ => "", #[]⟩
    let body := "color:rgb(100%)! IMPORTANT;Color:navy;fill:white,(black ! important;fill:red;".toList
    session.holder.served = .ok Color.Tables.bundled ∧
      Cascade.prune body = "color:rgb(100%)! IMPORTANT;fill:white,(black ! important;".toList ∧
      ∃ result, (session.perform (recolor .all body >>= prune)).1 = .ok result ∧
        (session.perform (prune body >>= recolor .all)).1 = .ok result := by
  intro session body
  have hs : session.holder.served = .ok Color.Tables.bundled := Color.Source.load_bundled _ _
  exact ⟨hs, by decide +kernel, prune_recolor_interchange .all body session hs⟩

end Session

end StyleSheet
