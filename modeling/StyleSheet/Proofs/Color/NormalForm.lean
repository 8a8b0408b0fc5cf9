import StyleSheet.Proofs.Color.Bundled
import StyleSheet.Proofs.Tokens

namespace StyleSheet.Color

variable {tables : Tables} {used : Option Tables} {literal next : Text} {stage : Stage}
  {stages : List Stage}

theorem lower_lower (t : Text) : Text.lower (Text.lower t) = Text.lower t := by
  rw [Text.lower, Text.lower, List.map_map]
  apply List.map_congr_left
  intro c _
  exact Char.toLower_toLower_eq_toLower c

namespace Hex

theorem isInert_of_isDigit {c : Char} (h : isDigit c = true) : Value.isInert c = true := by
  have small := toNat_lt_of_isDigit h
  have ascii : ∀ n < 128, isDigit (Char.ofNat n) = true → Value.isInert (Char.ofNat n) = true := by
    decide
  rw [← Char.ofNat_toNat c] at h ⊢
  exact ascii c.toNat small h

theorem isCode_iff {t : Text} :
    isCode t = true ↔
      ∃ digits, digits? t = some digits ∧ (digits.length = 3 ∨ digits.length = 6) := by
  simp [isCode, Option.any_eq_true]

theorem isFull_iff {t : Text} :
    isFull t = true ↔ ∃ digits, digits? t = some digits ∧ digits.length = 6 := by
  simp [isFull, Option.any_eq_true]

theorem all_isInert_of_isCode {t : Text} (h : isCode t = true) :
    t ≠ [] ∧ t.all Value.isInert = true := by
  obtain ⟨digits, hd, -⟩ := isCode_iff.mp h
  obtain ⟨rfl, ha⟩ := digits?_eq_some_iff.mp hd
  constructor
  · exact List.cons_ne_nil _ _
  · rw [List.all_cons, Bool.and_eq_true]
    constructor
    · decide
    · apply List.all_eq_true.mpr
      intro c hc
      exact isInert_of_isDigit (List.all_eq_true.mp ha c hc)

theorem head?_of_isCode {t : Text} (h : isCode t = true) : t.head? = some '#' := by
  obtain ⟨digits, hd, -⟩ := isCode_iff.mp h
  rw [(digits?_eq_some_iff.mp hd).1]
  rfl

theorem not_isPlain_of_isCode {t : Text} (h : isCode t = true) : isPlain t = false := by
  rw [isPlain, head?_of_isCode h]
  simp

theorem length_of_isFull {t : Text} (h : isFull t = true) : t.length = 7 := by
  obtain ⟨digits, hd, hl⟩ := isFull_iff.mp h
  rw [(digits?_eq_some_iff.mp hd).1, List.length_cons, hl]

theorem isFull_lower_eq (t : Text) : isFull (Text.lower t) = isFull t := by
  cases t with
  | nil => rfl
  | cons c digits =>
    by_cases hc : c = '#'
    · have hd : (Text.lower digits).all isDigit = digits.all isDigit := by
        rw [Text.lower, List.all_map]
        congr 1
        funext d
        exact isDigit_toLower_eq d
      subst hc
      change ((if (Text.lower digits).all isDigit then some (Text.lower digits) else none).any _) =
        ((if digits.all isDigit then some digits else none).any _)
      rw [hd]
      cases digits.all isDigit with
      | false => rfl
      | true => simp
    · have hl : c.toLower ≠ '#' := fun h => hc ((Text.toLower_eq_iff rfl).mp h)
      have none {d : Char} (h : d ≠ '#') (rest : Text) : isFull (d :: rest) = false := by
        simp [isFull, digits?, h]
      exact (none hl _).trans (none hc _).symm

theorem length_of_shorten? {t short : Text} (h : shorten? t = some short) :
    isFull t = true ∧ short.length = 4 := by
  unfold shorten? at h
  split at h
  next =>
    split at h
    next hc =>
      simp only [Bool.and_eq_true] at hc
      cases h
      exact ⟨hc.1.1.1, rfl⟩
    next => cases h
  next => cases h

theorem isDoubled_toLower (a b : Char) : isDoubled a.toLower b.toLower = isDoubled a b := by
  rw [isDoubled, isDoubled, Char.toLower_toLower_eq_toLower, Char.toLower_toLower_eq_toLower]

theorem shorten?_of_six {t : Text} {r₁ r₂ g₁ g₂ b₁ b₂ : Char}
    (h : digits? t = some [r₁, r₂, g₁, g₂, b₁, b₂]) :
    shorten? t =
      if isDoubled r₁ r₂ && isDoubled g₁ g₂ && isDoubled b₁ b₂ then some ['#', r₁, g₁, b₁]
      else none := by
  have hf : isFull t = true := isFull_iff.mpr ⟨_, h, rfl⟩
  rw [(digits?_eq_some_iff.mp h).1] at hf ⊢
  simp only [shorten?, hf, Bool.true_and]

theorem shorten?_lower_eq_none {t : Text} (hc : isCode t = true) (h : shorten? t = none) :
    shorten? (Text.lower t) = none := by
  rcases isCode_cases hc with ⟨r, g, b, hd⟩ | ⟨r₁, r₂, g₁, g₂, b₁, b₂, hd⟩
  · rw [(digits?_eq_some_iff.mp hd).1]
    rfl
  · rw [shorten?_of_six hd] at h
    rw [shorten?_of_six (digits?_lower hd), isDoubled_toLower, isDoubled_toLower,
      isDoubled_toLower]
    split at h
    next => cases h
    next hn => exact if_neg hn

end Hex

/-- Short names are tokens that no other stage takes for a name. -/
structure Tables.Final (tables : Tables) : Prop extends tables.Consistent where
  short_inert : ∀ entry ∈ tables.shortNames, entry.2 ≠ [] ∧ entry.2.all Value.isInert = true
  short_fresh : ∀ entry ∈ tables.shortNames, tables.nameToHex? entry.2 = none

/-- What a stage may leave behind: a code or a short name. -/
def Tables.Writes (tables : Tables) (t : Text) : Prop :=
  Hex.isCode t = true ∨ ∃ entry ∈ tables.shortNames, t = entry.2

/-- A stage leaves alone whatever another one writes. -/
def Stage.Spares (used : Option Tables) (stage other : Stage) : Prop :=
  ∀ literal next, other.apply used literal = some next → stage.apply used next = none

theorem Rgb.read?_of_head? (h : literal.head? = some '#') : Rgb.read? literal = none := by
  apply Rgb.read?_eq_none
  cases literal with
  | nil => cases h
  | cons c cs =>
    cases h
    intro he
    cases (List.cons.inj he).1

theorem isFull_of_isPlain (h : isPlain literal = true) : Hex.isFull literal = false := by
  apply Bool.eq_false_iff.mpr
  intro hf
  rw [Hex.not_isPlain_of_isCode (Hex.isCode_of_isFull hf)] at h
  cases h

theorem shorten?_of_not_isFull (h : Hex.isFull literal = false) : Hex.shorten? literal = none := by
  cases hs : Hex.shorten? literal with
  | none => rfl
  | some short =>
    rw [(Hex.length_of_shorten? hs).1] at h
    cases h

theorem isCode_of_apply (names : ∀ t ∈ used, ∀ entry ∈ t.names, Hex.isCode entry.2 = true)
    (hs : stage ≠ .hexToShortName) (h : stage.apply used literal = some next) :
    Hex.isCode next = true := by
  cases stage with
  | rgbToHex =>
    obtain ⟨color, -, rfl⟩ := Option.map_eq_some_iff.mp h
    exact Hex.isCode_toHex color
  | nameToHex =>
    obtain ⟨t, ht, h⟩ := Option.bind_eq_some_iff.mp h
    exact names t ht _ (Table.mem_of_get? h)
  | hexToShortName => exact absurd rfl hs
  | hexToShortHex => exact (Hex.color?_shorten? h).2.1

namespace Tables

theorem nameToHex?_of_isCode (hc : tables.Consistent) (h : Hex.isCode literal = true) :
    tables.nameToHex? literal = none := by
  cases hn : tables.nameToHex? literal with
  | none => rfl
  | some code =>
    have hp := hc.name_plain _ (Table.mem_of_get? hn)
    rw [Hex.not_isPlain_of_isCode (Hex.isCode_lower h)] at hp
    cases hp

theorem hexToShortName?_of_not_isFull (h : Hex.isFull literal = false) :
    tables.hexToShortName? literal = none := by
  rw [hexToShortName?, h]
  rfl

theorem mem_of_hexToShortName? (h : tables.hexToShortName? literal = some next) :
    ∃ entry ∈ tables.shortNames, next = entry.2 := by
  rw [hexToShortName?] at h
  split at h
  next => exact ⟨_, Table.mem_of_get? h, rfl⟩
  next => cases h

theorem Writes.read?_eq_none (hc : tables.Consistent) (h : tables.Writes literal) :
    Rgb.read? literal = none := by
  rcases h with h | ⟨entry, hm, rfl⟩
  · exact Rgb.read?_of_head? (Hex.head?_of_isCode h)
  · exact Rgb.read?_eq_none (isPlain_iff.mp (hc.short_plain entry hm)).1

theorem Writes.nameToHex?_eq_none (hf : tables.Final) (h : tables.Writes literal) :
    tables.nameToHex? literal = none := by
  rcases h with h | ⟨entry, hm, rfl⟩
  · exact nameToHex?_of_isCode hf.toConsistent h
  · exact hf.short_fresh entry hm

theorem Writes.inert (hf : tables.Final) (h : tables.Writes literal) :
    literal ≠ [] ∧ literal.all Value.isInert = true := by
  rcases h with h | ⟨entry, hm, rfl⟩
  · exact Hex.all_isInert_of_isCode h
  · exact hf.short_inert entry hm

theorem Consistent.writes_apply (hc : tables.Consistent) (hu : ∀ t ∈ used, t = tables)
    (h : stage.apply used literal = some next) : tables.Writes next := by
  by_cases hs : stage = .hexToShortName
  · subst hs
    obtain ⟨t, ht, h⟩ := Option.bind_eq_some_iff.mp h
    cases hu t ht
    exact .inr (mem_of_hexToShortName? h)
  · refine .inl (isCode_of_apply ?_ hs h)
    intro t ht
    cases hu t ht
    exact hc.name_code

end Tables

theorem bind_eq_none (hu : ∀ t ∈ used, t = tables) {look : Tables → Option Text}
    (h : look tables = none) : used.bind look = none := by
  apply Option.bind_eq_none_iff.mpr
  intro t ht
  rw [hu t ht]
  exact h

namespace Stage

theorem rgbToHex_spares (hc : tables.Consistent) (hu : ∀ t ∈ used, t = tables) (other : Stage) :
    Spares used .rgbToHex other := by
  intro literal next h
  change (Rgb.read? next).map Rgb.toHex = none
  rw [(hc.writes_apply hu h).read?_eq_none hc]
  rfl

theorem nameToHex_spares (hf : tables.Final) (hu : ∀ t ∈ used, t = tables) (other : Stage) :
    Spares used .nameToHex other := by
  intro literal next h
  exact bind_eq_none hu ((hf.writes_apply hu h).nameToHex?_eq_none hf)

theorem hexToShortName_spares_self (hc : tables.Consistent) (hu : ∀ t ∈ used, t = tables) :
    Spares used .hexToShortName .hexToShortName := by
  intro literal next h
  obtain ⟨t, ht, h⟩ := Option.bind_eq_some_iff.mp h
  cases hu t ht
  obtain ⟨entry, hm, rfl⟩ := Tables.mem_of_hexToShortName? h
  have hp := isFull_of_isPlain (hc.short_plain entry hm)
  exact bind_eq_none hu (Tables.hexToShortName?_of_not_isFull hp)

theorem not_isFull_of_shorten? (h : Hex.shorten? literal = some next) :
    Hex.isFull next = false := by
  apply Bool.eq_false_iff.mpr
  intro hf
  have hl := Hex.length_of_isFull hf
  rw [(Hex.length_of_shorten? h).2] at hl
  cases hl

theorem hexToShortName_spares_hexToShortHex (hu : ∀ t ∈ used, t = tables) :
    Spares used .hexToShortName .hexToShortHex := by
  intro literal next h
  exact bind_eq_none hu (Tables.hexToShortName?_of_not_isFull (not_isFull_of_shorten? h))

theorem hexToShortHex_spares_self : Spares used .hexToShortHex .hexToShortHex := by
  intro literal next h
  exact shorten?_of_not_isFull (not_isFull_of_shorten? h)

theorem spares_self (hf : tables.Final) (hu : ∀ t ∈ used, t = tables) (stage : Stage) :
    Spares used stage stage := by
  cases stage with
  | rgbToHex => exact rgbToHex_spares hf.toConsistent hu _
  | nameToHex => exact nameToHex_spares hf hu _
  | hexToShortName => exact hexToShortName_spares_self hf.toConsistent hu
  | hexToShortHex => exact hexToShortHex_spares_self

theorem pairwise_spares_all (hf : tables.Final) (hu : ∀ t ∈ used, t = tables) :
    all.Pairwise (Spares used) := by
  apply List.pairwise_cons.mpr ⟨fun other _ => rgbToHex_spares hf.toConsistent hu other, _⟩
  apply List.pairwise_cons.mpr ⟨fun other _ => nameToHex_spares hf hu other, _⟩
  apply List.pairwise_pair.mpr
  exact hexToShortName_spares_hexToShortHex hu

end Stage

theorem run_cons (stage : Stage) (stages : List Stage) (literal : Text) :
    run used (stage :: stages) literal =
      run used stages ((stage.apply used literal).getD literal) :=
  rfl

theorem run_append (stages others : List Stage) (literal : Text) :
    run used (stages ++ others) literal = run used others (run used stages literal) :=
  List.foldl_append

theorem apply_run_of_spares (h : stage.apply used literal = none)
    (hs : ∀ other ∈ stages, stage.Spares used other) :
    stage.apply used (run used stages literal) = none := by
  induction stages generalizing literal with
  | nil => exact h
  | cons other rest ih =>
    obtain ⟨ho, hr⟩ := List.forall_mem_cons.mp hs
    rw [run_cons]
    apply ih _ hr
    cases hn : other.apply used literal with
    | none => exact h
    | some next => exact ho literal next hn

/-- A stage has nothing to do in what comes out behind it if it spares what is written there. -/
theorem apply_run_append_cons {front back : List Stage} (hself : stage.Spares used stage)
    (hs : ∀ other ∈ back, stage.Spares used other) (literal : Text) :
    stage.apply used (run used (front ++ stage :: back) literal) = none := by
  rw [run_append, run_cons]
  apply apply_run_of_spares _ hs
  cases hn : stage.apply used (run used front literal) with
  | none => exact hn
  | some next => exact hself _ _ hn

/-- No stage of a run finds anything to do in what the run comes to. -/
theorem apply_run_eq_none (hself : ∀ stage : Stage, stage.Spares used stage)
    (hp : stages.Pairwise (Stage.Spares used)) (literal : Text) :
    ∀ stage ∈ stages, stage.apply used (run used stages literal) = none := by
  intro stage hm
  obtain ⟨front, back, rfl⟩ := List.append_of_mem hm
  have behind := List.pairwise_cons.mp (List.pairwise_append.mp hp).2.1
  exact apply_run_append_cons (hself stage) behind.1 literal

theorem run_eq_self (h : ∀ stage ∈ stages, stage.apply used literal = none) :
    run used stages literal = literal := by
  induction stages with
  | nil => rfl
  | cons stage rest ih =>
    obtain ⟨hs, hr⟩ := List.forall_mem_cons.mp h
    rw [run_cons, hs]
    exact ih hr

theorem run_eq_or {written : Text → Prop}
    (h : ∀ stage ∈ stages, ∀ literal next, stage.apply used literal = some next → written next)
    (literal : Text) : run used stages literal = literal ∨ written (run used stages literal) := by
  induction stages generalizing literal with
  | nil => exact .inl rfl
  | cons stage rest ih =>
    obtain ⟨hs, hr⟩ := List.forall_mem_cons.mp h
    rw [run_cons]
    cases hn : stage.apply used literal with
    | none => exact ih hr literal
    | some next =>
      rcases ih hr next with he | hw
      · rw [Option.getD_some, he]
        exact .inr (hs literal next hn)
      · exact .inr hw

theorem Tables.Consistent.apply_lower (hc : tables.Consistent) (hu : ∀ t ∈ used, t = tables)
    (hl : Hex.isCode literal = true) (h : stage.apply used literal = none) :
    stage.apply used (Text.lower literal) = none := by
  have hlower := Hex.isCode_lower hl
  cases stage with
  | rgbToHex =>
    change (Rgb.read? (Text.lower literal)).map Rgb.toHex = none
    rw [Rgb.read?_of_head? (Hex.head?_of_isCode hlower)]
    rfl
  | nameToHex => exact bind_eq_none hu (Tables.nameToHex?_of_isCode hc hlower)
  | hexToShortName =>
    apply Option.bind_eq_none_iff.mpr
    intro t ht
    have hn := Option.bind_eq_none_iff.mp h t ht
    rw [Tables.hexToShortName?] at hn ⊢
    rw [lower_lower]
    split
    next hf => rwa [if_pos ((Hex.isFull_lower_eq literal).symm.trans hf)] at hn
    next => rfl
  | hexToShortHex => exact Hex.shorten?_lower_eq_none hl h

theorem Hex.lowercase_lowercase (t : Text) : lowercase (lowercase t) = lowercase t := by
  by_cases h : isCode t = true
  · have hl : lowercase t = Text.lower t := if_pos h
    rw [hl, lowercase, if_pos (isCode_lower h), lower_lower]
  · have hl : lowercase t = t := if_neg h
    rw [hl, hl]

theorem Tables.Final.normalize_normalize (hf : tables.Final) (hu : ∀ t ∈ used, t = tables)
    (options : ColorOptions) (literal : Text) :
    normalize options used (normalize options used literal) = normalize options used literal := by
  have hp : options.stages.Pairwise (Stage.Spares used) :=
    (Stage.pairwise_spares_all hf hu).filter _
  have hn := apply_run_eq_none (Stage.spares_self hf hu) hp literal
  have hr : run used options.stages (normalize options used literal) =
      normalize options used literal := by
    apply run_eq_self
    intro stage hm
    rw [normalize, Hex.lowercase]
    split
    next hl => exact hf.apply_lower hu hl (hn stage hm)
    next => exact hn stage hm
  rw [normalize, hr, normalize, Hex.lowercase_lowercase]

/-- Shortening is tame if its stages write inert tokens only. -/
theorem tame_normalize {options : ColorOptions}
    (h : ∀ stage ∈ options.stages, ∀ literal next, stage.apply used literal = some next →
      next ≠ [] ∧ next.all Value.isInert = true) : Value.Tame (normalize options used) := by
  intro literal
  rw [normalize, Hex.lowercase]
  split
  next hl => exact .inr (Hex.all_isInert_of_isCode (Hex.isCode_lower hl))
  next => exact run_eq_or h literal

theorem Tables.Final.tame_normalize (hf : tables.Final) (hu : ∀ t ∈ used, t = tables)
    (options : ColorOptions) : Value.Tame (normalize options used) :=
  Color.tame_normalize fun _ _ _ _ h => (hf.writes_apply hu h).inert hf

/-- Shortening writes codes and short names only, and has nothing to do with what it has written. -/
theorem Tables.Final.settles_normalize (hf : tables.Final) (hu : ∀ t ∈ used, t = tables)
    (options : ColorOptions) : Value.Settles (normalize options used) :=
  ⟨hf.tame_normalize hu options, hf.normalize_normalize hu options⟩

theorem Palette.Sound.final {names shortNames : List (String × String)}
    (hs : Sound names shortNames)
    (hi : ∀ pair ∈ shortNames, pair.2.toList ≠ [] ∧ pair.2.toList.all Value.isInert = true) :
    Tables.Final ⟨table names, table shortNames⟩ where
  toConsistent := hs.consistent
  short_inert := by
    intro entry hm
    obtain ⟨pair, hp, rfl⟩ := mem_table hm
    exact hi pair hp
  short_fresh := by
    intro entry hm
    obtain ⟨pair, hp, rfl⟩ := mem_table hm
    rw [Tables.nameToHex?, lower_of_isWord (hs.short_word pair hp)]
    exact hs.get?_short hp

theorem Tables.final_bundled : Tables.bundled.Final :=
  Palette.sound.final (by decide +kernel)

end StyleSheet.Color
