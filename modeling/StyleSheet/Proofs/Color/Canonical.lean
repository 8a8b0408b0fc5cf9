import StyleSheet.Proofs.Color.Calls
import StyleSheet.Proofs.Framing

namespace StyleSheet

theorem Table.exists_get?_of_mem {α : Type} {table : Table α} {key : Text}
    (h : key ∈ table.map Prod.fst) : ∃ value, table.get? key = some value := by
  induction table with
  | nil => cases h
  | cons entry rest ih =>
    rw [get?]
    split
    next => exact ⟨entry.2, rfl⟩
    next hk => exact ih ((List.mem_cons.mp h).resolve_left (Ne.symm hk))

namespace Color

variable {source : Source} {wording : Wording} {orders : Orders} {tables : Tables}
  {used : Option Tables} {options : ColorOptions}
  {stage : Stage} {front back : List Stage} {literal : Text}

namespace Hex

theorem isCode_lowercase (t : Text) : isCode (lowercase t) = isCode t := by
  rw [lowercase]
  split
  next h => rw [isCode_lower h, h]
  next => rfl

theorem not_isUpper_of_mem_lowercase {t : Text} (h : isCode (lowercase t) = true) :
    ∀ c ∈ lowercase t, c.isUpper = false := by
  rw [isCode_lowercase] at h
  rw [lowercase, if_pos h]
  intro c hc
  obtain ⟨d, -, rfl⟩ := List.mem_map.mp hc
  exact d.isUpper_toLower_eq_false

theorem shorten?_doubled {r g b : Char} (h : isCode ['#', r, r, g, g, b, b] = true) :
    shorten? ['#', r, r, g, g, b, b] = some ['#', r, g, b] := by
  obtain ⟨digits, hd, -⟩ := isCode_iff.mp h
  cases (digits?_eq_some_iff.mp hd).1
  rw [shorten?_of_six hd]
  simp [isDoubled]

end Hex

/-- A stage that is on runs between the enabled ones before it and those after it. -/
theorem ColorOptions.stages_eq_append (hall : Stage.all = front ++ stage :: back)
    (on : options.enables stage = true) :
    options.stages = front.filter options.enables ++ stage :: back.filter options.enables := by
  rw [stages, hall, List.filter_append, List.filter_cons_of_pos on]

theorem shorten?_run (on : options.hexToShortHex = true) (literal : Text) :
    Hex.shorten? (run used options.stages literal) = none := by
  have last : Stage.all = [.rgbToHex, .nameToHex, .hexToShortName] ++ [.hexToShortHex] := rfl
  rw [ColorOptions.stages_eq_append last on]
  exact apply_run_append_cons Stage.hexToShortHex_spares_self (by simp) literal

theorem normalize_ne_doubled (on : options.hexToShortHex = true)
    (hc : Hex.isCode (normalize options used literal) = true) (r g b : Char) :
    normalize options used literal ≠ ['#', r, r, g, g, b, b] := by
  intro he
  have hd := Hex.shorten?_doubled (he ▸ hc)
  rw [← he, normalize] at hd
  rw [normalize, Hex.isCode_lowercase] at hc
  rw [Hex.lowercase, if_pos hc, Hex.shorten?_lower_eq_none hc (shorten?_run on literal)] at hd
  cases hd

/-- A name is turned into a code, and no stage but that of the short names turns it back. -/
theorem isCode_run_of_name (load : source.load wording orders = .ok tables)
    (name : Text.lower literal ∈ tables.names.map Prod.fst) (hr : Rgb.read? literal = none)
    (on : options.nameToHex = true) (off : options.hexToShortName = false) :
    Hex.isCode (run (some tables) options.stages literal) = true := by
  have order : Stage.all = [.rgbToHex] ++ .nameToHex :: [.hexToShortName, .hexToShortHex] := rfl
  have stages := ColorOptions.stages_eq_append order on
  have idle : run (some tables) ([Stage.rgbToHex].filter options.enables) literal = literal := by
    apply run_eq_self
    intro stage hm
    rw [List.mem_singleton.mp (List.mem_filter.mp hm).1, Stage.apply, rgbToHex?, hr]
    rfl
  obtain ⟨code, hcode⟩ := Table.exists_get?_of_mem name
  have named : Stage.nameToHex.apply (some tables) literal = some code := hcode
  rw [stages, run_append, idle, run_cons, named, Option.getD_some]
  have written : Hex.isCode code = true :=
    Source.isCode_of_load load _ (Table.mem_of_get? hcode)
  have later (other : Stage)
      (hm : other ∈ [Stage.hexToShortName, .hexToShortHex].filter options.enables) :
      ∀ t next, other.apply (some tables) t = some next → Hex.isCode next = true := by
    have hs : other ∈ options.stages := by
      rw [stages]
      exact List.mem_append_right _ (List.mem_cons_of_mem _ hm)
    exact fun _ _ h => isCode_of_mem_stages load (by simp) off hs h
  rcases run_eq_or later code with he | hw
  · rw [he]
    exact written
  · exact hw

end Color

namespace Session

/--
Whatever tables the source gives: if a literal comes out as a code, it is in lower case, and not of
three doubled digits when short codes are on. A name of the tables that is no call of the `rgb`
function comes out as such a code when names are to become codes and short names are off.
-/
theorem normalize_codes_canonical (options : Color.ColorOptions) (literal : Text)
    (session : Session) (tables : Color.Tables) (serves : session.holder.Serves tables) :
    ∃ result after, session.perform (normalize options literal) = (.ok result, after) ∧
      (Color.Hex.isCode result = true →
        (∀ c ∈ result, c.isUpper = false) ∧
          (options.hexToShortHex = true → ∀ r g b, result ≠ ['#', r, r, g, g, b, b])) ∧
      (Text.lower literal ∈ tables.names.map Prod.fst →
        (¬∃ channels, Color.Rgb.IsCall literal channels) → options.nameToHex = true →
        options.hexToShortName = false →
          Color.Hex.isCode result = true ∧ ∀ c ∈ result, c.isUpper = false) := by
  obtain ⟨after, hp, -⟩ := perform_normalize serves options literal
  refine ⟨_, after, hp, fun hc => ⟨?_, fun on r g b => ?_⟩, fun name apart on off => ?_⟩
  · exact Color.Hex.not_isUpper_of_mem_lowercase hc
  · exact Color.normalize_ne_doubled on hc r g b
  · have hr : Color.Rgb.read? literal = none := by
      cases h : Color.Rgb.read? literal with
      | none => rfl
      | some color => exact absurd (Color.Rgb.exists_isCall h) apart
    have needs : options.needsTables = true := by rw [Color.ColorOptions.needsTables, on]; rfl
    rw [if_pos needs]
    obtain ⟨_, load⟩ := serves.load
    have hc : Color.Hex.isCode (Color.normalize options (some tables) literal) = true := by
      rw [Color.normalize, Color.Hex.isCode_lowercase]
      exact Color.isCode_run_of_name load name hr on off
    exact ⟨hc, Color.Hex.not_isUpper_of_mem_lowercase hc⟩

/-- A name that stands for a code of mixed case, and a short name that is a code itself. -/
theorem normalize_codes_canonical_mixed :
    let tables : Color.Tables :=
      ⟨[("ink".toList, "#aBAbcC".toList)], [("#ababcc".toList, "#DDeeFF".toList)]⟩
    let session : Session :=
      ⟨.orderly ⟨.listed [("Ink".toList, "#aBAbcC".toList)],
        .listed [("#ABABCC".toList, "#DDeeFF".toList)]⟩ fun _ => "", #[]⟩
    let plain : Color.ColorOptions := ⟨true, true, false, true⟩
    session.holder.Serves tables ∧
      (session.perform (normalize .all "INK".toList)).1 = .ok "#def".toList ∧
      (session.perform (normalize plain "INK".toList)).1 = .ok "#ababcc".toList ∧
      (∃ result after, session.perform (normalize .all "INK".toList) = (.ok result, after) ∧
        (Color.Hex.isCode result = true →
          (∀ c ∈ result, c.isUpper = false) ∧ ∀ r g b, result ≠ ['#', r, r, g, g, b, b])) ∧
      ∃ result after, session.perform (normalize plain "INK".toList) = (.ok result, after) ∧
        Color.Hex.isCode result = true ∧ ∀ c ∈ result, c.isUpper = false := by
  intro tables session plain
  have loads : session.holder.served = .ok tables := by decide +kernel
  have serves : session.holder.Serves tables := ⟨⟨.ascending, loads⟩, loads⟩
  have apart : ¬∃ channels, Color.Rgb.IsCall "INK".toList channels := by
    rintro ⟨channels, h⟩
    obtain ⟨color, hr, -⟩ := h.read?
    cases hr
  obtain ⟨full, after, hf, hc, -⟩ :=
    normalize_codes_canonical .all "INK".toList session tables serves
  obtain ⟨result, later, hp, -, hn⟩ :=
    normalize_codes_canonical plain "INK".toList session tables serves
  exact ⟨serves, by decide +kernel, by decide +kernel,
    ⟨full, after, hf, fun h => ⟨(hc h).1, (hc h).2 rfl⟩⟩, result, later, hp,
    hn (by decide) apart rfl rfl⟩

end Session

end StyleSheet
