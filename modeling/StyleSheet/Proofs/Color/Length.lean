import StyleSheet.Proofs.Color.Calls
import StyleSheet.Proofs.Latch
import StyleSheet.Proofs.Size

namespace StyleSheet

open Text (bytes)

namespace Text

variable {t : Text}

theorem bytes_toList (s : String) : bytes s.toList = s.utf8ByteSize := by
  rw [bytes, String.ofList_toList]

theorem length_le_bytes (t : Text) : t.length ≤ bytes t := by
  induction t with
  | nil => exact Nat.le_refl 0
  | cons c cs ih =>
    have hc := c.utf8Size_pos
    rw [bytes_cons, List.length_cons]
    omega

theorem bytes_eq_length (h : ∀ c ∈ t, c.toNat ≤ 127) : bytes t = t.length := by
  induction t with
  | nil => rfl
  | cons c cs ih =>
    obtain ⟨hc, hs⟩ := List.forall_mem_cons.mp h
    rw [bytes_cons, utf8Size_eq_one hc, ih hs, List.length_cons, Nat.add_comm]

end Text

namespace Color

variable {literal code next : Text}

theorem Hex.bytes_of_digits? {t digits : Text} (h : digits? t = some digits) :
    bytes t = digits.length + 1 := by
  obtain ⟨rfl, ha⟩ := digits?_eq_some_iff.mp h
  have hd : bytes digits = digits.length :=
    Text.bytes_eq_length fun c hc =>
      Nat.le_of_lt_succ (toNat_lt_of_isDigit (List.all_eq_true.mp ha c hc))
  rw [Text.bytes_cons, hd, Nat.add_comm]
  rfl

theorem Hex.bytes_of_isFull {t : Text} (h : isFull t = true) : bytes t = 7 := by
  obtain ⟨digits, hd, hl⟩ := isFull_iff.mp h
  rw [bytes_of_digits? hd, hl]

theorem Hex.bytes_le_of_isCode {t : Text} (h : isCode t = true) : bytes t ≤ 7 := by
  obtain ⟨digits, hd, hl⟩ := isCode_iff.mp h
  rw [bytes_of_digits? hd]
  omega

theorem Hex.bytes_toHex (color : Rgb) : bytes color.toHex = 7 :=
  bytes_of_digits? (digits?_toHex color)

/-- The stages that start from a code. -/
def Stage.shortening : List Stage :=
  [.hexToShortName, .hexToShortHex]

namespace Palette

theorem bytes_shortName_le : ∀ pair ∈ shortNames, pair.2.utf8ByteSize ≤ 7 := by
  decide +kernel

/-- The code of a name of less than seven letters gets as short as the name. -/
theorem bytes_run_name_le : ∀ pair ∈ names, 7 ≤ pair.1.utf8ByteSize ∨
    bytes (run (some Tables.bundled) Stage.shortening pair.2.toList) ≤ pair.1.utf8ByteSize := by
  decide +kernel

end Palette

theorem Tables.bundled_names : bundled.names = Palette.table Palette.names := by
  simp only [bundled]

theorem Tables.bundled_shortNames : bundled.shortNames = Palette.table Palette.shortNames := by
  simp only [bundled]

theorem Tables.bytes_hexToShortName?_le
    (h : Tables.bundled.hexToShortName? literal = some next) : bytes next ≤ bytes literal := by
  rw [hexToShortName?, bundled_shortNames] at h
  split at h
  next hf =>
    obtain ⟨pair, hp, he⟩ := Palette.mem_table (Table.mem_of_get? h)
    rw [(Prod.mk.inj he).2, Hex.bytes_of_isFull hf, Text.bytes_toList]
    exact Palette.bytes_shortName_le pair hp
  next => cases h

theorem bytes_run_shortening_le (literal : Text) :
    bytes (run (some Tables.bundled) Stage.shortening literal) ≤ bytes literal := by
  apply bytes_run_le
  intro stage hm literal next ha
  rcases List.mem_pair.mp hm with rfl | rfl
  · exact Tables.bytes_hexToShortName?_le ha
  · exact Text.bytes_le_of_sublist (Hex.sublist_of_shorten? ha)

theorem run_all_of_rgb {color : Rgb} (h : Rgb.read? literal = some color) :
    run (some Tables.bundled) Stage.all literal =
      run (some Tables.bundled) Stage.shortening color.toHex := by
  have hr : rgbToHex? literal = some color.toHex := by rw [rgbToHex?, h, Option.map_some]
  have hn : Tables.bundled.nameToHex? color.toHex = none :=
    Tables.nameToHex?_of_isCode Tables.consistent_bundled (Hex.isCode_toHex color)
  rw [Stage.all, run_cons, run_cons, Stage.apply, hr, Option.getD_some, Stage.apply,
    Option.bind_some, hn, Option.getD_none]
  rfl

theorem run_all_of_not_rgb (h : Rgb.read? literal = none) :
    run (some Tables.bundled) Stage.all literal =
      run (some Tables.bundled) Stage.shortening
        ((Tables.bundled.nameToHex? literal).getD literal) := by
  have hr : rgbToHex? literal = none := by rw [rgbToHex?, h, Option.map_none]
  rw [Stage.all, run_cons, run_cons, Stage.apply, hr, Option.getD_none, Stage.apply,
    Option.bind_some]
  rfl

theorem bytes_run_all_of_not_rgb (h : Rgb.read? literal = none) :
    bytes (run (some Tables.bundled) Stage.all literal) ≤ bytes literal := by
  rw [run_all_of_not_rgb h]
  cases hn : Tables.bundled.nameToHex? literal with
  | none => exact bytes_run_shortening_le literal
  | some code =>
    rw [Tables.nameToHex?, Tables.bundled_names] at hn
    obtain ⟨pair, hp, he⟩ := Palette.mem_table (Table.mem_of_get? hn)
    obtain ⟨hl, hc⟩ := Prod.mk.inj he
    rw [Option.getD_some, hc, ← Text.bytes_lower literal, hl, Text.bytes_lower, Text.bytes_toList]
    rcases Palette.bytes_run_name_le pair hp with h | h
    · have hf := Hex.bytes_le_of_isCode (Palette.sound.name_code pair hp)
      exact Nat.le_trans (bytes_run_shortening_le _) (Nat.le_trans hf h)
    · exact h

namespace Rgb

/-- The greys other than black that a call of `rgb` gives by a single digit. -/
def faintGreys : List Text :=
  ["rgb(1)", "rgb(2)", "rgb(3)", "rgb(4)", "rgb(5)", "rgb(6)", "rgb(7)", "rgb(8)",
    "rgb(9)"].map String.toList

theorem isDigit_of_read? {c : Char} {channel : Channel} (h : Channel.read? [c] = some channel) :
    c.isDigit = true := by
  by_cases hm : c = '-'
  · subst hm
    cases h
  by_cases hp : c = '%'
  · subst hp
    cases h
  have hs : Channel.sign [c] = (false, [c]) := by
    unfold Channel.sign
    split
    next he => exact absurd (List.cons.inj he).1 hm
    next => rfl
  have hu : Channel.unit [c] = (false, [c]) := by
    rw [Channel.unit, if_neg]
    intro he
    exact hp (Option.some.inj he)
  rw [Channel.read?, hs] at h
  simp only [hu] at h
  split at h
  next hd => simpa using hd
  next => cases h

/-- Six bytes hold the name, its parentheses and a single digit. -/
theorem lower_mem_of_bytes_le {t : Text} {color : Rgb} (h : read? t = some color)
    (hb : bytes t ≤ 6) : Text.lower t ∈ "rgb(0)".toList :: faintGreys := by
  obtain ⟨args, ha, h⟩ := Option.bind_eq_some_iff.mp h
  obtain ⟨channels, hm, -⟩ := Option.bind_eq_some_iff.mp h
  obtain ⟨name, between, rfl, hn, rfl⟩ := arguments?_eq_some ha
  have hl : name.length = 4 := by rw [← Text.length_lower, hn]; rfl
  have hlen := Nat.le_trans (Text.length_le_bytes _) hb
  rw [List.length_append, List.length_append, hl, List.length_singleton] at hlen
  cases between with
  | nil => cases hm
  | cons c others =>
    cases others with
    | cons d others =>
      rw [List.length_cons, List.length_cons] at hlen
      omega
    | nil =>
      by_cases hc : c = ','
      · subst hc
        cases hm
      · have hs : [c].splitOn ',' = [[c]] := by
          simp [List.splitOn, List.splitOnP_cons_eq_if_modifyHead, hc]
        rw [hs, List.mapM_cons] at hm
        obtain ⟨channel, hr, -⟩ := Option.bind_eq_some_iff.mp hm
        have ht : Text.lower (name ++ ([c] ++ [')'])) =
            "rgb(".toList ++ (Text.lower [c] ++ [')']) := by
          rw [← hn]
          simp [Text.lower]
        rw [ht]
        have hd := mem_of_isDigit (isDigit_of_read? hr)
        simp only [List.mem_cons, List.not_mem_nil, or_false] at hd
        rcases hd with rfl | rfl | rfl | rfl | rfl | rfl | rfl | rfl | rfl | rfl <;> decide

theorem bytes_faintGreys : ∀ t ∈ faintGreys,
    (t.drop 4).any Char.isAlpha = false ∧ bytes t = 6 ∧
      (read? t).any (fun color =>
        bytes (run (some Tables.bundled) Stage.shortening color.toHex) == 7) = true := by
  decide +kernel

theorem bytes_black : (read? "rgb(0)".toList).any (fun color =>
    bytes (run (some Tables.bundled) Stage.shortening color.toHex) == 4) = true := by
  decide +kernel

end Rgb

theorem bytes_run_all_of_read? {t : Text} {n : Nat}
    (h : (Rgb.read? t).any (fun color =>
      bytes (run (some Tables.bundled) Stage.shortening color.toHex) == n) = true)
    (hn : (t.drop 4).any Char.isAlpha = false) (hl : Text.lower literal = t) :
    bytes (run (some Tables.bundled) Stage.all literal) = n := by
  subst hl
  rw [Rgb.read?_lower hn] at h
  obtain ⟨color, hr, hb⟩ := Option.any_eq_true _ _ |>.mp h
  rw [run_all_of_rgb hr]
  exact beq_iff_eq.mp hb

theorem bytes_run_all_of_faint (h : Text.lower literal ∈ Rgb.faintGreys) :
    bytes (run (some Tables.bundled) Stage.all literal) = bytes literal + 1 := by
  obtain ⟨hn, hb, hr⟩ := Rgb.bytes_faintGreys _ h
  rw [bytes_run_all_of_read? hr hn rfl, ← Text.bytes_lower literal, hb]

theorem bytes_run_all_of_not_faint (h : Text.lower literal ∉ Rgb.faintGreys) :
    bytes (run (some Tables.bundled) Stage.all literal) ≤ bytes literal := by
  cases hr : Rgb.read? literal with
  | none => exact bytes_run_all_of_not_rgb hr
  | some color =>
    by_cases hb : bytes literal ≤ 6
    · have hl := (List.mem_cons.mp (Rgb.lower_mem_of_bytes_le hr hb)).resolve_right h
      rw [bytes_run_all_of_read? Rgb.bytes_black rfl hl, ← Text.bytes_lower literal, hl]
      decide
    · have hc := bytes_run_shortening_le color.toHex
      rw [Hex.bytes_toHex] at hc
      rw [run_all_of_rgb hr]
      omega

theorem bytes_normalize_all (literal : Text) :
    bytes (normalize .all (some Tables.bundled) literal) =
      bytes (run (some Tables.bundled) Stage.all literal) :=
  Hex.bytes_lowercase _

theorem bytes_normalize_all_le_iff (literal : Text) :
    bytes (normalize .all (some Tables.bundled) literal) ≤ bytes literal ↔
      Text.lower literal ∉ Rgb.faintGreys := by
  rw [bytes_normalize_all]
  constructor
  · intro hle h
    rw [bytes_run_all_of_faint h] at hle
    omega
  · exact bytes_run_all_of_not_faint

theorem bytes_normalize_all_le (literal : Text) :
    bytes (normalize .all (some Tables.bundled) literal) ≤ bytes literal + 1 := by
  rw [bytes_normalize_all]
  by_cases h : Text.lower literal ∈ Rgb.faintGreys
  · exact Nat.le_of_eq (bytes_run_all_of_faint h)
  · exact Nat.le_succ_of_le (bytes_run_all_of_not_faint h)

end Color

namespace Session

theorem fst_perform_normalize_all {session : Session}
    (bundled : session.holder.served = .ok Color.Tables.bundled) (literal : Text) :
    (session.perform (normalize .all literal)).1 =
      .ok (Color.normalize .all (some Color.Tables.bundled) literal) := by
  rw [(computes_normalize .all literal).fst_perform, bundled]
  rfl

/-- With the bundled tables and every stage on, no literal gets longer but a faint grey, which gets
longer by one byte. -/
theorem bytes_normalize_le_iff (literal : Text) (session : Session)
    (bundled : session.holder.served = .ok Color.Tables.bundled) :
    ∃ result, (session.perform (normalize .all literal)).1 = .ok result ∧
      (bytes result ≤ bytes literal ↔ Text.lower literal ∉ Color.Rgb.faintGreys) ∧
      bytes result ≤ bytes literal + 1 :=
  ⟨_, fst_perform_normalize_all bundled literal, Color.bytes_normalize_all_le_iff literal,
    Color.bytes_normalize_all_le literal⟩

theorem bytes_normalize_le_of_two_digits :
    let session : Session := ⟨.orderly .bundled fun _ => "", #[]⟩
    session.holder.served = .ok Color.Tables.bundled ∧
      ∃ result, (session.perform (normalize .all "RGB(10)".toList)).1 = .ok result ∧
        (bytes result ≤ bytes "RGB(10)".toList ↔
          Text.lower "RGB(10)".toList ∉ Color.Rgb.faintGreys) ∧
        bytes result ≤ bytes "RGB(10)".toList + 1 :=
  ⟨Color.Source.load_bundled _ _,
    bytes_normalize_le_iff "RGB(10)".toList ⟨.orderly .bundled fun _ => "", #[]⟩
      (Color.Source.load_bundled _ _)⟩

/-- The darkest grey but black takes six bytes as a call of `rgb` and seven as a code. -/
theorem normalize_lengthens_faint_grey :
    let session : Session := ⟨.orderly .bundled fun _ => "", #[]⟩
    (session.perform (normalize .all "rgb(1)".toList)).1 = .ok "#010101".toList ∧
      bytes "rgb(1)".toList = 6 ∧ bytes "#010101".toList = 7 := by
  intro session
  refine ⟨?_, by decide +kernel, by decide +kernel⟩
  have hr : Color.Rgb.read? "rgb(1)".toList = some ⟨1, 1, 1⟩ := by decide +kernel
  have hn : Color.normalize .all (some Color.Tables.bundled) "rgb(1)".toList =
      Color.Hex.lowercase (Color.run (some Color.Tables.bundled) Color.Stage.shortening
        (Color.Rgb.toHex ⟨1, 1, 1⟩)) :=
    congrArg Color.Hex.lowercase (Color.run_all_of_rgb hr)
  have hs : session.holder.served = .ok Color.Tables.bundled := Color.Source.load_bundled _ _
  rw [fst_perform_normalize_all hs, hn]
  apply congrArg Except.ok
  decide +kernel

end Session

end StyleSheet
