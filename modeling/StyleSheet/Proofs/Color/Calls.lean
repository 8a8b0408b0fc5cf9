import StyleSheet.Proofs.Color.NormalForm

namespace StyleSheet

namespace Text

theorem lower_of_not_isAlpha {t : Text} (h : ∀ c ∈ t, c.isAlpha = false) : lower t = t := by
  have keep : ∀ c ∈ t, c.toLower = id c := by
    intro c hc
    exact (toLower_eq_iff (h c hc)).mpr rfl
  rw [lower, List.map_congr_left keep, List.map_id]

end Text

namespace Color

namespace Channel

/-- How a channel is written: a minus sign or none, one to three digits, a percent sign or none. -/
structure Spelling where
  negative : Bool
  digits : Text
  percent : Bool
  decimal : ∀ c ∈ digits, c.isDigit = true
  short : 1 ≤ digits.length ∧ digits.length ≤ 3

namespace Spelling

def text (spelling : Spelling) : Text :=
  (if spelling.negative then ['-'] else []) ++
    (spelling.digits ++ if spelling.percent then ['%'] else [])

def number (spelling : Spelling) : Int :=
  let amount : Nat := Nat.ofDigits 10 (spelling.digits.reverse.map fun c => c.toNat - '0'.toNat)
  if spelling.negative then -amount else amount

/-- The intensity: the number itself or so many hundredths of 255, rounded down and kept in range. -/
def value (spelling : Spelling) : Int :=
  max 0 (min 255 (if spelling.percent then ⌊(255 * spelling.number : ℚ) / 100⌋ else spelling.number))

def channel (spelling : Spelling) : Channel :=
  ⟨spelling.negative, ofDigits spelling.digits, spelling.percent⟩

end Spelling

theorem ofDigits_eq (digits : Text) :
    ofDigits digits = Nat.ofDigits 10 (digits.reverse.map fun c => c.toNat - '0'.toNat) := by
  induction digits using List.reverseRecOn with
  | nil => rfl
  | append_singleton front c ih =>
    have hf : ofDigits (front ++ [c]) = 10 * ofDigits front + (c.toNat - '0'.toNat) := by
      rw [ofDigits, List.foldl_append]
      rfl
    rw [hf, ih, List.reverse_append, List.map_append, List.reverse_singleton, List.map_singleton,
      List.singleton_append, Nat.ofDigits_cons]
    exact Nat.add_comm _ _

theorem sign_eq (t : Text) : (if (sign t).1 then ['-'] else []) ++ (sign t).2 = t := by
  unfold sign
  split <;> rfl

theorem unit_eq (t : Text) : (unit t).2 ++ (if (unit t).1 then ['%'] else []) = t := by
  unfold unit
  split
  next h => exact List.dropLast_append_getLast? _ h
  next => exact List.append_nil t

theorem sign_append (negative : Bool) {t : Text} (h : t.head? ≠ some '-') :
    sign ((if negative then ['-'] else []) ++ t) = (negative, t) := by
  cases negative with
  | true => rfl
  | false =>
    change sign t = (false, t)
    unfold sign
    split
    next => exact absurd rfl h
    next => rfl

theorem unit_append (percent : Bool) {t : Text} (h : t.getLast? ≠ some '%') :
    unit (t ++ if percent then ['%'] else []) = (percent, t) := by
  cases percent with
  | true => simp [unit]
  | false => simp [unit, h]

theorem read?_text (spelling : Spelling) : read? spelling.text = some spelling.channel := by
  obtain ⟨negative, digits, percent, decimal, short⟩ := spelling
  have hn : digits ≠ [] := List.ne_nil_of_length_pos short.1
  have hl : digits.getLast? ≠ some '%' := by
    intro he
    cases decimal '%' (List.mem_of_getLast? he)
  have hh : (digits ++ if percent then ['%'] else []).head? ≠ some '-' := by
    rw [List.head?_append_of_ne_nil _ hn]
    intro he
    cases decimal '-' (List.mem_of_mem_head? he)
  have hd : (digits.all Char.isDigit && (1 ≤ digits.length && digits.length ≤ 3)) = true := by
    simp [List.all_eq_true.mpr decimal, short.1, short.2]
  rw [read?, Spelling.text]
  simp only [sign_append negative hh, unit_append percent hl]
  rw [if_pos (by simpa [Bool.and_assoc] using hd)]
  rfl

theorem exists_spelling {t : Text} {channel : Channel} (h : read? t = some channel) :
    ∃ spelling : Spelling, spelling.text = t ∧ spelling.channel = channel := by
  rw [read?] at h
  simp only at h
  split at h
  next hd =>
    simp only [Bool.and_eq_true, decide_eq_true_eq] at hd
    obtain ⟨⟨decimal, least⟩, most⟩ := hd
    refine ⟨⟨(sign t).1, (unit (sign t).2).2, (unit (sign t).2).1, List.all_eq_true.mp decimal,
      least, most⟩, ?_, Option.some.inj h⟩
    rw [Spelling.text, unit_eq, sign_eq]
  next => cases h

theorem fdiv_eq_floor (n : Int) : n.fdiv 100 = ⌊(n : ℚ) / 100⌋ := by
  rw [Int.fdiv_eq_ediv_of_nonneg n (by decide)]
  exact (Rat.floor_intCast_div_natCast n 100).symm

theorem scaled_channel (spelling : Spelling) :
    spelling.channel.scaled =
      if spelling.percent then ⌊(255 * spelling.number : ℚ) / 100⌋ else spelling.number := by
  have hn : (if spelling.channel.negative then -(spelling.channel.amount : Int)
      else spelling.channel.amount) = spelling.number := by
    rw [Spelling.number, Spelling.channel]
    simp only [ofDigits_eq]
  have hp : spelling.channel.percent = spelling.percent := rfl
  rw [scaled, hn, hp, fdiv_eq_floor, Int.cast_mul, Int.cast_ofNat]

theorem level_channel (spelling : Spelling) :
    (spelling.channel.level.toNat : Int) = spelling.value := by
  rw [level, scaled_channel, Spelling.value, UInt8.toNat_ofNat']
  omega

end Channel

namespace Rgb

/-- A call of the `rgb` function, whatever the case of its name, with one or three channels. -/
structure IsCall (literal : Text) (channels : List Channel.Spelling) : Prop where
  count : channels.length = 1 ∨ channels.length = 3
  text : Text.lower literal =
    "rgb(".toList ++ ([','].intercalate (channels.map Channel.Spelling.text) ++ [')'])

def digits : Text := "0123456789ABCDEF".toList

/-- The numbers that pairs of digits stand for. -/
def pairs : Text → List Int
  | high :: low :: rest => (16 * digits.idxOf high + digits.idxOf low : Nat) :: pairs rest
  | _ => []

/-- A code of six digits, two for each of these values. -/
def Encodes (code : Text) (values : List Int) : Prop :=
  ∃ written, code = '#' :: written ∧ written.length = 6 ∧ (∀ c ∈ written, c ∈ digits) ∧
    pairs written = values

/-- The values of the three channels; one that is given alone counts for all of them. -/
def spread : List Int → List Int
  | [grey] => [grey, grey, grey]
  | values => values

theorem read?_lower {t : Text} (h : ((Text.lower t).drop 4).any Char.isAlpha = false) :
    read? (Text.lower t) = read? t := by
  have hd : (Text.lower t).drop 4 = t.drop 4 := by
    rw [Text.lower, ← List.map_drop] at h ⊢
    have keep : ∀ c ∈ t.drop 4, c.toLower = id c := by
      intro c hc
      have hn := List.any_eq_false.mp h _ (List.mem_map_of_mem hc)
      exact ((Text.toLower_eq_iff (Bool.eq_false_iff.mpr hn)).mp rfl).symm
    rw [List.map_congr_left keep, List.map_id]
  have ht : Text.lower ((Text.lower t).take 4) = Text.lower (t.take 4) := by
    rw [Text.lower, Text.lower, ← List.map_take]
    exact lower_lower (t.take 4)
  have hl : (Text.lower t).getLast? = some ')' ↔ t.getLast? = some ')' := by
    have hc (c : Char) : c.toLower = ')' ↔ c = ')' := Text.toLower_eq_iff rfl
    rw [Text.lower, List.getLast?_map, Option.map_eq_some_iff]
    simp only [hc, exists_eq_right]
  simp only [read?, arguments?, hd, ht, hl]

theorem arguments?_eq_some {t : Text} {arguments : List Text} (h : arguments? t = some arguments) :
    ∃ name between, t = name ++ (between ++ [')']) ∧ Text.lower name = "rgb(".toList ∧
      arguments = between.splitOn ',' := by
  rw [arguments?] at h
  split at h
  next hc =>
    obtain ⟨hn, hl⟩ := hc
    cases h
    rw [← List.take_append_drop 4 t, List.getLast?_append] at hl
    rcases List.eq_nil_or_concat (t.drop 4) with hd | ⟨between, c, hd⟩
    · rw [hd] at hl
      have hlast : (Text.lower (t.take 4)).getLast? = some ')' := by
        rw [Text.lower, List.getLast?_map]
        exact congrArg (Option.map Char.toLower) hl
      rw [hn] at hlast
      cases hlast
    · rw [List.concat_eq_append] at hd
      rw [hd, List.getLast?_concat] at hl
      cases hl
      refine ⟨t.take 4, between, ?_, hn, ?_⟩
      · rw [← hd, List.take_append_drop]
      · rw [hd, List.dropLast_concat]
  next => cases h

theorem mem_of_isDigit {c : Char} (h : c.isDigit = true) :
    c ∈ ['0', '1', '2', '3', '4', '5', '6', '7', '8', '9'] := by
  have small : c.toNat < 128 := Hex.toNat_lt_of_isDigit (by simp [Hex.isDigit, h])
  have ascii : ∀ n < 128, (Char.ofNat n).isDigit = true →
      Char.ofNat n ∈ ['0', '1', '2', '3', '4', '5', '6', '7', '8', '9'] := by
    decide
  rw [← Char.ofNat_toNat c] at h ⊢
  exact ascii c.toNat small h

def marks : Text := ['-', '%', '0', '1', '2', '3', '4', '5', '6', '7', '8', '9']

theorem mem_marks_of_mem_text {spelling : Channel.Spelling} {c : Char} (h : c ∈ spelling.text) :
    c ∈ marks := by
  rcases List.mem_append.mp h with h | h
  · split at h
    · rw [List.mem_singleton.mp h]
      decide
    · cases h
  · rcases List.mem_append.mp h with h | h
    · have hd := mem_of_isDigit (spelling.decimal c h)
      exact List.mem_cons_of_mem _ (List.mem_cons_of_mem _ hd)
    · split at h
      · rw [List.mem_singleton.mp h]
        decide
      · cases h

theorem mem_marks_of_mem_intercalate {channels : List Channel.Spelling} :
    ∀ c ∈ [','].intercalate (channels.map Channel.Spelling.text), c ∈ ',' :: marks := by
  induction channels with
  | nil =>
    intro c hc
    cases hc
  | cons first rest ih =>
    intro c hc
    cases rest with
    | nil =>
      rw [List.map_singleton, List.intercalate_singleton] at hc
      exact List.mem_cons_of_mem _ (mem_marks_of_mem_text hc)
    | cons second rest =>
      rw [List.map_cons, List.map_cons, List.intercalate_cons_cons] at hc
      rcases List.mem_append.mp hc with hc | hc
      · rcases List.mem_append.mp hc with hc | hc
        · exact List.mem_cons_of_mem _ (mem_marks_of_mem_text hc)
        · rw [List.mem_singleton.mp hc]
          exact List.mem_cons_self
      · exact ih c hc

theorem not_isAlpha_of_mem_intercalate (channels : List Channel.Spelling) :
    ∀ c ∈ [','].intercalate (channels.map Channel.Spelling.text), c.isAlpha = false := by
  have plain : (',' :: marks).all (fun c => !c.isAlpha) = true := by decide
  intro c hc
  simpa using List.all_eq_true.mp plain c (mem_marks_of_mem_intercalate c hc)

theorem mapM_text (channels : List Channel.Spelling) :
    (channels.map Channel.Spelling.text).mapM Channel.read? =
      some (channels.map Channel.Spelling.channel) := by
  have hr : Channel.read? ∘ Channel.Spelling.text = fun spelling => pure spelling.channel :=
    funext Channel.read?_text
  rw [List.mapM_map, hr, List.mapM_pure]
  rfl

theorem exists_spellings {texts : List Text} {channels : List Channel}
    (h : texts.mapM Channel.read? = some channels) :
    ∃ spellings : List Channel.Spelling, spellings.map Channel.Spelling.text = texts ∧
      spellings.map Channel.Spelling.channel = channels := by
  induction texts generalizing channels with
  | nil =>
    cases h
    exact ⟨[], rfl, rfl⟩
  | cons t rest ih =>
    rw [List.mapM_cons] at h
    obtain ⟨channel, hc, h⟩ := Option.bind_eq_some_iff.mp h
    obtain ⟨others, ho, h⟩ := Option.bind_eq_some_iff.mp h
    obtain ⟨spelling, ht, he⟩ := Channel.exists_spelling hc
    obtain ⟨spellings, hts, hes⟩ := ih ho
    cases h
    exact ⟨spelling :: spellings, by rw [List.map_cons, ht, hts], by rw [List.map_cons, he, hes]⟩

theorem encodes_toHex (color : Rgb) :
    Encodes color.toHex [color.red.toNat, color.green.toNat, color.blue.toNat] := by
  have digit : ∀ n < 16, hexDigit n ∈ digits ∧ digits.idxOf (hexDigit n) = n := by decide
  have high (level : UInt8) := digit (level.toNat / 16) (by have := level.toNat_lt; omega)
  have low (level : UInt8) := digit (level.toNat % 16) (by omega)
  have pair (level : UInt8) : 16 * digits.idxOf (hexDigit (level.toNat / 16)) +
      digits.idxOf (hexDigit (level.toNat % 16)) = level.toNat := by
    rw [(high level).2, (low level).2]
    omega
  refine ⟨_, rfl, rfl, ?_, ?_⟩
  · simp [hexPair, high, low]
  · simp only [hexPair, List.cons_append, List.nil_append, pairs, pair]

theorem ofLevels?_eq {channels : List Channel.Spelling}
    (h : channels.length = 1 ∨ channels.length = 3) :
    ∃ color, ofLevels? ((channels.map Channel.Spelling.channel).map Channel.level) = some color ∧
      [(color.red.toNat : Int), color.green.toNat, color.blue.toNat] =
        spread (channels.map Channel.Spelling.value) := by
  rcases h with h | h
  · obtain ⟨grey, rfl⟩ := List.length_eq_one_iff.mp h
    exact ⟨_, rfl, by simp [spread, Channel.level_channel]⟩
  · obtain ⟨red, green, blue, rfl⟩ := List.length_eq_three.mp h
    exact ⟨_, rfl, by simp [spread, Channel.level_channel]⟩

theorem count_of_ofLevels? {levels : List UInt8} {color : Rgb} (h : ofLevels? levels = some color) :
    levels.length = 1 ∨ levels.length = 3 := by
  unfold ofLevels? at h
  split at h
  · exact .inl rfl
  · exact .inr rfl
  · cases h

/-- The text of a call holds nothing but the name, its parentheses and the channels. -/
theorem exists_isCall {literal : Text} {color : Rgb} (h : read? literal = some color) :
    ∃ channels, IsCall literal channels := by
  obtain ⟨arguments, ha, h⟩ := Option.bind_eq_some_iff.mp h
  obtain ⟨read, hm, hc⟩ := Option.bind_eq_some_iff.mp h
  obtain ⟨name, between, rfl, hn, rfl⟩ := arguments?_eq_some ha
  obtain ⟨channels, ht, rfl⟩ := exists_spellings hm
  have hb : between = [','].intercalate (channels.map Channel.Spelling.text) := by
    rw [ht, List.intercalate_splitOn]
  refine ⟨channels, ?_, ?_⟩
  · simpa using count_of_ofLevels? hc
  · have hl := Text.lower_of_not_isAlpha (not_isAlpha_of_mem_intercalate channels)
    rw [← hb] at hl ⊢
    rw [← hn]
    simp only [Text.lower, List.map_append] at hl ⊢
    rw [hl]
    rfl

theorem arguments?_call {texts : List Text} (h : ∀ t ∈ texts, ',' ∉ t) (hn : texts ≠ []) :
    arguments? ("rgb(".toList ++ ([','].intercalate texts ++ [')'])) = some texts := by
  have hl : ("rgb(".toList ++ ([','].intercalate texts ++ [')'])).getLast? = some ')' := by
    rw [← List.append_assoc, List.getLast?_concat]
  have ht : ("rgb(".toList ++ ([','].intercalate texts ++ [')'])).take 4 = "rgb(".toList := rfl
  have hd : (("rgb(".toList ++ ([','].intercalate texts ++ [')'])).drop 4).dropLast =
      [','].intercalate texts := List.dropLast_concat
  rw [arguments?, ht, hd, List.splitOn_intercalate ',' h hn, if_pos ⟨by decide, hl⟩]

theorem IsCall.read? {literal : Text} {channels : List Channel.Spelling}
    (h : IsCall literal channels) :
    ∃ color, Rgb.read? literal = some color ∧
      [(color.red.toNat : Int), color.green.toNat, color.blue.toNat] =
        spread (channels.map Channel.Spelling.value) := by
  have hn : channels.map Channel.Spelling.text ≠ [] := by
    intro he
    rw [List.map_eq_nil_iff.mp he] at h
    rcases h.count with h | h <;> cases h
  have hc : ∀ t ∈ channels.map Channel.Spelling.text, ',' ∉ t := by
    intro t ht hm
    obtain ⟨spelling, -, rfl⟩ := List.mem_map.mp ht
    exact absurd (mem_marks_of_mem_text hm) (by decide)
  have hl : ((Text.lower literal).drop 4).any Char.isAlpha = false := by
    have hd : ("rgb(".toList ++
        ([','].intercalate (channels.map Channel.Spelling.text) ++ [')'])).drop 4 =
          [','].intercalate (channels.map Channel.Spelling.text) ++ [')'] := rfl
    rw [h.text, hd]
    apply List.any_eq_false.mpr
    intro c hc
    rcases List.mem_append.mp hc with hc | hc
    · rw [not_isAlpha_of_mem_intercalate _ c hc]
      exact Bool.false_ne_true
    · rw [List.mem_singleton.mp hc]
      decide
  obtain ⟨color, ho, he⟩ := ofLevels?_eq h.count
  refine ⟨color, ?_, he⟩
  rw [← read?_lower hl, h.text, Rgb.read?, arguments?_call hc hn]
  change (((channels.map Channel.Spelling.text).mapM Channel.read?).bind fun channels =>
    ofLevels? (channels.map Channel.level)) = some color
  rw [mapM_text]
  exact ho

end Rgb

/--
A literal is rewritten just when it is a call of the `rgb` function, whatever the case of its name,
with one or three channels; its code then stands for the values of these channels.
-/
theorem rgb_calls_encode_channels (literal : Text) :
    ((∃ code, rgbToHex? literal = some code) ↔ ∃ channels, Rgb.IsCall literal channels) ∧
      ∀ channels, Rgb.IsCall literal channels →
        ∃ code, rgbToHex? literal = some code ∧
          Rgb.Encodes code (Rgb.spread (channels.map Channel.Spelling.value)) := by
  have encoded : ∀ channels, Rgb.IsCall literal channels →
      ∃ code, rgbToHex? literal = some code ∧
        Rgb.Encodes code (Rgb.spread (channels.map Channel.Spelling.value)) := by
    intro channels h
    obtain ⟨color, hr, he⟩ := h.read?
    refine ⟨color.toHex, by rw [rgbToHex?, hr, Option.map_some], ?_⟩
    rw [← he]
    exact Rgb.encodes_toHex color
  refine ⟨⟨?_, ?_⟩, encoded⟩
  · rintro ⟨code, h⟩
    obtain ⟨color, hr, -⟩ := Option.map_eq_some_iff.mp h
    exact Rgb.exists_isCall hr
  · rintro ⟨channels, h⟩
    obtain ⟨code, hc, -⟩ := encoded channels h
    exact ⟨code, hc⟩

example : rgbToHex? "RGB(-5%,050,17%)".toList = some "#00322B".toList := by
  decide +kernel

end Color

end StyleSheet
