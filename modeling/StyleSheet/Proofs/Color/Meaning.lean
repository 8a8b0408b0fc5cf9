import Mathlib
import StyleSheet.Proofs.Keys
import StyleSheet.Session

namespace StyleSheet

namespace Color

namespace Hex

/-- The number that a hexadecimal digit of either case stands for. -/
def digitValue (c : Char) : Nat :=
  if c.toLower.isDigit then c.toLower.toNat - '0'.toNat else c.toLower.toNat - 'a'.toNat + 10

def level (high low : Char) : UInt8 :=
  UInt8.ofNat (16 * digitValue high + digitValue low)

/-- The colour of a code; a digit that is alone in its channel counts twice. -/
def color? (t : Text) : Option Rgb :=
  match digits? t with
  | some [r, g, b] => some ⟨level r r, level g g, level b b⟩
  | some [r₁, r₂, g₁, g₂, b₁, b₂] => some ⟨level r₁ r₂, level g₁ g₂, level b₁ b₂⟩
  | _ => none

theorem level_toLower (high low : Char) : level high.toLower low.toLower = level high low := by
  simp only [level, digitValue, Char.toLower_toLower_eq_toLower]

theorem toNat_lt_of_isDigit {c : Char} (h : isDigit c = true) : c.toNat < 128 := by
  simp only [isDigit, Char.isDigit, Bool.or_eq_true, Bool.and_eq_true, decide_eq_true_eq,
    Char.le_def, UInt32.le_iff_toNat_le, ge_iff_le] at h
  change c.val.toNat < 128
  rcases h with (⟨-, h⟩ | ⟨-, h⟩) | ⟨-, h⟩ <;> exact Nat.lt_of_le_of_lt h (by decide)

theorem isDigit_toLower_eq (c : Char) : isDigit c.toLower = isDigit c := by
  by_cases small : c.toNat < 128
  · have ascii : ∀ n < 128, isDigit (Char.ofNat n).toLower = isDigit (Char.ofNat n) := by
      decide
    have same := ascii c.toNat small
    rw [Char.ofNat_toNat] at same
    exact same
  · have high : ¬('A'.val ≤ c.val ∧ c.val ≤ 'Z'.val) := by
      intro h
      have hu := UInt32.le_iff_toNat_le.mp h.2
      exact small (Nat.lt_of_le_of_lt hu (by decide))
    have same : c.toLower = c := dif_neg high
    rw [same]

theorem digits?_eq_some_iff {t digits : Text} :
    digits? t = some digits ↔ t = '#' :: digits ∧ digits.all isDigit = true := by
  unfold digits?
  split
  next rest =>
    split
    next h => simp_all
    next h =>
      constructor
      · intro he
        cases he
      · rintro ⟨he, hd⟩
        cases he
        exact absurd hd h
  next hn =>
    constructor
    · intro he
      cases he
    · rintro ⟨rfl, -⟩
      exact absurd rfl (hn digits)

theorem digits?_lower {t digits : Text} (h : digits? t = some digits) :
    digits? (Text.lower t) = some (Text.lower digits) := by
  obtain ⟨rfl, hd⟩ := digits?_eq_some_iff.mp h
  refine digits?_eq_some_iff.mpr ⟨rfl, ?_⟩
  rw [Text.lower, List.all_map]
  apply List.all_eq_true.mpr
  intro c hc
  exact (isDigit_toLower_eq c).trans (List.all_eq_true.mp hd c hc)

theorem isCode_cases {t : Text} (h : isCode t = true) :
    (∃ r g b, digits? t = some [r, g, b]) ∨
      ∃ r₁ r₂ g₁ g₂ b₁ b₂, digits? t = some [r₁, r₂, g₁, g₂, b₁, b₂] := by
  unfold isCode at h
  cases hd : digits? t with
  | none => simp [hd] at h
  | some digits =>
    rw [hd] at h
    have hl : digits.length = 3 ∨ digits.length = 6 := by simpa using h
    rcases hl with hl | hl
    · obtain ⟨r, g, b, rfl⟩ := List.length_eq_three.mp hl
      exact .inl ⟨r, g, b, rfl⟩
    · match digits, hl with
      | [r₁, r₂, g₁, g₂, b₁, b₂], _ => exact .inr ⟨r₁, r₂, g₁, g₂, b₁, b₂, rfl⟩

theorem color?_of_three {t : Text} {r g b : Char} (h : digits? t = some [r, g, b]) :
    color? t = some ⟨level r r, level g g, level b b⟩ := by
  rw [color?, h]

theorem color?_of_six {t : Text} {r₁ r₂ g₁ g₂ b₁ b₂ : Char}
    (h : digits? t = some [r₁, r₂, g₁, g₂, b₁, b₂]) :
    color? t = some ⟨level r₁ r₂, level g₁ g₂, level b₁ b₂⟩ := by
  rw [color?, h]

theorem isSome_color? {t : Text} (h : isCode t = true) : (color? t).isSome = true := by
  rcases isCode_cases h with ⟨r, g, b, hd⟩ | ⟨r₁, r₂, g₁, g₂, b₁, b₂, hd⟩
  · rw [color?_of_three hd]
    rfl
  · rw [color?_of_six hd]
    rfl

theorem isCode_lower {t : Text} (h : isCode t = true) : isCode (Text.lower t) = true := by
  rcases isCode_cases h with ⟨r, g, b, hd⟩ | ⟨r₁, r₂, g₁, g₂, b₁, b₂, hd⟩
  · rw [isCode, digits?_lower hd]
    rfl
  · rw [isCode, digits?_lower hd]
    rfl

theorem color?_lower {t : Text} (h : isCode t = true) : color? (Text.lower t) = color? t := by
  rcases isCode_cases h with ⟨r, g, b, hd⟩ | ⟨r₁, r₂, g₁, g₂, b₁, b₂, hd⟩
  · rw [color?_of_three hd, color?_of_three (digits?_lower hd), level_toLower, level_toLower,
      level_toLower]
  · rw [color?_of_six hd, color?_of_six (digits?_lower hd), level_toLower, level_toLower,
      level_toLower]

theorem level_of_isDoubled {a b : Char} (h : isDoubled a b = true) : level a a = level a b := by
  rw [isDoubled, beq_iff_eq] at h
  simp only [level, digitValue, h]

theorem color?_shorten? {t short : Text} (h : shorten? t = some short) :
    isCode t = true ∧ isCode short = true ∧ color? short = color? t := by
  unfold shorten? at h
  split at h
  next r₁ r₂ g₁ g₂ b₁ b₂ =>
    split at h
    next hc =>
      simp only [Bool.and_eq_true] at hc
      obtain ⟨⟨⟨hf, hr⟩, hg⟩, hb⟩ := hc
      cases h
      have hcode := isCode_of_isFull hf
      have hd : digits? ['#', r₁, r₂, g₁, g₂, b₁, b₂] = some [r₁, r₂, g₁, g₂, b₁, b₂] := by
        rcases isCode_cases hcode with ⟨r, g, b, hd⟩ | ⟨_, _, _, _, _, _, hd⟩
        · have he := (digits?_eq_some_iff.mp hd).1
          cases he
        · have he := (digits?_eq_some_iff.mp hd).1
          cases he
          exact hd
      have hs : digits? ['#', r₁, g₁, b₁] = some [r₁, g₁, b₁] := by
        have ha := (digits?_eq_some_iff.mp hd).2
        refine digits?_eq_some_iff.mpr ⟨rfl, ?_⟩
        simp_all
      refine ⟨hcode, ?_, ?_⟩
      · rw [isCode, hs]
        rfl
      · rw [color?_of_three hs, color?_of_six hd, level_of_isDoubled hr, level_of_isDoubled hg,
          level_of_isDoubled hb]
    next => cases h
  next => cases h

theorem digitValue_hexDigit {n : Nat} (h : n < 16) : digitValue (Rgb.hexDigit n) = n := by
  have all : ∀ n < 16, digitValue (Rgb.hexDigit n) = n := by decide
  exact all n h

theorem isDigit_hexDigit {n : Nat} (h : n < 16) : isDigit (Rgb.hexDigit n) = true := by
  have all : ∀ n < 16, isDigit (Rgb.hexDigit n) = true := by decide
  exact all n h

theorem level_hexDigit (n : UInt8) :
    level (Rgb.hexDigit (n.toNat / 16)) (Rgb.hexDigit (n.toNat % 16)) = n := by
  have bound := n.toNat_lt
  rw [level, digitValue_hexDigit (by omega), digitValue_hexDigit (by omega), Nat.div_add_mod,
    UInt8.ofNat_toNat]

theorem digits?_toHex (color : Rgb) :
    digits? color.toHex =
      some (Rgb.hexPair color.red ++ Rgb.hexPair color.green ++ Rgb.hexPair color.blue) := by
  have pair (n : UInt8) : (Rgb.hexPair n).all isDigit = true := by
    have bound := n.toNat_lt
    rw [Rgb.hexPair, List.all_cons, List.all_cons, isDigit_hexDigit (by omega),
      isDigit_hexDigit (by omega)]
    rfl
  refine digits?_eq_some_iff.mpr ⟨rfl, ?_⟩
  rw [List.all_append, List.all_append, pair, pair, pair]
  rfl

theorem isCode_toHex (color : Rgb) : isCode color.toHex = true := by
  rw [isCode, digits?_toHex]
  rfl

theorem color?_toHex (color : Rgb) : color? color.toHex = some color := by
  rw [color?_of_six (digits?_toHex color), level_hexDigit, level_hexDigit, level_hexDigit]

end Hex

/-- The colour of a name: that of the code it stands for, or of the code it is short for. -/
def Tables.named? (tables : Tables) (name : Text) : Option Rgb :=
  ((tables.names.get? (Text.lower name)).bind Hex.color?).or
    ((tables.shortNames.find? fun entry => Text.lower entry.2 == Text.lower name).bind
      fun entry => Hex.color? entry.1)

/-- The colour that a literal stands for: a call of `rgb`, a code or a name. -/
def Tables.color? (tables : Tables) (literal : Text) : Option Rgb :=
  (Rgb.read? literal).or ((Hex.color? literal).or (tables.named? literal))

/-- Text that starts neither like a call of `rgb` nor like a code. -/
def isPlain (t : Text) : Bool :=
  Text.lower (t.take 4) != "rgb(".toList && t.head? != some '#'

/-- Names look like nothing but names, and a short name has the colour it is short for. -/
structure Tables.Consistent (tables : Tables) : Prop where
  name_plain : ∀ entry ∈ tables.names, isPlain entry.1 = true
  name_code : ∀ entry ∈ tables.names, Hex.isCode entry.2 = true
  short_plain : ∀ entry ∈ tables.shortNames, isPlain entry.2 = true
  short_color : ∀ entry ∈ tables.shortNames, tables.named? entry.2 = Hex.color? entry.1

theorem Rgb.read?_eq_none {t : Text} (h : Text.lower (t.take 4) ≠ "rgb(".toList) :
    Rgb.read? t = none := by
  have ha : Rgb.arguments? t = none := if_neg fun he => h he.1
  rw [Rgb.read?, ha]
  rfl

theorem Hex.color?_eq_none {t : Text} (h : t.head? ≠ some '#') : Hex.color? t = none := by
  have hd : Hex.digits? t = none := by
    cases hd : Hex.digits? t with
    | none => rfl
    | some digits =>
      obtain ⟨rfl, -⟩ := Hex.digits?_eq_some_iff.mp hd
      exact absurd rfl h
  rw [Hex.color?, hd]

theorem isPlain_iff {t : Text} :
    isPlain t = true ↔ Text.lower (t.take 4) ≠ "rgb(".toList ∧ t.head? ≠ some '#' := by
  rw [isPlain, Bool.and_eq_true, bne_iff_ne, bne_iff_ne]

theorem isPlain_of_lower {t : Text} (h : isPlain (Text.lower t) = true) : isPlain t = true := by
  obtain ⟨hr, hh⟩ := isPlain_iff.mp h
  refine isPlain_iff.mpr ⟨?_, ?_⟩
  · intro he
    apply hr
    rw [← he]
    simp only [Text.lower, ← List.map_take, List.map_map]
    congr 1
    funext c
    exact Char.toLower_toLower_eq_toLower c
  · intro he
    apply hh
    rw [Text.lower, List.head?_map, he]
    rfl

namespace Tables

variable {tables : Tables} {literal next : Text}

theorem color?_of_isPlain (h : isPlain literal = true) :
    tables.color? literal = tables.named? literal := by
  obtain ⟨hr, hh⟩ := isPlain_iff.mp h
  rw [color?, Rgb.read?_eq_none hr, Hex.color?_eq_none hh]
  rfl

theorem color?_of_isCode (h : Hex.isCode literal = true) :
    tables.color? literal = Hex.color? literal := by
  have hr : Rgb.read? literal = none := by
    apply Rgb.read?_eq_none
    rcases Hex.isCode_cases h with ⟨r, g, b, hd⟩ | ⟨r₁, r₂, g₁, g₂, b₁, b₂, hd⟩
    · rw [(Hex.digits?_eq_some_iff.mp hd).1]
      intro he
      cases (List.cons.inj he).1
    · rw [(Hex.digits?_eq_some_iff.mp hd).1]
      intro he
      cases (List.cons.inj he).1
  obtain ⟨color, hc⟩ := Option.isSome_iff_exists.mp (Hex.isSome_color? h)
  rw [color?, hr, hc]
  rfl

theorem isSome_color?_of_isCode (h : Hex.isCode literal = true) :
    (tables.color? literal).isSome = true := by
  rw [color?_of_isCode h]
  exact Hex.isSome_color? h

theorem color?_rgbToHex? (h : rgbToHex? literal = some next) :
    (tables.color? literal).isSome = true ∧ tables.color? next = tables.color? literal := by
  obtain ⟨color, hr, rfl⟩ := Option.map_eq_some_iff.mp h
  have hl : tables.color? literal = some color := by
    rw [color?, hr]
    rfl
  rw [hl, color?_of_isCode (Hex.isCode_toHex color), Hex.color?_toHex]
  exact ⟨rfl, rfl⟩

theorem Consistent.color?_nameToHex? (hc : tables.Consistent)
    (h : tables.nameToHex? literal = some next) :
    (tables.color? literal).isSome = true ∧ tables.color? next = tables.color? literal := by
  have hm := Table.mem_of_get? h
  have hcode := hc.name_code _ hm
  obtain ⟨color, hcolor⟩ := Option.isSome_iff_exists.mp (Hex.isSome_color? hcode)
  have hl : tables.color? literal = some color := by
    rw [color?_of_isPlain (isPlain_of_lower (hc.name_plain _ hm)), named?]
    rw [nameToHex?] at h
    rw [h, Option.bind_some, hcolor]
    rfl
  rw [hl, color?_of_isCode hcode, hcolor]
  exact ⟨rfl, rfl⟩

theorem Consistent.color?_hexToShortName? (hc : tables.Consistent)
    (h : tables.hexToShortName? literal = some next) :
    (tables.color? literal).isSome = true ∧ tables.color? next = tables.color? literal := by
  rw [hexToShortName?] at h
  split at h
  next hf =>
    have hcode := Hex.isCode_of_isFull hf
    have hm := Table.mem_of_get? h
    refine ⟨isSome_color?_of_isCode hcode, ?_⟩
    rw [color?_of_isPlain (hc.short_plain _ hm), hc.short_color _ hm, color?_of_isCode hcode]
    exact Hex.color?_lower hcode
  next => cases h

theorem color?_shorten? (h : Hex.shorten? literal = some next) :
    (tables.color? literal).isSome = true ∧ tables.color? next = tables.color? literal := by
  obtain ⟨hcode, hnext, hcolor⟩ := Hex.color?_shorten? h
  refine ⟨isSome_color?_of_isCode hcode, ?_⟩
  rw [color?_of_isCode hcode, color?_of_isCode hnext, hcolor]

/-- A stage that rewrites a literal finds a colour in it and keeps that colour. -/
theorem Consistent.color?_apply (hc : tables.Consistent) {used : Option Tables}
    (hu : ∀ t ∈ used, t = tables) {stage : Stage} (h : stage.apply used literal = some next) :
    (tables.color? literal).isSome = true ∧ tables.color? next = tables.color? literal := by
  cases stage with
  | rgbToHex => exact color?_rgbToHex? h
  | nameToHex =>
    obtain ⟨t, ht, h⟩ := Option.bind_eq_some_iff.mp h
    cases hu t ht
    exact hc.color?_nameToHex? h
  | hexToShortName =>
    obtain ⟨t, ht, h⟩ := Option.bind_eq_some_iff.mp h
    cases hu t ht
    exact hc.color?_hexToShortName? h
  | hexToShortHex => exact color?_shorten? h

theorem Consistent.color?_run (hc : tables.Consistent) {used : Option Tables}
    (hu : ∀ t ∈ used, t = tables) (stages : List Stage) (literal : Text) :
    tables.color? (run used stages literal) = tables.color? literal ∧
      (tables.color? literal = none → run used stages literal = literal) := by
  induction stages generalizing literal with
  | nil => exact ⟨rfl, fun _ => rfl⟩
  | cons stage rest ih =>
    have unfold_run : run used (stage :: rest) literal =
        run used rest ((stage.apply used literal).getD literal) := rfl
    rw [unfold_run]
    cases h : stage.apply used literal with
    | none => exact ih literal
    | some next =>
      obtain ⟨hs, he⟩ := hc.color?_apply hu h
      refine ⟨(ih next).1.trans he, fun hn => ?_⟩
      rw [hn] at hs
      cases hs

theorem Consistent.color?_normalize (hc : tables.Consistent) {used : Option Tables}
    (hu : ∀ t ∈ used, t = tables) (options : ColorOptions) (literal : Text) :
    tables.color? (normalize options used literal) = tables.color? literal ∧
      (tables.color? literal = none → normalize options used literal = literal) := by
  obtain ⟨hr, hn⟩ := hc.color?_run hu options.stages literal
  rw [normalize, Hex.lowercase]
  split
  next hcode =>
    constructor
    · rw [← hr, color?_of_isCode hcode, color?_of_isCode (Hex.isCode_lower hcode)]
      exact Hex.color?_lower hcode
    · intro hnone
      have hs : (tables.color? (run used options.stages literal)).isSome = true :=
        isSome_color?_of_isCode hcode
      rw [hr, hnone] at hs
      cases hs
  next => exact ⟨hr, hn⟩

end Tables

end Color

end StyleSheet
