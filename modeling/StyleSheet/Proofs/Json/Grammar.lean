import StyleSheet.Json.Quoted
import StyleSheet.Json.Numeral

namespace StyleSheet.Json

def Spaces (t : Text) : Prop :=
  ∀ c ∈ t, isSpace c = true

def hexValue? (digits : Text) : Option Nat :=
  digits.foldlM (fun n c => (Quoted.digit? c).map fun d => 16 * n + d) 0

/-- Four hexadecimal digits and the number they write. -/
def IsUnit (digits : Text) (value : Nat) : Prop :=
  digits.length = 4 ∧ hexValue? digits = some value

def escapes : List (Char × Char) :=
  [('"', '"'), ('\\', '\\'), ('/', '/'), ('b', '\x08'), ('f', '\x0c'), ('n', '\n'), ('r', '\r'),
    ('t', '\t')]

/-- A character that may stand for itself between quotes. -/
def IsPlain (c : Char) : Prop :=
  0x20 ≤ c.toNat ∧ c ≠ '"' ∧ c ≠ '\\'

/-- The ways to write a character between quotes. -/
inductive Spelled : Text → Char → Prop where
  | plain {c : Char} : IsPlain c → Spelled [c] c
  | escape {c d : Char} : (c, d) ∈ escapes → Spelled ['\\', c] d
  | unit {digits : Text} {value : Nat} : IsUnit digits value →
      Quoted.isHighSurrogate value = false → Quoted.isLowSurrogate value = false →
      Spelled ('\\' :: 'u' :: digits) (Char.ofNat value)
  | pair {first second : Text} {high low : Nat} : IsUnit first high → IsUnit second low →
      Quoted.isHighSurrogate high = true → Quoted.isLowSurrogate low = true →
      Spelled ('\\' :: 'u' :: (first ++ '\\' :: 'u' :: second))
        (Char.ofNat (Quoted.combine high low))

/-- The ways to write a text between quotes. -/
inductive Spells : Text → Text → Prop where
  | nil : Spells [] []
  | cons {chunk source text : Text} {c : Char} : Spelled chunk c → Spells source text →
      Spells (chunk ++ source) (c :: text)

/-- What may stand between quotes, also where it writes no text: halves of pairs stand alone. -/
inductive IsQuotable : Text → Prop where
  | nil : IsQuotable []
  | plain {c : Char} {source : Text} : IsPlain c → IsQuotable source → IsQuotable (c :: source)
  | escape {c d : Char} {source : Text} : (c, d) ∈ escapes → IsQuotable source →
      IsQuotable ('\\' :: c :: source)
  | unit {digits source : Text} {value : Nat} : IsUnit digits value → IsQuotable source →
      IsQuotable ('\\' :: 'u' :: (digits ++ source))

def IsString (t text : Text) : Prop :=
  ∃ source, Spells source text ∧ t = '"' :: (source ++ ['"'])

def IsDigits (t : Text) : Prop :=
  t ≠ [] ∧ ∀ c ∈ t, c.isDigit = true

inductive IsWhole : Text → Prop where
  | zero : IsWhole ['0']
  | digits {t : Text} : IsDigits t → t.head? ≠ some '0' → IsWhole t

inductive IsFraction : Text → Prop where
  | none : IsFraction []
  | digits {t : Text} : IsDigits t → IsFraction ('.' :: t)

inductive IsExponent : Text → Prop where
  | none : IsExponent []
  | digits {mark : Char} {sign t : Text} : mark = 'e' ∨ mark = 'E' →
      sign = [] ∨ sign = ['+'] ∨ sign = ['-'] → IsDigits t → IsExponent (mark :: (sign ++ t))

inductive IsNumber : Text → Prop where
  | mk {sign whole fraction exponent : Text} : sign = [] ∨ sign = ['-'] → IsWhole whole →
      IsFraction fraction → IsExponent exponent → IsNumber (sign ++ whole ++ fraction ++ exponent)

def boolText (b : Bool) : Text :=
  (if b then "true" else "false").toList

def bool? (t : Text) : Option Bool :=
  if t = boolText true then some true else if t = boolText false then some false else none

theorem bool?_eq_some_iff {t : Text} {b : Bool} : bool? t = some b ↔ t = boolText b := by
  unfold bool?
  split
  next ht =>
    rw [ht]
    cases b <;> decide
  next hf =>
    split
    next ht =>
      rw [ht]
      cases b <;> decide
    next => cases b <;> simp_all

theorem bool?_boolText (b : Bool) : bool? (boolText b) = some b :=
  bool?_eq_some_iff.mpr rfl

theorem bool?_cons {c : Char} {t : Text} (ht : c ≠ 't') (hf : c ≠ 'f') : bool? (c :: t) = none := by
  rw [Option.eq_none_iff_forall_ne_some]
  intro b hb
  have hc := bool?_eq_some_iff.mp hb
  cases b with
  | false => exact hf (List.cons.inj hc).1
  | true => exact ht (List.cons.inj hc).1

section

variable {κ α : Type}

inductive Spaced (item : Text → α → Prop) : Text → α → Prop where
  | mk {before core behind : Text} {a : α} : Spaces before → item core a → Spaces behind →
      Spaced item (before ++ core ++ behind) a

inductive IsMember (name : Text → κ → Prop) (value : Text → α → Prop) : Text → κ × α → Prop where
  | mk {before source gap body : Text} {key : κ} {a : α} : Spaces before → name source key →
      Spaces gap → Spaced value body a →
      IsMember name value (before ++ '"' :: (source ++ '"' :: (gap ++ ':' :: body))) (key, a)

inductive Items (item : Text → α → Prop) : Text → List α → Prop where
  | single {t : Text} {a : α} : item t a → Items item t [a]
  | cons {t rest : Text} {a : α} {items : List α} : item t a → Items item rest items →
      Items item (t ++ ',' :: rest) (a :: items)

/-- Items between brackets; where there are none, only space is. -/
inductive Bracketed (opening closing : Char) (item : Text → α → Prop) : Text → List α → Prop where
  | empty {t : Text} : Spaces t → Bracketed opening closing item (opening :: (t ++ [closing])) []
  | items {t : Text} {items : List α} : Items item t items →
      Bracketed opening closing item (opening :: (t ++ [closing])) items

def IsArray (value : Text → α → Prop) : Text → List α → Prop :=
  Bracketed '[' ']' (Spaced value)

def IsObject (name : Text → κ → Prop) (value : Text → α → Prop) : Text → List (κ × α) → Prop :=
  Bracketed '{' '}' (IsMember name value)

end

def IsArrayText {α : Type} (value : Text → α → Prop) : Text → List α → Prop :=
  Spaced (IsArray value)

def IsObjectText {α : Type} (value : Text → α → Prop) : Text → List (Text × α) → Prop :=
  Spaced (IsObject Spells value)

def Verbatim (kind : Text → Prop) (t source : Text) : Prop :=
  kind t ∧ t = source

inductive IsScalar : Text → Prop where
  | null : IsScalar "null".toList
  | bool (b : Bool) : IsScalar (boolText b)
  | number {t : Text} : IsNumber t → IsScalar t
  | text {source : Text} : IsQuotable source → IsScalar ('"' :: (source ++ ['"']))

/-- Values with brackets nested no deeper than this. -/
def IsNested : Nat → Text → Prop
  | 0, t => IsScalar t
  | depth + 1, t => IsNested depth t ∨
      (∃ elements, IsArray (Verbatim (IsNested depth)) t elements) ∨
      ∃ members, IsObject (Verbatim IsQuotable) (Verbatim (IsNested depth)) t members

def IsValue (t : Text) : Prop :=
  ∃ depth, IsNested depth t

theorem exists_spelled (c : Char) : ∃ chunk, Spelled chunk c := by
  by_cases hlow : c.toNat < 0x20
  · have units : ∀ n < 0x20, hexValue? ['0', '0', (n / 16).digitChar, (n % 16).digitChar] = some n ∧
        Quoted.isHighSurrogate n = false ∧ Quoted.isLowSurrogate n = false := by
      decide
    obtain ⟨hv, hhigh, hsecond⟩ := units c.toNat hlow
    have spelled := Spelled.unit ⟨rfl, hv⟩ hhigh hsecond
    rw [Char.ofNat_toNat] at spelled
    exact ⟨_, spelled⟩
  · by_cases hquote : c = '"'
    · exact ⟨['\\', '"'], .escape (by rw [hquote]; decide)⟩
    · by_cases hslash : c = '\\'
      · exact ⟨['\\', '\\'], .escape (by rw [hslash]; decide)⟩
      · exact ⟨[c], .plain ⟨Nat.not_lt.mp hlow, hquote, hslash⟩⟩

theorem exists_spells (text : Text) : ∃ source, Spells source text := by
  induction text with
  | nil => exact ⟨[], .nil⟩
  | cons c text ih =>
    obtain ⟨chunk, hc⟩ := exists_spelled c
    obtain ⟨source, hs⟩ := ih
    exact ⟨chunk ++ source, .cons hc hs⟩

theorem spaces_nil : Spaces [] :=
  fun _ h => absurd h List.not_mem_nil

section

variable {κ α : Type} {value : Text → α → Prop} {members : List (Text × α)}

theorem Spaced.bare {t : Text} {a : α} (h : value t a) : Spaced value t a := by
  simpa using Spaced.mk spaces_nil h spaces_nil

theorem IsMember.bare {name : Text → κ → Prop} {source t : Text} {key : κ} {a : α}
    (hn : name source key) (hv : value t a) :
    IsMember name value ('"' :: (source ++ '"' :: ':' :: t)) (key, a) :=
  .mk spaces_nil hn spaces_nil (.bare hv)

theorem exists_isMember {m : Text × α} (h : ∃ t, value t m.2) :
    ∃ t, IsMember Spells value t m := by
  obtain ⟨t, ht⟩ := h
  obtain ⟨source, hs⟩ := exists_spells m.1
  exact ⟨_, .bare hs ht⟩

theorem exists_items {item : Text → α → Prop} {a : α} {items : List α}
    (h : ∀ b ∈ a :: items, ∃ t, item t b) : ∃ t, Items item t (a :: items) := by
  induction items generalizing a with
  | nil =>
    obtain ⟨t, ht⟩ := h a List.mem_cons_self
    exact ⟨t, .single ht⟩
  | cons b items ih =>
    obtain ⟨t, ht⟩ := h a List.mem_cons_self
    obtain ⟨rest, hrest⟩ := ih fun c hc => h c (List.mem_cons_of_mem a hc)
    exact ⟨t ++ ',' :: rest, .cons ht hrest⟩

theorem exists_isArrayText {elements : List α} (h : ∀ a ∈ elements, ∃ t, value t a) :
    ∃ text, IsArrayText value text elements := by
  cases elements with
  | nil => exact ⟨_, .bare (.empty spaces_nil)⟩
  | cons a elements =>
    have spaced (b : α) (hb : b ∈ a :: elements) : ∃ t, Spaced value t b := by
      obtain ⟨t, ht⟩ := h b hb
      exact ⟨t, .bare ht⟩
    obtain ⟨t, ht⟩ := exists_items spaced
    exact ⟨_, .bare (.items ht)⟩

/-- Every list of members is written by some text. -/
theorem exists_isObjectText (h : ∀ m ∈ members, ∃ t, value t m.2) :
    ∃ text, IsObjectText value text members := by
  cases members with
  | nil => exact ⟨_, .bare (.empty spaces_nil)⟩
  | cons m members =>
    obtain ⟨t, ht⟩ := exists_items fun n hn => exists_isMember (h n hn)
    exact ⟨_, .bare (.items ht)⟩

end

end StyleSheet.Json
