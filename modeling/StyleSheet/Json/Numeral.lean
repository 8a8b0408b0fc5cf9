import StyleSheet.Json.Precision

namespace StyleSheet.Json

inductive Numeral.Phase where
  | minus
  | zero
  | whole
  | point
  | fraction
  | mark
  | markSign
  | exponent
  deriving DecidableEq, Repr

/--
A number as far as it is read. The significand holds the digits that fit in a 64-bit word, and
`scale` is the power of ten that puts its point back; `full` once a digit did not fit.
-/
structure Numeral where
  phase : Numeral.Phase
  significand : Nat := 0
  scale : Int := 0
  full : Bool := false
  shrinking : Bool := false
  exponent : Nat := 0
  deriving DecidableEq, Repr

namespace Numeral

inductive Step where
  | more (n : Numeral)
  | stop
  | bad
  deriving DecidableEq, Repr

def digit (c : Char) : Nat :=
  c.toNat - '0'.toNat

def start? (c : Char) : Option Numeral :=
  if c = '-' then some { phase := .minus }
  else if c = '0' then some { phase := .zero }
  else if c.isDigit then some { phase := .whole, significand := digit c }
  else none

def isComplete (n : Numeral) : Bool :=
  match n.phase with
  | .zero | .whole | .fraction | .exponent => true
  | .minus | .point | .mark | .markSign => false

/--
A point or an exponent mark behind the whole part or the fraction. Behind the point the significand
takes digits again, whether or not one before it was dropped.
-/
def continueWith (n : Numeral) (c : Char) : Step :=
  if c = '.' ∧ n.phase ≠ .fraction then .more { n with phase := .point, full := false }
  else if c = 'e' ∨ c = 'E' then .more { n with phase := .mark }
  else .stop

/-- Whether the significand takes one more digit. -/
def hasRoom (n : Numeral) (c : Char) : Bool :=
  !n.full && 10 * n.significand + digit c < UInt64.size

/-- Takes a digit of the whole part; those without room only scale the number up. -/
def pushWhole (n : Numeral) (c : Char) : Numeral :=
  if n.hasRoom c then { n with significand := 10 * n.significand + digit c }
  else { n with scale := n.scale + 1, full := true }

/-- Takes a digit of the fraction; those without room are dropped. -/
def pushPlace (n : Numeral) (c : Char) : Numeral :=
  if n.hasRoom c then
    { n with
      phase := .fraction
      significand := 10 * n.significand + digit c
      scale := n.scale - 1 }
  else { n with phase := .fraction, full := true }

def pushExponent (n : Numeral) (c : Char) : Numeral :=
  { n with phase := .exponent, exponent := 10 * n.exponent + digit c }

/-- Takes the next character; a leading zero stands alone before the point. -/
def step (n : Numeral) (c : Char) : Step :=
  match n.phase with
  | .minus =>
    match start? c with
    | some m => if c = '-' then .bad else .more m
    | none => .bad
  | .zero => if c.isDigit then .bad else n.continueWith c
  | .whole => if c.isDigit then .more (n.pushWhole c) else n.continueWith c
  | .point => if c.isDigit then .more (n.pushPlace c) else .bad
  | .fraction => if c.isDigit then .more (n.pushPlace c) else n.continueWith c
  | .mark =>
    if c = '+' ∨ c = '-' then .more { n with phase := .markSign, shrinking := c = '-' }
    else if c.isDigit then .more (n.pushExponent c)
    else .bad
  | .markSign => if c.isDigit then .more (n.pushExponent c) else .bad
  | .exponent => if c.isDigit then .more (n.pushExponent c) else .stop

/-- The power of ten by which the significand is multiplied. -/
def power (n : Numeral) : Int :=
  if n.shrinking then n.scale - n.exponent else n.scale + n.exponent

/-- The largest power of ten that double precision holds. -/
def topPower : Nat := 308

/--
Whether a number is too large for double precision. The significand and the power of ten are each
rounded before they are multiplied, so this can differ from the exact value near the limit.
-/
def isHuge (n : Numeral) : Bool :=
  match n.power with
  | .negSucc _ => false
  | .ofNat k =>
    if n.significand = 0 then false
    else if topPower < k then true
    else Precision.double.overflows n.significand (Nat.pow 10 k)

end Numeral

end StyleSheet.Json
