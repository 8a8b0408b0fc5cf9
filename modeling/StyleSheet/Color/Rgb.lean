import StyleSheet.Text

namespace StyleSheet.Color

/-- A channel as it is written: one to three digits, perhaps negative, perhaps a percentage. -/
structure Channel where
  negative : Bool
  amount : Nat
  percent : Bool
  deriving DecidableEq, Repr

namespace Channel

def ofDigits (digits : Text) : Nat :=
  digits.foldl (fun n c => 10 * n + (c.toNat - '0'.toNat)) 0

def sign : Text → Bool × Text
  | '-' :: rest => (true, rest)
  | t => (false, t)

def unit (t : Text) : Bool × Text :=
  if t.getLast? = some '%' then (true, t.dropLast) else (false, t)

/-- Reads a channel; a sign or digit too many makes it none. -/
def read? (t : Text) : Option Channel :=
  let (negative, t) := sign t
  let (percent, digits) := unit t
  if digits.all Char.isDigit && 1 ≤ digits.length && digits.length ≤ 3 then
    some ⟨negative, ofDigits digits, percent⟩
  else none

/-- What is written, as a number of 255ths; a percentage is rounded down. -/
def scaled (channel : Channel) : Int :=
  let amount : Int := if channel.negative then -channel.amount else channel.amount
  if channel.percent then (255 * amount).fdiv 100 else amount

/-- The intensity of a channel, cut off at both ends of the scale. -/
def level (channel : Channel) : UInt8 :=
  UInt8.ofNat (min channel.scaled.toNat 255)

end Channel

structure Rgb where
  red : UInt8
  green : UInt8
  blue : UInt8
  deriving DecidableEq, Repr

namespace Rgb

/-- The arguments of the `rgb` function, whatever the case of its name. -/
def arguments? (t : Text) : Option (List Text) :=
  if Text.lower (t.take 4) = "rgb(".toList ∧ t.getLast? = some ')' then
    some ((t.drop 4).dropLast.splitOn ',')
  else none

/-- Three levels make a colour, a single one makes a grey. -/
def ofLevels? : List UInt8 → Option Rgb
  | [grey] => some ⟨grey, grey, grey⟩
  | [red, green, blue] => some ⟨red, green, blue⟩
  | _ => none

/-- Reads a call of the `rgb` function with one or three channels. -/
def read? (t : Text) : Option Rgb := do
  let channels ← (← arguments? t).mapM Channel.read?
  ofLevels? (channels.map Channel.level)

/-- The upper-case hexadecimal digit of a number below sixteen. -/
def hexDigit (n : Nat) : Char :=
  n.digitChar.toUpper

def hexPair (level : UInt8) : Text :=
  [hexDigit (level.toNat / 16), hexDigit (level.toNat % 16)]

def toHex (color : Rgb) : Text :=
  '#' :: (hexPair color.red ++ hexPair color.green ++ hexPair color.blue)

end Rgb

end StyleSheet.Color
