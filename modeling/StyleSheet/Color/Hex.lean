import StyleSheet.Text

namespace StyleSheet.Color.Hex

def isDigit (c : Char) : Bool :=
  c.isDigit || ('a' ≤ c && c ≤ 'f') || ('A' ≤ c && c ≤ 'F')

/-- The digits behind a number sign, if there is nothing else. -/
def digits? : Text → Option Text
  | '#' :: digits => if digits.all isDigit then some digits else none
  | _ => none

/-- A code with two digits per channel. -/
def isFull (t : Text) : Bool :=
  (digits? t).any fun digits => digits.length == 6

/-- A code with one or two digits per channel. -/
def isCode (t : Text) : Bool :=
  (digits? t).any fun digits => digits.length == 3 || digits.length == 6

/-- Codes are written in lower case; other text stays as it is. -/
def lowercase (t : Text) : Text :=
  if isCode t then Text.lower t else t

/-- Two digits that differ at most in case. -/
def isDoubled (a b : Char) : Bool :=
  a.toLower == b.toLower

/-- A full code whose three pairs are doubled digits, written with the first digit of each. -/
def shorten? (t : Text) : Option Text :=
  match t with
  | ['#', r₁, r₂, g₁, g₂, b₁, b₂] =>
    if isFull t && isDoubled r₁ r₂ && isDoubled g₁ g₂ && isDoubled b₁ b₂ then
      some ['#', r₁, g₁, b₁]
    else none
  | _ => none

theorem isCode_of_isFull {t : Text} (h : isFull t = true) : isCode t = true := by
  unfold isFull at h
  unfold isCode
  cases hd : digits? t with
  | none => simp [hd] at h
  | some digits => simp_all

end StyleSheet.Color.Hex
