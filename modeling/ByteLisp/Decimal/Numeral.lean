/-
  ByteLisp: numerals.

  Numbers are doubles. They are written positionally with the fewest digits that
  read back, without a point if they are integral; a numeral of a program is a
  row of decimal digits.

  * `Numeral.write` is the text of a double;
  * `Numeral.read` is the double nearest to a row of digits, `Numeral.read?` checks
    that a text is one.
-/
import ByteLisp.Decimal.Shortest

namespace ByteLisp

namespace Decimal

/-- A decimal without exponent: zeros are added on either side as needed, and
    the point is left out if nothing follows it. -/
def Dec.positional (d : Dec) : String :=
  let digits := Nat.toDigits 10 d.digits
  if 0 ≤ d.exponent then String.ofList (digits ++ List.replicate d.exponent.toNat '0')
  else
    let places := (-d.exponent).toNat
    let padded := List.replicate (places + 1 - digits.length) '0' ++ digits
    let whole := padded.length - places
    String.ofList (padded.take whole ++ '.' :: padded.drop whole)

end Decimal

namespace Numeral

/-- The text of a number: the shortest decimal that reads back, without
    exponent; zero keeps its sign. -/
def write (x : Float) : String :=
  let bits := x.toBits
  let sign := if bits >>> 63 = 1 then "-" else ""
  if Decimal.exponentField bits = 0x7FF then
    if Decimal.fractionField bits = 0 then sign ++ "inf" else "NaN"
  else
    let magnitude := Decimal.Binary.ofBits bits
    if magnitude.mantissa = 0 then sign ++ "0" else sign ++ magnitude.shortest.positional

/-- The value of a row of decimal digits. -/
def value (digits : List Char) : Nat :=
  digits.foldl (fun n c => 10 * n + (c.toNat - '0'.toNat)) 0

/-- The double nearest to a row of decimal digits. -/
def read (digits : List Char) : Float :=
  Float.ofScientific (value digits) false 0

/-- The double that a text stands for, if it is a row of decimal digits. -/
def read? (text : List Char) : Option Float :=
  if text ≠ [] ∧ text.all Char.isDigit then some (read text) else none

end Numeral

end ByteLisp
