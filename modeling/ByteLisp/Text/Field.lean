/-
  ByteLisp: fields of a fixed width.

  * `padRight` fills a text with spaces on the right up to a width;
  * `hex` writes a number in upper-case hexadecimal with at least a given
    number of digits.
-/
namespace ByteLisp.Text

/-- `text` followed by spaces up to `width` characters. -/
def padRight (width : Nat) (text : String) : String :=
  text ++ String.ofList (List.replicate (width - text.length) ' ')

/-- `n` in upper-case hexadecimal, with zeros on the left up to `width` digits. -/
def hex (width n : Nat) : String :=
  let digits := (Nat.toDigits 16 n).map Char.toUpper
  String.ofList (List.replicate (width - digits.length) '0' ++ digits)

end ByteLisp.Text
