/-
  ByteLisp: coloured text.

  * `Style` is a row of codes of a terminal, `Style.paint` puts a text between
    the codes and a reset; a reset within the text is followed by the codes
    again, so that the style goes on.
-/
namespace ByteLisp

/-- Codes of a terminal. -/
structure Style where
  codes : List Nat
deriving Repr, DecidableEq

namespace Style

/-- Bold. -/
def bold : Style := ⟨[1]⟩

/-- Bold in a colour. -/
def boldIn (colour : Nat) : Style := ⟨[1, colour]⟩

/-- Red. -/
def red : Nat := 31

/-- Yellow. -/
def yellow : Nat := 33

/-- Bright blue. -/
def brightBlue : Nat := 94

/-- What turns a style on. -/
def opening (s : Style) : String :=
  "\x1b[" ++ ";".intercalate (s.codes.map toString) ++ "m"

/-- What turns all styles off. -/
def reset : String := "\x1b[0m"

/-- The text, with the style turned on again after each reset. -/
def renew (opening : List Char) : List Char → List Char
  | '\x1b' :: '[' :: '0' :: 'm' :: rest => reset.toList ++ opening ++ renew opening rest
  | c :: rest => c :: renew opening rest
  | [] => []

/-- A text in a style, if colours are on. -/
def paint (colours : Bool) (s : Style) (text : String) : String :=
  if colours then
    s.opening ++ String.ofList (renew s.opening.toList text.toList) ++ reset
  else text

end Style

end ByteLisp
