/-
  ByteLisp: white space.

  * `isBlank` is the Unicode property `White_Space`, 25 characters;
  * `trimEnd` drops the blanks at the end of a text; what remains does not end
    in a blank (`trimEnd_getLast`).
-/
namespace ByteLisp.Text

/-- The ranges of the Unicode property `White_Space`. -/
def blankRanges : List (Nat × Nat) :=
  [(0x09, 0x0D), (0x20, 0x20), (0x85, 0x85), (0xA0, 0xA0), (0x1680, 0x1680), (0x2000, 0x200A),
    (0x2028, 0x2029), (0x202F, 0x202F), (0x205F, 0x205F), (0x3000, 0x3000)]

/-- Whether a character has the Unicode property `White_Space`. -/
def isBlank (c : Char) : Bool :=
  blankRanges.any fun r => decide (r.1 ≤ c.toNat) && decide (c.toNat ≤ r.2)

/-- A text without the blanks at its end. -/
def trimEnd (cs : List Char) : List Char :=
  (cs.reverse.dropWhile isBlank).reverse

/-- The line `text` without the blanks at its end. -/
def trimEndString (text : String) : String :=
  String.ofList (trimEnd text.toList)

theorem trimEnd_getLast (cs : List Char) (c : Char) (h : (trimEnd cs).getLast? = some c) :
    isBlank c = false := by
  simp only [trimEnd, List.getLast?_reverse] at h
  generalize cs.reverse = rs at h
  induction rs with
  | nil => simp at h
  | cons r rs ih =>
    cases hr : isBlank r with
    | true => rw [List.dropWhile_cons_of_pos hr] at h; exact ih h
    | false =>
      rw [List.dropWhile_cons_of_neg (by simp [hr])] at h
      simp only [List.head?_cons, Option.some.injEq] at h
      exact h ▸ hr

end ByteLisp.Text
