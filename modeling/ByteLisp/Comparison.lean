/-
  ByteLisp: comparisons.

  * `Comparison` is one of the six comparisons, with its symbol and its code;
  * `Comparison.numbers` compares doubles (a NaN is unequal to everything and in
    no order), `Comparison.strings` texts by code points, which is the order of
    their UTF-8 bytes, `Comparison.booleans` truth values, false first.
-/
namespace ByteLisp

/-- A comparison of two values. -/
inductive Comparison where
  | lt
  | gt
  | eq
  | ge
  | le
  | ne
deriving Repr, DecidableEq

namespace Comparison

/-- The comparisons in the order of their codes. -/
def all : List Comparison := [lt, gt, eq, ge, le, ne]

/-- The symbol of a comparison in a program. -/
def symbol : Comparison → String
  | lt => "<"
  | gt => ">"
  | eq => "=="
  | ge => ">="
  | le => "<="
  | ne => "!="

/-- The comparison with a symbol. -/
def ofSymbol? (s : String) : Option Comparison := all.find? (·.symbol = s)

/-- The code of a comparison as an operand. -/
def code : Comparison → UInt8
  | lt => 0
  | gt => 1
  | eq => 2
  | ge => 3
  | le => 4
  | ne => 5

/-- The comparison with a code. -/
def ofCode? (b : UInt8) : Option Comparison := all[b.toNat]?

/-- Whether a comparison holds of two things in the given order. -/
def holds (c : Comparison) (o : Ordering) : Bool :=
  match c with
  | lt => o.isLT
  | gt => o.isGT
  | eq => o.isEq
  | ge => o.isGE
  | le => o.isLE
  | ne => o.isNe

/-- Compares two numbers. -/
def numbers (c : Comparison) (x y : Float) : Bool :=
  match c with
  | lt => x < y
  | gt => y < x
  | eq => x == y
  | ge => y ≤ x
  | le => x ≤ y
  | ne => x != y

/-- Compares two texts by code points. -/
def strings (c : Comparison) (x y : String) : Bool := c.holds (compareOfLessAndEq x y)

/-- Compares two truth values. -/
def booleans (c : Comparison) (x y : Bool) : Bool := c.holds (compare x y)

theorem ofCode?_code (c : Comparison) : ofCode? c.code = some c := by
  cases c <;> rfl

theorem ofSymbol?_symbol (c : Comparison) : ofSymbol? c.symbol = some c := by
  cases c <;> decide

end Comparison

end ByteLisp
