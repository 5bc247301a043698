/-
  ByteLisp: the shortest decimal of a binary number.

  A positive double is `mantissa · 2^exponent`. The reals that round to it form
  an interval around it, ends included iff the mantissa is even. Its shortest
  decimal is a point of the coarsest decimal grid that has a point in that
  interval; of two such points the nearer one, and the upper one if both are
  equally near.

  * `Binary.ofBits` decodes the bits of a finite double;
  * `Binary.scaled` puts the number and the two ends of its interval on a common
    integer scale with a decimal grid;
  * `Binary.nearestOn` is the point on one grid, `Binary.shortest` the search.
-/
namespace ByteLisp.Decimal

/-- A positive binary number `mantissa · 2^exponent`. -/
structure Binary where
  mantissa : Nat
  exponent : Int
  /-- The neighbour below is half as far away as the neighbour above. -/
  narrowBelow : Bool
deriving Repr, DecidableEq

/-- The number `digits · 10^exponent`. -/
structure Dec where
  digits : Nat
  exponent : Int
deriving Repr, DecidableEq

/-- The biased exponent of a double. -/
def exponentField (bits : UInt64) : Nat := ((bits >>> 52) &&& 0x7FF).toNat

/-- The fraction bits of a double. -/
def fractionField (bits : UInt64) : Nat := (bits &&& 0xFFFFFFFFFFFFF).toNat

/-- The magnitude of a finite double, given by its bits. -/
def Binary.ofBits (bits : UInt64) : Binary :=
  let e := exponentField bits
  let f := fractionField bits
  if e = 0 then ⟨f, -1074, false⟩
  else ⟨Nat.pow 2 52 + f, (e : Int) - 1075, decide (f = 0) && decide (1 < e)⟩

/-- A number and the interval of reals that round to it, in units of which a
    step of a decimal grid has `step`. -/
structure Scaled where
  step : Nat
  value : Nat
  low : Nat
  high : Nat
  closed : Bool

/-- The number `x` on the scale of the decimal grid with step `10^e`. -/
def Binary.scaled (x : Binary) (e : Int) : Scaled :=
  let quarter := x.exponent - 2
  let unit := Nat.pow 2 quarter.toNat * Nat.pow 10 (-e).toNat
  { step := Nat.pow 10 e.toNat * Nat.pow 2 (-quarter).toNat
    value := 4 * x.mantissa * unit
    low := (4 * x.mantissa - if x.narrowBelow then 1 else 2) * unit
    high := (4 * x.mantissa + 2) * unit
    closed := decide (x.mantissa % 2 = 0) }

/-- Whether the `d`-th point of the grid rounds to the number. -/
def Scaled.readsBack (s : Scaled) (d : Nat) : Bool :=
  if s.closed then decide (s.low ≤ d * s.step) && decide (d * s.step ≤ s.high)
  else decide (s.low < d * s.step) && decide (d * s.step < s.high)

/-- The point of the grid with step `10^e` that is nearest to `x`, if one of the
    two neighbours of `x` on the grid rounds to `x`. -/
def Binary.nearestOn (x : Binary) (e : Int) : Option Dec :=
  let s := x.scaled e
  let below := s.value / s.step
  match s.readsBack below, s.readsBack (below + 1) with
  | true, true =>
    if 2 * s.value < (2 * below + 1) * s.step then some ⟨below, e⟩ else some ⟨below + 1, e⟩
  | true, false => some ⟨below, e⟩
  | false, true => some ⟨below + 1, e⟩
  | false, false => none

/-- An exponent `e` such that `10^e` exceeds `x`, and is at most a thousandfold. -/
def Binary.magnitude (x : Binary) : Int :=
  ((Nat.log2 x.mantissa : Int) + x.exponent + 1) * 30103 / 100000 + 1

/-- The exact decimal value. -/
def Binary.exact (x : Binary) : Dec :=
  if 0 ≤ x.exponent then ⟨x.mantissa * Nat.pow 2 x.exponent.toNat, 0⟩
  else ⟨x.mantissa * Nat.pow 5 (-x.exponent).toNat, x.exponent⟩

/-- The decimal with the fewest digits that rounds to `x`: the point of the
    coarsest grid that has one. -/
def Binary.shortest (x : Binary) : Dec :=
  ((List.range 21).findSome? fun (n : Nat) => x.nearestOn (x.magnitude - n)).getD x.exact

end ByteLisp.Decimal
