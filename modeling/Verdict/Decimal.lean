/-! Shortest decimals of binary floating point numbers. Of all decimals that read back as a number
the shortest is taken, and of several as short the one nearest to the number. The search runs over
decimal grids from coarse to fine and is exact: all lengths are natural numbers in one unit.
-/

set_option autoImplicit false

namespace Verdict

structure Decimal where
  negative : Bool
  digits : Nat
  exponent : Int
deriving DecidableEq, Repr

namespace Decimal

/-- A number and its two distances to the ends of the interval that rounds to it, and the width of a
decimal grid, in one unit. -/
structure Scale where
  value : Nat
  below : Nat
  above : Nat
  closed : Bool
  grid : Nat

/-- The point of the grid in the interval nearest to the number, as a multiple of the grid. -/
def Scale.nearest? (s : Scale) : Option Nat :=
  let low := s.value / s.grid
  let down := s.value - low * s.grid
  let up := (low + 1) * s.grid - s.value
  let inside (distance radius : Nat) := distance < radius || s.closed && distance == radius
  let lowInside := 0 < low && inside down s.below
  let highInside := inside up s.above
  if lowInside && (!highInside || down < up || down == up && low % 2 == 0) then some low
  else if highInside then some (low + 1)
  else none

/-- The scale of `significand · 2 ^ power` against the grid of width `10 ^ exponent`. A significand
at the lower end of its binade has a neighbour below that is only half as far away. -/
def scale (significand : Nat) (power : Int) (narrow : Bool) (exponent : Int) : Scale :=
  let unit := Nat.pow 2 power.toNat * Nat.pow 10 (-exponent).toNat
  { value := 4 * significand * unit
    below := if narrow then unit else 2 * unit
    above := 2 * unit
    closed := significand % 2 == 0
    grid := 4 * (Nat.pow 2 (-power).toNat * Nat.pow 10 exponent.toNat) }

/-- The number of digits in front of the decimal point, or less than one by the zeros after it. -/
def magnitude (significand : Nat) (power : Int) : Int :=
  let num := significand * Nat.pow 2 power.toNat
  let den := Nat.pow 2 (-power).toNat
  if den ≤ num then ((Nat.toDigits 10 (num / den)).length : Int)
  else 1 - ((Nat.toDigits 10 ((den - 1) / num)).length : Int)

def stripZeros (fuel digits : Nat) (exponent : Int) : Nat × Int :=
  match fuel with
  | 0 => (digits, exponent)
  | fuel + 1 =>
    if digits % 10 == 0 then stripZeros fuel (digits / 10) (exponent + 1) else (digits, exponent)

/-- The first hit among the grids that leave one digit, two digits, and so on up to seventeen. -/
def shortest (significand : Nat) (power : Int) (narrow : Bool) : Nat × Int :=
  let top := magnitude significand power
  let hit := (List.range 17).findSome? fun (n : Nat) =>
    let exponent := top - 1 - (n : Nat)
    (scale significand power narrow exponent).nearest?.map (·, exponent)
  match hit with
  | some (digits, exponent) => stripZeros 17 digits exponent
  | none => (0, 0)

def ofFloat (x : Float) : Decimal :=
  let bits := x.toBits.toNat
  let negative := 0x8000000000000000 ≤ bits
  let biased := (bits >>> 52) % 0x800
  let fraction := bits % 0x10000000000000
  let significand := if biased == 0 then fraction else fraction + 0x10000000000000
  if significand == 0 then ⟨negative, 0, 0⟩
  else
    let power : Int := (max biased 1 : Nat) - 1075
    let (digits, exponent) := shortest significand power (fraction == 0 && 1 < biased)
    ⟨negative, digits, exponent⟩

structure Style where
  least : Int
  greatest : Int

def positional (digits : List Char) (point : Int) : List Char :=
  if point ≤ 0 then '0' :: '.' :: (List.replicate (-point).toNat '0' ++ digits)
  else
    let whole := digits.take point.toNat
    let fraction := digits.drop point.toNat
    whole ++ List.replicate (point.toNat - digits.length) '0' ++
      '.' :: (if fraction.isEmpty then ['0'] else fraction)

def scientific (digits : List Char) (first : Int) : List Char :=
  let mantissa := match digits with
    | c :: d :: ds => c :: '.' :: d :: ds
    | ds => ds
  mantissa ++ 'e' :: (if first < 0 then '-' else '+') :: Nat.toDigits 10 first.natAbs

def text (style : Style) (d : Decimal) : String :=
  let digits := Nat.toDigits 10 d.digits
  let first := d.exponent + digits.length - 1
  let sign := if d.negative then ['-'] else []
  String.ofList (sign ++
    if style.least ≤ first && first ≤ style.greatest then positional digits (first + 1)
    else scientific digits first)

end Decimal

end Verdict
