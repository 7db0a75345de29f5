/-
**The shortest decimal of a floating-point number.**

A floating-point number is written with the fewest digits that read back as the same number of the
same format; among those digits, the nearest to the number, a tie going up.  The search goes
through the decimal grids from coarse to fine: on each it tests the two neighbours of the value,
in exact arithmetic, against the interval of reals that round to the number.

The digits are laid out positionally, with at least one digit on each side of the point, when the
leading digit stands between the fourth place after the point and the sixteenth before it, and
with an exponent otherwise.
-/

import Structurer.Number.Decimal

namespace Structurer.Number

/-- The reals that round to a number, as ratios over one denominator: from `low` to `high` around
`value`, the ends included if `closed`. -/
structure Interval where
  low : Nat
  value : Nat
  high : Nat
  den : Nat
  closed : Bool
  deriving Repr

namespace Interval

/-- The interval of a positive number `significand * 2 ^ exponent`.  Below a power of two the next
number is half as far away as above it. -/
def ofBinary (f : Format) (significand : Nat) (exponent : Int) : Interval :=
  let narrow := significand = Nat.pow 2 (f.precision - 1) ∧ exponent > f.least
  let (unit, den) := scale 2 1 4 exponent
  { low := if narrow then unit * (4 * significand - 1) else unit * (4 * significand - 2)
    value := unit * (4 * significand)
    high := unit * (4 * significand + 2)
    den := den
    closed := significand % 2 = 0 }

/-- Does the decimal `n * 10 ^ e` lie in the interval? -/
def contains (i : Interval) (n : Nat) (e : Int) : Bool :=
  let (num, den) := scale 10 n 1 e
  let x := num * i.den
  if i.closed then decide (i.low * den ≤ x ∧ x ≤ i.high * den)
  else decide (i.low * den < x ∧ x < i.high * den)

/-- The exponent of the leading decimal digit of the value. -/
def leading (i : Interval) : Int :=
  if i.den ≤ i.value then (Decimal.width (i.value / i.den) : Int) - 1
  else
    let r := i.den / i.value
    let w : Int := Decimal.width r
    if r = Nat.pow 10 (w.toNat - 1) ∧ r * i.value = i.den then -(w - 1) else -w

/-- The neighbour of the value on the grid of multiples of `10 ^ e` that lies in the interval: of
two the nearer, at equal distance the upper. -/
def onGrid? (i : Interval) (e : Int) : Option Nat :=
  let (num, den) := scale 10 i.value i.den (-e)
  let down := num / den
  match i.contains down e, i.contains (down + 1) e with
  | true, true => if 2 * (num % den) < den then some down else some (down + 1)
  | true, false => some down
  | false, true => some (down + 1)
  | false, false => none

/-- The first grid, starting with that of `10 ^ e`, with a neighbour in the interval. -/
def search (i : Interval) : Nat → Int → Decimal
  | 0, e => ⟨0, e⟩
  | fuel + 1, e =>
      match i.onGrid? e with
      | some n => ⟨n, e⟩
      | none => search i fuel (e - 1)

end Interval

/-- The shortest decimal that reads back as `significand * 2 ^ exponent`, which is positive.
Seventeen digits tell any two numbers of the two formats apart. -/
def shortest (f : Format) (significand : Nat) (exponent : Int) : Decimal :=
  let i := Interval.ofBinary f significand exponent
  i.search 17 i.leading

/-! ### Layout -/

/-- The digits of a decimal, with the exponent of the leading one.  Trailing zeros are left out. -/
def Decimal.leadingDigits (d : Decimal) : List Char × Int :=
  let all := Nat.toDigits 10 d.digits
  let kept := (all.reverse.dropWhile (· == '0')).reverse
  (kept, d.exponent + all.length - 1)

/-- Digits laid out around a point, at least one on each side. -/
def positional (digits : List Char) (lead : Int) : List Char :=
  if lead < 0 then '0' :: '.' :: List.replicate (-lead - 1).toNat '0' ++ digits
  else
    let whole := lead.toNat + 1
    let padded := digits ++ List.replicate (whole - digits.length) '0'
    let fraction := padded.drop whole
    padded.take whole ++ '.' :: (if fraction.isEmpty then ['0'] else fraction)

/-- Digits laid out with an exponent, the point after the first digit. -/
def exponential (digits : List Char) (lead : Int) : List Char :=
  let point :=
    match digits with
    | [] => []
    | [d] => [d]
    | d :: ds => d :: '.' :: ds
  point ++ 'e' :: (toString lead).toList

/-- The layout of a decimal: positional if the leading digit stands between the fourth place after
the point and the sixteenth before it. -/
def Decimal.layout (d : Decimal) : List Char :=
  let (digits, lead) := d.leadingDigits
  if -4 ≤ lead ∧ lead < 16 then positional digits lead else exponential digits lead

def Binary.display {f : Format} : Binary f → String
  | .nan => "NaN"
  | .infinite false => "inf"
  | .infinite true => "-inf"
  | .finite negative s e =>
      let text := if s = 0 then "0.0" else String.ofList (shortest f s e).layout
      if negative then "-" ++ text else text

end Structurer.Number
