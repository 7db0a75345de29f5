/-
**Decimal literals of floating-point numbers.**

A decimal literal has an optional sign and then either one of the words `inf`, `infinity`, `nan`
in any mix of cases, or digits with at most one point among them and at least one digit, and
possibly an exponent: `e` or `E`, an optional sign, at least one digit.  It denotes the number of
the format that is nearest to its value.
-/

import Structurer.Number.Integer
import Structurer.Number.Binary

namespace Structurer.Number

/-- The unsigned decimal `digits * 10 ^ exponent`. -/
structure Decimal where
  digits : Nat
  exponent : Int
  deriving DecidableEq, Repr

namespace Decimal

/-- The exponent part of a literal: nothing, or a mark and a decimal integer. -/
def exponent? : List Char → Option Int
  | [] => some 0
  | c :: cs => if c = 'e' ∨ c = 'E' then integer? cs else none

def ofChars? (cs : List Char) : Option Decimal :=
  let whole := cs.takeWhile (·.isDigit)
  let rest := cs.dropWhile (·.isDigit)
  let (fraction, rest) :=
    match rest with
    | '.' :: rest => (rest.takeWhile (·.isDigit), rest.dropWhile (·.isDigit))
    | _ => ([], rest)
  match natural? (whole ++ fraction), exponent? rest with
  | some n, some e => some ⟨n, e - fraction.length⟩
  | _, _ => none

def width (n : Nat) : Nat := (Nat.toDigits 10 n).length

/-- The number of a format nearest to a decimal.  Values far outside the range of the format are
settled by their order of magnitude alone. -/
def toBinary (f : Format) (negative : Bool) (d : Decimal) : Binary f :=
  let magnitude := d.exponent + width d.digits
  if d.digits = 0 ∨ magnitude < f.least - 1 then .zero negative
  else if magnitude > f.greatest + f.precision + 1 then .infinite negative
  else
    let (num, den) := scale 10 d.digits 1 d.exponent
    .ofRatio f negative num den

end Decimal

/-- The number that the unsigned part of a literal denotes. -/
def Binary.ofUnsigned? (f : Format) (negative : Bool) (cs : List Char) : Option (Binary f) :=
  match String.ofList (cs.map Char.toLower) with
  | "inf" => some (.infinite negative)
  | "infinity" => some (.infinite negative)
  | "nan" => some .nan
  | _ => (Decimal.ofChars? cs).map (·.toBinary f negative)

def Binary.ofChars? (f : Format) : List Char → Option (Binary f)
  | '-' :: cs => ofUnsigned? f true cs
  | '+' :: cs => ofUnsigned? f false cs
  | cs => ofUnsigned? f false cs

end Structurer.Number
