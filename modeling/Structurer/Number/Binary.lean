/-
**Binary floating-point numbers.**

A floating-point constant is kept as what it denotes: not a number, an infinity, or a signed
integer multiple of a power of two.  Two widths are in use, and one description of a format serves
both.
-/

namespace Structurer.Number

structure Format where
  /-- The number of bits of a significand. -/
  precision : Nat
  /-- The exponent of the last bit of the smallest numbers. -/
  least : Int
  /-- The exponent of the last bit of the largest numbers. -/
  greatest : Int
  deriving DecidableEq, Repr

def Format.single : Format := ⟨24, -149, 104⟩

def Format.double : Format := ⟨53, -1074, 971⟩

/-- A number of a format.  A finite one is `significand * 2 ^ exponent`, in canonical form: the
exponent is the format's least, or the significand has all the bits of the precision. -/
inductive Binary (f : Format) where
  | nan
  | infinite (negative : Bool)
  | finite (negative : Bool) (significand : Nat) (exponent : Int)
  deriving DecidableEq, Repr

namespace Binary

variable {f : Format}

def zero (negative : Bool) : Binary f := finite negative 0 f.least

/-- Equality of numbers: a NaN differs from everything, zeros of both signs are equal. -/
def equal : Binary f → Binary f → Bool
  | infinite n, infinite n' => n == n'
  | finite n s e, finite n' s' e' => (s == 0 && s' == 0) || (n == n' && s == s' && e == e')
  | _, _ => false

end Binary

/-- The quotient rounded to the nearest integer, a half to the even neighbour. -/
def roundHalfEven (num den : Nat) : Nat :=
  let q := num / den
  let r := num % den
  if 2 * r < den then q
  else if 2 * r > den then q + 1
  else if q % 2 = 0 then q else q + 1

/-- The ratio `num / den` as one of naturals, scaled by a power of a base: `num / den * base ^ e`. -/
def scale (base num den : Nat) (e : Int) : Nat × Nat :=
  if e ≥ 0 then (num * Nat.pow base e.toNat, den) else (num, den * Nat.pow base (-e).toNat)

/-- The exponent of the leading bit of a positive ratio: the largest `e` with
`2 ^ e ≤ num / den`. -/
def floorLog2 (num den : Nat) : Int :=
  let e : Int := (Nat.log2 num : Int) - (Nat.log2 den : Int)
  let (n, d) := scale 2 num den (-e)
  if n < d then e - 1 else e

/-- The number nearest to a ratio, of two equally near ones the one with an even significand; an
infinity beyond the range of the format. -/
def Binary.ofRatio (f : Format) (negative : Bool) (num den : Nat) : Binary f :=
  if num = 0 then .zero negative
  else
    let last := floorLog2 num den - (f.precision - 1 : Nat)
    let e := if f.least ≤ last then last else f.least
    let (n, d) := scale 2 num den (-e)
    let s := roundHalfEven n d
    let (s, e) :=
      if s = Nat.pow 2 f.precision then (Nat.pow 2 (f.precision - 1), e + 1) else (s, e)
    if e > f.greatest then .infinite negative else .finite negative s e

end Structurer.Number
