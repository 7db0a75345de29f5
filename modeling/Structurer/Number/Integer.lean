/-
**Integer literals.**

A decimal integer is an optional sign and at least one digit, and nothing else: no blanks, no
separators.  A literal of a width is one whose value lies in the range of that width.
-/

namespace Structurer.Number

def digit? (c : Char) : Option Nat :=
  if '0' ≤ c ∧ c ≤ '9' then some (c.toNat - '0'.toNat) else none

/-- The value of a run of digits read after a number `n`. -/
def digitsFrom? (n : Nat) : List Char → Option Nat
  | [] => some n
  | c :: cs =>
      match digit? c with
      | some d => digitsFrom? (10 * n + d) cs
      | none => none

/-- The value of a nonempty run of digits. -/
def natural? : List Char → Option Nat
  | [] => none
  | cs => digitsFrom? 0 cs

def integer? : List Char → Option Int
  | '-' :: cs => (natural? cs).map fun n => -(n : Int)
  | '+' :: cs => (natural? cs).map fun n => (n : Int)
  | cs => (natural? cs).map fun n => (n : Int)

def int32? (cs : List Char) : Option Int32 :=
  match integer? cs with
  | some n =>
      if Int32.minValue.toInt ≤ n ∧ n ≤ Int32.maxValue.toInt then some (Int32.ofInt n) else none
  | none => none

def int64? (cs : List Char) : Option Int64 :=
  match integer? cs with
  | some n =>
      if Int64.minValue.toInt ≤ n ∧ n ≤ Int64.maxValue.toInt then some (Int64.ofInt n) else none
  | none => none

end Structurer.Number
