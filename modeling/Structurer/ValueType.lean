/-
**Value types and operand stacks.**

A method body works on an operand stack.  The checker follows the *types* on that stack, and the
type of an object reference is kept apart from the 32-bit integers that will carry it, so that a
caller may ask for references to be told from integers (`strict`) or for the two to be confused,
as they are at run time.
-/

namespace Structurer

/-- The type of a value on the operand stack or in a local variable. -/
inductive ValueType where
  | i32
  | i64
  | f32
  | f64
  /-- A reference to an object, carried by a 32-bit pointer. -/
  | ref
  deriving DecidableEq, Repr, Inhabited

/-- What is left of a value type once references are erased. -/
inductive StackCategory where
  | i32
  | i64
  | f32
  | f64
  deriving DecidableEq, Repr

namespace StackCategory

def name : StackCategory → String
  | i32 => "I32"
  | i64 => "I64"
  | f32 => "F32"
  | f64 => "F64"

end StackCategory

namespace ValueType

/-- The category of the value that carries a type at run time. -/
def erase : ValueType → StackCategory
  | i32 => .i32
  | i64 => .i64
  | f32 => .f32
  | f64 => .f64
  | ref => .i32

/-- May a value of type `actual` flow into a place of type `expected`?  Only a strict reading
tells a reference from a 32-bit integer. -/
def fits (strict : Bool) (actual expected : ValueType) : Bool :=
  if strict then actual == expected else actual.erase == expected.erase

/-- The spelling of a type in code and in method sources. -/
def name : ValueType → String
  | i32 => "i32"
  | i64 => "i64"
  | f32 => "f32"
  | f64 => "f64"
  | ref => "ref"

/-- The spelling of a type in messages. -/
def title : ValueType → String
  | i32 => "I32"
  | i64 => "I64"
  | f32 => "F32"
  | f64 => "F64"
  | ref => "Ref"

def ofName? : String → Option ValueType
  | "i32" => some i32
  | "i64" => some i64
  | "f32" => some f32
  | "f64" => some f64
  | "ref" => some ref
  | _ => none

@[simp] theorem ofName?_name (t : ValueType) : ofName? t.name = some t := by
  cases t <;> rfl

theorem name_of_ofName? {s : String} {t : ValueType} (h : ofName? s = some t) : t.name = s := by
  unfold ofName? at h
  split at h <;> simp_all [name] <;> subst h <;> rfl

end ValueType

/-- The types on an operand stack, the top of the stack last. -/
abbrev StackType := List ValueType

namespace StackType

/-- Have two stacks the same shape, position by position? -/
def fits (strict : Bool) : StackType → StackType → Bool
  | [], [] => true
  | a :: actual, e :: expected => a.fits strict e && fits strict actual expected
  | _, _ => false

/-- Does the top of `actual` have the shape of `expected`? -/
def endsWith (strict : Bool) (actual expected : StackType) : Bool :=
  decide (expected.length ≤ actual.length) &&
    fits strict (actual.drop (actual.length - expected.length)) expected

/-- The spelling of a stack in messages: `[I32, Ref]`. -/
def title (stack : StackType) : String :=
  "[" ++ ", ".intercalate (stack.map ValueType.title) ++ "]"

end StackType

end Structurer
