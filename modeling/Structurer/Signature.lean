/-
**Method signatures.**

The method whose control flow is being structured is known by its class, its name and its
descriptor; what its `return` leaves on the stack is part of the signature too.
-/

import Structurer.ValueType

namespace Structurer

structure Signature where
  /-- The class of the method, written `my/pkg/Klass`. -/
  className : String
  /-- The name of the method, such as `<init>`. -/
  name : String
  /-- The descriptor of the method, such as `(II)I`. -/
  descriptor : String
  /-- What a `return` leaves on the stack. -/
  results : StackType
  deriving DecidableEq, Repr

namespace Signature

/-- The method's name for people: `my/pkg/Klass.run(II)I`. -/
def display (s : Signature) : String :=
  s.className ++ "." ++ s.name ++ s.descriptor

/-- A letter or digit of the ASCII range stays, every other character becomes an underscore. -/
def mangleChar (c : Char) : Char :=
  if c.isAlphanum then c else '_'

/-- The method's name as a file name or identifier. -/
def mangled (s : Signature) : String :=
  (s.className ++ "_" ++ s.name ++ "_" ++ s.descriptor).map mangleChar

end Signature

end Structurer
