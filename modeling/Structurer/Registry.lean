/-
**The registry of variables as it is kept.**

`Locals` numbers its variables without a bound and finds a name by looking through them.  A compiler keeps
the numbers in words of 32 bits, and two tables beside the variables: one leads from a name to its
variable, the other from a depth and a type to the slot.  A number is cut to the size of a word.
-/

import Structurer.Locals

namespace Structurer

structure Registry where
  /-- The variables in the order they were added. -/
  entries : Array LocalVariable
  /-- The variable of a name, the last one first. -/
  byName : List (String × UInt32)
  /-- The slot of a depth and type, the last one first. -/
  stackSlots : List ((Nat × ValueType) × UInt32)
  deriving DecidableEq, Repr

namespace Registry

def empty : Registry := ⟨#[], [], []⟩

def size (r : Registry) : Nat := r.entries.size

def get? (r : Registry) (id : UInt32) : Option LocalVariable := r.entries[id.toNat]?

def lookup (r : Registry) (name : String) : Option UInt32 := r.byName.lookup name

/-- The name of a variable, or a placeholder for a number that is not in use. -/
def name (r : Registry) (id : UInt32) : String :=
  match r.get? id with
  | some v => v.name
  | none => "local" ++ toString id.toNat

/-- The first variant of a name that is not in the table of names, tried one after the other. -/
def freeName (r : Registry) (name : String) : String :=
  match (List.range (r.size + 1)).find? fun k => (r.lookup (Locals.variant name k)).isNone with
  | some k => Locals.variant name k
  | none => name

/-- A new variable, entered in the table of names. -/
def add (r : Registry) (name : String) (valueType : ValueType) : UInt32 × Registry :=
  let unique := r.freeName name
  let id := UInt32.ofNat r.size
  (id, { r with
    entries := r.entries.push ⟨unique, valueType⟩
    byName := (unique, id) :: r.byName })

/-- The slot of a depth and type, added and entered in the table of slots on first use. -/
def stackSlot (r : Registry) (depth : Nat) (valueType : ValueType) : UInt32 × Registry :=
  match r.stackSlots.lookup (depth, valueType) with
  | some id => (id, r)
  | none =>
      let (id, r) := r.add ("s" ++ toString depth ++ valueType.name) valueType
      (id, { r with stackSlots := ((depth, valueType), id) :: r.stackSlots })

end Registry

end Structurer
