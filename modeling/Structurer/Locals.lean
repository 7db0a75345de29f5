/-
**Local variables.**

Besides the variables of the method itself, structuring needs variables for flags, for the
selector of a dispatch loop, and for parking stack values across a jump that cannot carry them.
All of them live in one registry: variables are numbered in the order they were added, never
removed, and their names are pairwise distinct.
-/

import Structurer.ValueType

namespace Structurer

/-- The number of a local variable in its method. -/
structure LocalId where
  index : Nat
  deriving DecidableEq, Repr

/-- The spelling of a variable's number where its name is unknown. -/
def LocalId.title (l : LocalId) : String := "local" ++ toString l.index

structure LocalVariable where
  name : String
  valueType : ValueType
  deriving DecidableEq, Repr

/-- The variable that parks the value of some type at some depth of the stack, counted from the
bottom. -/
structure StackSlot where
  depth : Nat
  valueType : ValueType
  id : LocalId
  deriving DecidableEq, Repr

structure Locals where
  /-- The variables in the order of their numbers. -/
  entries : Array LocalVariable
  /-- The slots handed out so far. -/
  slots : List StackSlot
  deriving DecidableEq, Repr

namespace Locals

def empty : Locals := ⟨#[], []⟩

def size (ls : Locals) : Nat := ls.entries.size

def get? (ls : Locals) (l : LocalId) : Option LocalVariable := ls.entries[l.index]?

def lookup (ls : Locals) (name : String) : Option LocalId :=
  (ls.entries.findIdx? (·.name == name)).map LocalId.mk

/-- The name of a variable, or a placeholder for a number that is not in use. -/
def name (ls : Locals) (l : LocalId) : String :=
  match ls.get? l with
  | some v => v.name
  | none => l.title

/-- The `k`-th variant of a name: the name itself, then `name_1`, `name_2` and so on. -/
def variant (name : String) : Nat → String
  | 0 => name
  | k + 1 => name ++ "_" ++ toString (k + 1)

/-- The first variant of a name that no variable has.  One variant more than there are variables
is always enough. -/
def freeName (ls : Locals) (name : String) : String :=
  match (List.range (ls.size + 1)).find? fun k => (ls.lookup (variant name k)).isNone with
  | some k => variant name k
  | none => name

/-- A new variable.  A name that is taken gets the least suffix that makes it unique. -/
def add (ls : Locals) (name : String) (valueType : ValueType) : LocalId × Locals :=
  (⟨ls.size⟩, { ls with entries := ls.entries.push ⟨ls.freeName name, valueType⟩ })

@[simp] theorem size_add (ls : Locals) (name : String) (t : ValueType) :
    (ls.add name t).2.size = ls.size + 1 := by
  simp [add, size]

theorem get?_add_self (ls : Locals) (name : String) (t : ValueType) :
    (ls.add name t).2.get? (ls.add name t).1 = some ⟨ls.freeName name, t⟩ := by
  simp [add, get?, size]

theorem get?_add_of_lt (ls : Locals) (name : String) (t : ValueType) {l : LocalId}
    (h : l.index < ls.size) : (ls.add name t).2.get? l = ls.get? l := by
  simp only [add, get?]
  exact Array.getElem?_push_lt h |>.trans (Array.getElem?_eq_getElem h).symm

/-- The slot of a depth and type, if one was handed out. -/
def slot? (ls : Locals) (depth : Nat) (valueType : ValueType) : Option LocalId :=
  (ls.slots.find? fun s => s.depth == depth && s.valueType == valueType).map (·.id)

/-- The variable that parks the stack value of a depth and type, added on first use. -/
def stackSlot (ls : Locals) (depth : Nat) (valueType : ValueType) : LocalId × Locals :=
  match ls.slot? depth valueType with
  | some l => (l, ls)
  | none =>
      let (l, ls) := ls.add ("s" ++ toString depth ++ valueType.name) valueType
      (l, { ls with slots := ⟨depth, valueType, l⟩ :: ls.slots })

end Locals

end Structurer
