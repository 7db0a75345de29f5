/-
**Loop labels.**

Every `loop` of a method has a label of its own, and `br` and `br_if` name the loop they jump back
to.  While the body of a loop is still being generated the loop itself does not exist yet, so the
registry also keeps the list of the loops that are *open*: code made in the meantime may already
jump to them.
-/

namespace Structurer

structure LoopLabel where
  index : Nat
  deriving DecidableEq, Repr

namespace LoopLabel

/-- The spelling of a label in code. -/
def display (l : LoopLabel) : String := "$L" ++ toString l.index

/-- The spelling of a label in messages. -/
def title (l : LoopLabel) : String := "L" ++ toString l.index

end LoopLabel

structure Labels where
  /-- How many labels have been issued; the next one carries this number. -/
  issued : Nat
  /-- The loops whose bodies are being generated, outermost first. -/
  openLoops : List LoopLabel
  /-- The labels that have been issued, in order.  Nothing reads this record. -/
  given : List LoopLabel
  deriving DecidableEq, Repr

/-- The part of a list before the last occurrence of an element, if there is one. -/
def beforeLast? {α : Type} [DecidableEq α] (a : α) : List α → Option (List α)
  | [] => none
  | b :: l =>
      match beforeLast? a l with
      | some front => some (b :: front)
      | none => if b = a then some [] else none

@[simp] theorem beforeLast?_concat {α : Type} [DecidableEq α] (a : α) (l : List α) :
    beforeLast? a (l ++ [a]) = some l := by
  induction l with
  | nil => simp [beforeLast?]
  | cons b l ih => simp [beforeLast?, ih]

namespace Labels

def empty : Labels := ⟨0, [], []⟩

/-- A label that was never issued before. -/
def fresh (ls : Labels) : LoopLabel × Labels :=
  let label := ⟨ls.issued⟩
  (label, { ls with issued := ls.issued + 1, given := ls.given ++ [label] })

/-- A loop encloses everything generated from here on. -/
def enter (ls : Labels) (l : LoopLabel) : Labels :=
  { ls with openLoops := ls.openLoops ++ [l] }

/-- A loop, and every loop opened inside it, encloses nothing any more.  A loop that is not open
changes nothing. -/
def leave (ls : Labels) (l : LoopLabel) : Labels :=
  match beforeLast? l ls.openLoops with
  | some front => { ls with openLoops := front }
  | none => ls

@[simp] theorem leave_enter (ls : Labels) (l : LoopLabel) : (ls.enter l).leave l = ls := by
  simp [enter, leave]

end Labels

end Structurer
