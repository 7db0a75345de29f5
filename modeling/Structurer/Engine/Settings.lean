/-
**Settings of the structuring engine.**
-/

namespace Structurer

structure Settings where
  /-- May small nodes be copied into every predecessor?  More shapes are recognised then, at the
  cost of larger code. -/
  allowDuplication : Bool
  /-- Are references told from integers when stacks are compared? -/
  strictReferences : Bool
  /-- Is the whole graph checked after every change? -/
  validateSteps : Bool
  /-- Does generated code carry comments that say where it came from? -/
  comments : Bool
  /-- Return nodes with fewer instructions than this, comments aside, are copied into their
  predecessors. -/
  smallReturnLimit : Nat
  /-- Fingerprints of more characters than this are cut and end with a hash. -/
  maxFingerprint : Nat
  deriving DecidableEq, Repr

/-- All options off, and the usual limits. -/
def Settings.standard : Settings :=
  { allowDuplication := false, strictReferences := false, validateSteps := false
    comments := false, smallReturnLimit := 3, maxFingerprint := 80 }

end Structurer
