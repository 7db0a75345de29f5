/-
**What work is made of.**

The engine changes its context by a few steps only: it records events and fallbacks, asks for labels
and variables, and works inside a loop.  Everything else only looks at the context, or computes on
graphs.  `Work x` says that `x` is put together from these steps, so that whatever each of them keeps is
kept by the whole.
-/

import Structurer.Proofs.Leniency

namespace Structurer.Engine

/-- Work put together from the steps of the engine. -/
inductive Work : {α : Type} → EngineM α → Prop where
  | pure {α : Type} (a : α) : Work (Pure.pure a : EngineM α)
  | throw {α : Type} (e : Failure) : Work (MonadExcept.throw e : EngineM α)
  | lift {α : Type} (x : Except Fault α) : Work (liftM x : EngineM α)
  | bind {α β : Type} {x : EngineM α} {f : α → EngineM β} (hx : Work x) (hf : ∀ a, Work (f a)) :
      Work (x >>= f)
  | observing {α : Type} {x : EngineM α} (hx : Work x) : Work (observing x)
  | get : Work (MonadState.get : EngineM Context)
  | emit (e : Event) : Work (emit e)
  | recordFallback (fingerprint : String) (dump : List String) : Work (recordFallback fingerprint dump)
  | freshLabel : Work freshLabel
  | freshFlag (name : String) : Work (freshFlag name)
  | stackSlot (depth : Nat) (t : ValueType) : Work (stackSlot depth t)
  | withLoop {α : Type} (label : LoopLabel) {x : EngineM α} (hx : Work x) : Work (withLoop label x)

variable {α : Type}

namespace Work

theorem violation (g : Graph) (message : String) : Work (violation g message) :=
  bind get fun _ => bind get fun _ => bind (emit _) fun _ => pure _

theorem steps : Steps Work :=
  ⟨pure, throw, lift, bind, fun h _ => bind get h, emit, recordFallback, freshLabel, freshFlag,
    stackSlot, withLoop, fun _ _ => bind (violation _ _) fun _ => throw _⟩

/-! ### Checks -/

theorem fail (e : StructureError) (dump : List String) : Work (fail e dump : EngineM α) :=
  bind get fun _ => bind (emit _) fun _ => throw _

theorem checkGraph (g : Graph) : Work (checkGraph g) := by
  refine bind get fun ctx => ?_
  split
  · exact pure _
  · exact fail _ _
  · exact throw _

theorem checkStep (g : Graph) (step : String) : Work (checkStep g step) :=
  bind get fun _ => steps.ite (bind (emit _) fun _ => checkGraph g) (pure _)

theorem checkSolved (n : Node) : Work (checkSolved n) := by
  refine bind get fun ctx => ?_
  split
  · exact pure _
  · exact fail _ _

theorem checkError? (g : Graph) (step : String) : Work (Reduce.checkError? g step) := by
  refine bind (observing (checkStep g step)) fun r => ?_
  split
  · exact pure _
  · exact pure _
  · exact throw _

theorem logApplied (name : String) (g : Graph) : Work (Reduce.logApplied name g) :=
  bind (bind get fun _ => pure _) fun _ => steps.ite (bind get fun _ => emit _) (pure _)

/-- **Structuring is work**, and so is each part of it. -/
theorem checks : Checks fun _ x => Work x where
  toSteps := steps
  eases h := h
  bindIf hx hf _ := bind hx hf
  notice _ _ hx := bind get fun _ => bind (emit _) fun _ => hx
  logApplied := logApplied
  checkGraph := checkGraph
  checkStep := checkStep
  checkSolved := checkSolved
  checkError? := checkError?

end Work

end Structurer.Engine
