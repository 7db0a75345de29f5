/-
**Graphs solved.**

A graph is solved by a node that leads nowhere, starts with the stack of the graph's entry, and whose
code does what the walk over the graph does.
-/

import Structurer.Proofs.Reducer

namespace Structurer

open Machine

/-- A node that solves a graph.  Parked values are found again only if stacks of one shape are the same,
and the cases of a dispatch loop are numbered by integers of 32 bits. -/
structure Solves (plain : Prop) (ctx : Context) (g : Graph) (n : Node) (ctx' : Context) : Prop where
  grows : ctx.Grows ctx'
  exit : n.exit = .ret
  input : ∀ {b}, g.chart.block? g.entry = some b → (ctx.regime plain).Fits n.inputStack b.inputStack
  stops : (ctx'.regime plain).Stops n.inputStack n.body
  refines : plain → ctx.settings.strictReferences = true → g.size ≤ 2 ^ 31 →
    ∀ K, ctx'.locals.SlotsAre K → ∀ w s, Chart.Good (ctx.regime plain) g.chart (g.entry, s) →
      Refines Le (g.chart.walk K w g.entry s) (exec w n.body (s.forget K))

variable {plain : Prop} {ctx ctx' ctx'' : Context} {g g' : Graph} {n : Node}

theorem Solves.mono (h : Solves plain ctx g n ctx') (hg : ctx'.Grows ctx'') : Solves plain ctx g n ctx'' where
  grows := h.grows.trans hg
  exit := h.exit
  input := h.input
  stops := h.stops.mono (hg.regime plain)
  refines hp hstrict hsize K hK := h.refines hp hstrict hsize K (.of_extends hg.locals hK)

theorem Solves.of_refined (h : Refined plain ctx g ctx' g') (hs : Solves plain ctx' g' n ctx'') :
    Solves plain ctx g n ctx'' where
  grows := h.grows.trans hs.grows
  exit := hs.exit
  input := by
    intro b hb
    obtain ⟨b', hb'⟩ := h.sound.closed.entry
    have hfit : (ctx'.regime plain).Fits n.inputStack b'.inputStack := hs.input hb'
    unfold Regime.Fits at hfit
    rw [h.grows.strict] at hfit
    exact hfit.trans (h.entry hb hb')
  stops := hs.stops
  refines := by
    intro hp hstrict hsize K hK w s hg
    have hstrict' : ctx'.settings.strictReferences = true := by rw [h.grows.settings, hstrict]
    exact (h.improves hp K w s s hg le_forget).le_trans
      (hs.refines hp hstrict' (Nat.le_trans h.size_le hsize) K hK w s (h.good hg))

def SolveBelow (plain : Prop) (size : Nat) (solve solve' : Graph → EngineM Node) : Prop :=
  ∀ {ctx g}, g.size < size → ctx.Fine → g.Sound ctx plain →
    Engine.Agrees (solve g) (solve' g) ctx (Solves plain ctx g)

end Structurer
