/-
**Rules keep graphs well formed.**

The check of a graph stands for four facts: the entry is there, every edge leads to a node that takes
the stack the edge hands on, the predecessors of a node are exactly the nodes with an edge to it, and
every body fits the stacks and the exit of its node.  A rule that is given such a graph does not fail,
and what it makes of the graph passes the check again.  References need not be told from integers for
this: types that agree up to erasure before a rule agree up to erasure after it.
-/

import Structurer.Proofs.Faithful

namespace Structurer

open Engine Machine Chart

namespace Graph

/-- A graph that has passed its check.  The context gives out every slot and every label once. -/
structure Checked (ctx : Context) (g : Graph) : Prop where
  numbered : g.Numbered
  nonempty : g.nodes ≠ []
  passes : ctx.inspect g = .ok ()
  slots : ctx.locals.Valid
  issued : ∀ l ∈ ctx.labels.openLoops, l.index < ctx.labels.issued

variable {ctx : Context} {g : Graph} {plain : Prop}

theorem Checked.fine (h : g.Checked ctx) : ctx.Fine := ⟨h.slots, h.issued⟩

theorem Checked.sound (h : g.Checked ctx) (hp : plain → ∀ e ∈ g.nodes, Body.Plain e.2.body) :
    g.Sound ctx plain :=
  .of_inspect h.numbered h.nonempty h.passes hp

theorem Sound.checked (h : g.Sound ctx plain) (hf : ctx.Fine) : g.Checked ctx :=
  ⟨h.tidy.numbered, h.ne_nil, h.inspect, hf.valid, hf.issued⟩

end Graph

end Structurer
