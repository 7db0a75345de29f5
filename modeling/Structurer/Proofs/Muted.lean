/-
**Checks that pass over comments.**

A comment leaves the stack as it is, so a body passes its check exactly if its bare code does, and so does a
graph.  As structuring fails only where a check does, it succeeds on a graph exactly if it succeeds on the
graph without comments.
-/

import Structurer.Proofs.Bare
import Structurer.Proofs.Structuring

namespace Structurer

open Engine Fallible Structurer.Graph

/-! ### Bodies -/

namespace Checker

mutual

theorem typeInstruction_bare (c : Checker) (loops : List LoopFrame) (stack : StackType)
    (i : Instruction) : c.typeInstruction loops stack i.bare = c.typeInstruction loops stack i := by
  cases i with
  | cond p r t e =>
    rw [Instruction.bare, typeInstruction, typeInstruction, typeBody_bare c loops p t,
      typeBody_bare c loops p e]
  | loop l p r b =>
    rw [Instruction.bare, typeInstruction, typeInstruction, typeBody_bare c (⟨l, p⟩ :: loops) p b]
  | switch s cs => rw [Instruction.bare, typeInstruction, typeInstruction, typeCases_bare c loops cs]
  | _ => rfl

theorem typeBody_bare (c : Checker) (loops : List LoopFrame) (stack : StackType) (b : List Instruction) :
    c.typeBody loops stack (Body.bare b) = c.typeBody loops stack b := by
  match b with
  | [] => rfl
  | i :: is =>
    cases hi : i.isComment with
    | true =>
      have htype : c.typeInstruction loops stack i = some (some stack) := by
        cases i with
        | comment text => rfl
        | _ => cases hi
      rw [Body.bare_cons_of_comment hi, typeBody_cons_of_some htype, typeBody_bare c loops stack is]
    | false =>
      rw [Body.bare_cons_of_real hi, typeBody, typeBody, typeInstruction_bare c loops stack i]
      rcases c.typeInstruction loops stack i with _ | (_ | st)
      · rfl
      · rfl
      · exact typeBody_bare c loops st is

theorem typeCases_bare (c : Checker) (loops : List LoopFrame) (cs : List (List Instruction)) :
    c.typeCases loops (Body.casesBare cs) = c.typeCases loops cs := by
  match cs with
  | [] => rfl
  | b :: bs => rw [Body.casesBare, typeCases, typeCases, typeBody_bare c loops [] b, typeCases_bare c loops bs]

end

theorem checkNode_bare_iff (c : Checker) (n : Node) :
    c.checkNode n.bare = .ok () ↔ c.checkNode n = .ok () := by
  simp only [checkNode_eq_ok_iff, checkBody_eq_ok_iff, typeBlock, Node.bare_body, Node.bare_exit,
    Node.bare_inputStack, typeBody_bare]
  rfl

end Checker

/-! ### Graphs -/

theorem Graph.edgeMismatch?_bare (g : Graph) (strict : Bool) :
    g.bare.edgeMismatch? strict = g.edgeMismatch? strict := by
  simp only [edgeMismatch?, bare_nodes, findSomeM?_map, Node.bare_outputs, Node.bare_outputStack,
    Node.bare_index, node_bare, bind_map_left, Node.bare_inputStack]
  rfl

/-- A context that wants no comments and records everything, beside one that may differ in this. -/
structure Context.Muted (ctx ctx₂ : Context) : Prop where
  signature : ctx₂.signature = ctx.signature
  locals : ctx₂.locals = ctx.locals
  labels : ctx₂.labels = ctx.labels
  settings : ctx.settings = { ctx₂.settings with comments := false }
  traced : ctx.verbosity = some .trace

namespace Context.Muted

variable {ctx ctx₂ : Context} {g : Graph}

section

variable (h : ctx.Muted ctx₂)

include h

theorem logged_left (e : Event) : (ctx.logged e).Muted ctx₂ := by
  unfold Context.logged
  split
  · exact ⟨h.signature, h.locals, h.labels, h.settings, h.traced⟩
  · exact h

theorem logged_right (e : Event) : ctx.Muted (ctx₂.logged e) := by
  unfold Context.logged
  split
  · exact ⟨h.signature, h.locals, h.labels, h.settings, h.traced⟩
  · exact h

theorem logged (e e' : Event) : (ctx.logged e).Muted (ctx₂.logged e') :=
  (h.logged_left e).logged_right e'

theorem loggedAll (events events' : List Event) :
    (events.foldl Context.logged ctx).Muted (events'.foldl Context.logged ctx₂) := by
  induction events generalizing ctx with
  | nil =>
    induction events' generalizing ctx₂ with
    | nil => exact h
    | cons e' events' ih => exact ih (h.logged_right e')
  | cons e events ih => exact ih (h.logged_left e)

theorem withLocals (locals : Locals) : Muted { ctx with locals } { ctx₂ with locals } :=
  ⟨h.signature, rfl, h.labels, h.settings, h.traced⟩

theorem withLabels (labels : Labels) : Muted { ctx with labels } { ctx₂ with labels } :=
  ⟨h.signature, h.locals, rfl, h.settings, h.traced⟩

theorem inside (label : LoopLabel) : (ctx.inside label).Muted (ctx₂.inside label) := by
  unfold Context.inside
  rw [h.labels]
  exact h.withLabels _

theorem outside (label : LoopLabel) : (ctx.outside label).Muted (ctx₂.outside label) := by
  unfold Context.outside
  rw [h.labels]
  exact h.withLabels _

theorem dropped (gone : List NodeId) : (ctx.dropped gone).Muted (ctx₂.dropped gone) := by
  unfold Context.dropped
  split
  · exact h
  · exact h.logged _ _

theorem checker : ctx.checker = ctx₂.checker := by
  simp only [Context.checker, h.signature, h.locals, h.labels, h.settings]

theorem inspect_iff : ctx.inspect g.bare = .ok () ↔ ctx₂.inspect g = .ok () := by
  have hstrict : ctx.settings.strictReferences = ctx₂.settings.strictReferences := by rw [h.settings]
  unfold Context.inspect
  rw [linkError?_bare, edgeMismatch?_bare, hstrict, h.checker]
  cases g.linkError? with
  | some e => simp
  | none =>
    rcases g.edgeMismatch? ctx₂.settings.strictReferences with f | _ | e
    · simp
    · simp only [mapError_eq_ok_iff, Checker.checkNodes_eq_ok_iff, bare_nodes, List.mem_map,
        forall_exists_index, and_imp, forall_apply_eq_imp_iff₂, Checker.checkNode_bare_iff]
    · simp

end

end Context.Muted

/-! ### Structuring -/

theorem Graph.bare_closeReturns (g : Graph) : g.closeReturns.bare = g.bare.closeReturns := by
  have hclosed : ∀ n : Node, n.closed.bare = n.bare.closed := by
    intro n
    unfold Node.closed
    simp only [Node.bare_exit, Node.bare_body, Body.fallsThrough_bare]
    split
    · simp [Node.bare]
    · rfl
  simp [closeReturns, bare, hclosed]

namespace Context.Muted

variable {ctx ctx' ctx₂ ctx₂' : Context} {g g' : Graph}

theorem normalize (h : ctx.Muted ctx₂) (hg : Yields (Structurer.normalize g) ctx₂ g' ctx₂') :
    ∃ ctx', Yields (Structurer.normalize g.bare) ctx g'.bare ctx' ∧ ctx'.Muted ctx₂' := by
  obtain ⟨hlinks, gone, g₁, hgone, rfl, rfl, hok⟩ := yields_normalize.1 hg
  have hm := h.dropped gone
  refine ⟨ctx.dropped gone, yields_normalize.2 ⟨?_, gone, g₁.bare, ?_, ?_, rfl, hm.inspect_iff.2 hok⟩, hm⟩
  · rw [← bare_recalculateInputs, linkError?_bare]
    exact hlinks
  · rw [← bare_recalculateInputs, removeUnreachable_bare, hgone]
    rfl
  · rw [bare_renumber, bare_closeReturns]

theorem normalize_of_bare (h : ctx.Muted ctx₂) {g₀ : Graph}
    (hg : Yields (Structurer.normalize g.bare) ctx g₀ ctx') :
    ∃ g' ctx₂', Yields (Structurer.normalize g) ctx₂ g' ctx₂' ∧ g₀ = g'.bare ∧ ctx'.Muted ctx₂' := by
  obtain ⟨hlinks, gone, g₁, hgone, rfl, rfl, hok⟩ := yields_normalize.1 hg
  rw [← bare_recalculateInputs] at hlinks hgone
  rw [linkError?_bare] at hlinks
  rw [removeUnreachable_bare] at hgone
  cases hr : g.recalculateInputs.removeUnreachable with
  | error e => rw [hr] at hgone; cases hgone
  | ok r =>
    rw [hr] at hgone
    cases hgone
    have hbare : r.2.bare.closeReturns.renumber = r.2.closeReturns.renumber.bare := by
      rw [bare_renumber, bare_closeReturns]
    have hm := h.dropped r.1
    rw [hbare] at hok ⊢
    exact ⟨_, _, yields_normalize.2 ⟨hlinks, r.1, r.2, hr, rfl, rfl, hm.inspect_iff.1 hok⟩, rfl, hm⟩

end Context.Muted

theorem Graph.Numbered.bare {g : Graph} (h : g.Numbered) : g.bare.Numbered :=
  ⟨by rw [ids_bare]; exact h.nodup, by rw [ids_bare]; exact h.issued⟩

def Structures (ctx : Context) (g : Graph) : Prop := ∃ n ctx', Yields (structureGraph g) ctx n ctx'

theorem structures_iff {ctx : Context} {g : Graph} (hg : g.Numbered) (hf : ctx.Fine) :
    Structures ctx g ↔
      ∃ g' ctx', Yields (normalize g) (ctx.logged (.structuring ctx.signature.display g.size)) g' ctx' := by
  constructor
  · rintro ⟨n, ctx', h⟩
    obtain ⟨_, g', ctx₁, hnormal, _⟩ := yields_structureGraph.1 h
    exact ⟨g', ctx₁, hnormal⟩
  · rintro ⟨g', ctx₁, hnormal⟩
    obtain ⟨n, ctx', h, _⟩ := structureGraph_works hg hf (False.elim : False → _) hnormal
    exact ⟨n, ctx', h⟩

/-- **Structuring succeeds on a graph exactly if it succeeds without comments.** -/
theorem structures_bare_iff {ctx ctx₂ : Context} {g : Graph} (h : ctx.Muted ctx₂) (hg : g.Numbered)
    (hf : ctx.Fine) (hf₂ : ctx₂.Fine) : Structures ctx g.bare ↔ Structures ctx₂ g := by
  rw [structures_iff hg.bare hf, structures_iff hg hf₂]
  have hm := h.logged (.structuring ctx.signature.display g.bare.size)
    (.structuring ctx₂.signature.display g.size)
  constructor
  · rintro ⟨g₀, ctx', hnormal⟩
    obtain ⟨g', ctx₂', hnormal', _⟩ := hm.normalize_of_bare hnormal
    exact ⟨g', ctx₂', hnormal'⟩
  · rintro ⟨g', ctx₂', hnormal⟩
    obtain ⟨ctx', hnormal', _⟩ := hm.normalize hnormal
    exact ⟨g'.bare, ctx', hnormal'⟩

end Structurer
