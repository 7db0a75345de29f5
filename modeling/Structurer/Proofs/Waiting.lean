/-
**Walks that wait.**

Code that is laid out side by side cannot hand values on by the operand stack.  While such code is
between two blocks, the stack is empty, the stack that the walk has is parked in slots, and variables
of the engine's own, its flags, say where the walk is.  The blocks know nothing of the flags, so they
leave them as they are.
-/

import Structurer.Proofs.Replacement
import Structurer.Proofs.Slots

namespace Structurer

open Iteration Machine List

variable {known ls : Locals} {flag : LocalId} {b' : Block} {R : Regime} {w : World} {s t : State}

namespace Machine

/-- Known variables hold values of their types, and variables that were unknown are as before. -/
structure Spares (known ls : Locals) (s t : State) : Prop where
  proper : Proper ls t
  unknown : ∀ id, known.get? id = none → t.locals id = s.locals id

variable {stack out : StackType} {b : Body}

theorem Proper.setFlag (h : Proper ls s) (hf : known.Flag ls flag) (c : Int32) :
    Proper ls (s.set flag (.i32 c)) := by
  obtain ⟨v, hv, ht⟩ := hf.integer
  exact h.set ⟨v, hv, by rw [ht]; rfl⟩

theorem Proper.fitting_of_extends (h : Proper ls s) (hls : known.Extends ls) : Fitting known s := by
  intro id var v hid hv
  obtain ⟨var', hvar', hhas⟩ := h id v hv
  rw [hls.get hid] at hvar'
  cases hvar'
  exact hhas

theorem Spares.of_leads (hls : R.checker.locals.Extends ls) (h : R.Leads stack b out)
    (ht : HasTypes s.stack stack) (hp : Proper ls s) (hr : exec w b s = some (.next t)) :
    Spares R.checker.locals ls s t := by
  obtain ⟨r, hb, _⟩ := h.types
  cases exec_ends w b hb (append_nil _).symm ht (hp.fitting_of_extends hls) hr with
  | next _ _ _ keeps =>
    refine ⟨fun id v hv => ?_, keeps.unknown⟩
    cases hid : R.checker.locals.get? id with
    | none =>
      rw [keeps.unknown id hid] at hv
      exact hp id v hv
    | some var => exact ⟨var, hls.get hid, keeps.fitting id var v hid hv⟩

end Machine

namespace Chart

variable {K : LocalId → Prop} {G : Chart} {ls' : Locals} {id j out : NodeId} {b : Block}
  {p : NodeId × State} {u : State} {code : Body}

/-- The walk is in front of a block, and its stack is parked. -/
structure Waits (R : Regime) (K : LocalId → Prop) (G : Chart) (ls : Locals) (p : NodeId × State)
    (t : State) : Prop where
  good : Good R G p
  stack : t.stack = []
  calls : t.calls = p.2.calls
  locals : ∀ {id v}, ¬ K id → p.2.locals id = some v → t.locals id = some v
  parks : ∀ {b}, G.block? p.1 = some b → Parks ls b.inputStack p.2.stack t
  proper : Proper ls t

theorem Waits.load (h : Waits R K G ls (id, s) t) (hb : G.block? id = some b)
    (hc : ls.Loads b.inputStack code) :
    exec w code t = some (.next (t.withStack s.stack)) ∧ Le (s.forget K) (t.withStack s.stack) := by
  refine ⟨?_, ?_, h.calls, fun i v hv => ?_⟩
  · rw [exec_loads hc (h.parks hb), h.stack, append_nil]
  · exact (append_nil _).symm
  · obtain ⟨hK, hv⟩ := State.forget_locals_eq_some_iff.1 hv
    exact h.locals hK hv

theorem Waits.of_store (hv : ls.Valid) (hK : ls.SlotsAre K) (hg : Good R G (id, s))
    (hb : G.block? id = some b) (hc : ls.Stores b.inputStack code) (hle : Le (s.forget K) u)
    (hp : Proper ls u) :
    ∃ t, exec w code u = some (.next t) ∧ Waits R K G ls (id, s) t ∧
      ∀ i, ¬ ls.IsSlot i → t.locals i = u.locals i := by
  have hlen : u.stack.length = b.inputStack.length := by
    rw [hle.stack_eq]
    exact (hg.types hb).length
  obtain ⟨t, ht, ha⟩ := exec_stores (w := w) hv hc hlen
  refine ⟨t, ht, ⟨hg, ha.stack, ha.calls.trans hle.calls, ?_, ?_, ?_⟩, ha.others⟩
  · intro i v hi hs
    rw [ha.others i fun hslot => hi (hK.slots hslot)]
    exact hle.locals_eq (State.forget_locals_eq_some_iff.2 ⟨hi, hs⟩)
  · intro b' hb'
    rw [hb] at hb'
    cases hb'
    have := ha.parks
    rwa [hle.stack_eq] at this
  · have htypes : HasTypes u.stack b.inputStack := by
      rw [hle.stack_eq]
      exact hg.types hb
    let R' : Regime := ⟨{ R.checker with locals := ls }, [], False⟩
    exact (Locals.Stores.leads (R := R') hv hc).next htypes hp ht |>.2

theorem Waits.set (h : Waits R K G ls p t) (hf : R.checker.locals.Flag ls flag) (c : Int32) :
    Waits R K G ls p (t.set flag (.i32 c)) where
  good := h.good
  stack := h.stack
  calls := h.calls
  locals := by
    intro i x hi hx
    have hne : i ≠ flag := by
      rintro rfl
      rw [h.good.proper.unknown hf.unknown] at hx
      cases hx
    rw [State.set_locals_of_ne _ _ hne]
    exact h.locals hi hx
  parks hb := by
    refine (h.parks hb).of_slots fun i hi => State.set_locals_of_ne _ _ ?_
    rintro rfl
    exact hf.noSlot hi
  proper := h.proper.setFlag hf c

theorem Waits.clear (h : Waits R K G ls p t) {fs : List LocalId}
    (hfs : ∀ f ∈ fs, R.checker.locals.Flag ls f) :
    Waits R K G ls p (t.setAll (fs.map fun f => (f, .i32 0))) := by
  induction fs generalizing t with
  | nil => exact h
  | cons f fs ih =>
    exact ih (h.set (hfs f mem_cons_self) 0) fun f' hf' => hfs f' (.tail _ hf')

theorem Waits.mono (h : Waits R K G ls p t) (hls : ls.Extends ls') : Waits R K G ls' p t where
  good := h.good
  stack := h.stack
  calls := h.calls
  locals := h.locals
  parks hb := (h.parks hb).mono hls
  proper := h.proper.mono hls.get

theorem Waits.other {P : Chart} (h : Waits R K G ls (id, s) t) (hb : G.block? id = some b)
    (hb' : P.block? j = some b') (hin : b'.inputStack = b.inputStack) :
    Waits R K P ls (j, s) t where
  good := ⟨⟨b', hb', hin ▸ h.good.types hb⟩, h.good.proper⟩
  stack := h.stack
  calls := h.calls
  locals := h.locals
  parks := by
    intro b₀ hb₀
    cases hb'.symm.trans hb₀
    rw [hin]
    exact h.parks hb
  proper := h.proper

/-- A typed chart whose stacks can be parked: a stack that is handed on along an edge is parked and found
again in the same slots. -/
structure Layout (R : Regime) (K : LocalId → Prop) (G : Chart) (ls : Locals) : Prop where
  typed : G.Typed R
  closed : G.Closed
  strict : R.checker.strict = true
  known : R.checker.locals.Extends ls
  valid : ls.Valid
  slots : ls.SlotsAre K

theorem Layout.outputStack_eq (h : Layout R K G ls) (hb : G.block? id = some b)
    (hout : out ∈ b.exit.outputs) (hb' : G.block? out = some b') :
    b.outputStack = b'.inputStack := by
  have hfit : R.Fits b.outputStack b'.inputStack := h.typed.edges hb hout hb'
  unfold Regime.Fits at hfit
  rw [h.strict] at hfit
  exact hfit.eq_of_strict

/-! ### Blocks that run -/

/-- **The code of a block meets the walk and spares what it does not know.** -/
theorem meets_sparing (hT : G.Typed R) (hls : R.checker.locals.Extends ls) (hb : G.block? id = some b)
    (hg : Good R G (id, s)) (hle : Le (s.forget K) t) (hp : Proper ls t) :
    G.Tracks K w (fun a u => a = (id, s) ∧
      (∃ t₁, exec w b.body (s.forget K) = some (.next t₁) ∧ Le t₁ u) ∧
        Spares R.checker.locals ls t u) (id, s) (exec w b.body t) := by
  refine (meets_body hb (exec_le w _ hle)).through ?_
  rintro a u ⟨rfl, t₁, ht₁, hlu⟩ hx
  have htypes : HasTypes t.stack b.inputStack := by
    rw [hle.stack_eq]
    exact hg.types hb
  refine ⟨rfl, ⟨t₁, ht₁, hlu⟩, ?_⟩
  cases he : b.exit with
  | seq n => exact .of_leads hls ((hT.blocks hb).seq he) htypes hp hx
  | branch n m => exact .of_leads hls ((hT.blocks hb).branch he) htypes hp hx
    | ret => exact .of_leads hls (((hT.blocks hb).ret he).leads []) htypes hp hx

end Chart

end Structurer
