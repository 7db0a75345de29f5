/-
**Typed code put together.**

The rules and strategies put new code together from the code of nodes.  Whether the result passes the
stack check follows from what is known of the parts: each part *leads* from one stack to another, or
it *stops*, which means that its end is never reached.

Two bodies count as the same code if their constants are equal as numbers, and the two zeros are equal
as numbers but not the same.  So a regime may ask for more than the stack check does: that zero is
always written with the positive sign.
-/

import Structurer.Proofs.Chart
import Structurer.Proofs.Leniency

namespace Structurer

open Fallible List Checker
open Number (Binary)
open StackType (Fits)

variable {b : Body} {i : Instruction} {c : Checker} {stack st top : StackType} {id : LocalId}
  {v : LocalVariable} {frame : LoopFrame}

/-! ### Plain code -/

def Number.Binary.Plain {f : Number.Format} : Binary f → Prop
  | .finite n s e => s = 0 → n = false ∧ e = f.least
  | _ => True

mutual

/-- Has zero the positive sign wherever an instruction mentions it? -/
def Instruction.Plain : Instruction → Prop
  | .f32Const v => v.Plain
  | .f64Const v => v.Plain
  | .cond _ _ t e => Body.Plain t ∧ Body.Plain e
  | .loop _ _ _ b => Body.Plain b
  | .switch _ cases => Body.CasesPlain cases
  | _ => True

def Body.Plain : List Instruction → Prop
  | [] => True
  | i :: is => Instruction.Plain i ∧ Body.Plain is

def Body.CasesPlain : List (List Instruction) → Prop
  | [] => True
  | b :: bs => Body.Plain b ∧ Body.CasesPlain bs

end

theorem Body.plain_iff : Body.Plain b ↔ ∀ i ∈ b, i.Plain := by
  induction b with
  | nil => simp [Body.Plain]
  | cons i is ih => simp [Body.Plain, ih]

theorem Body.casesPlain_iff {bs : List Body} : Body.CasesPlain bs ↔ ∀ b ∈ bs, Body.Plain b := by
  induction bs with
  | nil => simp [Body.CasesPlain]
  | cons b bs ih => simp [Body.CasesPlain, ih]

theorem Body.plain_append {a : Body} : Body.Plain (a ++ b) ↔ Body.Plain a ∧ Body.Plain b := by
  simp only [Body.plain_iff, mem_append]
  exact ⟨fun h => ⟨fun i hi => h i (.inl hi), fun i hi => h i (.inr hi)⟩,
    fun h i hi => hi.elim (h.1 i) (h.2 i)⟩

theorem Body.plain_real (h : Body.Plain b) : Body.Plain b.real :=
  Body.plain_iff.2 fun i hi => Body.plain_iff.1 h i (mem_filter.1 hi).1

theorem Body.plain_singleton : Body.Plain [i] ↔ i.Plain := by
  simp [Body.Plain]

theorem Checker.typeBody_comments {loops : List LoopFrame} (h : b.hasNoCode = true) :
    c.typeBody loops stack b = some (some stack) := by
  induction b with
  | nil => exact typeBody_nil
  | cons i is ih =>
    simp only [Body.hasNoCode, all_cons, Bool.and_eq_true] at h
    obtain ⟨hi, his⟩ := h
    cases i with
    | comment text =>
      have hi : c.typeInstruction loops stack (.comment text) = some (some stack) := rfl
      rw [typeBody_cons_of_some hi]
      exact ih his
    | _ => cases hi

/-! ### What is asked of code -/

/-- What is asked of code: that it passes a stack check inside some loops, and perhaps that it is
plain. -/
structure Regime where
  checker : Checker
  /-- The loops around the code, innermost first. -/
  loops : List LoopFrame
  /-- Must code be plain? -/
  plain : Prop

def Context.regime (ctx : Context) (plain : Prop) : Regime :=
  ⟨{ ctx.checker with outerLoops := [] }, ctx.checker.frames, plain⟩

namespace Regime

abbrev Lacks (R : Regime) (label : LoopLabel) : Prop := ∀ frame ∈ R.loops, frame.label ≠ label

def inLoop (R : Regime) (label : LoopLabel) (params : StackType) : Regime :=
  { R with loops := ⟨label, params⟩ :: R.loops }

abbrev Fits (R : Regime) (a b : StackType) : Prop := StackType.Fits R.checker.strict a b

/-- Code that starts with `stack` and has `out` on the stack at its end, if the end is reached. -/
structure Leads (R : Regime) (stack : StackType) (body : Body) (out : StackType) : Prop where
  types : ∃ r, R.checker.typeBody R.loops stack body = some r ∧ ∀ st, r = some st → R.Fits st out
  plain : R.plain → Body.Plain body

/-- Code that starts with `stack` and whose end is never reached. -/
structure Stops (R : Regime) (stack : StackType) (body : Body) : Prop where
  types : R.checker.typeBody R.loops stack body = some none
  plain : R.plain → Body.Plain body

/-- What one regime asks for and gets, the other one is content with. -/
structure Le (R R' : Regime) : Prop where
  checker : Checker.Le R.checker R'.checker
  loops : LoopsLe R.loops R'.loops
  plain : R'.plain → R.plain

section Assembly

variable {R : Regime} {stack stack' mid out out' params results : StackType} {a b t e : Body}
  {label : LoopLabel}

theorem Leads.typeBlock (h : R.Leads stack b out) :
    ∃ flow, R.checker.typeBlock R.loops stack out b = some flow := by
  obtain ⟨r, hr, hst⟩ := h.types
  cases r with
  | none => exact ⟨.terminates, typeBlock_eq_some_iff.2 (.inl ⟨hr, rfl⟩)⟩
  | some st =>
    exact ⟨.fallsThrough, typeBlock_eq_some_iff.2 (.inr ⟨st, hr, hst st rfl, rfl⟩)⟩

theorem leads_of_typeBlock {flow : Flow} (h : R.checker.typeBlock R.loops stack out b = some flow)
    (hp : R.plain → Body.Plain b) : R.Leads stack b out := by
  refine ⟨?_, hp⟩
  rcases typeBlock_eq_some_iff.1 h with ⟨hr, _⟩ | ⟨st, hr, hf, _⟩
  · exact ⟨none, hr, fun _ hs => by cases hs⟩
  · exact ⟨some st, hr, fun _ hs => by cases hs; exact hf⟩

theorem Stops.typeBlock (h : R.Stops stack b) (out : StackType) :
    R.checker.typeBlock R.loops stack out b = some .terminates :=
  typeBlock_eq_some_iff.2 (.inl ⟨h.types, rfl⟩)

theorem Stops.leads (h : R.Stops stack b) (out : StackType) : R.Leads stack b out :=
  ⟨⟨none, h.types, fun _ hst => by cases hst⟩, h.plain⟩

theorem Leads.nil (stack : StackType) : R.Leads stack [] stack :=
  ⟨⟨some stack, typeBody_nil, fun st hst => by cases hst; exact .refl _ _⟩, fun _ => trivial⟩

theorem Leads.fits (h : R.Leads stack b out) (hin : R.Fits stack' stack) (hout : R.Fits out out') :
    R.Leads stack' b out' := by
  obtain ⟨r, hr, hst⟩ := h.types
  obtain ⟨r', hr', hrel⟩ := typeBody_of_fits hin hr
  refine ⟨⟨r', hr', fun st hs => ?_⟩, h.plain⟩
  subst hs
  cases hrel with
  | some hf => exact (hf.trans (hst _ rfl)).trans hout

theorem Stops.fits (h : R.Stops stack b) (hin : R.Fits stack' stack) : R.Stops stack' b := by
  obtain ⟨r', hr', hrel⟩ := typeBody_of_fits hin h.types
  cases hrel
  exact ⟨hr', h.plain⟩

theorem Leads.append (ha : R.Leads stack a mid) (hb : R.Leads mid b out) :
    R.Leads stack (a ++ b) out := by
  have hp : R.plain → Body.Plain (a ++ b) := fun hz => Body.plain_append.2 ⟨ha.plain hz, hb.plain hz⟩
  obtain ⟨r, hr, hst⟩ := ha.types
  cases r with
  | none => exact ⟨⟨none, typeBody_append_of_none hr b, fun _ hs => by cases hs⟩, hp⟩
  | some st =>
    have hb' := hb.fits (hst st rfl) (.refl _ _)
    refine ⟨?_, hp⟩
    rw [typeBody_append_of_some hr]
    exact hb'.types

theorem Leads.stops (ha : R.Leads stack a mid) (hb : R.Stops mid b) : R.Stops stack (a ++ b) := by
  have hp : R.plain → Body.Plain (a ++ b) := fun hz => Body.plain_append.2 ⟨ha.plain hz, hb.plain hz⟩
  obtain ⟨r, hr, hst⟩ := ha.types
  cases r with
  | none => exact ⟨typeBody_append_of_none hr b, hp⟩
  | some st =>
    refine ⟨?_, hp⟩
    rw [typeBody_append_of_some hr]
    exact (hb.fits (hst st rfl)).types

theorem Stops.append (ha : R.Stops stack a) (hb : R.plain → Body.Plain b) :
    R.Stops stack (a ++ b) :=
  ⟨typeBody_append_of_none ha.types b, fun hz => Body.plain_append.2 ⟨ha.plain hz, hb hz⟩⟩

/-! ### Single instructions -/

theorem leads_singleton (h : R.checker.typeInstruction R.loops stack i = some (some st))
    (hp : R.plain → i.Plain) : R.Leads stack [i] st :=
  ⟨⟨some st, by rw [typeBody_singleton, h], fun _ hs => by cases hs; exact .refl _ _⟩,
    fun hz => Body.plain_singleton.2 (hp hz)⟩

theorem stops_singleton (h : R.checker.typeInstruction R.loops stack i = some none)
    (hp : R.plain → i.Plain) : R.Stops stack [i] :=
  ⟨by rw [typeBody_singleton, h], fun hz => Body.plain_singleton.2 (hp hz)⟩

theorem leads_simple (hs : i.isStructured = false) (hp : i.Plain)
    (h : R.checker.stepSimple R.loops stack i = .ok (some st)) : R.Leads stack [i] st := by
  refine leads_singleton ?_ fun _ => hp
  cases i with
  | cond | loop | switch => cases hs
  | _ => exact toOption_eq_some_iff.2 h

theorem stops_simple (hs : i.isStructured = false) (hp : i.Plain)
    (h : R.checker.stepSimple R.loops stack i = .ok none) : R.Stops stack [i] := by
  refine stops_singleton ?_ fun _ => hp
  cases i with
  | cond | loop | switch => cases hs
  | _ => exact toOption_eq_some_iff.2 h

theorem leads_comments (h : b.hasNoCode = true) : R.Leads stack b stack := by
  refine ⟨⟨some stack, typeBody_comments h, fun st hst => by cases hst; exact .refl _ _⟩,
    fun _ => Body.plain_iff.2 fun i hi => ?_⟩
  have hi := all_eq_true.1 h i hi
  cases i with
  | comment text => trivial
  | _ => cases hi

theorem leads_i32Const (v : Int32) : R.Leads stack [.i32Const v] (stack ++ [.i32]) :=
  leads_simple rfl trivial rfl

theorem leads_drop (ty : ValueType) : R.Leads (stack ++ [ty]) [.drop] stack :=
  leads_simple rfl trivial (stepSimple_drop_iff.2 ⟨stack, ty, rfl, rfl⟩)

theorem leads_localGet (h : R.checker.locals.get? id = some v) :
    R.Leads stack [.localGet id] (stack ++ [v.valueType]) :=
  leads_simple rfl trivial
    (bind_eq_ok_iff.2 ⟨v.valueType, localType_eq_ok_iff.2 ⟨v, h, rfl⟩, rfl⟩)

theorem leads_localSet (h : R.checker.locals.get? id = some v) :
    R.Leads (stack ++ [v.valueType]) [.localSet id] stack :=
  leads_simple rfl trivial
    (bind_eq_ok_iff.2 ⟨v.valueType, localType_eq_ok_iff.2 ⟨v, h, rfl⟩,
      bind_eq_ok_iff.2 ⟨stack, pop_eq_ok_iff.2 ⟨[v.valueType], rfl, .refl _ _⟩, rfl⟩⟩)

theorem leads_numeric (op : NumericOp) :
    R.Leads (stack ++ op.inputs) [.numeric op] (stack ++ [op.output]) :=
  leads_simple rfl trivial
    (bind_eq_ok_iff.2 ⟨stack, pop_eq_ok_iff.2 ⟨op.inputs, rfl, .refl _ _⟩, rfl⟩)

theorem stops_unreachable : R.Stops stack [.unreachable] := stops_simple rfl trivial rfl

theorem checkJump_eq_ok (h : R.loops.find? (·.label == label) = some frame) (below : StackType)
    (hf : R.Fits top frame.params) : R.checker.checkJump R.loops (below ++ top) label = .ok () :=
  checkJump_eq_ok_iff.2 ⟨frame, h, below, top, rfl, hf⟩

theorem stops_br (h : R.loops.find? (·.label == label) = some frame)
    (hf : R.Fits stack frame.params) : R.Stops stack [.br label] :=
  stops_simple rfl trivial (bind_eq_ok_iff.2 ⟨(), checkJump_eq_ok h [] hf, rfl⟩)

theorem leads_brIf (h : R.loops.find? (·.label == label) = some frame)
    (hf : R.Fits stack frame.params) : R.Leads (stack ++ [.i32]) [.brIf label] stack :=
  leads_simple rfl trivial (bind_eq_ok_iff.2
    ⟨stack, pop_eq_ok_iff.2 ⟨[.i32], rfl, .refl _ _⟩,
      bind_eq_ok_iff.2 ⟨(), checkJump_eq_ok h [] hf, rfl⟩⟩)

theorem find?_inLoop (R : Regime) (label : LoopLabel) (params : StackType) :
    (R.inLoop label params).loops.find? (·.label == label) = some ⟨label, params⟩ := by
  simp [inLoop]

theorem Fits.stops_br (hf : R.Fits stack params) (label : LoopLabel) :
    (R.inLoop label params).Stops stack [.br label] :=
  Regime.stops_br (find?_inLoop R label params) hf

theorem Fits.leads_brIf (hf : R.Fits stack params) (label : LoopLabel) :
    (R.inLoop label params).Leads (stack ++ [.i32]) [.brIf label] stack :=
  Regime.leads_brIf (find?_inLoop R label params) hf

/-! ### Nested bodies -/

theorem Leads.cond_above (ht : R.Leads params t results) (he : R.Leads params e results)
    (below : StackType) :
    R.Leads (below ++ params ++ [.i32]) [.cond params results t e] (below ++ results) := by
  have hp : R.plain → (Instruction.cond params results t e).Plain :=
    fun hz => ⟨ht.plain hz, he.plain hz⟩
  obtain ⟨flow, hflow⟩ := ht.typeBlock
  obtain ⟨flow', hflow'⟩ := he.typeBlock
  have hi := typeInstruction_cond_iff.2 ⟨below ++ params,
    pop?_eq_some_iff.2 ⟨[.i32], rfl, .refl _ _⟩, below,
    pop?_eq_some_iff.2 ⟨params, rfl, .refl _ _⟩, flow, hflow, flow', hflow', rfl⟩
  cases hj : flow.join flow' with
  | terminates =>
    rw [hj] at hi
    exact (stops_singleton hi hp).leads _
  | fallsThrough =>
    rw [hj] at hi
    exact leads_singleton hi hp

theorem Leads.cond (ht : R.Leads params t results) (he : R.Leads params e results) :
    R.Leads (params ++ [.i32]) [.cond params results t e] results :=
  ht.cond_above he []

theorem Stops.cond (ht : R.Stops params t) (he : R.Stops params e) (results : StackType) :
    R.Stops (params ++ [.i32]) [.cond params results t e] :=
  stops_singleton (typeInstruction_cond_iff.2 ⟨params,
    pop?_eq_some_iff.2 ⟨[.i32], rfl, .refl _ _⟩, [], pop?_eq_some_iff.2 ⟨params, rfl, .refl _ _⟩,
    .terminates, ht.typeBlock results, .terminates, he.typeBlock results, rfl⟩) fun hz => ⟨ht.plain hz, he.plain hz⟩

theorem Leads.loop (h : (R.inLoop label params).Leads params b results) :
    R.Leads params [.loop label params results b] results := by
  obtain ⟨flow, hflow⟩ := h.typeBlock
  have hi := typeInstruction_loop_iff.2
    ⟨[], pop?_eq_some_iff.2 ⟨params, rfl, .refl _ _⟩, flow, hflow, rfl⟩
  cases flow with
  | terminates => exact (stops_singleton hi h.plain).leads _
  | fallsThrough => exact leads_singleton hi h.plain

theorem Stops.loop (h : (R.inLoop label params).Stops params b) (results : StackType) :
    R.Stops params [.loop label params results b] :=
  stops_singleton (typeInstruction_loop_iff.2
    ⟨[], pop?_eq_some_iff.2 ⟨params, rfl, .refl _ _⟩, .terminates, h.typeBlock results, rfl⟩)
    h.plain

theorem Stops.switch {selector : LocalId} {cases : List Body}
    (hs : R.checker.locals.get? selector = some v) (hv : v.valueType = .i32)
    (h : ∀ b ∈ cases, R.Stops [] b) : R.Stops stack [.switch selector cases] := by
  have hcases : R.checker.typeCases R.loops cases = some .terminates := by
    clear hs hv
    induction cases with
    | nil => simp [typeCases]
    | cons b bs ih =>
      exact typeCases_cons_iff.2 ⟨.terminates, (h b (.head _)).typeBlock [],
        .terminates, ih fun b hb => h b (.tail _ hb), rfl⟩
  refine stops_singleton (typeInstruction_switch_iff.2
    ⟨checkSelector_eq_ok_iff.2 ⟨v, hs, by rw [hv]; exact ValueType.fits_refl _ _⟩,
    .terminates, hcases, rfl⟩) fun hz => ?_
  exact Body.casesPlain_iff.2 fun b hb => (h b hb).plain hz

/-! ### Regimes that are content with more -/

theorem le_inLoop (h : R.Lacks label) (params : StackType) : Le R (R.inLoop label params) :=
  ⟨.refl _, .of_not_mem h, id⟩

theorem Fits.mono {R' : Regime} (h : Le R R') (hf : R.Fits stack out) : R'.Fits stack out :=
  StackType.Fits.weaken h.checker.strict hf

theorem Leads.mono {R' : Regime} (h : Le R R') (hb : R.Leads stack b out) : R'.Leads stack b out := by
  obtain ⟨r, hr, hst⟩ := hb.types
  exact ⟨⟨r, typeBody_mono h.checker h.loops b hr, fun st hs => (hst st hs).mono h⟩,
    fun hz => hb.plain (h.plain hz)⟩

theorem Stops.mono {R' : Regime} (h : Le R R') (hb : R.Stops stack b) : R'.Stops stack b :=
  ⟨typeBody_mono h.checker h.loops b hb.types, fun hz => hb.plain (h.plain hz)⟩

end Assembly

end Regime

/-! ### Typed blocks and charts -/

def Block.Typed (R : Regime) (b : Block) : Prop :=
  match b.exit with
  | .seq _ => R.Leads b.inputStack b.body b.outputStack
  | .branch _ _ => R.Leads b.inputStack b.body (b.outputStack ++ [.i32])
  | .ret => R.Stops b.inputStack b.body

/-- The blocks of a chart fit their stacks, and their edges fit those of their targets. -/
structure Chart.Typed (R : Regime) (G : Chart) : Prop where
  blocks : ∀ {id b}, G.block? id = some b → b.Typed R
  edges : ∀ {id b out b'}, G.block? id = some b → out ∈ b.exit.outputs → G.block? out = some b' →
    R.Fits b.outputStack b'.inputStack

namespace Block.Typed

variable {R R' : Regime} {b : Block}

theorem seq (h : b.Typed R) {next : NodeId} (he : b.exit = .seq next) :
    R.Leads b.inputStack b.body b.outputStack := by
  unfold Block.Typed at h
  rw [he] at h
  exact h

theorem branch (h : b.Typed R) {t f : NodeId} (he : b.exit = .branch t f) :
    R.Leads b.inputStack b.body (b.outputStack ++ [.i32]) := by
  unfold Block.Typed at h
  rw [he] at h
  exact h

theorem ret (h : b.Typed R) (he : b.exit = .ret) : R.Stops b.inputStack b.body := by
  unfold Block.Typed at h
  rw [he] at h
  exact h

theorem types (h : b.Typed R) : ∃ r, R.checker.typeBody R.loops b.inputStack b.body = some r := by
  cases he : b.exit with
  | seq n => exact (h.seq he).types.imp fun r hr => hr.1
  | branch n m => exact (h.branch he).types.imp fun r hr => hr.1
  | ret => exact ⟨none, (h.ret he).types⟩

theorem plain (h : b.Typed R) (hz : R.plain) : Body.Plain b.body := by
  cases he : b.exit with
  | seq next => exact (h.seq he).plain hz
  | branch t f => exact (h.branch he).plain hz
  | ret => exact (h.ret he).plain hz

theorem mono (hR : Regime.Le R R') (h : b.Typed R) : b.Typed R' := by
  unfold Block.Typed
  cases he : b.exit with
  | seq next => exact (h.seq he).mono hR
  | branch t f => exact (h.branch he).mono hR
  | ret => exact (h.ret he).mono hR

theorem map (h : b.Typed R) (f : NodeId → NodeId) : (b.withExit (b.exit.map f)).Typed R := by
  unfold Block.Typed
  cases he : b.exit with
  | seq next => exact h.seq he
  | branch t f => exact h.branch he
  | ret => exact h.ret he

end Block.Typed

theorem Chart.Typed.mono {R R' : Regime} (hR : Regime.Le R R') {G : Chart} (h : G.Typed R) :
    G.Typed R' where
  blocks hb := (h.blocks hb).mono hR
  edges hb hout hb' := (h.edges hb hout hb').mono hR

theorem checkNode_eq_ok_iff_typed {n : Node} :
    c.checkNode n = .ok () ↔ n.block.Typed ⟨c, c.frames, False⟩ := by
  have none : (⟨c, c.frames, False⟩ : Regime).plain → Body.Plain n.body := False.elim
  rw [checkNode_eq_ok_iff]
  simp only [checkBody_eq_ok_iff]
  unfold Block.Typed nodeResults
  simp only [Node.block_exit, Node.block_body, Node.block_inputStack, Node.block_outputStack]
  cases he : n.exit with
  | seq | branch =>
    constructor
    · rintro ⟨flow, h, _⟩
      exact Regime.leads_of_typeBlock h none
    · intro h
      exact h.typeBlock.imp fun flow h => ⟨h, by simp⟩
  | ret =>
    constructor
    · rintro ⟨flow, hflow, hne⟩
      cases flow with
      | terminates =>
        rcases typeBlock_eq_some_iff.1 hflow with ⟨h, _⟩ | ⟨_, _, _, h⟩
        · exact ⟨h, none⟩
        · cases h
      | fallsThrough => exact absurd ⟨rfl, rfl⟩ hne
    · intro h
      exact ⟨.terminates, h.typeBlock c.methodResults, fun hne => by cases hne.2⟩

/-! ### The check of a graph -/

namespace Graph

variable {g : Graph}

theorem Tidy.linkError?_eq_none_iff (hg : g.Tidy) (hne : g.nodes ≠ []) :
    g.linkError? = none ↔ g.chart.Closed := by
  have hlive : ∀ id, g.chart.Live id ↔ g.contains id = true := by
    intro id
    rw [live_iff_mem, contains_iff]
  have hnodes : ∀ id n, (id, n) ∈ g.nodes ↔ g.get? id = some n := fun id n =>
    (get?_eq_some_iff hg.nodup).symm
  unfold linkError?
  constructor
  · intro h
    split at h
    · cases h
    · next hentry =>
        have he : g.chart.Live g.entry := by
          rw [hlive]
          simpa [hne] using hentry
        refine ⟨he, ?_⟩
        rintro p id ⟨b, hb, hout⟩
        obtain ⟨n, hn, rfl⟩ := get?_of_block? hb
        have hp := findSome?_eq_none_iff.1 h (p, n) ((hnodes p n).2 hn)
        have hor := (Option.or_eq_none_iff.1 hp).1
        have herr := findSome?_eq_none_iff.1 hor id hout
        unfold outputError? at herr
        split at herr
        · cases herr
        · next m hm => exact ⟨m.block, block?_of_get? hm⟩
  · intro h
    have hentry : g.contains g.entry = true := (hlive _).1 h.entry
    rw [if_neg (by simp [hentry])]
    refine findSome?_eq_none_iff.2 ?_
    rintro ⟨id, n⟩ hmem
    have hn := (hnodes id n).1 hmem
    refine Option.or_eq_none_iff.2 ⟨findSome?_eq_none_iff.2 ?_, findSome?_eq_none_iff.2 ?_⟩
    · intro out hout
      have htarget : g.chart.Targets id out := (targets_iff_of_get? hn).2 hout
      obtain ⟨b, hb⟩ := h.targets id out htarget
      obtain ⟨m, hm, rfl⟩ := get?_of_block? hb
      have hmem' : id ∈ m.inputs := (hg.mem_inputs_iff hm).2 htarget
      have hc : m.inputs.contains id = true := by
        unfold NodeSet.contains
        simpa using (show id ∈ m.inputs.toList from hmem')
      simp [outputError?, hm, hc]
    · intro p hp
      obtain ⟨b, hb, hout⟩ := (hg.mem_inputs_iff hn).1 hp
      obtain ⟨m, hm, rfl⟩ := get?_of_block? hb
      have ht : m.exit.targets id = true := targets_iff.2 hout
      simp [inputError?, hm, ht]

end Graph

/-- **The check of a graph.**  A tidy graph passes it if its chart is closed and typed. -/
theorem Context.inspect_eq_ok_iff {ctx : Context} {g : Graph} (hg : g.Tidy) (hne : g.nodes ≠ []) :
    ctx.inspect g = .ok () ↔ g.chart.Closed ∧ g.chart.Typed (ctx.regime False) := by
  have hnodes : ∀ {id n}, (id, n) ∈ g.nodes ↔ g.get? id = some n :=
    (Graph.get?_eq_some_iff hg.nodup).symm
  have hedges : g.chart.Closed → (g.edgeMismatch? ctx.settings.strictReferences = .ok none ↔
      ∀ {id b out b'}, g.chart.block? id = some b → out ∈ b.exit.outputs →
        g.chart.block? out = some b' → (ctx.regime False).Fits b.outputStack b'.inputStack) := by
    intro hC
    rw [Graph.edgeMismatch?_eq_none_iff]
    constructor
    · intro h id b out b' hb hout hb'
      obtain ⟨n, hn, rfl⟩ := Graph.get?_of_block? hb
      obtain ⟨m, hm, hfits⟩ := h (id, n) (hnodes.2 hn) out hout
      cases (Graph.block?_of_get? hm).symm.trans hb'
      exact hfits
    · rintro h ⟨id, n⟩ he out hout
      have hb := Graph.block?_of_get? (hnodes.1 he)
      obtain ⟨b', hb'⟩ := hC.targets id out ⟨_, hb, hout⟩
      obtain ⟨m, hm, rfl⟩ := Graph.get?_of_block? hb'
      exact ⟨m, hm, h hb hout hb'⟩
  have hle : Regime.Le ⟨ctx.checker, ctx.checker.frames, False⟩ (ctx.regime False) :=
    ⟨⟨fun _ _ h => h, rfl, id⟩, .refl _, id⟩
  have hge : Regime.Le (ctx.regime False) ⟨ctx.checker, ctx.checker.frames, False⟩ :=
    ⟨⟨fun _ _ h => h, rfl, id⟩, .refl _, id⟩
  have hblocks : ctx.checker.checkNodes g = .ok () ↔
      ∀ {id b}, g.chart.block? id = some b → b.Typed (ctx.regime False) := by
    rw [checkNodes_eq_ok_iff]
    constructor
    · intro h id b hb
      obtain ⟨n, hn, rfl⟩ := Graph.get?_of_block? hb
      exact (checkNode_eq_ok_iff_typed.1 (h (id, n) (hnodes.2 hn))).mono hle
    · rintro h ⟨id, n⟩ he
      exact checkNode_eq_ok_iff_typed.2 ((h (Graph.block?_of_get? (hnodes.1 he))).mono hge)
  unfold Context.inspect
  have hlinks := hg.linkError?_eq_none_iff hne
  cases hl : g.linkError? with
  | some e =>
    rw [hl] at hlinks
    simp [← hlinks]
  | none =>
    have hC := hlinks.1 hl
    replace hedges := hedges hC
    obtain ⟨r, hr, _⟩ := Graph.edgeMismatch?_works hl ctx.settings.strictReferences
    rw [hr] at hedges ⊢
    cases r with
    | some e =>
      simp only [reduceCtorEq, Except.ok.injEq, false_iff] at hedges ⊢
      exact fun h => hedges h.2.edges
    | none =>
      simp only [mapError_eq_ok_iff, hblocks]
      exact ⟨fun h => ⟨hC, h, hedges.1 rfl⟩, fun h => h.2.blocks⟩

end Structurer
