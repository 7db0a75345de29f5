/-
**Structuring always succeeds, and nobody can tell.**

A graph that can be brought into a consistent state can be structured: no step of the work finds the
graph broken, and the node that comes out passes the check.  Whether the work is checked after every step
makes no difference.  Under strict references the code of that node behaves as the graph does.
-/

import Structurer.Proofs.Normal
import Structurer.Proofs.Solver

namespace Structurer

open Engine Machine Chart

variable {g g' : Graph} {ctx ctx' ctx₁ : Context} {n : Node} {plain : Prop} {r : Result}

theorem Solves.checkNode (h : Solves plain ctx g n ctx') : ctx'.checker.checkNode n = .ok () := by
  refine checkNode_eq_ok_iff_typed.2 (Block.Typed.mono (R := ctx'.regime plain) ?_ ?_)
  · exact ⟨⟨fun _ _ h => h, rfl, id⟩, .refl _, False.elim⟩
  · have hexit : n.block.exit = .ret := h.exit
    rw [Block.Typed, hexit]
    exact h.stops

/-- **A graph in a consistent state is structured.** -/
theorem structureGraph_works (hg : g.Numbered) (hf : ctx.Fine)
    (hp : plain → ∀ e ∈ g.nodes, Body.Plain e.2.body)
    (h : Yields (normalize g) (ctx.logged (.structuring ctx.signature.display g.size)) g' ctx₁) :
    ∃ n ctx', Yields (structureGraph g) ctx n ctx' ∧ Yields (solve g') ctx₁ n ctx' ∧
      Solves plain ctx₁ g' n ctx' := by
  obtain ⟨hnormal, hsound, hgrows, _⟩ := normalize_spec hg hp h
  have hf₁ : ctx₁.Fine := ((Context.grows_logged ctx _).trans hgrows).fine hf
  obtain ⟨n, ctx', hy, hsolves⟩ := solve_works hf₁ hsound
  obtain ⟨b, hb⟩ := hsound.closed.entry
  obtain ⟨b₀, hb₀, _⟩ := hnormal.block hb
  have hne : g.nodes ≠ [] := by
    intro hnil
    have hmem := Graph.live_iff_mem.1 ⟨b₀, hb₀⟩
    simp [Graph.ids, hnil] at hmem
  exact ⟨n, ctx', yields_structureGraph.2 ⟨hne, g', ctx₁, h, hy, hsolves.checkNode⟩, hy, hsolves⟩

/-! ### Contexts that make no difference -/

def slotTable : Locals := ⟨#[⟨"n", .i32⟩, ⟨"s0i32", .i32⟩], [⟨0, .i32, ⟨1⟩⟩]⟩

theorem valid_slotTable : slotTable.Valid :=
  ⟨by simp [slotTable, Locals.get?], by simp [slotTable]⟩

theorem Machine.Refines.exists_related {P : State → State → Prop} {x : Option Result}
    (h : Refines P x (some r)) (hx : x ≠ some .stuck) : ∃ r₀, x = some r₀ ∧ Related P r₀ r := by
  cases h with
  | stuck _ => exact absurd rfl hx
  | ends hrel => exact ⟨_, rfl, hrel⟩

theorem Regime.Stops.ends {R : Regime} {stack : StackType} {b : Body} {w : World} {s : State}
    (h : R.Stops stack b) (hloops : R.loops = []) (ht : HasTypes s.stack stack)
    (hp : Proper R.checker.locals s) (hr : exec w b s = some r) :
    r = .stuck ∨ (∃ t, r = .trapped t) ∨ ∃ t top rest, r = .returned t ∧ t.stack = top ++ rest ∧
      HasTypes top R.checker.methodResults := by
  cases exec_ends w b h.types (List.append_nil _).symm ht hp.fitting hr with
  | next reached _ _ _ => cases reached
  | jump target _ _ _ =>
    rw [hloops] at target
    cases target
  | @returned t top rest stack types _ =>
    rw [List.append_nil] at stack
    exact .inr (.inr ⟨t, top, rest, rfl, stack, types⟩)
  | @trapped t _ => exact .inr (.inl ⟨t, rfl⟩)
  | stuck _ => exact .inl rfl

section Faithful

variable {s s₀ : State} {b : Block} {w : World} {r : Result}

theorem Solves.ends (h : Solves True ctx g n ctx') (hopen : ctx.labels.openLoops = [])
    (hstrict : ctx.settings.strictReferences = true) (hb : g.chart.block? g.entry = some b)
    (hle : Le s₀ s) (ht : HasTypes s₀.stack b.inputStack) (hp : Proper ctx'.locals s₀)
    (hsound : exec w n.body s₀ ≠ some .stuck) (hr : exec w n.body s = some r) :
    (∃ t, r = .trapped t) ∨ ∃ t top rest, r = .returned t ∧ t.stack = top ++ rest ∧
      HasTypes top ctx.signature.results := by
  have hloops : (ctx'.regime True).loops = [] := by
    show ctx'.checker.frames = []
    simp [Checker.frames, Context.checker, h.grows.openLoops, hopen]
  have htypes : HasTypes s₀.stack n.inputStack := by
    have hfits : StackType.Fits ctx.settings.strictReferences n.inputStack b.inputStack := h.input hb
    rw [hstrict] at hfits
    rwa [hfits.eq_of_strict]
  have hrun := exec_le w n.body hle
  rw [hr] at hrun
  obtain ⟨r₀, hr₀, hrel⟩ := hrun.exists_related hsound
  rcases h.stops.ends hloops htypes hp hr₀ with rfl | ⟨t, rfl⟩ | ⟨t, top, rest, rfl, hstack, hresults⟩
  · exact absurd hr₀ hsound
  · cases hrel
    exact .inl ⟨_, rfl⟩
  · cases hrel with
    | returned hle' =>
      refine .inr ⟨_, top, rest, rfl, hle'.stack_eq.trans hstack, ?_⟩
      rw [← h.grows.signature]
      exact hresults

/-- **Code that solves a graph behaves as the graph.** -/
theorem Solves.faithful (h : Solves True ctx g n ctx') (hs : g.Sound ctx True)
    (hstrict : ctx.settings.strictReferences = true) (hsize : g.size ≤ 2 ^ 31)
    (hheedless : g.chart.Heedless ctx.locals ctx.locals.IsSlot)
    (hb : g.chart.block? g.entry = some b) (ht : HasTypes s.stack b.inputStack)
    (hholds : Holds ctx.locals s) :
    SameBehaviour ctx.signature.results.length (fun w => g.run w g.entry s) (fun w => exec w n.body s) ∧
      (ctx.labels.openLoops = [] → ∀ w r, exec w n.body s = some r → (∃ t, r = .trapped t) ∨
        ∃ t top rest, r = .returned t ∧ t.stack = top ++ rest ∧ HasTypes top ctx.signature.results) := by
  have hheedless' : g.chart.Heedless ctx.locals ctx'.locals.IsSlot := hheedless.of_known fun id var hid =>
    ⟨h.grows.locals.old hid, h.grows.locals.isSlot⟩
  have hfilled : Filled (ctx.regime True) ctx'.locals.IsSlot g.chart (g.entry, s.restrict ctx.locals) :=
    filled_restrict (R := ctx.regime True) hb ht hholds
  have hle : Le ((s.restrict ctx.locals).forget ctx'.locals.IsSlot) s := le_forget.trans le_forget
  have hrun : ∀ w, Refines Le (g.chart.walk ctx'.locals.IsSlot w g.entry (s.restrict ctx.locals))
      (exec w n.body ((s.restrict ctx.locals).forget ctx'.locals.IsSlot)) := fun w =>
    h.refines trivial hstrict hsize _ ctx'.locals.slotsAre_isSlot w _ hfilled.good
  constructor
  · exact sameBehaviour_of_refines (R := ctx.regime True) hs.typed hs.closed hheedless' hb ht hholds
      fun w => (hrun w).le_trans (exec_le w _ hle)
  · intro hopen w r hr
    refine h.ends hopen hstrict hb hle ht ((hfilled.good.proper.mono h.grows.locals.get).forget _) ?_ hr
    intro hstuck
    have hstuck' := hrun w
    rw [hstuck] at hstuck'
    obtain ⟨r₀, _, hrel⟩ := hstuck'.exists_related
      (walk_ne_stuck (R := ctx.regime True) hs.typed hs.closed hheedless' hfilled)
    cases hrel

end Faithful

/-- **Structured code behaves as the graph it was made from.**  References are told from integers, no
zero in the code has the negative sign, no block that the entry reaches heeds what others left in the
variables that the table has already handed out to park values, and there are no more nodes than an
integer of 32 bits can number.  Then nobody can tell a run of the code from a walk over the graph as it
was given: both make the same calls, and both return the same results, trap, or run for ever. -/
theorem structureGraph_sameBehaviour {signature : Signature} {locals : Locals} {settings : Settings}
    {verbosity : Option LogLevel} {entry : Node} {s : State} (numbered : g.Numbered)
    (slots : locals.Valid)
    (heedless : g.chart.reached.Heedless locals locals.IsSlot)
    (plain : ∀ e ∈ g.nodes, Body.Plain e.2.body) (size : g.size ≤ 2 ^ 31)
    (strict : settings.strictReferences = true)
    (structured : Yields (structureGraph g) (.initial signature locals settings verbosity) n ctx')
    (node : g.get? g.entry = some entry) (types : HasTypes s.stack entry.inputStack)
    (holds : Holds locals s) :
    SameBehaviour signature.results.length (fun w => g.run w g.entry s) (fun w => exec w n.body s) ∧
      ∀ w r, exec w n.body s = some r → (∃ t, r = .trapped t) ∨
        ∃ t top rest, r = .returned t ∧ t.stack = top ++ rest ∧ HasTypes top signature.results := by
  have hf : (Context.initial signature locals settings verbosity).Fine :=
    ⟨slots, by simp [Context.initial, Labels.empty]⟩
  obtain ⟨_, g', ctx₁, hnormal, _⟩ := yields_structureGraph.1 structured
  obtain ⟨m, ctx₂, hy, _, hsolves⟩ := structureGraph_works numbered hf (fun _ : True => plain) hnormal
  obtain ⟨rfl, rfl⟩ := hy.unique structured
  obtain ⟨hnorm, hsound, hgrows, hlocals⟩ := normalize_spec numbered (fun _ : True => plain) hnormal
  replace hgrows := (Context.grows_logged _ _).trans hgrows
  replace hlocals : ctx₁.locals = locals := hlocals.trans (by unfold Context.logged; split <;> rfl)
  have hheedless : g'.chart.Heedless ctx₁.locals ctx₁.locals.IsSlot := by
    intro id b hb w s hs ht hstuck
    obtain ⟨b₀, hb₀, rfl⟩ := hnorm.block hb
    rw [hlocals] at hs hstuck
    rw [Block.closed_inputStack] at ht
    have hreached : g.chart.reached.block? id = some b₀ := (if_pos (hnorm.path ⟨_, hb⟩)).trans hb₀
    exact heedless hreached w s hs ht (Block.stuck_closed hstuck)
  obtain ⟨b, hb⟩ := hsound.closed.entry
  obtain ⟨b₀, hb₀, rfl⟩ := hnorm.block hb
  rw [Graph.chart_entry, hnorm.entry, Graph.block?_of_get? node] at hb₀
  cases hb₀
  have hstrict : ctx₁.settings.strictReferences = true := by rw [hgrows.settings]; exact strict
  have hfaithful := hsolves.faithful hsound hstrict (Nat.le_trans hnorm.size size) hheedless hb
    (by rw [Block.closed_inputStack]; exact types) (hlocals.symm ▸ holds)
  have hrun : (fun w => g'.run w g'.entry s) = fun w => g.run w g.entry s :=
    funext fun w => (hnorm.walk_eq _ w s).symm
  rw [hrun, hgrows.signature] at hfaithful
  exact ⟨hfaithful.1, hfaithful.2 hgrows.openLoops⟩

def shortcutGraph (last : Body) : Graph :=
  let n (body : Body) (input output : StackType) (exit : Exit) : Node :=
    { Node.new body input output with exit }
  Graph.recalculateInputs
    ⟨[(⟨0⟩, n [.i32Const 5, .localGet ⟨0⟩] [] [.i32] (.branch ⟨1⟩ ⟨2⟩)),
      (⟨1⟩, n [.localGet ⟨0⟩] [.i32] [.i32] (.branch ⟨3⟩ ⟨2⟩)),
      (⟨2⟩, n [.drop, .i32Const 6] [.i32] [.i32] (.seq ⟨3⟩)), (⟨3⟩, n last [.i32] [] .ret)], 4, ⟨0⟩⟩

def sevenInSlot : State := ⟨[], fun id => some (.i32 (if id = ⟨1⟩ then 7 else 1)), []⟩

theorem holds_sevenInSlot : Holds slotTable sevenInSlot := by
  intro id var hid
  refine ⟨_, rfl, ?_⟩
  obtain ⟨_ | _ | k⟩ := id
  · cases hid
    rfl
  · cases hid
    rfl
  · simp [slotTable, Locals.get?] at hid

def strictSettings : Settings := { Settings.standard with strictReferences := true }

theorem structureGraph_sameBehaviour_shortcutGraph :
    ∃ n ctx', Yields (structureGraph (shortcutGraph [.localSet ⟨1⟩, .localGet ⟨1⟩, .ret]))
        (.initial ⟨"K", "run", "(I)I", [.i32]⟩ slotTable strictSettings none) n ctx' ∧
      slotTable.IsSlot ⟨1⟩ ∧ Holds slotTable sevenInSlot ∧
      SameBehaviour 1
        (fun w => (shortcutGraph [.localSet ⟨1⟩, .localGet ⟨1⟩, .ret]).run w ⟨0⟩ sevenInSlot)
        (fun w => exec w n.body sevenInSlot) ∧
      ∀ w r, exec w n.body sevenInSlot = some r → (∃ t, r = .trapped t) ∨
        ∃ t top rest, r = .returned t ∧ t.stack = top ++ rest ∧ HasTypes top [.i32] := by
  have hplain : ∀ e ∈ (shortcutGraph [.localSet ⟨1⟩, .localGet ⟨1⟩, .ret]).nodes,
      Body.Plain e.2.body := by
    refine List.forall_iff_forall_mem.1 ?_
    exact ⟨⟨trivial, trivial, trivial⟩, ⟨trivial, trivial⟩, ⟨trivial, trivial, trivial⟩,
      trivial, trivial, trivial, trivial⟩
  have hrun : comesTo (structureGraph (shortcutGraph [.localSet ⟨1⟩, .localGet ⟨1⟩, .ret]))
      (.initial ⟨"K", "run", "(I)I", [.i32]⟩ slotTable strictSettings none) (·.exit.isRet) = true := by
    decide +kernel
  obtain ⟨n, ctx', hy, _⟩ := yields_of_comesTo hrun
  refine ⟨n, ctx', hy, ⟨_, .head _, rfl⟩, holds_sevenInSlot, ?_⟩
  refine structureGraph_sameBehaviour ⟨by decide, by decide⟩ valid_slotTable ?_ hplain (by decide) rfl hy
    rfl .nil holds_sevenInSlot
  have hnot : ¬ slotTable.IsSlot ⟨0⟩ := by simp [Locals.IsSlot, slotTable]
  have hread : ∀ {s}, Holds slotTable s → ∃ v, (s.forget slotTable.IsSlot).locals ⟨0⟩ = some v := by
    intro s hs
    obtain ⟨v, hv, _⟩ := hs ⟨0⟩ _ rfl
    exact ⟨v, by rw [State.forget_locals_of_not hnot, hv]⟩
  have hone : ∀ {s : State}, HasTypes s.stack [.i32] → ∃ v, s.stack = [v] := by
    intro s ht
    exact List.length_eq_one_iff.1 (by simpa using ht.length_eq)
  have hbodies : ∀ e ∈ (shortcutGraph [.localSet ⟨1⟩, .localGet ⟨1⟩, .ret]).nodes, ∀ w s,
      Holds slotTable s → HasTypes s.stack e.2.inputStack →
      exec w e.2.body (s.forget slotTable.IsSlot) ≠ some .stuck := by
    refine List.forall_iff_forall_mem.1 ⟨fun w s hs ht => ?_, fun w s hs ht => ?_, fun w s hs ht => ?_,
      fun w s hs ht => ?_⟩
    · obtain ⟨v, hv⟩ := hread hs
      show exec w [.i32Const 5, .localGet ⟨0⟩] _ ≠ _
      simp [exec_cons, execInstruction, simple, State.push, hv]
    · obtain ⟨v, hv⟩ := hread hs
      show exec w [.localGet ⟨0⟩] _ ≠ _
      simp [exec_cons, execInstruction, simple, State.push, hv]
    · obtain ⟨v, hv⟩ := hone ht
      show exec w [.drop, .i32Const 6] _ ≠ _
      simp [exec_cons, execInstruction, simple, hv]
    · obtain ⟨v, hv⟩ := hone ht
      show exec w [.localSet ⟨1⟩, .localGet ⟨1⟩, .ret] _ ≠ _
      simp [exec_cons, execInstruction, simple, hv]
  intro id b hb w s hs ht
  obtain ⟨n, hn, rfl⟩ := Graph.get?_of_block? (block?_of_reached hb)
  exact hbodies _ (Graph.mem_of_lookup hn) w s hs ht

/-- **What is parked in a slot covers what was there.**  A method whose code looks at a stack slot that
its table lists already returns what an edge has parked there, and not what the slot held. -/
theorem structureGraph_parks_over_slots :
    ∃ n ctx', Yields (structureGraph (shortcutGraph [.drop, .localGet ⟨1⟩, .ret]))
        (.initial ⟨"K", "run", "(I)I", [.i32]⟩ slotTable strictSettings none) n ctx' ∧
      slotTable.Valid ∧ Holds slotTable sevenInSlot ∧
      ((shortcutGraph [.drop, .localGet ⟨1⟩, .ret]).run .quiet ⟨0⟩ sevenInSlot).map (Result.outcome 1) =
        some (.returns [.i32 7] []) ∧
      (exec .quiet n.body sevenInSlot).map (Result.outcome 1) = some (.returns [.i32 5] []) := by
  have hrun : comesTo (structureGraph (shortcutGraph [.drop, .localGet ⟨1⟩, .ret]))
      (.initial ⟨"K", "run", "(I)I", [.i32]⟩ slotTable strictSettings none)
      (fun n => (exec .quiet n.body sevenInSlot).map (Result.outcome 1) =
        some (.returns [.i32 5] [])) = true := by
    decide +kernel
  obtain ⟨n, ctx', hy, hbody⟩ := yields_of_comesTo hrun
  refine ⟨n, ctx', hy, valid_slotTable, holds_sevenInSlot, ?_, of_decide_eq_true hbody⟩
  -- the variable is not zero, so both tests are passed
  let step := (shortcutGraph [.drop, .localGet ⟨1⟩, .ret]).chart.step (fun _ => False) .quiet
  have hfirst : step (⟨0⟩, sevenInSlot) = some (.inl (⟨1⟩, sevenInSlot.push (.i32 5))) := by
    refine Eq.trans (step_of_block rfl) ?_
    rw [State.forget_nothing]
    rfl
  have hsecond : step (⟨1⟩, sevenInSlot.push (.i32 5)) =
      some (.inl (⟨3⟩, sevenInSlot.push (.i32 5))) := by
    refine Eq.trans (step_of_block rfl) ?_
    rw [State.forget_nothing]
    rfl
  have hlast : step (⟨3⟩, sevenInSlot.push (.i32 5)) =
      some (.inr (.returned (sevenInSlot.push (.i32 7)))) := by
    refine Eq.trans (step_of_block rfl) ?_
    rw [State.forget_nothing]
    rfl
  show (Iteration.iter step _).map _ = _
  rw [Iteration.iter_of_inl hfirst, Iteration.iter_of_inl hsecond, Iteration.iter_of_inr hlast]
  rfl

end Structurer
