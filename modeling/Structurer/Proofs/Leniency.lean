/-
**Checks never change the outcome.**

Two settings only say what is checked: whether references are told from integers, and whether the
graph is checked after every step.  Work that succeeds with more checks comes to the same result with
fewer of them, because nothing but the checks ever asks for these settings.

Two runs are compared: one in a context that asks for more, one in a context that asks for less.
Their logs may differ, everything else is the same step by step.
-/

import Structurer.Proofs.Engine
import Structurer.Proofs.Typing
import Structurer.Structure

namespace Structurer

open Fallible List

variable {ctx ctx' : Context} {leaving : NodeId → Bool} {rule : Rule} {u : Unit} {n : Node}
  {α β σ : Type} {T : ∀ {α : Type}, EngineM α → Prop}

/-! ### Contexts that ask for less -/

/-- A context that asks for no more checks than another, the same in all else but the log. -/
structure Context.Eased (ctx ctx' : Context) : Prop where
  signature : ctx'.signature = ctx.signature
  verbosity : ctx'.verbosity = ctx.verbosity
  locals : ctx'.locals = ctx.locals
  labels : ctx'.labels = ctx.labels
  fallbacks : ctx'.fallbacks = ctx.fallbacks
  duplication : ctx'.settings.allowDuplication = ctx.settings.allowDuplication
  comments : ctx'.settings.comments = ctx.settings.comments
  returnLimit : ctx'.settings.smallReturnLimit = ctx.settings.smallReturnLimit
  fingerprint : ctx'.settings.maxFingerprint = ctx.settings.maxFingerprint
  strict : ctx'.settings.strictReferences = true → ctx.settings.strictReferences = true
  validate : ctx'.settings.validateSteps = true → ctx.settings.validateSteps = true

namespace Context.Eased

theorem logged (h : ctx.Eased ctx') (e e' : Event) : (ctx.logged e).Eased (ctx'.logged e') := by
  unfold Context.logged
  split <;> split <;>
    exact ⟨h.signature, h.verbosity, h.locals, h.labels, h.fallbacks, h.duplication, h.comments,
      h.returnLimit, h.fingerprint, h.strict, h.validate⟩

theorem withLocals (h : ctx.Eased ctx') (locals : Locals) :
    Eased { ctx with locals } { ctx' with locals } :=
  { h with locals := rfl }

theorem withLabels (h : ctx.Eased ctx') (labels : Labels) :
    Eased { ctx with labels } { ctx' with labels } :=
  { h with labels := rfl }

theorem checker (h : ctx.Eased ctx') : Checker.Le ctx.checker ctx'.checker where
  locals id v hv := by
    show ctx'.locals.get? id = some v
    rw [h.locals]
    exact hv
  methodResults := congrArg Signature.results h.signature
  strict := h.strict

theorem frames (h : ctx.Eased ctx') : ctx'.checker.frames = ctx.checker.frames := by
  simp [Checker.frames, Context.checker, h.labels]

end Context.Eased

/-! ### Graphs that pass their checks -/

theorem Graph.edgeMismatch?_eq_none_iff {g : Graph} {strict : Bool} :
    g.edgeMismatch? strict = .ok none ↔ ∀ e ∈ g.nodes, ∀ out ∈ e.2.outputs, ∃ target,
      g.get? out = some target ∧ StackType.Fits strict e.2.outputStack target.inputStack := by
  simp only [edgeMismatch?, findSomeM?_eq_none_iff, node]
  refine forall₂_congr fun e _ => forall₂_congr fun out _ => ?_
  cases g.get? out with
  | none => simp [bind, Except.bind]
  | some target =>
    simp only [ok_bind, Option.some.injEq, exists_eq_left', ← StackType.fits_iff]
    by_cases h : StackType.fits strict e.2.outputStack target.inputStack = true <;>
      simp [h, Pure.pure, Except.pure]

theorem Context.Eased.inspect (h : ctx.Eased ctx') {g : Graph} (hg : ctx.inspect g = .ok ()) :
    ctx'.inspect g = .ok () := by
  unfold Context.inspect at hg ⊢
  cases hlink : g.linkError? with
  | some e => rw [hlink] at hg; cases hg
  | none =>
    rw [hlink] at hg
    rcases hedge : g.edgeMismatch? ctx.settings.strictReferences with f | _ | e
    · rw [hedge] at hg
      cases hg
    · rw [hedge] at hg
      have hedge' : g.edgeMismatch? ctx'.settings.strictReferences = .ok none := by
        refine Graph.edgeMismatch?_eq_none_iff.2 fun e he out hout => ?_
        obtain ⟨target, ht, hfits⟩ := Graph.edgeMismatch?_eq_none_iff.1 hedge e he out hout
        exact ⟨target, ht, hfits.weaken h.strict⟩
      rw [hedge']
      simp only [mapError_eq_ok_iff] at hg ⊢
      exact Checker.checkNodes_eq_ok_iff.2 fun e he =>
        Checker.checkNode_mono h.checker h.frames (Checker.checkNodes_eq_ok_iff.1 hg e he)
    · rw [hedge] at hg
      cases hg

/-! ### Steps -/

namespace Engine

/-- A property that every step of the engine has, and all work put together from such steps.  What
work reads of its context does not depend on what is checked, checks apart. -/
structure Steps (T : ∀ {α : Type}, EngineM α → Prop) : Prop where
  pure : ∀ {α : Type} (a : α), T (Pure.pure a : EngineM α)
  throw : ∀ {α : Type} (e : Failure), T (MonadExcept.throw e : EngineM α)
  lift : ∀ {α : Type} (x : Except Fault α), T (liftM x : EngineM α)
  bind : ∀ {α β : Type} {x : EngineM α} {f : α → EngineM β}, T x → (∀ a, T (f a)) → T (x >>= f)
  reading : ∀ {α : Type} {f : Context → EngineM α}, (∀ ctx, T (f ctx)) →
    (∀ ctx ctx₂ : Context, ctx.Eased ctx₂ → f ctx₂ = f ctx) → T (MonadState.get >>= f)
  emit : ∀ e, T (emit e)
  recordFallback : ∀ fingerprint dump, T (recordFallback fingerprint dump)
  freshLabel : T freshLabel
  freshFlag : ∀ name, T (freshFlag name)
  stackSlot : ∀ depth t, T (stackSlot depth t)
  withLoop : ∀ {α : Type} (label : LoopLabel) {x : EngineM α}, T x → T (withLoop label x)
  violation : ∀ {α : Type} (g : Graph) (message : String),
    T (violation g message >>= fun e => MonadExcept.throw (.error e) : EngineM α)

theorem inlineExits_induction {m : Type → Type} [Monad m] [MonadLiftT (Except Fault) m]
    {T : ∀ {α : Type}, m α → Prop} (hpure : ∀ {α : Type} (a : α), T (pure a : m α))
    (hlift : ∀ {α : Type} (x : Except Fault α), T (liftM x : m α))
    (hbind : ∀ {α β : Type} (x : m α) (f : α → m β), T x → (∀ a, T (f a)) → T (x >>= f))
    {jump : NodeId → m Body} (hjump : ∀ id, T (jump id)) (g : Graph) (id : NodeId) :
    T (inlineExits leaving jump g id) := by
  refine hbind _ _ (hlift _) fun n => ?_
  split
  · split
    · exact hbind _ _ (hjump _) fun _ => hlift _
    · exact hpure _
  · split
    · exact hbind _ _ (hjump _) fun _ => hbind _ _ (hjump _) fun _ => hlift _
    · exact hbind _ _ (hjump _) fun _ => hlift _
    · exact hbind _ _ (hjump _) fun _ => hlift _
    · exact hpure _
  · exact hpure _

namespace Steps

theorem ite (_ : Steps T) {p : Prop} [Decidable p] {x y : EngineM α} (hx : T x) (hy : T y) :
    T (if p then x else y) := by
  split
  · exact hx
  · exact hy

variable (S : Steps T)

include S

theorem mapM {f : α → EngineM β} (hf : ∀ a, T (f a)) (l : List α) : T (l.mapM f) := by
  induction l with
  | nil =>
    rw [mapM_nil]
    exact S.pure _
  | cons a l ih =>
    rw [mapM_cons]
    exact S.bind (hf a) fun _ => S.bind ih fun _ => S.pure _

theorem foldlM {f : β → α → EngineM β} (hf : ∀ b a, T (f b a)) (l : List α) (b : β) :
    T (l.foldlM f b) := by
  induction l generalizing b with
  | nil =>
    rw [foldlM_nil]
    exact S.pure _
  | cons a l ih =>
    rw [foldlM_cons]
    exact S.bind (hf b a) ih

/-! ### Generated code -/

theorem comment (text : String) : T (comment text) :=
  S.reading (fun _ => S.pure _) fun _ _ he => by rw [he.comments]

theorem stackComment (verb : String) (stack : StackType) : T (stackComment verb stack) :=
  S.ite (S.pure _) (S.comment _)

theorem storeStack (stack : StackType) : T (storeStack stack) :=
  S.bind (S.stackComment _ _) fun _ =>
    S.bind (S.mapM (fun _ => S.bind (S.stackSlot _ _) fun _ => S.pure _) _) fun _ => S.pure _

theorem loadStack (stack : StackType) : T (loadStack stack) :=
  S.bind (S.stackComment _ _) fun _ =>
    S.bind (S.mapM (fun _ => S.bind (S.stackSlot _ _) fun _ => S.pure _) _) fun _ => S.pure _

/-! ### Rules of the reducer -/

variable (g : Graph)

theorem removeTrivialBranch : T (Reduce.removeTrivialBranch g) := by
  unfold Reduce.removeTrivialBranch
  split
  · exact S.pure _
  · exact S.bind (S.comment _) fun _ => S.bind (S.lift _) fun _ => S.pure _

theorem removeUnreachable : T (Reduce.removeUnreachable g) :=
  S.bind (S.lift _) fun (_, _) => S.ite (S.pure _) (S.bind (S.emit _) fun _ => S.pure _)

theorem makeEndlessLoop : T (Reduce.makeEndlessLoop g) := by
  unfold Reduce.makeEndlessLoop
  split
  · exact S.pure _
  · exact S.bind S.freshLabel fun _ => S.bind (S.lift _) fun _ => S.pure _

theorem makeWhileLoop : T (Reduce.makeWhileLoop g) := by
  refine S.bind (S.lift _) fun site => ?_
  split
  · exact S.pure _
  · exact S.bind S.freshLabel fun _ => S.bind (S.lift _) fun _ => S.pure _

theorem makeSmallCircle : T (Reduce.makeSmallCircle g) := by
  refine S.bind (S.lift _) fun site => ?_
  split
  · exact S.pure _
  · exact S.bind S.freshLabel fun _ => S.bind (S.lift _) fun (_, _) =>
      S.bind (S.lift _) fun _ => S.pure _

theorem makeTwoExitCircle : T (Reduce.makeTwoExitCircle g) := by
  refine S.bind (S.lift _) fun site => ?_
  split
  · exact S.pure _
  · exact S.bind S.freshLabel fun _ => S.bind (S.lift _) fun (_, _) =>
      S.bind (S.lift _) fun _ => S.pure _

theorem duplicating (rule : Bool → Graph → Except Fault (Option Graph)) (g : Graph) :
    T (Reduce.duplicating rule g) :=
  S.reading (fun _ => S.lift _) fun _ _ he => by rw [he.duplication]

theorem limited (rule : Nat → Graph → Except Fault (Option Graph)) (g : Graph) :
    T (Reduce.limited rule g) :=
  S.reading (fun _ => S.lift _) fun _ _ he => by rw [he.returnLimit]

theorem rules (h : rule ∈ Reduce.rules) (g : Graph) : T (rule.apply g) := by
  simp only [Reduce.rules, mem_cons, not_mem_nil, or_false] at h
  rcases h with rfl | rfl | rfl | rfl | rfl | rfl | rfl | rfl | rfl | rfl | rfl | rfl | rfl | rfl |
    rfl | rfl
  · exact S.lift _
  · exact S.removeTrivialBranch g
  · exact S.removeUnreachable g
  · exact S.lift _
  · exact S.lift _
  · exact S.limited _ g
  · exact S.lift _
  · exact S.duplicating _ g
  · exact S.duplicating _ g
  · exact S.makeEndlessLoop g
  · exact S.makeWhileLoop g
  · exact S.duplicating _ g
  · exact S.duplicating _ g
  · exact S.lift _
  · exact S.makeSmallCircle g
  · exact S.makeTwoExitCircle g

/-! ### Ways to solve a graph -/

theorem freshFlags (n : Node) : T (LinearTree.freshFlags n) := by
  unfold LinearTree.freshFlags
  split
  · exact S.bind (S.freshFlag _) fun _ => S.pure _
  · exact S.bind (S.freshFlag _) fun _ => S.bind (S.freshFlag _) fun _ => S.pure _
  · exact S.pure _

theorem code (p : LinearTree.Plan) (id : NodeId) (n : Node) (first : Bool) : T (p.code id n first) :=
  have store (f : Body → Body) : T (if n.exit.isRet = true then
      Pure.pure [] >>= fun code => Pure.pure (f code)
      else Engine.storeStack n.outputStack >>= fun code => Pure.pure (f code)) :=
    S.ite (S.bind (S.pure _) fun _ => S.pure _) (S.bind (S.storeStack _) fun _ => S.pure _)
  S.bind (S.lift _) fun _ => S.bind (S.comment _) fun _ =>
    S.ite (S.bind (S.pure _) fun _ => store _) (S.bind (S.loadStack _) fun _ => store _)

theorem place (p : LinearTree.Plan) (t : LinearTree.Tree) (id : NodeId) (position : Nat) :
    T (p.place t id position) :=
  S.bind (S.lift _) fun _ => S.bind (S.lift _) fun _ => S.bind (S.lift _) fun _ =>
    S.ite (S.bind (S.emit _) fun _ => S.pure _) (S.bind (S.code _ _ _ _) fun _ => S.pure _)

theorem solveLinearTree (extra : List (NodeId × LocalId)) (entry : TreeEntry) :
    T (solveLinearTree g extra entry) := by
  refine S.bind (S.lift _) fun sorted => ?_
  split
  · exact S.pure _
  · exact S.ite (S.pure _) (S.bind (S.emit _) fun _ =>
      S.bind (S.mapM (fun _ => S.bind (S.lift _) fun _ => S.bind (S.freshFlags _) fun _ =>
        S.pure _) _) fun _ => S.bind (S.foldlM (fun _ _ => S.place _ _ _ _) _ _) fun _ => S.pure _)

theorem inlineExits {jump : NodeId → EngineM Body} (hjump : ∀ id, T (jump id)) (g : Graph)
    (id : NodeId) : T (inlineExits leaving jump g id) :=
  inlineExits_induction (T := T) S.pure S.lift (fun _ _ => S.bind) hjump g id

theorem extractStart : T (extractStart g) := by
  refine S.bind (S.lift _) fun found => ?_
  split
  · exact S.pure _
  · refine S.bind (S.lift _) fun _ => S.bind (S.emit _) fun _ => S.bind S.freshLabel fun _ =>
      S.bind (S.freshFlag _) fun _ => S.bind (S.foldlM (S.inlineExits fun _ =>
        S.bind (S.storeStack _) fun _ => S.pure _) _ _) fun _ => S.bind (S.lift _) fun _ =>
          S.bind (S.lift _) fun region => ?_
    split
    · exact S.violation _ _
    · refine S.bind (S.withLoop _ (S.solveLinearTree _ _ _)) fun startBody => ?_
      split
      · exact S.violation _ _
      · exact S.bind (S.storeStack _) fun _ => S.bind (S.loadStack _) fun _ =>
          S.bind (S.lift _) fun _ => S.pure _

theorem splitRegions {solve : Graph → EngineM Node} (hsolve : ∀ g, T (solve g)) (g : Graph) :
    T (splitRegions solve g) := by
  refine S.bind (S.lift _) fun found => ?_
  split
  · exact S.pure _
  · refine S.bind (S.lift _) fun _ => S.bind (S.emit _) fun _ => S.bind S.freshLabel fun _ =>
      S.bind (S.freshFlag _) fun _ => S.bind (S.comment _) fun _ => S.bind (S.storeStack _) fun _ =>
        S.bind (S.foldlM (fun _ _ => S.lift _) _ _) fun _ => S.bind (S.lift _) fun region => ?_
    split
    · exact S.violation _ _
    · exact S.bind (S.lift _) fun _ => S.bind (S.withLoop _ (hsolve _)) fun _ =>
        S.bind (hsolve _) fun _ => S.bind (S.loadStack _) fun _ => S.bind (S.storeStack _) fun _ =>
          S.bind (S.loadStack _) fun _ => S.pure _

theorem caseOf (cases : List NodeId) (selector : LocalId) (label : LoopLabel) (n : Node) :
    T (Dispatch.caseOf cases selector label n) := by
  refine S.bind (S.loadStack _) fun _ => S.bind (S.comment _) fun _ => S.bind (S.lift _) fun _ => ?_
  split
  · exact S.pure _
  · exact S.bind (S.storeStack _) fun _ => S.pure _

theorem prologue (cases : List NodeId) (selector : LocalId) (entry : NodeId) (n : Node) :
    T (Dispatch.prologue cases selector entry n) := by
  unfold Dispatch.prologue
  split
  · exact S.bind (S.comment _) fun _ => S.bind (S.lift _) fun _ => S.bind (S.storeStack _) fun _ =>
      S.pure _
  · exact S.bind (S.storeStack _) fun _ => S.bind (S.lift _) fun _ => S.pure _

theorem flatDispatch : T (flatDispatch g) :=
  S.reading (fun _ => S.bind (S.lift _) fun (_, _) => S.bind (S.emit _) fun _ =>
    S.bind (S.recordFallback _ _) fun _ => S.bind (S.lift _) fun _ => S.bind (S.freshFlag _) fun _ =>
      S.bind S.freshLabel fun _ => S.bind (S.prologue _ _ _ _) fun _ =>
        S.bind (S.mapM (fun _ => S.caseOf _ _ _ _) _) fun _ => S.pure _)
    fun _ _ he => by rw [he.fingerprint, he.signature, he.locals]

end Steps

/-! ### Steps with the flags of an end -/

def From (T : ∀ {α : Type}, EngineM α → Prop) (x : StateT σ EngineM α) : Prop := ∀ s, T (x.run s)

namespace Steps

variable (S : Steps T) (g : Graph)

include S

theorem from_pure (a : α) : From T (Pure.pure a : StateT σ EngineM α) := fun _ => S.pure _

theorem from_bind {x : StateT σ EngineM α} {f : α → StateT σ EngineM β} (hx : From T x)
    (hf : ∀ a, From T (f a)) : From T (x >>= f) := by
  intro s
  rw [StateT.run_bind]
  exact S.bind (hx s) fun (a, s') => hf a s'

theorem from_engine {x : EngineM α} (hx : T x) : From T (liftM x : StateT σ EngineM α) :=
  fun _ => S.bind hx fun _ => S.pure _

theorem from_lift (x : Except Fault α) : From T (liftM x : StateT σ EngineM α) :=
  fun _ => S.bind (S.lift x) fun _ => S.pure _

theorem from_foldlM {f : β → α → StateT σ EngineM β} (hf : ∀ b a, From T (f b a)) (l : List α)
    (b : β) : From T (l.foldlM f b) := by
  induction l generalizing b with
  | nil =>
    rw [foldlM_nil]
    exact S.from_pure _
  | cons a l ih =>
    rw [foldlM_cons]
    exact S.from_bind (hf b a) ih

theorem flagOf (indices : List (NodeId × Nat)) (target : NodeId) :
    From T (Finish.flagOf indices target) := by
  refine S.from_bind (fun _ => S.pure _) fun flags => ?_
  split
  · exact S.from_pure _
  · exact S.from_bind (S.from_lift _) fun _ => S.from_bind (S.from_engine (S.freshFlag _)) fun _ =>
      S.from_bind (fun _ => S.pure _) fun _ => S.from_pure _

theorem cutNode (finish : List NodeId) (indices : List (NodeId × Nat)) (label : LoopLabel)
    (g : Graph) (id : NodeId) : From T (Finish.cutNode finish indices label g id) :=
  S.from_bind (S.from_lift _) fun _ =>
    inlineExits_induction (T := From T) S.from_pure S.from_lift (fun _ _ => S.from_bind)
      (fun _ => S.from_bind (S.flagOf _ _) fun _ => S.from_bind (S.from_engine (S.storeStack _))
        fun _ => S.from_pure _) g id

theorem extractFinish {solve : Graph → EngineM Node} (hsolve : ∀ g, T (solve g)) (g : Graph) :
    T (extractFinish solve g) := by
  unfold Structurer.extractFinish
  refine S.bind (S.lift _) fun finish => ?_
  split
  · exact S.pure _
  · refine S.bind (S.lift _) fun _ => S.ite (S.pure _) (S.bind (S.emit _) fun _ =>
      S.bind S.freshLabel fun _ => S.bind (S.freshFlag _) fun _ => S.bind (S.lift _) fun _ =>
        S.bind (S.from_foldlM (S.cutNode _ _ _) _ _ _) fun (_, _) => S.bind (S.lift _) fun region => ?_)
    split
    · exact S.violation _ _
    · refine S.bind (S.lift _) fun _ => S.bind (S.withLoop _ (hsolve _)) fun _ =>
        S.bind (S.solveLinearTree _ _ _) fun endBody => ?_
      split
      · exact S.violation _ _
      · exact S.bind (S.loadStack _) fun _ => S.bind (S.storeStack _) fun _ => S.pure _

end Steps

/-! ### Checks and the whole of structuring -/

def Accepted : Reduction → Prop
  | .rejected _ _ => False
  | _ => True

/-- A property of work that may depend on the result, which steps and checks have.  What is done about a
check that fails does not matter, because no work comes to a result after it. -/
structure Checks (E : ∀ {α : Type}, (α → Prop) → EngineM α → Prop) : Prop extends
    Steps fun x => E (fun _ => True) x where
  eases : ∀ {α : Type} {P : α → Prop} {x : EngineM α}, E (fun _ => True) x → E P x
  bindIf : ∀ {α β : Type} {P : β → Prop} {Q : α → Prop} {x : EngineM α} {f : α → EngineM β}, E Q x →
    (∀ a, E P (f a)) → (∀ a ctx b ctx', Yields (f a) ctx b ctx' → P b → Q a) → E P (x >>= f)
  notice : ∀ {α : Type} (f : Context → Event) {x : EngineM α}, E (fun _ => True) x →
    E (fun _ => True) (MonadState.get >>= fun ctx => Engine.emit (f ctx) >>= fun _ => x)
  logApplied : ∀ name g, E (fun _ => True) (Reduce.logApplied name g)
  checkGraph : ∀ g, E (fun _ => True) (checkGraph g)
  checkStep : ∀ g step, E (fun _ => True) (checkStep g step)
  checkSolved : ∀ n, E (fun _ => True) (checkSolved n)
  checkError? : ∀ g step, E (· = none) (Reduce.checkError? g step)

namespace Checks

variable {E : ∀ {α : Type}, (α → Prop) → EngineM α → Prop} (C : Checks E) (g : Graph)

include C

theorem exhaust (hr : ∀ g, E (fun _ => True) (rule.apply g)) (fuel : Nat) (g : Graph)
    (changed : Bool) : E Accepted (Reduce.exhaust rule fuel g changed) := by
  induction fuel generalizing g changed with
  | zero => exact C.eases (C.pure _)
  | succ fuel ih =>
    refine C.bindIf (hr g) (fun site => ?_) fun _ _ _ _ _ _ => trivial
    cases site with
    | none => exact C.eases (C.pure _)
    | some g' =>
      refine C.bindIf (C.logApplied _ g') (fun _ => ?_) fun _ _ _ _ _ _ => trivial
      refine C.bindIf (C.checkError? g' rule.name) (fun e => ?_) fun e ctx r ctx' h hacc => ?_
      · cases e with
        | some e => exact C.eases (C.pure _)
        | none =>
          show E Accepted (if g'.isSolved = true then _ else _)
          split
          · exact C.eases (C.pure _)
          · exact ih g' true
      · cases e with
        | none => rfl
        | some e =>
          obtain ⟨rfl, _⟩ := yields_pure.1 h
          exact hacc.elim

theorem reduction {x : EngineM Reduction} {f : Reduction → EngineM Reduction} (hx : E Accepted x)
    (hf : ∀ g changed, E Accepted (f (.stuck g changed)))
    (hend : ∀ r, (∀ g changed, r ≠ .stuck g changed) → f r = Pure.pure r) : E Accepted (x >>= f) := by
  refine C.bindIf hx (fun r => ?_) fun r ctx b ctx' h hacc => ?_
  · cases r with
    | stuck g changed => exact hf g changed
    | solved | rejected =>
      rw [hend _ (by simp)]
      exact C.eases (C.pure _)
  · cases r with
    | stuck | solved => trivial
    | rejected g e =>
      rw [hend _ (by simp)] at h
      obtain ⟨rfl, _⟩ := yields_pure.1 h
      exact hacc

theorem pass {rules : List Rule} (hr : ∀ rule ∈ rules, ∀ g, E (fun _ => True) (rule.apply g))
    (g : Graph) (changed : Bool) : E Accepted (Reduce.pass rules g changed) := by
  induction rules generalizing g changed with
  | nil => exact C.eases (C.pure _)
  | cons rule rules ih =>
    refine C.reduction (C.exhaust (hr rule (mem_cons_self ..)) _ g changed)
      (fun g' changed' => ih (fun rule h => hr rule (mem_cons_of_mem _ h)) g' changed')
      fun r hend => ?_
    cases r with
    | stuck g' changed' => exact absurd rfl (hend g' changed')
    | solved | rejected => rfl

theorem passes (fuel : Nat) (g : Graph) (changed : Bool) :
    E Accepted (Reduce.passes fuel g changed) := by
  induction fuel generalizing g changed with
  | zero => exact C.eases (C.pure _)
  | succ fuel ih =>
    refine C.reduction (C.pass (fun rule h g => C.rules h g) g false) (fun g' changed' => ?_)
      fun r hend => ?_
    · cases changed' with
      | true => exact ih g' true
      | false => exact C.eases (C.pure _)
    · cases r with
      | stuck g' changed' => exact absurd rfl (hend g' changed')
      | solved | rejected => rfl

theorem reduce : E Accepted (reduce g) := by
  unfold Structurer.reduce
  split
  · exact C.eases (C.pure _)
  · exact C.passes _ g false

theorem solveWithin (depth : Nat) (g : Graph) : E (fun _ => True) (solveWithin depth g) := by
  induction depth generalizing g with
  | zero => exact C.flatDispatch g
  | succ depth ih =>
    refine C.bindIf (C.reduce g) (fun r => ?_) fun r ctx b ctx' h _ => ?_
    · cases r with
      | rejected g' e => exact C.throw _
      | solved g' => exact C.bind (C.lift _) fun _ => C.pure _
      | stuck g' changed =>
        refine C.bind (C.emit _) fun _ => C.bind (C.solveLinearTree _ _ _) fun body => ?_
        cases body with
        | some body => exact C.bind (C.emit _) fun _ => C.bind (C.lift _) fun _ => C.pure _
        | none =>
          refine C.bind (C.extractStart _) fun start => ?_
          cases start with
          | some g' => exact C.bind (C.checkStep _ _) fun _ => ih _
          | none =>
            refine C.bind (C.extractFinish ih _) fun finish => ?_
            cases finish with
            | some n => exact C.pure _
            | none =>
              refine C.bind (C.emit _) fun _ => C.bind (C.splitRegions ih _) fun split => ?_
              cases split with
              | some n => exact C.pure _
              | none => exact C.flatDispatch _
    · cases r with
      | rejected g' e => exact absurd h yields_throw
      | solved | stuck => trivial

theorem normalize : E (fun _ => True) (normalize g) := by
  unfold Structurer.normalize
  dsimp only
  split
  · exact C.violation _ _
  · refine C.bind (C.lift _) fun (gone, g') => ?_
    dsimp only
    split
    · exact C.bind (C.checkGraph _) fun _ => C.pure _
    · exact C.notice (fun ctx => .droppedUnreachable gone.length ctx.signature.display)
        (C.bind (C.checkGraph _) fun _ => C.pure _)

/-- **Structuring has every property of steps and checks.** -/
theorem structureGraph : E (fun _ => True) (structureGraph g) := by
  have rest := C.notice (fun ctx => .structuring ctx.signature.display g.size)
    (C.bind (C.normalize g) fun g' => C.bind (C.solveWithin (g'.size + 1) g') fun n =>
      C.bind (C.checkSolved n) fun _ => C.pure n)
  unfold Structurer.structureGraph
  split
  · exact C.bind (C.throw _) fun _ => rest
  · exact rest

end Checks

end Engine

/-! ### Work that does not depend on checks -/

namespace Engine

variable {P : β → Prop} {x : EngineM α}

def Eases (P : α → Prop) (x y : EngineM α) : Prop :=
  ∀ ctx ctx₂ a ctx', ctx.Eased ctx₂ → Yields x ctx a ctx' → P a →
    ∃ ctx₂', Yields y ctx₂ a ctx₂' ∧ ctx'.Eased ctx₂'

def Tolerant (x : EngineM α) : Prop := Eases (fun _ => True) x x

theorem Eases.bind {Q : α → Prop} {y : EngineM α} {f g : α → EngineM β} (hx : Eases Q x y)
    (hf : ∀ a, Q a → Eases P (f a) (g a))
    (hne : ∀ a ctx b ctx', Yields (f a) ctx b ctx' → P b → Q a) : Eases P (x >>= f) (y >>= g) := by
  intro ctx ctx₂ b ctx' he h hb
  obtain ⟨a, ctx₁, hxa, hfa⟩ := yields_bind.1 h
  have ha := hne a ctx₁ b ctx' hfa hb
  obtain ⟨ctx₃, hya, he'⟩ := hx ctx ctx₂ a ctx₁ he hxa ha
  obtain ⟨ctx₄, hga, he''⟩ := hf a ha ctx₁ ctx₃ b ctx' he' hfa hb
  exact ⟨ctx₄, yields_bind.2 ⟨a, ctx₃, hya, hga⟩, he''⟩

theorem Eases.get {f g : Context → EngineM β}
    (h : ∀ ctx ctx₂, ctx.Eased ctx₂ → Eases P (f ctx) (g ctx₂)) :
    Eases P (get >>= f) (get >>= g) := by
  intro ctx ctx₂ b ctx' he hb hP
  obtain ⟨_, _, hget, hf⟩ := yields_bind.1 hb
  obtain ⟨rfl, rfl⟩ := yields_get.1 hget
  obtain ⟨ctx₃, hg, he'⟩ := h ctx ctx₂ he ctx ctx₂ b ctx' he hf hP
  exact ⟨ctx₃, yields_bind.2 ⟨ctx₂, ctx₂, yields_get.2 ⟨rfl, rfl⟩, hg⟩, he'⟩

namespace Tolerant

theorem pure (a : α) : Tolerant (Pure.pure a : EngineM α) := by
  intro ctx ctx₂ b ctx' he h _
  obtain ⟨rfl, rfl⟩ := yields_pure.1 h
  exact ⟨ctx₂, yields_pure.2 ⟨rfl, rfl⟩, he⟩

theorem throw (e : Failure) : Tolerant (MonadExcept.throw e : EngineM α) :=
  fun _ _ _ _ _ h => absurd h yields_throw

theorem lift (x : Except Fault α) : Tolerant (liftM x : EngineM α) := by
  intro ctx ctx₂ b ctx' he h _
  obtain ⟨hx, rfl⟩ := yields_lift.1 h
  exact ⟨ctx₂, yields_lift.2 ⟨hx, rfl⟩, he⟩

theorem bind {f : α → EngineM β} (hx : Tolerant x) (hf : ∀ a, Tolerant (f a)) :
    Tolerant (x >>= f) :=
  Eases.bind hx (fun a _ => hf a) fun _ _ _ _ _ _ => trivial

theorem emit_of (f : Context → Event) : Tolerant (get >>= fun ctx => Engine.emit (f ctx)) := by
  refine Eases.get fun ctx ctx₂ _ => ?_
  intro c c₂ u c' he h _
  rw [← yields_emit.1 h]
  exact ⟨c₂.logged (f ctx₂), yields_emit.2 rfl, he.logged _ _⟩

theorem emit_then (f : Context → Event) {x : EngineM α} (hx : Tolerant x) :
    Tolerant (get >>= fun ctx => Engine.emit (f ctx) >>= fun _ => x) := by
  have h := bind (emit_of f) fun _ => hx
  rwa [bind_assoc] at h

theorem emit (e : Event) : Tolerant (Engine.emit e) := by
  intro c c₂ u c' he h _
  rw [← yields_emit.1 h]
  exact ⟨c₂.logged e, yields_emit.2 rfl, he.logged _ _⟩

theorem isTracing : Tolerant isTracing := by
  refine Eases.get fun ctx ctx₂ he => ?_
  rw [he.verbosity]
  exact pure _

theorem freshLabel : Tolerant freshLabel := by
  intro c c₂ l c' he h _
  obtain ⟨rfl, rfl⟩ := yields_freshLabel.1 h
  refine ⟨_, yields_freshLabel.2 ⟨by rw [he.labels], rfl⟩, ?_⟩
  rw [he.labels]
  exact he.withLabels _

theorem freshFlag (name : String) : Tolerant (freshFlag name) := by
  intro c c₂ l c' he h _
  obtain ⟨rfl, rfl⟩ := yields_freshFlag.1 h
  refine ⟨_, yields_freshFlag.2 ⟨by rw [he.locals], rfl⟩, ?_⟩
  rw [he.locals]
  exact he.withLocals _

theorem stackSlot (depth : Nat) (t : ValueType) : Tolerant (stackSlot depth t) := by
  intro c c₂ l c' he h _
  obtain ⟨rfl, rfl⟩ := yields_stackSlot.1 h
  refine ⟨_, yields_stackSlot.2 ⟨by rw [he.locals], rfl⟩, ?_⟩
  rw [he.locals]
  exact he.withLocals _

theorem recordFallback (fingerprint : String) (dump : List String) :
    Tolerant (recordFallback fingerprint dump) := by
  intro c c₂ u c' he h _
  rw [← yields_recordFallback.1 h]
  refine ⟨_, yields_recordFallback.2 rfl, ?_⟩
  rw [he.fallbacks, he.signature]
  exact { he with signature := rfl, fallbacks := rfl }

theorem withLoop (label : LoopLabel) {work : EngineM α} (hw : Tolerant work) :
    Tolerant (withLoop label work) := by
  intro c c₂ a c' he h _
  obtain ⟨c₁, hc, rfl⟩ := yields_withLoop.1 h
  have hin : (c.inside label).Eased (c₂.inside label) := by
    unfold Context.inside
    rw [he.labels]
    exact he.withLabels _
  obtain ⟨c₃, hc', he'⟩ := hw _ _ _ _ hin hc trivial
  refine ⟨_, yields_withLoop.2 ⟨c₃, hc', rfl⟩, ?_⟩
  unfold Context.outside
  rw [he'.labels]
  exact he'.withLabels _

theorem violation (g : Graph) (message : String) :
    Tolerant (violation g message >>= fun e => MonadExcept.throw (.error e) : EngineM α) := by
  intro ctx ctx₂ a ctx' he h _
  obtain ⟨e, ctx₁, _, h⟩ := yields_bind.1 h
  exact absurd h yields_throw

theorem reading {f : Context → EngineM α} (h : ∀ ctx, Tolerant (f ctx))
    (hsame : ∀ ctx ctx₂ : Context, ctx.Eased ctx₂ → f ctx₂ = f ctx) :
    Tolerant (MonadState.get >>= f) := by
  refine Eases.get fun ctx ctx₂ he => ?_
  rw [hsame ctx ctx₂ he]
  exact h ctx

theorem steps : Steps Tolerant :=
  ⟨pure, throw, lift, bind, reading, emit, recordFallback, freshLabel, freshFlag, stackSlot, withLoop,
    violation⟩

end Tolerant

/-! ### Checks -/

theorem yields_checkGraph {g : Graph} :
    Yields (checkGraph g) ctx u ctx' ↔ ctx.inspect g = .ok () ∧ ctx = ctx' := by
  simp only [checkGraph, yields_bind, yields_get]
  constructor
  · rintro ⟨_, _, ⟨rfl, rfl⟩, h⟩
    split at h
    · next hg => exact ⟨hg, (yields_pure.1 h).2⟩
    · exact absurd h not_yields_fail
    · exact absurd h yields_throw
  · rintro ⟨hg, rfl⟩
    refine ⟨ctx, ctx, ⟨rfl, rfl⟩, ?_⟩
    rw [hg]
    exact yields_pure.2 ⟨rfl, rfl⟩

theorem yields_checkSolved :
    Yields (checkSolved n) ctx u ctx' ↔ ctx.checker.checkNode n = .ok () ∧ ctx = ctx' := by
  simp only [checkSolved, yields_bind, yields_get]
  constructor
  · rintro ⟨_, _, ⟨rfl, rfl⟩, h⟩
    split at h
    · next hn => exact ⟨hn, (yields_pure.1 h).2⟩
    · exact absurd h not_yields_fail
  · rintro ⟨hn, rfl⟩
    refine ⟨ctx, ctx, ⟨rfl, rfl⟩, ?_⟩
    rw [hn]
    exact yields_pure.2 ⟨rfl, rfl⟩

namespace Tolerant

theorem checkGraph (g : Graph) : Tolerant (checkGraph g) := by
  intro ctx ctx₂ u ctx' he h _
  obtain ⟨hg, rfl⟩ := yields_checkGraph.1 h
  exact ⟨ctx₂, yields_checkGraph.2 ⟨he.inspect hg, rfl⟩, he⟩

theorem checkSolved (n : Node) : Tolerant (checkSolved n) := by
  intro ctx ctx₂ u ctx' he h _
  obtain ⟨hn, rfl⟩ := yields_checkSolved.1 h
  exact ⟨ctx₂, yields_checkSolved.2 ⟨Checker.checkNode_mono he.checker he.frames hn, rfl⟩, he⟩

theorem checkStep (g : Graph) (step : String) : Tolerant (checkStep g step) := by
  refine Eases.get fun ctx ctx₂ he => ?_
  by_cases h₂ : ctx₂.settings.validateSteps = true
  · rw [if_pos h₂, if_pos (he.validate h₂)]
    exact bind (emit _) fun _ => checkGraph g
  · rw [if_neg h₂]
    intro c c₂ u c' hc h _
    refine ⟨c₂, yields_pure.2 ⟨rfl, rfl⟩, ?_⟩
    -- the one run records a check that the other does not make
    split at h
    · obtain ⟨_, c₁, hemit, hcheck⟩ := yields_bind.1 h
      obtain ⟨_, rfl⟩ := yields_checkGraph.1 hcheck
      rw [← yields_emit.1 hemit]
      unfold Context.logged
      split
      · exact { hc with }
      · exact hc
    · obtain ⟨_, rfl⟩ := yields_pure.1 h
      exact hc

end Tolerant

theorem checkError?_eases (g : Graph) (step : String) :
    Eases (· = none) (Reduce.checkError? g step) (Reduce.checkError? g step) := by
  refine Eases.bind (Q := fun r => r = .ok ()) ?_ ?_ ?_
  · intro ctx ctx₂ r ctx' he h hr
    subst hr
    obtain ⟨ctx₂', h', he'⟩ := Tolerant.checkStep g step ctx ctx₂ () ctx' he
      (yields_observing.1 h) trivial
    exact ⟨ctx₂', yields_observing.2 h', he'⟩
  · rintro r rfl
    intro ctx ctx₂ a ctx' he h _
    exact Tolerant.pure none ctx ctx₂ a ctx' he h trivial
  · rintro r ctx b ctx' h rfl
    split at h
    · rfl
    · cases (yields_pure.1 h).1
    · exact absurd h yields_throw

theorem logApplied_tolerant (name : String) (g : Graph) : Tolerant (Reduce.logApplied name g) :=
  .bind .isTracing fun _ =>
    Tolerant.steps.ite (.emit_of fun ctx => .applied name g.size (g.dump ctx.locals)) (.pure _)

/-- **Structuring comes to the same result with fewer checks**, and so does each part of it. -/
theorem Tolerant.checks : Checks fun P x => Eases P x x where
  toSteps := Tolerant.steps
  eases h ctx ctx₂ a ctx' he hx _ := h ctx ctx₂ a ctx' he hx trivial
  bindIf hx hf hne := Eases.bind hx (fun a _ => hf a) hne
  notice := Tolerant.emit_then
  logApplied := logApplied_tolerant
  checkGraph := Tolerant.checkGraph
  checkStep := Tolerant.checkStep
  checkSolved := Tolerant.checkSolved
  checkError? := checkError?_eases

end Engine

open Engine

def Context.dropped (ctx : Context) (gone : List NodeId) : Context :=
  if gone.isEmpty then ctx else ctx.logged (.droppedUnreachable gone.length ctx.signature.display)

theorem yields_normalize {g g' : Graph} :
    Yields (normalize g) ctx g' ctx' ↔ g.recalculateInputs.linkError? = none ∧
      ∃ gone g₁, g.recalculateInputs.removeUnreachable = .ok (gone, g₁) ∧
        g' = g₁.closeReturns.renumber ∧ ctx' = ctx.dropped gone ∧ ctx'.inspect g' = .ok () := by
  unfold normalize Context.dropped
  dsimp only
  cases hlinks : g.recalculateInputs.linkError? with
  | some e => simp [yields_bind]
  | none =>
    simp only [yields_bind, yields_lift, true_and]
    constructor
    · rintro ⟨⟨gone, g₁⟩, _, ⟨hgone, rfl⟩, h⟩
      refine ⟨gone, g₁, hgone, ?_⟩
      cases hempty : gone.isEmpty <;>
        simp only [hempty, if_true, Bool.false_eq_true, if_false, yields_bind, yields_get, yields_emit,
          yields_checkGraph, yields_pure] at h ⊢
      · obtain ⟨_, _, ⟨rfl, rfl⟩, _, _, rfl, _, _, ⟨hok, rfl⟩, rfl, rfl⟩ := h
        exact ⟨rfl, rfl, hok⟩
      · obtain ⟨_, _, ⟨hok, rfl⟩, rfl, rfl⟩ := h
        exact ⟨rfl, rfl, hok⟩
    · rintro ⟨gone, g₁, hgone, rfl, rfl, hok⟩
      refine ⟨(gone, g₁), ctx, ⟨hgone, rfl⟩, ?_⟩
      cases hempty : gone.isEmpty <;>
        simp only [hempty, if_true, Bool.false_eq_true, if_false, yields_bind, yields_get, yields_emit,
          yields_checkGraph, yields_pure] at hok ⊢
      · exact ⟨ctx, ctx, ⟨rfl, rfl⟩, (), _, rfl, (), _, ⟨hok, rfl⟩, trivial, rfl⟩
      · exact ⟨(), ctx, ⟨hok, rfl⟩, trivial, rfl⟩

theorem yields_structureGraph {g : Graph} :
    Yields (structureGraph g) ctx n ctx' ↔ g.nodes ≠ [] ∧ ∃ g' ctx₁,
      Yields (normalize g) (ctx.logged (.structuring ctx.signature.display g.size)) g' ctx₁ ∧
        Yields (solve g') ctx₁ n ctx' ∧ ctx'.checker.checkNode n = .ok () := by
  unfold structureGraph
  by_cases hnil : g.nodes = []
  · simp [hnil]
  · have hempty : g.nodes.isEmpty = false := by simpa using hnil
    simp only [hempty, Bool.false_eq_true, if_false, yields_bind, yields_get, yields_emit, yields_pure,
      yields_checkSolved]
    constructor
    · rintro ⟨_, _, ⟨rfl, rfl⟩, _, _, rfl, g', ctx₁, hnormal, m, ctx₂, hsolve, _, _, ⟨hok, rfl⟩, rfl, rfl⟩
      exact ⟨hnil, g', ctx₁, hnormal, hsolve, hok⟩
    · rintro ⟨_, g', ctx₁, hnormal, hsolve, hok⟩
      exact ⟨ctx, ctx, ⟨rfl, rfl⟩, (), _, rfl, g', ctx₁, hnormal, n, ctx', hsolve, (), ctx', ⟨hok, rfl⟩,
        rfl, rfl⟩

/-! ### References and integers -/

def Context.withStrict (ctx : Context) (strict : Bool) : Context :=
  { ctx with settings := { ctx.settings with strictReferences := strict } }

theorem Context.withStrict_eased (ctx : Context) :
    (ctx.withStrict true).Eased (ctx.withStrict false) where
  signature := rfl
  verbosity := rfl
  locals := rfl
  labels := rfl
  fallbacks := rfl
  duplication := rfl
  comments := rfl
  returnLimit := rfl
  fingerprint := rfl
  strict h := by cases h
  validate h := h

/-- **Telling references from integers only filters.**  What is structured, or passes the stack
check, although references are told from integers comes to the same result if they are not. -/
theorem strict_only_filters :
    (∀ (g : Graph) (ctx ctx' : Context) (n : Node),
      Engine.Yields (structureGraph g) (ctx.withStrict true) n ctx' →
        ∃ ctx'', Engine.Yields (structureGraph g) (ctx.withStrict false) n ctx'' ∧
          ctx''.locals = ctx'.locals ∧ ctx''.fallbacks = ctx'.fallbacks) ∧
    ∀ (c : Checker) (body : Body) (params results : StackType) (flow : Flow),
      { c with strict := true }.checkBody body params results = .ok flow →
        { c with strict := false }.checkBody body params results = .ok flow := by
  constructor
  · intro g ctx ctx' n h
    obtain ⟨ctx'', h', he⟩ :=
      Engine.Tolerant.checks.structureGraph g _ _ n ctx' ctx.withStrict_eased h trivial
    exact ⟨ctx'', h', he.locals, he.fallbacks⟩
  · intro c body params results flow h
    have hc : Checker.Le { c with strict := true } { c with strict := false } :=
      ⟨fun _ _ hv => hv, rfl, fun _ => rfl⟩
    exact Checker.checkBody_mono hc rfl h

def keepReference : Graph :=
  let g := (Graph.empty.addNode { Node.new [.localGet ⟨0⟩, .call "c" [] [.i32]] [] [.ref] with
    exit := .branch ⟨1⟩ ⟨2⟩ }).2
  let g := (g.addNode { Node.new [.call "f" [.ref] [.ref]] [.ref] [.ref] with exit := .seq ⟨2⟩ }).2
  (g.addNode (.new [.localSet ⟨0⟩] [.ref] [])).2.recalculateInputs

def referenceContext : Context :=
  .initial ⟨"K", "run", "()V", []⟩ ⟨#[⟨"r", .ref⟩], []⟩ { Settings.standard with validateSteps := true } none

theorem strict_only_filters_keepReference :
    (∃ n ctx', Engine.Yields (structureGraph keepReference) (referenceContext.withStrict true) n ctx' ∧
      n.body.any (·.isStructured) = true ∧
      ∃ ctx'', Engine.Yields (structureGraph keepReference) (referenceContext.withStrict false) n ctx'' ∧
        ctx''.locals = ctx'.locals ∧ ctx''.fallbacks = ctx'.fallbacks) ∧
    (referenceContext.withStrict true).checker.checkBody [.localSet ⟨0⟩] [.ref] [] =
        .ok .fallsThrough ∧
      (referenceContext.withStrict false).checker.checkBody [.localSet ⟨0⟩] [.ref] [] =
        .ok .fallsThrough := by
  have hrun : Engine.comesTo (structureGraph keepReference) (referenceContext.withStrict true)
      (·.body.any (·.isStructured)) = true := by decide +kernel
  obtain ⟨n, ctx', h, hblock⟩ := Engine.yields_of_comesTo hrun
  have hc : (referenceContext.withStrict true).checker.checkBody [.localSet ⟨0⟩] [.ref] [] =
      .ok .fallsThrough := by rfl
  exact ⟨⟨n, ctx', h, hblock, strict_only_filters.1 keepReference referenceContext ctx' n h⟩, hc,
    strict_only_filters.2 (referenceContext.withStrict true).checker _ _ _ _ hc⟩

end Structurer
