/-
**Work of the engine.**

Work reads and extends a context and may fail.  `Yields x ctx a ctx'` says that the work `x`, begun in
the context `ctx`, comes to the result `a` and leaves the context `ctx'`; each step of the engine has
a law that says when it does.
-/

import Structurer.Engine.Check
import Structurer.Proofs.Fallible

namespace Structurer

namespace Context

def logged (ctx : Context) (e : Event) : Context :=
  if e.level.shown ctx.verbosity then { ctx with log := ctx.log ++ [e] } else ctx

def inside (ctx : Context) (label : LoopLabel) : Context :=
  { ctx with labels := ctx.labels.enter label }

def outside (ctx : Context) (label : LoopLabel) : Context :=
  { ctx with labels := ctx.labels.leave label }

end Context

namespace Engine

variable {α β : Type}

variable {ctx ctx' : Context} {a : α} {Q : α → Context → Prop} {x y : EngineM α} {u : Unit}
  {dump : List String} {id : LocalId}

/-! ### Results of work -/

def outcome (x : EngineM α) (ctx : Context) : Except Failure α × Context := x ctx

/-- Does some work come to a result? -/
def Yields (x : EngineM α) (ctx : Context) (a : α) (ctx' : Context) : Prop :=
  outcome x ctx = (.ok a, ctx')

def Agrees (x y : EngineM α) (ctx : Context) (Q : α → Context → Prop) : Prop :=
  ∃ a ctx', Yields x ctx a ctx' ∧ Yields y ctx a ctx' ∧ Q a ctx'

def Succeeds (x : EngineM α) (ctx : Context) (Q : α → Context → Prop) : Prop :=
  ∃ a ctx', Yields x ctx a ctx' ∧ Q a ctx'

theorem Yields.unique {ctx₁ ctx₂ : Context} {b : α} (h : Yields x ctx a ctx₁)
    (h' : Yields x ctx b ctx₂) : a = b ∧ ctx₁ = ctx₂ := by
  have := h.symm.trans h'
  simpa using this

def comesTo (x : EngineM α) (ctx : Context) (p : α → Bool) : Bool :=
  match outcome x ctx with
  | (.ok a, _) => p a
  | (.error _, _) => false

theorem yields_of_comesTo {p : α → Bool} (h : comesTo x ctx p = true) :
    ∃ a ctx', Yields x ctx a ctx' ∧ p a = true := by
  unfold comesTo at h
  split at h
  next a ctx' hx => exact ⟨a, ctx', hx, h⟩
  next => cases h

theorem outcome_bind (f : α → EngineM β) : outcome (x >>= f) ctx =
      match outcome x ctx with
      | (.ok a, ctx') => outcome (f a) ctx'
      | (.error e, ctx') => (.error e, ctx') := by
  simp only [outcome, bind, ExceptT.bind, ExceptT.mk, StateT.bind]
  rcases x ctx with ⟨_ | _, ctx'⟩ <;> rfl

theorem yields_bind {f : α → EngineM β} {b : β} :
    Yields (x >>= f) ctx b ctx' ↔ ∃ a ctx₁, Yields x ctx a ctx₁ ∧ Yields (f a) ctx₁ b ctx' := by
  unfold Yields
  rw [outcome_bind]
  rcases outcome x ctx with ⟨r, ctx₁⟩
  cases r with
  | error e => simp
  | ok a => simp [and_assoc]

@[simp] theorem yields_pure {b : α} : Yields (pure a) ctx b ctx' ↔ a = b ∧ ctx = ctx' := by
  show (Except.ok a, ctx) = (Except.ok b, ctx') ↔ _
  simp

@[simp] theorem yields_throw {e : Failure} : ¬ Yields (throw e) ctx a ctx' := by
  show ¬ (Except.error e, ctx) = (Except.ok a, ctx')
  simp

@[simp] theorem yields_get {c : Context} : Yields get ctx c ctx' ↔ ctx = c ∧ ctx = ctx' := by
  show (Except.ok ctx, ctx) = (Except.ok c, ctx') ↔ _
  simp

@[simp] theorem yields_lift {x : Except Fault α} :
    Yields (liftM x) ctx a ctx' ↔ x = .ok a ∧ ctx = ctx' := by
  cases x with
  | error e =>
    show (Except.error (Failure.fault e), ctx) = (Except.ok a, ctx') ↔ _
    simp
  | ok b =>
    show (Except.ok b, ctx) = (Except.ok a, ctx') ↔ _
    simp

theorem yields_map {f : α → β} {b : β} :
    Yields (f <$> x) ctx b ctx' ↔ ∃ a, Yields x ctx a ctx' ∧ f a = b := by
  rw [← bind_pure_comp, yields_bind]
  constructor
  · rintro ⟨a, ctx₁, h, hb⟩
    obtain ⟨rfl, rfl⟩ := yields_pure.1 hb
    exact ⟨a, h, rfl⟩
  · rintro ⟨a, h, rfl⟩
    exact ⟨a, ctx', h, yields_pure.2 ⟨rfl, rfl⟩⟩

/-! ### Work with a property -/

theorem Succeeds.of_yields (h : Yields x ctx a ctx') (hQ : Q a ctx') :
    Succeeds x ctx Q := ⟨a, ctx', h, hQ⟩

theorem Succeeds.mono {Q' : α → Context → Prop} (h : Succeeds x ctx Q)
    (hQ : ∀ a ctx', Q a ctx' → Q' a ctx') : Succeeds x ctx Q' := by
  obtain ⟨a, ctx', hx, ha⟩ := h
  exact ⟨a, ctx', hx, hQ a ctx' ha⟩

theorem Succeeds.yields (h : Succeeds x ctx Q) :
    Succeeds x ctx fun a ctx' => Yields x ctx a ctx' ∧ Q a ctx' := by
  obtain ⟨a, ctx', hx, ha⟩ := h
  exact ⟨a, ctx', hx, hx, ha⟩

theorem Succeeds.bind {f : α → EngineM β} {S : β → Context → Prop}
    (hx : Succeeds x ctx Q) (hf : ∀ a ctx', Q a ctx' → Succeeds (f a) ctx' S) :
    Succeeds (x >>= f) ctx S := by
  obtain ⟨a, ctx₁, ha, hQ⟩ := hx
  obtain ⟨b, ctx₂, hb, hS⟩ := hf a ctx₁ hQ
  exact ⟨b, ctx₂, yields_bind.2 ⟨a, ctx₁, ha, hb⟩, hS⟩

theorem Succeeds.pure (h : Q a ctx) :
    Succeeds (pure a) ctx Q := ⟨a, ctx, yields_pure.2 ⟨rfl, rfl⟩, h⟩

theorem Succeeds.get (ctx : Context) : Succeeds get ctx fun c ctx' => c = ctx ∧ ctx' = ctx :=
  ⟨ctx, ctx, yields_get.2 ⟨rfl, rfl⟩, rfl, rfl⟩

theorem Succeeds.lift {x : Except Fault α} (hx : x = .ok a) (h : Q a ctx) :
    Succeeds (liftM x) ctx Q :=
  ⟨a, ctx, yields_lift.2 ⟨hx, rfl⟩, h⟩

theorem Succeeds.works {x : Except Fault α} {P : α → Prop} (h : Fallible.Works x P) (ctx : Context) :
    Succeeds (liftM x) ctx fun a ctx' => ctx' = ctx ∧ P a := by
  obtain ⟨a, hx, ha⟩ := h
  exact .lift hx ⟨rfl, ha⟩

theorem Succeeds.foldlM_works {f : β → α → Except Fault β} {P : β → Prop} {l : List α} {b : β}
    (h : Fallible.Works (l.foldlM f b) P) (ctx : Context) :
    Succeeds (l.foldlM (fun b a => (liftM (f b a) : EngineM β)) b) ctx fun r ctx' => ctx' = ctx ∧ P r := by
  induction l generalizing b with
  | nil =>
    obtain ⟨r, hr, hP⟩ := h
    cases hr
    exact .pure ⟨rfl, hP⟩
  | cons a l ih =>
    obtain ⟨r, hr, hP⟩ := h
    rw [List.foldlM_cons] at hr ⊢
    obtain ⟨b', hb', hr⟩ := Fallible.bind_eq_ok_iff.1 hr
    refine (Succeeds.works (P := (· = b')) (.of_eq hb' rfl) ctx).bind ?_
    rintro _ ctx ⟨rfl, rfl⟩
    exact ih ⟨r, hr, hP⟩

theorem Succeeds.agrees (h : Succeeds x ctx Q) : Agrees x x ctx Q := by
  obtain ⟨a, ctx', hx, ha⟩ := h
  exact ⟨a, ctx', hx, hx, ha⟩

theorem Agrees.left (h : Agrees x y ctx Q) : Succeeds x ctx Q := by
  obtain ⟨a, ctx', hx, _, ha⟩ := h
  exact ⟨a, ctx', hx, ha⟩

theorem Agrees.mono {Q' : α → Context → Prop} (h : Agrees x y ctx Q)
    (hQ : ∀ a ctx', Q a ctx' → Q' a ctx') : Agrees x y ctx Q' := by
  obtain ⟨a, ctx', hx, hy, ha⟩ := h
  exact ⟨a, ctx', hx, hy, hQ a ctx' ha⟩

theorem Agrees.bind {f g : α → EngineM β} {Q' : β → Context → Prop}
    (hx : Agrees x y ctx Q) (hf : ∀ a ctx', Q a ctx' → Agrees (f a) (g a) ctx' Q') :
    Agrees (x >>= f) (y >>= g) ctx Q' := by
  obtain ⟨a, ctx₁, ha, ha', hQ⟩ := hx
  obtain ⟨b, ctx₂, hb, hb', hQ'⟩ := hf a ctx₁ hQ
  exact ⟨b, ctx₂, yields_bind.2 ⟨a, ctx₁, ha, hb⟩, yields_bind.2 ⟨a, ctx₁, ha', hb'⟩, hQ'⟩

/-! ### Steps of the engine -/

@[simp] theorem yields_emit {e : Event} : Yields (emit e) ctx u ctx' ↔ ctx.logged e = ctx' := by
  show (Except.ok (), ctx.logged e) = (Except.ok u, ctx') ↔ _
  simp

theorem not_yields_fail {e : StructureError} : ¬ Yields (fail e dump) ctx a ctx' := by
  simp [fail, yields_bind]

@[simp] theorem yields_freshLabel {l : LoopLabel} :
    Yields freshLabel ctx l ctx' ↔
      l = ctx.labels.fresh.1 ∧ ctx' = { ctx with labels := ctx.labels.fresh.2 } := by
  show (Except.ok ctx.labels.fresh.1, { ctx with labels := ctx.labels.fresh.2 }) =
    (Except.ok l, ctx') ↔ _
  simp [eq_comm]

@[simp] theorem yields_freshFlag {name : String} :
    Yields (freshFlag name) ctx id ctx' ↔
      id = (ctx.locals.add name .i32).1 ∧
        ctx' = { ctx with locals := (ctx.locals.add name .i32).2 } := by
  show (Except.ok (ctx.locals.add name .i32).1,
    { ctx with locals := (ctx.locals.add name .i32).2 }) = (Except.ok id, ctx') ↔ _
  simp [eq_comm]

@[simp] theorem yields_stackSlot {depth : Nat} {t : ValueType} :
    Yields (stackSlot depth t) ctx id ctx' ↔
      id = (ctx.locals.stackSlot depth t).1 ∧
        ctx' = { ctx with locals := (ctx.locals.stackSlot depth t).2 } := by
  show (Except.ok (ctx.locals.stackSlot depth t).1,
    { ctx with locals := (ctx.locals.stackSlot depth t).2 }) = (Except.ok id, ctx') ↔ _
  simp [eq_comm]

def commentCode (ctx : Context) (text : String) : Body :=
  if ctx.settings.comments then [.comment text] else []

theorem yields_comment {text : String} {code : Body} :
    Yields (comment text) ctx code ctx' ↔ code = commentCode ctx text ∧ ctx' = ctx := by
  simp only [comment, yields_bind, yields_get, yields_pure]
  constructor
  · rintro ⟨_, _, ⟨rfl, rfl⟩, rfl, rfl⟩
    exact ⟨rfl, rfl⟩
  · rintro ⟨rfl, rfl⟩
    exact ⟨_, _, ⟨rfl, rfl⟩, rfl, rfl⟩

@[simp] theorem yields_recordFallback {fingerprint : String} :
    Yields (recordFallback fingerprint dump) ctx u ctx' ↔
      { ctx with fallbacks := ctx.fallbacks ++ [⟨fingerprint, ctx.signature, dump⟩] } = ctx' := by
  show (Except.ok (), { ctx with fallbacks := ctx.fallbacks ++ [⟨fingerprint, ctx.signature, dump⟩] })
    = (Except.ok u, ctx') ↔ _
  simp

theorem yields_observing {r : Except Failure α} :
    Yields (observing x) ctx r ctx' ↔ outcome x ctx = (r, ctx') := by
  have h : outcome (observing x) ctx = (.ok (outcome x ctx).1, (outcome x ctx).2) := by
    simp only [outcome, observing, tryCatch, tryCatchThe, MonadExceptOf.tryCatch, ExceptT.tryCatch,
      bind, ExceptT.bind, ExceptT.mk, StateT.bind]
    rcases x ctx with ⟨_ | _, ctx'⟩ <;> rfl
  unfold Yields
  rw [h]
  rcases outcome x ctx with ⟨r', ctx₁⟩
  simp

theorem yields_withLoop {label : LoopLabel} {work : EngineM α} :
    Yields (withLoop label work) ctx a ctx' ↔
      ∃ ctx₁, Yields work (ctx.inside label) a ctx₁ ∧ ctx' = ctx₁.outside label := by
  have enter : ∀ {c c' : Context} {u : Unit}, Yields (enterLoop label) c u c' ↔ c.inside label = c' := by
    intro c c' u
    show (Except.ok (), c.inside label) = (Except.ok u, c') ↔ _
    simp
  have leave : ∀ {c c' : Context} {u : Unit}, Yields (leaveLoop label) c u c' ↔ c.outside label = c' := by
    intro c c' u
    show (Except.ok (), c.outside label) = (Except.ok u, c') ↔ _
    simp
  simp only [withLoop, yields_bind, enter, leave, yields_observing]
  constructor
  · rintro ⟨_, _, rfl, r, ctx₁, hw, _, _, rfl, hr⟩
    cases r with
    | error e => exact absurd hr yields_throw
    | ok b =>
      obtain ⟨rfl, rfl⟩ := yields_pure.1 hr
      exact ⟨ctx₁, hw, rfl⟩
  · rintro ⟨ctx₁, hw, rfl⟩
    exact ⟨(), _, rfl, .ok a, ctx₁, hw, (), _, rfl, yields_pure.2 ⟨rfl, rfl⟩⟩

end Engine

/-! ### Checks of graphs -/

theorem Graph.exists_target_of_linkError? {g : Graph} (h : g.linkError? = none) {e : NodeId × Node}
    (he : e ∈ g.nodes) {out : NodeId} (hout : out ∈ e.2.outputs) : ∃ n, g.get? out = some n := by
  unfold linkError? at h
  split at h
  · cases h
  · have herror := (Option.or_eq_none_iff.1 (List.findSome?_eq_none_iff.1 h e he)).1
    have hnone := List.findSome?_eq_none_iff.1 herror out hout
    unfold outputError? at hnone
    split at hnone
    · cases hnone
    next n hn => exact ⟨n, hn⟩

theorem Graph.edgeMismatch?_works {g : Graph} (h : g.linkError? = none) (strict : Bool) :
    Fallible.Works (g.edgeMismatch? strict) fun r => ∀ e, r = some e →
      ∃ source target output input, e = .edgeMismatch source target output input := by
  refine .findSomeM? fun e he => .findSomeM? fun out hout => ?_
  obtain ⟨n, hn⟩ := exists_target_of_linkError? h he hout
  rw [node, hn]
  refine .pure fun e he => ?_
  split at he
  · cases he
  · cases he
    exact ⟨_, _, _, _, rfl⟩

/-- **The check of a graph looks up no missing node.** -/
theorem Context.inspect_ne_fault (ctx : Context) (g : Graph) (f : Fault) :
    ctx.inspect g ≠ .error (.fault f) := by
  intro h
  unfold inspect at h
  split at h
  next => cases h
  next hlinks =>
    obtain ⟨r, hr, _⟩ := Graph.edgeMismatch?_works hlinks ctx.settings.strictReferences
    rw [hr] at h
    cases r with
    | some e => cases h
    | none =>
      obtain ⟨_, _, he⟩ := Fallible.mapError_eq_error_iff.1 h
      cases he

end Structurer
