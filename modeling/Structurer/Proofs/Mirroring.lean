/-
**Work with comments and work without them.**

The same work is done twice: on a graph without comments in a context that wants none, and on the graph itself
in a context that may want some.  `Mirrors R x y` says that the results of the two are related by `R`, and that
the contexts differ afterwards in nothing but what they did before.
-/

import Structurer.Proofs.Baring
import Structurer.Proofs.Muted

namespace Structurer

open Fallible List

variable {ctx ctx' : Context}

/-! ### Generated code -/

namespace Body

/-- Generated code, and what is left of it without comments.  It holds no test for zero. -/
structure Made (c₀ c : Body) : Prop where
  bare : c₀ = Body.bare c
  quiet : ∀ i ∈ c, isEqz i = false

variable {c₀ c d₀ d : Body}

theorem Made.append (hc : Made c₀ c) (hd : Made d₀ d) : Made (c₀ ++ d₀) (c ++ d) where
  bare := by rw [hc.bare, hd.bare, bare_append]
  quiet i hi := (mem_append.1 hi).elim (hc.quiet i) (hd.quiet i)

theorem Made.steady (h : Made c₀ c) : Steady c := steady_of_no_test h.quiet

theorem Made.nil : Made [] [] := ⟨rfl, by simp⟩

theorem made_of_simple {c : Body}
    (h : ∀ i ∈ c, i.isComment = false ∧ i.isStructured = false ∧ isEqz i = false) : Made c c where
  bare := by
    have hreal : real c = c := filter_eq_self.2 fun i hi => by simp [(h i hi).1]
    rw [bare_eq_map, hreal]
    exact ((map_congr_left fun i hi => Instruction.bare_of_simple (h i hi).2.1).trans (map_id c)).symm
  quiet i hi := (h i hi).2.2

end Body

open Body (Made)
open Graph.Bares (OfRule)

namespace Engine

variable {α β γ δ : Type} {R R' : α → β → Prop} {S : γ → δ → Prop} {x x' : EngineM α}
  {y y' : EngineM β} {g₀ g : Graph}

def Mirrors (R : α → β → Prop) (x : EngineM α) (y : EngineM β) : Prop :=
  ∀ ctx ctx₂ a ctx' b ctx₂', ctx.Muted ctx₂ → Yields x ctx a ctx' → Yields y ctx₂ b ctx₂' →
    R a b ∧ ctx'.Muted ctx₂'

namespace Mirrors

theorem pure {a : α} {b : β} (h : R a b) : Mirrors R (Pure.pure a : EngineM α) (Pure.pure b) := by
  intro ctx ctx₂ a' ctx' b' ctx₂' hm hx hy
  obtain ⟨rfl, rfl⟩ := yields_pure.1 hx
  obtain ⟨rfl, rfl⟩ := yields_pure.1 hy
  exact ⟨h, hm⟩

theorem throw (e : Failure) (y : EngineM β) : Mirrors R (MonadExcept.throw e : EngineM α) y :=
  fun _ _ _ _ _ _ _ hx _ => absurd hx yields_throw

theorem mono (h : Mirrors R x y) (hR : ∀ a b, R a b → R' a b) : Mirrors R' x y := by
  intro ctx ctx₂ a ctx' b ctx₂' hm hx hy
  exact (h ctx ctx₂ a ctx' b ctx₂' hm hx hy).imp_left (hR a b)

theorem bind {f : α → EngineM γ} {k : β → EngineM δ} (hx : Mirrors R x y)
    (hf : ∀ a b, R a b → Mirrors S (f a) (k b)) : Mirrors S (x >>= f) (y >>= k) := by
  intro ctx ctx₂ c ctx' d ctx₂' hm hxf hyk
  obtain ⟨a, ctx₁, ha, hc⟩ := yields_bind.1 hxf
  obtain ⟨b, ctx₃, hb, hd⟩ := yields_bind.1 hyk
  obtain ⟨hab, hm'⟩ := hx ctx ctx₂ a ctx₁ b ctx₃ hm ha hb
  exact hf a b hab ctx₁ ctx₃ c ctx' d ctx₂' hm' hc hd

theorem bindEq {u v : EngineM α} {f : α → EngineM γ} {k : α → EngineM δ} (h : Mirrors Eq u v)
    (hf : ∀ a, Mirrors S (f a) (k a)) : Mirrors S (u >>= f) (v >>= k) :=
  bind h fun a _ hab => hab ▸ hf a

theorem lift {u : Except Fault α} {v : Except Fault β} (h : Follows R u v) :
    Mirrors R (liftM u : EngineM α) (liftM v) := by
  intro ctx ctx₂ a ctx' b ctx₂' hm hx hy
  obtain ⟨ha, rfl⟩ := yields_lift.1 hx
  obtain ⟨hb, rfl⟩ := yields_lift.1 hy
  exact ⟨h a b ha hb, hm⟩

theorem bindLift {u : Except Fault α} {f : α → EngineM γ} {k : α → EngineM δ}
    (hf : ∀ a, u = .ok a → Mirrors S (f a) (k a)) : Mirrors S (liftM u >>= f) (liftM u >>= k) := by
  refine bind (R := fun a b => a = b ∧ u = .ok b) (lift fun a b ha hb => ⟨?_, hb⟩) ?_
  · exact Except.ok.inj (ha.symm.trans hb)
  · rintro a _ ⟨rfl, ha⟩
    exact hf a ha

theorem get {f : Context → EngineM α} {k : Context → EngineM β}
    (h : ∀ ctx ctx₂, ctx.Muted ctx₂ → Mirrors R (f ctx) (k ctx₂)) :
    Mirrors R (get >>= f) (get >>= k) := by
  intro ctx ctx₂ a ctx' b ctx₂' hm hx hy
  obtain ⟨_, _, hget, hx⟩ := yields_bind.1 hx
  obtain ⟨rfl, rfl⟩ := yields_get.1 hget
  obtain ⟨_, _, hget, hy⟩ := yields_bind.1 hy
  obtain ⟨rfl, rfl⟩ := yields_get.1 hget
  exact h ctx ctx₂ hm ctx ctx₂ a ctx' b ctx₂' hm hx hy

theorem ite {p : Prop} [Decidable p] (h : Mirrors R x y) (h' : Mirrors R x' y') :
    Mirrors R (if p then x else x') (if p then y else y') := by
  split
  · exact h
  · exact h'

theorem emit (e e' : Event) : Mirrors (fun _ _ => True) (Engine.emit e) (Engine.emit e') := by
  intro ctx ctx₂ a ctx' b ctx₂' hm hx hy
  rw [← yields_emit.1 hx, ← yields_emit.1 hy]
  exact ⟨trivial, hm.logged e e'⟩

theorem recordFallback (fingerprint fingerprint' : String) (dump dump' : List String) :
    Mirrors (fun _ _ => True) (Engine.recordFallback fingerprint dump)
      (Engine.recordFallback fingerprint' dump') := by
  intro ctx ctx₂ a ctx' b ctx₂' hm hx hy
  rw [← yields_recordFallback.1 hx, ← yields_recordFallback.1 hy]
  exact ⟨trivial, hm.signature, hm.locals, hm.labels, hm.settings, hm.traced⟩

theorem freshLabel : Mirrors Eq freshLabel freshLabel := by
  intro ctx ctx₂ a ctx' b ctx₂' hm hx hy
  obtain ⟨rfl, rfl⟩ := yields_freshLabel.1 hx
  obtain ⟨rfl, rfl⟩ := yields_freshLabel.1 hy
  rw [hm.labels]
  exact ⟨rfl, hm.withLabels _⟩

theorem freshFlag (name : String) : Mirrors Eq (freshFlag name) (freshFlag name) := by
  intro ctx ctx₂ a ctx' b ctx₂' hm hx hy
  obtain ⟨rfl, rfl⟩ := yields_freshFlag.1 hx
  obtain ⟨rfl, rfl⟩ := yields_freshFlag.1 hy
  rw [hm.locals]
  exact ⟨rfl, hm.withLocals _⟩

theorem stackSlot (depth : Nat) (t : ValueType) : Mirrors Eq (stackSlot depth t) (stackSlot depth t) := by
  intro ctx ctx₂ a ctx' b ctx₂' hm hx hy
  obtain ⟨rfl, rfl⟩ := yields_stackSlot.1 hx
  obtain ⟨rfl, rfl⟩ := yields_stackSlot.1 hy
  rw [hm.locals]
  exact ⟨rfl, hm.withLocals _⟩

theorem withLoop (label : LoopLabel) (h : Mirrors R x y) :
    Mirrors R (withLoop label x) (withLoop label y) := by
  intro ctx ctx₂ a ctx' b ctx₂' hm hx hy
  obtain ⟨ctx₁, hwork, rfl⟩ := yields_withLoop.1 hx
  obtain ⟨ctx₃, hwork₂, rfl⟩ := yields_withLoop.1 hy
  obtain ⟨hab, hm'⟩ := h _ _ a ctx₁ b ctx₃ (hm.inside label) hwork hwork₂
  exact ⟨hab, hm'.outside label⟩

theorem mapM {l : List α} {l' : List β} {f : α → EngineM γ} {k : β → EngineM δ}
    (hf : ∀ a b, R a b → Mirrors S (f a) (k b)) (hl : List.Forall₂ R l l') :
    Mirrors (List.Forall₂ S) (l.mapM f) (l'.mapM k) := by
  induction hl with
  | nil =>
    rw [mapM_nil, mapM_nil]
    exact pure .nil
  | cons hab _ ih =>
    rw [mapM_cons, mapM_cons]
    exact bind (hf _ _ hab) fun c d hcd => bind ih fun cs ds hcds => pure (.cons hcd hcds)

theorem foldlM {f : α → γ → EngineM α} {k : β → γ → EngineM β}
    (hf : ∀ a b c, R a b → Mirrors R (f a c) (k b c)) (l : List γ) {a : α} {b : β} (h : R a b) :
    Mirrors R (l.foldlM f a) (l.foldlM k b) := by
  induction l generalizing a b with
  | nil => exact pure h
  | cons c l ih =>
    rw [foldlM_cons, foldlM_cons]
    exact bind (hf a b c h) fun a' b' h' => ih h'

theorem comment (text : String) : Mirrors Made (comment text) (comment text) := by
  refine get fun ctx ctx₂ hm => pure ?_
  have hoff : ctx.settings.comments = false := by rw [hm.settings]
  rw [hoff]
  cases ctx₂.settings.comments with
  | false => exact .nil
  | true => exact ⟨rfl, by simp [Body.isEqz, Instruction.numericOp?]⟩

theorem stackComment (verb : String) (stack : StackType) :
    Mirrors Made (stackComment verb stack) (stackComment verb stack) :=
  ite (pure .nil) (comment _)

theorem moveStack (stack : List (ValueType × Nat)) {move : LocalId → Instruction}
    (h : ∀ id, (move id).isComment = false ∧ (move id).isStructured = false ∧ Body.isEqz (move id) = false) :
    Mirrors Made (stack.mapM fun e => return move (← Engine.stackSlot e.2 e.1))
      (stack.mapM fun e => return move (← Engine.stackSlot e.2 e.1)) := by
  have hcode : Mirrors (List.Forall₂ fun i j => i = j ∧ ∃ id, i = move id)
      (stack.mapM fun e => return move (← Engine.stackSlot e.2 e.1))
      (stack.mapM fun e => return move (← Engine.stackSlot e.2 e.1)) := by
    refine mapM (R := Eq) ?_ (forall₂_refl stack)
    rintro e _ rfl
    refine bindEq (stackSlot e.2 e.1) fun id => ?_
    exact pure ⟨rfl, id, rfl⟩
  refine hcode.mono fun c₀ c hc => ?_
  have heq : c₀ = c := forall₂_eq_eq_eq ▸ hc.imp fun _ _ hij => hij.1
  subst heq
  refine Body.made_of_simple fun i hi => ?_
  obtain ⟨_, id, rfl⟩ := forall₂_same.1 hc i hi
  exact h id

theorem storeStack (stack : StackType) : Mirrors Made (storeStack stack) (storeStack stack) :=
  bind (stackComment _ _) fun _ _ hn =>
    bind (moveStack stack.zipIdx.reverse fun _ => ⟨rfl, rfl, rfl⟩) fun _ _ hc => pure (hn.append hc)

theorem loadStack (stack : StackType) : Mirrors Made (loadStack stack) (loadStack stack) :=
  bind (stackComment _ _) fun _ _ hn =>
    bind (moveStack stack.zipIdx fun _ => ⟨rfl, rfl, rfl⟩) fun _ _ hc => pure (hn.append hc)

/-! ### Rules of the reducer -/

theorem removeTrivialBranch (h : g₀.Bares g) :
    Mirrors OfRule (Reduce.removeTrivialBranch g₀) (Reduce.removeTrivialBranch g) := by
  unfold Reduce.removeTrivialBranch
  rw [h.eq, Reduce.trivialBranch?_bare, ← h.eq]
  cases Reduce.trivialBranch? g with
  | none => exact pure .none
  | some e =>
    refine bind (comment _) fun note₀ note hn => bind (lift (h.change (fun n hget => ⟨?_, ?_⟩) _))
      fun _ _ h' => pure (.some h')
    · simp [Node.bare, hn.bare]
    · exact ((h.steady_body hget).append hn.steady).append rfl

theorem removeUnreachable (h : g₀.Bares g) :
    Mirrors OfRule (Reduce.removeUnreachable g₀) (Reduce.removeUnreachable g) := by
  refine bind (lift h.removeUnreachable) ?_
  rintro ⟨_, _⟩ ⟨gone, g'⟩ ⟨rfl, h'⟩
  exact ite (pure .none) (bind (emit _ _) fun _ _ _ => pure (.some h'))

theorem makeEndlessLoop (h : g₀.Bares g) :
    Mirrors OfRule (Reduce.makeEndlessLoop g₀) (Reduce.makeEndlessLoop g) := by
  unfold Reduce.makeEndlessLoop
  rw [h.eq, Reduce.endless?_bare, ← h.eq]
  cases Reduce.endless? g with
  | none => exact pure .none
  | some id =>
    refine bindEq freshLabel fun label => ?_
    refine bind (lift (h.change (fun n _ => ⟨?_, ?_⟩) _)) fun _ _ h' => pure (.some h')
    · simp [Node.bare]
    · rfl

theorem makeWhileLoop (h : g₀.Bares g) :
    Mirrors OfRule (Reduce.makeWhileLoop g₀) (Reduce.makeWhileLoop g) := by
  unfold Reduce.makeWhileLoop
  rw [h.eq, Reduce.while?_bare, ← h.eq]
  refine bind (lift (.of_eq rfl)) ?_
  rintro _ (_ | ⟨id, arm⟩) rfl
  · exact pure .none
  · refine bindEq freshLabel fun label => ?_
    refine bind (lift (h.change (fun n hn => ⟨?_, ?_⟩) _)) fun _ _ h' => pure (.some h')
    · simp [Node.bare, arm.bare_toward (h.steady_body hn)]
    · rfl

theorem makeSmallCircle (h : g₀.Bares g) :
    Mirrors OfRule (Reduce.makeSmallCircle g₀) (Reduce.makeSmallCircle g) := by
  unfold Reduce.makeSmallCircle
  rw [h.eq, Reduce.smallCircle?_bare, ← h.eq]
  refine bind (lift (.of_eq rfl)) ?_
  rintro _ (_ | ⟨id, arm⟩) rfl
  · exact pure .none
  · refine bindEq freshLabel fun label => ?_
    refine bind (lift (h.removeNode arm.target)) ?_
    rintro ⟨_, _⟩ ⟨circle, _⟩ ⟨rfl, _, h'⟩
    have hbare : circle.bare.body ++ [.br label] = Body.bare (circle.body ++ [.br label]) := by
      simp
    dsimp only
    rw [hbare]
    exact bind (lift (h'.closeCircle id arm label _)) fun _ _ h'' => pure (.some h'')

theorem makeTwoExitCircle (h : g₀.Bares g) :
    Mirrors OfRule (Reduce.makeTwoExitCircle g₀) (Reduce.makeTwoExitCircle g) := by
  unfold Reduce.makeTwoExitCircle
  rw [h.eq, Reduce.twoExitCircle?_bare, ← h.eq]
  refine bind (lift (.of_eq rfl)) ?_
  rintro _ (_ | ⟨id, arm⟩) rfl
  · exact pure .none
  · refine bindEq freshLabel fun label => ?_
    refine bind (lift (h.removeNode arm.target)) ?_
    rintro ⟨_, _⟩ ⟨circle, _⟩ ⟨rfl, hcircle, h'⟩
    -- the condition of the circle is turned around in both graphs or in neither
    have hbare : (if circle.bare.exit = .branch id arm.other then circle.bare.body
          else circle.bare.body.negate) ++ [.brIf label] =
        Body.bare ((if circle.exit = .branch id arm.other then circle.body else circle.body.negate) ++
          [.brIf label]) := by
      rw [Node.bare_exit, Node.bare_body, Body.bare_append]
      split
      · rfl
      · rw [Body.bare_negate (h.steady_body hcircle)]
        rfl
    dsimp only
    rw [hbare]
    exact bind (lift (h'.closeCircle id arm label _)) fun _ _ h'' => pure (.some h'')

theorem duplicating {rule : Bool → Graph → Except Fault (Option Graph)}
    (h : ∀ dup, Follows OfRule (rule dup g₀) (rule dup g)) :
    Mirrors OfRule (Reduce.duplicating rule g₀) (Reduce.duplicating rule g) := by
  refine get fun ctx ctx₂ hm => ?_
  rw [hm.settings]
  exact lift (h _)

theorem limited {rule : Nat → Graph → Except Fault (Option Graph)}
    (h : ∀ limit, Follows OfRule (rule limit g₀) (rule limit g)) :
    Mirrors OfRule (Reduce.limited rule g₀) (Reduce.limited rule g) := by
  refine get fun ctx ctx₂ hm => ?_
  rw [hm.settings]
  exact lift (h _)

/-- **Every rule but the one for duplicate nodes leads to the same graph, comments aside.** -/
theorem rules {rule : Rule} (hrule : rule ∈ Reduce.rules) (hname : rule.name ≠ "merge duplicate nodes")
    (h : g₀.Bares g) : Mirrors OfRule (rule.apply g₀) (rule.apply g) := by
  simp only [Reduce.rules, mem_cons, not_mem_nil, or_false] at hrule
  rcases hrule with rfl | rfl | rfl | rfl | rfl | rfl | rfl | rfl | rfl | rfl | rfl | rfl | rfl | rfl |
    rfl | rfl
  · exact lift h.foldConstantBranch
  · exact removeTrivialBranch h
  · exact removeUnreachable h
  · exact lift h.bypassEmptyNode
  · exact absurd rfl hname
  · exact limited h.inlineSmallReturn
  · exact lift h.mergeSequence
  · exact duplicating h.joinTerminating
  · exact duplicating h.joinOneTerminating
  · exact makeEndlessLoop h
  · exact makeWhileLoop h
  · exact duplicating h.joinOptional
  · exact duplicating h.joinConverging
  · exact lift h.mergeTwoNodeCycle
  · exact makeSmallCircle h
  · exact makeTwoExitCircle h

end Mirrors

/-! ### Checks -/

theorem yields_logApplied {name : String} {u : Unit} :
    Yields (Reduce.logApplied name g) ctx u ctx' ↔
      ctx.logged (.applied name g.size (g.dump ctx.locals)) = ctx' := by
  have houtcome : outcome (Reduce.logApplied name g) ctx =
      (.ok (), ctx.logged (.applied name g.size (g.dump ctx.locals))) := by
    have htrace : outcome isTracing ctx = (.ok (LogLevel.trace.shown ctx.verbosity), ctx) := rfl
    rw [Reduce.logApplied, outcome_bind, htrace]
    cases hv : LogLevel.trace.shown ctx.verbosity with
    | true => rfl
    | false =>
      have hlevel : ((Event.applied name g.size (g.dump ctx.locals)).level.shown ctx.verbosity) = false := hv
      rw [Context.logged, hlevel]
      rfl
  unfold Yields
  rw [houtcome]
  simp

theorem yields_checkError? {step : String} {e : Option StructureError}
    (h : Yields (Reduce.checkError? g step) ctx e ctx') :
    (e = none ↔ ctx.settings.validateSteps = true → ctx.inspect g = .ok ()) ∧
      ∃ events : List Event, ctx' = events.foldl Context.logged ctx := by
  obtain ⟨_, _, hy, hspec⟩ := Reduce.checkError?_spec g step ctx
  obtain ⟨rfl, rfl⟩ := hy.unique h
  exact hspec

namespace Mirrors

theorem logApplied (name : String) (g₀ g : Graph) :
    Mirrors (fun _ _ => True) (Reduce.logApplied name g₀) (Reduce.logApplied name g) := by
  intro ctx ctx₂ u ctx' v ctx₂' hm hx hy
  rw [← yields_logApplied.1 hx, ← yields_logApplied.1 hy]
  exact ⟨trivial, hm.logged _ _⟩

theorem checkError? (h : g₀.Bares g) (step : String) :
    Mirrors (fun e₀ e => e₀ = none ↔ e = none) (Reduce.checkError? g₀ step) (Reduce.checkError? g step) := by
  intro ctx ctx₂ e₀ ctx' e ctx₂' hm hx hy
  obtain ⟨he₀, events₀, rfl⟩ := yields_checkError? hx
  obtain ⟨he, events, rfl⟩ := yields_checkError? hy
  have hvalidate : ctx.settings.validateSteps = ctx₂.settings.validateSteps := by rw [hm.settings]
  refine ⟨?_, hm.loggedAll events₀ events⟩
  show e₀ = none ↔ e = none
  rw [he₀, he, hvalidate, h.eq, hm.inspect_iff]

theorem checkStep (g₀ g : Graph) (step : String) :
    Mirrors (fun _ _ => True) (checkStep g₀ step) (checkStep g step) := by
  refine get fun ctx ctx₂ hm => ?_
  rw [hm.settings]
  refine ite (bind (emit _ _) fun _ _ _ => ?_) (pure trivial)
  intro c c₂ u c' v c₂' hc hx hy
  obtain ⟨_, rfl⟩ := yields_checkGraph.1 hx
  obtain ⟨_, rfl⟩ := yields_checkGraph.1 hy
  exact ⟨trivial, hc⟩

end Mirrors

end Engine

end Structurer
