/-
**Two readings of falling through.**

Whether execution can reach the end of some code is decided twice: by the shape of all its
instructions, and by the stack check, which follows the code and stops at the first instruction that
never falls through.  On code that passes the check the two agree, so a graph whose nodes were closed
by the first reading never fails the check for falling through.
-/

import Structurer.Proofs.Engine
import Structurer.Proofs.Places
import Structurer.Proofs.Typing
import Structurer.Structure

namespace Structurer

open List Body

variable {flow : Flow} {expected params results : StackType} {body : Body} {n : Node} {g : Graph}

/-! ### Blocks -/

namespace Checker

theorem join_eq_fallsThrough_iff {flow' : Flow} :
    flow.join flow' = .fallsThrough ↔ flow = .fallsThrough ∨ flow' = .fallsThrough := by
  cases flow <;> cases flow' <;> simp [Flow.join]

theorem isSome_joined (rest results : StackType) :
    (joined rest results flow).isSome = true ↔ flow = .fallsThrough := by
  cases flow <;> simp [joined]

section Flows

variable {c : Checker} {loops : List LoopFrame} {stack : StackType}

theorem typeBlock_flow_of_body {b : Body}
    (hbody : ∀ r, c.typeBody loops stack b = some r → (r.isSome = true ↔ fallsThrough b = true))
    (h : c.typeBlock loops stack expected b = some flow) :
    flow = .fallsThrough ↔ fallsThrough b = true := by
  rcases typeBlock_eq_some_iff.1 h with ⟨hb, rfl⟩ | ⟨st, hb, -, rfl⟩
  · simpa using hbody _ hb
  · simpa using hbody _ hb

theorem stepSimple_flow {i : Instruction} {r : Option StackType} (hsimple : i.isStructured = false)
    (h : c.stepSimple loops stack i = .ok r) : r.isSome = true ↔ i.canFallThrough = true := by
  cases i with
  | cond => cases hsimple
  | loop => cases hsimple
  | switch => cases hsimple
  | br | ret | drop | i32Const | i64Const | f32Const | f64Const | comment | unreachable | localGet
  | localSet | numeric | call | brIf =>
    simp [stepSimple, Fallible.bind_eq_ok_iff, pure, Except.pure] at h
    grind [Instruction.canFallThrough]

mutual

theorem typeInstruction_flow (c : Checker) (loops : List LoopFrame) (stack : StackType)
    (i : Instruction) (r : Option StackType) (h : c.typeInstruction loops stack i = some r) :
    r.isSome = true ↔ i.canFallThrough = true := by
  cases i with
  | cond params results t e =>
    obtain ⟨_, -, _, -, flow, ht, flow', he, rfl⟩ := typeInstruction_cond_iff.1 h
    rw [isSome_joined, join_eq_fallsThrough_iff, Instruction.canFallThrough, Bool.or_eq_true,
      typeBlock_flow_of_body (typeBody_flow c loops params t) ht,
      typeBlock_flow_of_body (typeBody_flow c loops params e) he]
  | loop label params results b =>
    obtain ⟨_, -, flow, hb, rfl⟩ := typeInstruction_loop_iff.1 h
    rw [isSome_joined, Instruction.canFallThrough, typeBlock_flow_of_body (typeBody_flow c _ params b) hb]
  | switch selector cases =>
    obtain ⟨-, flow, hcases, rfl⟩ := typeInstruction_switch_iff.1 h
    rw [isSome_joined, Instruction.canFallThrough, typeCases_flow c loops cases flow hcases]
  | _ =>
    simp only [typeInstruction, Fallible.toOption_eq_some_iff] at h
    exact stepSimple_flow rfl h

theorem typeBody_flow (c : Checker) (loops : List LoopFrame) (stack : StackType)
    (b : List Instruction) (r : Option StackType) (h : c.typeBody loops stack b = some r) :
    r.isSome = true ↔ fallsThrough b = true := by
  match b with
  | [] =>
    cases h
    simp [fallsThrough]
  | i :: is =>
    rw [fallsThrough, Bool.and_eq_true]
    rcases typeBody_cons_iff.1 h with ⟨hi, rfl⟩ | ⟨st, hi, his⟩
    · have hends := typeInstruction_flow c loops stack i none hi
      simpa using fun hfalls => absurd (hends.2 hfalls) (by simp)
    · rw [typeBody_flow c loops st is r his, ← typeInstruction_flow c loops stack i (some st) hi]
      simp

theorem typeCases_flow (c : Checker) (loops : List LoopFrame) (bs : List (List Instruction))
    (flow : Flow) (h : c.typeCases loops bs = some flow) :
    flow = .fallsThrough ↔ someFallsThrough bs = true := by
  match bs with
  | [] =>
    cases h
    simp [someFallsThrough]
  | b :: bs =>
    obtain ⟨flow₁, hb, flow₂, hbs, rfl⟩ := typeCases_cons_iff.1 h
    rw [join_eq_fallsThrough_iff, someFallsThrough, Bool.or_eq_true,
      typeBlock_flow_of_body (typeBody_flow c loops [] b) hb, typeCases_flow c loops bs flow₂ hbs]

end

end Flows

/-- **The two readings agree** on code that passes the check. -/
theorem checkBody_flow {c : Checker} (h : c.checkBody body params results = .ok flow) :
    flow = .fallsThrough ↔ fallsThrough body = true :=
  typeBlock_flow_of_body (typeBody_flow c c.frames params body) (checkBody_eq_ok_iff.1 h)

end Checker

/-! ### Closed nodes -/

theorem Node.fallsThrough_closed (h : n.exit = .ret) : fallsThrough n.closed.body = false := by
  unfold Node.closed
  split
  next =>
    rw [fallsThrough_append]
    simp [fallsThrough, Instruction.canFallThrough]
  next hopen => simpa [h, Exit.isRet] using hopen

theorem Node.closed_exit (n : Node) : n.closed.exit = n.exit := by
  unfold Node.closed
  split <;> rfl

namespace Checker

variable {c : Checker} {e : VerifyError}

theorem cause_checkBody (h : c.checkBody body params results = .error e) :
    e.cause ≠ .fallsThrough := by
  obtain ⟨-, _, -, ⟨-, hrejects⟩ | ⟨-, hcause, -⟩⟩ := checkBody_blames h
  · intro hcause
    rw [hcause] at hrejects
    cases hrejects.reason
  · simp [hcause]

theorem cause_checkNode (hclosed : n.exit = .ret → fallsThrough n.body = false)
    (h : c.checkNode n = .error e) : e.cause ≠ .fallsThrough := by
  obtain ⟨e', hfails, rfl⟩ := Fallible.mapError_eq_error_iff.1 h
  rcases Fallible.bind_eq_error_iff.1 hfails with hbody | ⟨flow, hbody, hend⟩
  · exact (cause_checkBody hbody :)
  · split at hend
    next hret =>
      have hfalls : fallsThrough n.body = true := (checkBody_flow hbody).1 hret.2
      simp [hclosed hret.1] at hfalls
    next => cases hend

end Checker

theorem Context.checkNodes_of_inspect {ctx : Context} {e : VerifyError}
    (h : ctx.inspect g = .error (.error (.verifier e))) : ctx.checker.checkNodes g = .error e := by
  unfold inspect at h
  split at h
  next => cases h
  next hlinks =>
    obtain ⟨r, hr, hmismatch⟩ := Graph.edgeMismatch?_works hlinks ctx.settings.strictReferences
    rw [hr] at h
    cases r with
    | some e' =>
      obtain ⟨_, _, _, _, rfl⟩ := hmismatch e' rfl
      cases h
    | none =>
      obtain ⟨e', hfails, heq⟩ := Fallible.mapError_eq_error_iff.1 h
      cases heq
      exact hfails

namespace Engine

variable {α β : Type}

def FailsOnly (P : Failure → Prop) (x : EngineM α) : Prop :=
  ∀ ctx e ctx', outcome x ctx = (.error e, ctx') → P e

namespace FailsOnly

variable {P : Failure → Prop}

theorem bind {x : EngineM α} {f : α → EngineM β} (hx : FailsOnly P x) (hf : ∀ a, FailsOnly P (f a)) :
    FailsOnly P (x >>= f) := by
  intro ctx e ctx' hfails
  rw [outcome_bind] at hfails
  split at hfails
  next a ctx₁ _ => exact hf a ctx₁ e ctx' hfails
  next e₁ ctx₁ h₁ =>
    cases hfails
    exact hx ctx e ctx' h₁

theorem throw {e : Failure} (h : P e) : FailsOnly P (throw e : EngineM α) := by
  intro ctx e' ctx' hfails
  cases hfails
  exact h

theorem pure (a : α) : FailsOnly P (pure a : EngineM α) := by
  intro ctx e ctx' hfails
  cases hfails

theorem get : FailsOnly P (get : EngineM Context) := by
  intro ctx e ctx' hfails
  cases hfails

theorem emit (e : Event) : FailsOnly P (emit e) := by
  intro ctx e' ctx' hfails
  cases hfails

theorem lift (x : Except Fault α) (h : ∀ f, P (.fault f)) : FailsOnly P (liftM x : EngineM α) := by
  intro ctx e ctx' hfails
  cases x with
  | ok a => cases hfails
  | error f =>
    cases hfails
    exact h f

theorem checkGraph (hclosed : ∀ n ∈ g.nodes, n.2.exit = .ret → fallsThrough n.2.body = false) :
    FailsOnly (fun e => ∀ v, e = .error (.verifier v) → v.cause ≠ .fallsThrough) (checkGraph g) := by
  refine bind get fun ctx => ?_
  split
  next => exact pure ()
  next e hinspect =>
    refine bind get fun _ => bind (emit _) fun _ => throw fun v hv => ?_
    cases hv
    obtain ⟨n, hn, hfails⟩ := Fallible.exists_of_forM_eq_error (Context.checkNodes_of_inspect hinspect)
    exact Checker.cause_checkNode (hclosed n hn) hfails
  next => exact throw fun v hv => by cases hv

/-- **Normalizing never fails for falling through.** -/
theorem normalize (g : Graph) :
    FailsOnly (fun e => ∀ v, e = .error (.verifier v) → v.cause ≠ .fallsThrough) (normalize g) := by
  unfold Structurer.normalize
  dsimp only
  split
  next =>
    simp only [violation, bind_assoc, pure_bind]
    exact bind get fun _ => bind get fun _ => bind (emit _) fun _ => throw fun v hv => by cases hv
  next =>
    refine bind (lift _ fun f v hv => by cases hv) fun r => ?_
    have hclosed : ∀ n ∈ r.2.closeReturns.renumber.nodes, n.2.exit = .ret →
        fallsThrough n.2.body = false := by
      intro n hn hret
      obtain ⟨k, hk, rfl⟩ := mem_mapIdx.1 hn
      obtain ⟨m, -, hm⟩ := mem_map.1 (getElem_mem hk)
      rw [← hm] at hret ⊢
      exact Node.fallsThrough_closed (m.2.closed_exit ▸ hret)
    split
    next => exact bind (checkGraph hclosed) fun _ => pure _
    next => exact bind get fun _ => bind (emit _) fun _ => bind (checkGraph hclosed) fun _ => pure _

end FailsOnly

end Engine

/-- **The two readings of falling through agree.**  On a body that passes the stack check the check
says that the end is reached exactly if the shape of the body does; so a graph whose nodes are closed
by their shape never fails the check for falling through. -/
theorem fallsThrough_exact :
    (∀ (c : Checker) (body : Body) (params results : StackType) (flow : Flow),
      c.checkBody body params results = .ok flow →
        (flow = .fallsThrough ↔ Body.fallsThrough body = true)) ∧
    ∀ (g : Graph) (ctx ctx' : Context) (e : VerifyError),
      Engine.outcome (normalize g) ctx = (.error (.error (.verifier e)), ctx') →
        e.cause ≠ .fallsThrough :=
  ⟨fun _ _ _ _ _ => Checker.checkBody_flow,
    fun g ctx ctx' e h => Engine.FailsOnly.normalize g ctx _ ctx' h e rfl⟩

def deadEnd : Body := [.i32Const 1, .cond [] [] [.ret] [.switch ⟨0⟩ []], .drop]

def unreturning : Graph := ⟨[(⟨0⟩, .new [.drop] [] [])], 1, ⟨0⟩⟩

theorem fallsThrough_exact_deadEnd :
    nestedChecker.checkBody deadEnd [] [.i64] = .ok .terminates ∧ ¬ Body.fallsThrough deadEnd = true ∧
    ∃ e ctx', Engine.outcome (normalize unreturning)
        (.initial ⟨"K", "run", "()V", []⟩ .empty .standard none) = (.error (.error (.verifier e)), ctx') ∧
      e.cause ≠ .fallsThrough := by
  have checked : nestedChecker.checkBody deadEnd [] [.i64] = .ok .terminates := by rfl
  have reached := fallsThrough_exact.1 _ _ _ _ _ checked
  refine ⟨checked, ?_, _, _, rfl, fallsThrough_exact.2 unreturning _ _ _ rfl⟩
  simpa using reached

end Structurer
