/-
**The stack check and erased types.**

A reading that does not tell references from integers sees of every type only what carries it at
run time.  Whether code is accepted, whether its end is reached and where the check fails then
depend on nothing else: the check of some code and the check of its carried form, in which every
reference has become an integer, go the same way step by step.
-/

import Structurer.Proofs.Typing

namespace Structurer

open Fallible List

/-! ### Carried forms -/

def ValueType.carrier : ValueType → ValueType
  | .ref => .i32
  | t => t

abbrev StackType.carried (s : StackType) : StackType := s.map ValueType.carrier

mutual

def Instruction.carried : Instruction → Instruction
  | .call name inputs outputs => .call name inputs.carried outputs.carried
  | .cond params results t e =>
      .cond params.carried results.carried (Body.carried t) (Body.carried e)
  | .loop label params results b =>
      .loop label params.carried results.carried (Body.carried b)
  | .switch selector cases => .switch selector (Body.carriedCases cases)
  | i => i

def Body.carried : List Instruction → List Instruction
  | [] => []
  | i :: is => i.carried :: Body.carried is

def Body.carriedCases : List (List Instruction) → List (List Instruction)
  | [] => []
  | b :: bs => Body.carried b :: Body.carriedCases bs

end

def LoopFrame.carried (f : LoopFrame) : LoopFrame := ⟨f.label, f.params.carried⟩

def Locals.carried (ls : Locals) : Locals :=
  ⟨ls.entries.map fun v => ⟨v.name, v.valueType.carrier⟩, []⟩

def Checker.carried (c : Checker) : Checker :=
  ⟨c.locals.carried, c.methodResults.carried, c.strict, c.outerLoops⟩

def verdict {α : Type} (x : Except VerifyError α) : Except (List Nat) α :=
  x.mapError (·.location.path)

variable {c : Checker} {loops : List LoopFrame} {path : List Nat} {stack expected : StackType}
  {α β γ δ : Type}

/-! ### Types and stacks -/

@[simp] theorem ValueType.fits_carrier (a b : ValueType) :
    fits false a.carrier b.carrier = fits false a b := by
  cases a <;> cases b <;> rfl

theorem StackType.fits_carried (a b : StackType) :
    fits false (carried a) (carried b) = fits false a b := by
  induction a generalizing b with
  | nil => cases b <;> rfl
  | cons x a ih =>
    cases b with
    | nil => rfl
    | cons y b =>
      have htail := ih b
      simp only [map_cons, fits, ValueType.fits_carrier] at htail ⊢
      rw [htail]

theorem StackType.endsWith_carried (a e : StackType) :
    endsWith false (carried a) (carried e) = endsWith false a e := by
  have htop := fits_carried (a.drop (a.length - e.length)) e
  simp only [carried, map_drop] at htop
  simp only [endsWith, length_map, htop]

namespace Checker

/-! ### Runs that go the same way -/

def Mirrors (f : α → β) (x : Except VerifyError α) (y : Except VerifyError β) : Prop :=
  verdict y = (verdict x).map f

theorem Mirrors.pure (f : α → β) (a : α) : Mirrors f (Pure.pure a) (Pure.pure (f a)) := rfl

theorem Mirrors.bind {f : α → β} {f' : γ → δ} {x : Except VerifyError α} {y : Except VerifyError β}
    {k : α → Except VerifyError γ} {k' : β → Except VerifyError δ} (h : Mirrors f x y)
    (hk : ∀ a, Mirrors f' (k a) (k' (f a))) : Mirrors f' (x >>= k) (y >>= k') := by
  cases x with
  | error e =>
    cases y with
    | error e' => exact congrArg Except.error (Except.error.inj h)
    | ok b => cases h
  | ok a =>
    cases y with
    | error e' => cases h
    | ok b =>
      cases Except.ok.inj h
      exact hk a

theorem Mirrors.locate {c c' : Checker} {f : α → β} {i i' : Instruction} {x : Except VerifyCause α}
    {y : Except VerifyCause β} (h : y.toOption = x.toOption.map f) :
    Mirrors f (c.locate path i x) (c'.locate path i' y) := by
  cases x with
  | error e =>
    cases y with
    | error e' => rfl
    | ok b => cases h
  | ok a =>
    cases y with
    | error e' => cases h
    | ok b =>
      cases h
      rfl

theorem Mirrors.after (flow : Flow) (rest results : StackType) :
    Mirrors (Option.map StackType.carried)
      (Pure.pure (if flow = .terminates then none else some (rest ++ results)))
      (Pure.pure (if flow = .terminates then none
        else some (rest.carried ++ results.carried))) := by
  rw [← map_append]
  split <;> rfl

/-! ### Single steps -/

section

variable (hc : c.strict = false)

include hc

theorem pop_carried (stack expected : StackType) :
    (c.carried.pop stack.carried expected.carried).toOption =
      (c.pop stack expected).toOption.map StackType.carried := by
  have hends := StackType.endsWith_carried stack expected
  simp only [pop, carried, hc, isEmpty_map, length_map, hends]
  split
  · rfl
  · split
    · simp [Except.toOption, map_take]
    · rfl

theorem checkJump_carried (loops : List LoopFrame) (stack : StackType) (label : LoopLabel) :
    (c.carried.checkJump (loops.map .carried) stack.carried label).toOption =
      (c.checkJump loops stack label).toOption := by
  have hfind : (loops.map LoopFrame.carried).find? (·.label == label) =
      (loops.find? (·.label == label)).map .carried := by
    rw [find?_map]
    rfl
  simp only [checkJump, hfind]
  cases loops.find? (·.label == label) with
  | none => rfl
  | some frame =>
    have hends := StackType.endsWith_carried stack frame.params
    simp only [Option.map_some, LoopFrame.carried, carried, hc, hends]
    split <;> rfl

omit hc in
theorem localType_carried (id : LocalId) :
    (c.carried.localType id).toOption = (c.localType id).toOption.map .carrier := by
  simp only [localType, Locals.get?, carried, Locals.carried, Array.getElem?_map]
  cases c.locals.entries[id.index]? <;> rfl

theorem checkSelector_carried (id : LocalId) :
    (c.carried.checkSelector id).toOption = (c.checkSelector id).toOption := by
  simp only [checkSelector, toOption_bind, localType_carried, Option.bind_map]
  refine congrArg _ (funext fun t => ?_)
  have hfits : t.carrier.fits false .i32 = t.fits false .i32 := ValueType.fits_carrier t .i32
  simp only [Function.comp_apply, carried, hc, hfits]
  split <;> rfl

theorem pop_i32_carried (stack : StackType) :
    (c.carried.pop stack.carried [.i32]).toOption =
      (c.pop stack [.i32]).toOption.map StackType.carried :=
  pop_carried hc stack [.i32]

theorem stepSimple_carried (loops : List LoopFrame) (stack : StackType) (i : Instruction) :
    (c.carried.stepSimple (loops.map .carried) stack.carried i.carried).toOption =
      (c.stepSimple loops stack i).toOption.map (Option.map StackType.carried) := by
  cases i with
  | localGet id =>
    simp only [Instruction.carried, stepSimple, toOption_bind, localType_carried]
    cases (c.localType id).toOption with
    | none => rfl
    | some t => simp [Except.toOption, pure, Except.pure]
  | localSet id =>
    simp only [Instruction.carried, stepSimple, toOption_bind, localType_carried]
    cases (c.localType id).toOption with
    | none => rfl
    | some t =>
      have hpop := pop_carried hc stack [t]
      simp only [Option.map_some, Option.bind_some, map_cons, map_nil] at hpop ⊢
      rw [hpop]
      cases (c.pop stack [t]).toOption <;> rfl
  | numeric op =>
    have hin : op.inputs.carried = op.inputs := by cases op <;> rfl
    have hout : op.output.carrier = op.output := by cases op <;> rfl
    have hpop := pop_carried hc stack op.inputs
    rw [hin] at hpop
    simp only [Instruction.carried, stepSimple, toOption_bind, hpop]
    cases (c.pop stack op.inputs).toOption with
    | none => rfl
    | some rest => simp [Except.toOption, pure, Except.pure, hout]
  | drop =>
    simp only [Instruction.carried, stepSimple, isEmpty_map]
    split
    · rfl
    · simp [Except.toOption, map_dropLast]
  | call name inputs outputs =>
    simp only [Instruction.carried, stepSimple, toOption_bind, pop_carried hc]
    cases (c.pop stack inputs).toOption with
    | none => rfl
    | some rest => simp [Except.toOption, pure, Except.pure]
  | br label =>
    simp only [Instruction.carried, stepSimple, toOption_bind, checkJump_carried hc]
    cases (c.checkJump loops stack label).toOption <;> rfl
  | brIf label =>
    simp only [Instruction.carried, stepSimple, toOption_bind, pop_i32_carried hc]
    cases (c.pop stack [.i32]).toOption with
    | none => rfl
    | some rest =>
      simp only [Option.map_some, Option.bind_some, checkJump_carried hc]
      cases (c.checkJump loops rest label).toOption <;> rfl
  | ret =>
    have hends := StackType.endsWith_carried stack c.methodResults
    simp only [Instruction.carried, stepSimple, carried, hc, hends]
    split <;> rfl
  | _ => simp [Instruction.carried, stepSimple, Except.toOption, ValueType.carrier]

/-! ### Whole bodies -/

theorem checkEnd_carried (path : List Nat) (stack expected : StackType) :
    Mirrors id (c.checkEnd path stack expected)
      (c.carried.checkEnd path stack.carried expected.carried) := by
  have hfits := StackType.fits_carried stack expected
  simp only [checkEnd, carried, hc, hfits]
  split <;> rfl

end

mutual

theorem checkInstruction_carried (hc : c.strict = false) (loops : List LoopFrame)
    (path : List Nat) (stack : StackType) (i : Instruction) :
    Mirrors (Option.map StackType.carried) (c.checkInstruction loops path stack i)
      (c.carried.checkInstruction (loops.map .carried) path stack.carried
        i.carried) := by
  have hsimple := stepSimple_carried hc loops stack i
  cases i with
  | cond params results t e =>
    simp only [Instruction.carried, checkInstruction]
    refine Mirrors.bind (f := StackType.carried) (.locate ?_) fun rest => ?_
    · simp only [toOption_bind, pop_i32_carried hc]
      cases (c.pop stack [.i32]).toOption with
      | none => rfl
      | some below => exact pop_carried hc below params
    refine (checkBlock_carried hc loops (path ++ [0]) 0 params results t).bind fun flow => ?_
    refine (checkBlock_carried hc loops (path ++ [1]) 0 params results e).bind fun flow' => ?_
    exact .after (flow.join flow') rest results
  | loop label params results body =>
    simp only [Instruction.carried, checkInstruction]
    refine Mirrors.bind (.locate (pop_carried hc stack params)) fun rest => ?_
    refine (checkBlock_carried hc (⟨label, params⟩ :: loops) (path ++ [0]) 0 params results
      body).bind fun flow => ?_
    exact .after flow rest results
  | switch selector cases =>
    simp only [Instruction.carried, checkInstruction]
    refine Mirrors.bind (f := id) (.locate ?_) fun _ => ?_
    · rw [checkSelector_carried hc, Option.map_id]
      rfl
    refine (checkCases_carried hc loops path 0 cases).bind fun flow => ?_
    simp only [id]
    split <;> rfl
  | _ =>
    simp only [Instruction.carried, checkInstruction] at hsimple ⊢
    exact .locate hsimple

theorem checkBlock_carried (hc : c.strict = false) (loops : List LoopFrame) (path : List Nat)
    (k : Nat) (stack expected : StackType) (b : List Instruction) :
    Mirrors id (c.checkBlock loops path k stack expected b)
      (c.carried.checkBlock (loops.map .carried) path k stack.carried
        expected.carried (Body.carried b)) := by
  match b with
  | [] =>
    simp only [Body.carried, checkBlock]
    exact checkEnd_carried hc path stack expected
  | i :: is =>
    simp only [Body.carried, checkBlock]
    refine (checkInstruction_carried hc loops (path ++ [k]) stack i).bind fun r => ?_
    cases r with
    | none => exact .pure id _
    | some st => exact checkBlock_carried hc loops path (k + 1) st expected is

theorem checkCases_carried (hc : c.strict = false) (loops : List LoopFrame) (path : List Nat)
    (k : Nat) (bs : List (List Instruction)) :
    Mirrors id (c.checkCases loops path k bs)
      (c.carried.checkCases (loops.map .carried) path k (Body.carriedCases bs)) := by
  match bs with
  | [] => rfl
  | b :: bs =>
    simp only [Body.carriedCases, checkCases]
    refine (checkBlock_carried hc loops (path ++ [k]) 0 [] [] b).bind fun flow => ?_
    exact (checkCases_carried hc loops path (k + 1) bs).bind fun flow' => .pure id _

end

/-- **The check of a body and that of its carried form come to the same verdict.** -/
theorem verdict_carried (hc : c.strict = false) (body : Body) (params results : StackType) :
    verdict (c.carried.checkBody (Body.carried body) params.carried
      results.carried) = verdict (c.checkBody body params results) := by
  have hloops : (c.outerLoops.reverse.map fun l => LoopFrame.mk l []).map LoopFrame.carried =
      c.outerLoops.reverse.map fun l => ⟨l, []⟩ := by
    rw [List.map_map]
    rfl
  have h := checkBlock_carried hc (c.outerLoops.reverse.map fun l => ⟨l, []⟩) [] 0 params results body
  rw [hloops] at h
  exact h.trans (congrFun Except.map_id _)

/-- **A lenient check depends only on what carries the types.**  Replace references by integers or
integers by references among the types of the code, at any depth, of the variables, of what lies
on the stack before and after, and of what a `return` needs: the end is still reached or not as it
was, or the check fails at the same place. -/
theorem checkBody_depends_on_carriers {c' : Checker} {body body' : Body}
    {params params' results results' : StackType} (lenient : c.strict = false)
    (hc : c.carried = c'.carried) (hbody : Body.carried body = Body.carried body')
    (hparams : params.carried = params'.carried)
    (hresults : results.carried = results'.carried) :
    verdict (c.checkBody body params results) = verdict (c'.checkBody body' params' results') := by
  -- strictness is part of what the carried forms agree on
  have lenient' : c'.strict = false := (congrArg Checker.strict hc).symm.trans lenient
  rw [← verdict_carried lenient, ← verdict_carried lenient', hc, hbody, hparams, hresults]

def handOver (t u : ValueType) : Body :=
  [.localGet ⟨0⟩, .i32Const 1, .cond [t] [u]
    [.call "keep" [u] [t]]
    [.loop ⟨0⟩ [u] [t] [.i32Const 0, .brIf ⟨0⟩, .localSet ⟨0⟩, .br ⟨0⟩]]]

def holder (t : ValueType) : Checker := ⟨⟨#[⟨"x", t⟩], []⟩, [t], false, []⟩

theorem checkBody_depends_on_carriers_handOver :
    verdict ((holder .ref).checkBody (handOver .ref .i32) [] [.i32]) =
        verdict ((holder .i32).checkBody (handOver .i32 .ref) [] [.ref]) ∧
      verdict ((holder .i32).checkBody (handOver .i32 .ref) [] [.ref]) = .error [2, 1, 0, 0, 3] :=
  ⟨checkBody_depends_on_carriers rfl (by simp [holder, carried, Locals.carried, ValueType.carrier])
    rfl rfl rfl, by decide⟩

end Checker

end Structurer
