/-
**Where the stack check fails.**

The place of a failure is a list of positions: of an instruction in the body, of a block in the
instruction, of an instruction in the block, and so on.  Followed into the code, it leads to the
instruction that could not be run, or to the block at whose end the stack was wrong.
-/

import Structurer.Proofs.Fallible
import Structurer.Verify.Checker

namespace Structurer

open List

variable {i : Instruction} {body : Body} {c : Checker} {stack : StackType} {loops : List LoopFrame}

/-! ### Places in code -/

def Instruction.block? : Instruction → Nat → Option (Body × StackType)
  | .cond _ results t _, 0 => some (t, results)
  | .cond _ results _ e, 1 => some (e, results)
  | .loop _ _ results b, 0 => some (b, results)
  | .switch _ cases, k => cases[k]?.map fun b => (b, [])
  | _, _ => none

/-- What a list of positions can lead to. -/
inductive Place where
  | instruction (i : Instruction)
  /-- A block, with what it is to leave on the stack. -/
  | block (body : Body) (results : StackType)

mutual

def Body.place? : List Nat → Body → StackType → Option Place
  | [], body, results => some (.block body results)
  | k :: path, body, _ => body[k]?.bind fun i => Instruction.place? path i

def Instruction.place? : List Nat → Instruction → Option Place
  | [], i => some (.instruction i)
  | k :: path, i => (i.block? k).bind fun (body, results) => Body.place? path body results

end

theorem Instruction.render_ne_nil (locals : Locals) (depth : Nat) : i.render locals depth ≠ [] := by
  cases i with
  | cond _ _ _ e => cases e <;> exact cons_ne_nil _ _
  | _ => exact cons_ne_nil _ _

namespace Checker

open Fallible

def Rejects (c : Checker) (cause : VerifyCause) : Instruction → Prop
  | .cond params .. => ∃ stack, (do c.pop (← c.pop stack [.i32]) params) = .error cause
  | .loop _ params .. => ∃ stack, c.pop stack params = .error cause
  | .switch selector _ => c.checkSelector selector = .error cause
  | i => ∃ loops stack, c.stepSimple loops stack i = .error cause

/-- What an instruction can be rejected for: the stack, a variable that it names and that is not
there, or the loop that it jumps to. -/
inductive Reason (c : Checker) : Instruction → VerifyCause → Prop
  | emptyStack {i : Instruction} : Reason c i .emptyStack
  | stackMismatch {i : Instruction} {expected actual : StackType} :
      Reason c i (.stackMismatch expected actual)
  | unknownLocal {i : Instruction} {l : LocalId}
      (names : i = .localGet l ∨ i = .localSet l ∨ ∃ cases, i = .switch l cases)
      (missing : c.locals.get? l = none) : Reason c i (.unknownLocal l)
  | unknownLabel {i : Instruction} {l : LoopLabel} (jumps : i = .br l ∨ i = .brIf l) :
      Reason c i (.unknownLabel l)
  | branchMismatch {i : Instruction} {l : LoopLabel} {expected actual : StackType}
      (jumps : i = .br l ∨ i = .brIf l) : Reason c i (.branchMismatch l expected actual)

section Reasons

variable {cause : VerifyCause} {expected : StackType}

theorem reason_pop (h : c.pop stack expected = .error cause) : c.Reason i cause := by
  unfold pop at h
  split at h
  · cases h
    exact .emptyStack
  · split at h
    · cases h
    · cases h
      exact .stackMismatch

theorem reason_localType {l : LocalId} (h : c.localType l = .error cause)
    (hi : i = .localGet l ∨ i = .localSet l ∨ ∃ cases, i = .switch l cases) : c.Reason i cause := by
  unfold localType at h
  split at h
  · cases h
  · next hmissing =>
      cases h
      exact .unknownLocal hi hmissing

theorem reason_checkJump {l : LoopLabel} (h : c.checkJump loops stack l = .error cause)
    (hi : i = .br l ∨ i = .brIf l) : c.Reason i cause := by
  unfold checkJump at h
  split at h
  · cases h
    exact .unknownLabel hi
  · split at h
    · cases h
    · cases h
      exact .branchMismatch hi

theorem reason_stepSimple (h : c.stepSimple loops stack i = .error cause) : c.Reason i cause := by
  cases i with
  | localGet l =>
    rcases bind_eq_error_iff.1 h with h | ⟨_, -, h⟩
    · exact reason_localType h (.inl rfl)
    · cases h
  | localSet l =>
    rcases bind_eq_error_iff.1 h with h | ⟨_, -, h⟩
    · exact reason_localType h (.inr (.inl rfl))
    rcases bind_eq_error_iff.1 h with h | ⟨_, -, h⟩
    · exact reason_pop h
    · cases h
  | numeric | call =>
    rcases bind_eq_error_iff.1 h with h | ⟨_, -, h⟩
    · exact reason_pop h
    · cases h
  | br l =>
    rcases bind_eq_error_iff.1 h with h | ⟨_, -, h⟩
    · exact reason_checkJump h (.inl rfl)
    · cases h
  | brIf l =>
    rcases bind_eq_error_iff.1 h with h | ⟨_, -, h⟩
    · exact reason_pop h
    rcases bind_eq_error_iff.1 h with h | ⟨_, -, h⟩
    · exact reason_checkJump h (.inr rfl)
    · cases h
  | drop =>
    rw [stepSimple] at h
    split at h <;> cases h
    exact .emptyStack
  | ret =>
    rw [stepSimple] at h
    split at h <;> cases h
    exact .stackMismatch
  | _ => cases h

theorem Rejects.reason (h : c.Rejects cause i) : c.Reason i cause := by
  cases i with
  | cond =>
    obtain ⟨stack, h⟩ := h
    rcases bind_eq_error_iff.1 h with h | ⟨_, -, h⟩
    · exact reason_pop h
    · exact reason_pop h
  | loop =>
    obtain ⟨stack, h⟩ := h
    exact reason_pop h
  | switch selector cases =>
    rcases bind_eq_error_iff.1 h with h | ⟨_, -, h⟩
    · exact reason_localType h (.inr (.inr ⟨cases, rfl⟩))
    · split at h <;> cases h
      exact .stackMismatch
  | _ =>
    obtain ⟨loops, stack, h⟩ := h
    exact reason_stepSimple h

end Reasons

/-- A failure and the place it is about. -/
inductive Blames (c : Checker) (e : VerifyError) : Place → Prop
  | instruction {i : Instruction}
      (line : (Body.render c.locals [i]).head? = some e.location.instruction)
      (cause : c.Rejects e.cause i) : Blames c e (.instruction i)
  | block {body : Body} {results actual : StackType} (line : e.location.instruction = "end")
      (cause : e.cause = .stackMismatch results actual)
      (differ : StackType.fits c.strict actual results = false) : Blames c e (.block body results)

def BlamesBeyond (c : Checker) (e : VerifyError) (path : List Nat) (follow : List Nat → Option Place) :
    Prop :=
  e.location.node = none ∧
    ∃ rest place, e.location.path = path ++ rest ∧ follow rest = some place ∧ c.Blames e place

variable {e : VerifyError} {path : List Nat}

theorem blames_locate {α : Type} {step : Except VerifyCause α} (h : c.locate path i step = .error e)
    (hstep : ∀ cause, step = .error cause → c.Rejects cause i) :
    c.BlamesBeyond e path fun rest => i.place? rest := by
  obtain ⟨cause, hcause, rfl⟩ := mapError_eq_error_iff.1 h
  refine ⟨rfl, [], .instruction i, (append_nil path).symm, rfl,
    .instruction ?_ (hstep cause hcause)⟩
  cases hlines : Body.render c.locals [i] with
  | nil => simp [Body.render, Body.renderAt, Instruction.render_ne_nil] at hlines
  | cons line lines => simp [failAt, hlines]

theorem BlamesBeyond.inside {k : Nat} {results : StackType}
    (h : c.BlamesBeyond e (path ++ [k]) fun rest => Body.place? rest body results)
    (hblock : i.block? k = some (body, results)) :
    c.BlamesBeyond e path fun rest => i.place? rest := by
  obtain ⟨hnode, rest, place, hpath, hplace, hblames⟩ := h
  refine ⟨hnode, k :: rest, place, ?_, ?_, hblames⟩
  · rw [hpath, append_assoc, singleton_append]
  · simpa [Instruction.place?, hblock] using hplace

mutual

theorem checkInstruction_blames (c : Checker) (e : VerifyError) (loops : List LoopFrame)
    (path : List Nat) (stack : StackType) (i : Instruction)
    (h : c.checkInstruction loops path stack i = .error e) :
    c.BlamesBeyond e path fun rest => i.place? rest := by
  cases i with
  | cond params results t f =>
    rw [checkInstruction, bind_eq_error_iff] at h
    rcases h with h | ⟨_, -, h⟩
    · exact blames_locate h fun cause hcause => ⟨stack, hcause⟩
    rcases bind_eq_error_iff.1 h with h | ⟨_, -, h⟩
    · exact (checkBlock_blames c e loops _ [] params results t h).inside (k := 0) rfl
    rcases bind_eq_error_iff.1 h with h | ⟨_, -, h⟩
    · exact (checkBlock_blames c e loops _ [] params results f h).inside (k := 1) rfl
    · cases h
  | loop label params results b =>
    rw [checkInstruction, bind_eq_error_iff] at h
    rcases h with h | ⟨_, -, h⟩
    · exact blames_locate h fun cause hcause => ⟨stack, hcause⟩
    rcases bind_eq_error_iff.1 h with h | ⟨_, -, h⟩
    · exact (checkBlock_blames c e _ _ [] params results b h).inside (k := 0) rfl
    · cases h
  | switch selector cases =>
    rw [checkInstruction, bind_eq_error_iff] at h
    rcases h with h | ⟨_, -, h⟩
    · exact blames_locate h fun cause hcause => hcause
    rcases bind_eq_error_iff.1 h with h | ⟨_, -, h⟩
    · exact checkCases_blames c e loops path selector [] cases h
    · cases h
  | _ =>
    simp only [checkInstruction] at h
    exact blames_locate h fun cause hcause => ⟨loops, stack, hcause⟩

theorem checkBlock_blames (c : Checker) (e : VerifyError) (loops : List LoopFrame) (path : List Nat)
    (front : List Instruction) (stack expected : StackType) (b : List Instruction)
    (h : c.checkBlock loops path front.length stack expected b = .error e) :
    c.BlamesBeyond e path fun rest => Body.place? rest (front ++ b) expected := by
  match b with
  | [] =>
    rw [checkBlock, checkEnd] at h
    split at h
    next => cases h
    next hdiffer =>
      cases h
      exact ⟨rfl, [], .block _ expected, by simp, rfl, .block rfl rfl (by simpa using hdiffer)⟩
  | i :: is =>
    rw [checkBlock, bind_eq_error_iff] at h
    rcases h with h | ⟨r, -, h⟩
    · obtain ⟨hnode, rest, place, hpath, hplace, hblames⟩ :=
        checkInstruction_blames c e loops _ stack i h
      refine ⟨hnode, front.length :: rest, place, ?_, ?_, hblames⟩
      · rw [hpath, append_assoc, singleton_append]
      · simpa [Body.place?] using hplace
    · cases r with
      | none => cases h
      | some st =>
        have hlater := checkBlock_blames c e loops path (front ++ [i]) st expected is (by simpa using h)
        simpa using hlater

theorem checkCases_blames (c : Checker) (e : VerifyError) (loops : List LoopFrame) (path : List Nat)
    (selector : LocalId) (front bs : List (List Instruction))
    (h : c.checkCases loops path front.length bs = .error e) :
    c.BlamesBeyond e path fun rest => (Instruction.switch selector (front ++ bs)).place? rest := by
  match bs with
  | [] => cases h
  | b :: bs =>
    rw [checkCases, bind_eq_error_iff] at h
    rcases h with h | ⟨_, -, h⟩
    · refine (checkBlock_blames c e loops _ [] [] [] b h).inside (k := front.length) ?_
      simp [Instruction.block?]
    rcases bind_eq_error_iff.1 h with h | ⟨_, -, h⟩
    · have hlater := checkCases_blames c e loops path selector (front ++ [b]) bs (by simpa using h)
      simpa using hlater
    · cases h

end

theorem checkBody_blames {params results : StackType}
    (h : c.checkBody body params results = .error e) :
    e.location.node = none ∧
      ∃ place, Body.place? e.location.path body results = some place ∧ c.Blames e place := by
  obtain ⟨hnode, rest, place, hpath, hplace, hblames⟩ :=
    checkBlock_blames c e _ [] [] params results body h
  obtain rfl : e.location.path = rest := hpath
  exact ⟨hnode, place, hplace, hblames⟩

/-- **Failures point at the offending place.**  The positions of a failure lead to an instruction that
cannot be run, which the failure shows by its first line, or to a block that does not end with the
stack it declares. -/
theorem checkBody_locates {c : Checker} {body : Body} {params results : StackType} {e : VerifyError}
    (h : c.checkBody body params results = .error e) :
    e.location.node = none ∧
    ((∃ i, Body.place? e.location.path body results = some (.instruction i) ∧
      (Body.render c.locals [i]).head? = some e.location.instruction ∧ c.Rejects e.cause i) ∨
    (∃ block expected actual,
      Body.place? e.location.path body results = some (.block block expected) ∧
      e.location.instruction = "end" ∧ e.cause = .stackMismatch expected actual ∧
      StackType.fits c.strict actual expected = false)) := by
  obtain ⟨hnode, place, hplace, hblames⟩ := checkBody_blames h
  refine ⟨hnode, ?_⟩
  cases hblames with
  | instruction line cause => exact .inl ⟨_, hplace, line, cause⟩
  | block line cause differ => exact .inr ⟨_, _, _, hplace, line, cause, differ⟩

end Checker

def nestedChecker : Checker := ⟨⟨#[⟨"x", .i32⟩], []⟩, [], false, []⟩

def nestedDrop : Body :=
  [.i32Const 1, .cond [] [] [.comment "fine"] [.switch ⟨0⟩ [[], [.drop]]]]

theorem checkBody_locates_nestedDrop :
    nestedChecker.checkBody nestedDrop [] [] = .error ⟨⟨none, [1, 1, 0, 1, 0], "drop"⟩, .emptyStack⟩ ∧
    ∃ i, Body.place? [1, 1, 0, 1, 0] nestedDrop [] = some (.instruction i) ∧
      (Body.render nestedChecker.locals [i]).head? = some "drop" := by
  have failed : nestedChecker.checkBody nestedDrop [] [] =
      .error ⟨⟨none, [1, 1, 0, 1, 0], "drop"⟩, .emptyStack⟩ := by rfl
  obtain ⟨-, ⟨i, hi, hline, -⟩ | ⟨_, _, _, -, hend, -⟩⟩ := Checker.checkBody_locates failed
  · exact ⟨failed, i, hi, hline⟩
  · exact absurd hend (by decide)

end Structurer
