/-
**The stack check without places.**

The stack check says where it failed, and so carries the way to the instruction it looks at.  What
it says of code that passes does not depend on that way.  This module gives the check without
places, shows it to be the same, and proves how it depends on what it knows: more variables, more
loops and a less strict reading never make code fail, and neither does another stack of the same
shape.
-/

import Mathlib.Data.List.Forall2
import Structurer.Proofs.Fallible
import Structurer.Verify.Checker

namespace Structurer

open List

/-! ### Stacks of one shape -/

namespace ValueType

variable {strict : Bool} {a b : ValueType}

theorem fits_refl (strict : Bool) (t : ValueType) : fits strict t t = true := by
  cases strict <;> simp [fits]

theorem fits_symm (h : fits strict a b = true) : fits strict b a = true := by
  cases strict <;> simp_all [fits]

theorem fits_trans {c : ValueType} (h : fits strict a b = true) (h' : fits strict b c = true) :
    fits strict a c = true := by
  cases strict <;> simp_all [fits]

theorem erase_eq_of_fits (h : fits strict a b = true) : a.erase = b.erase := by
  cases strict <;> simp_all [fits]

theorem fits_of_strict {strict' : Bool} (hs : strict' = true → strict = true)
    (h : fits strict a b = true) : fits strict' a b = true := by
  cases strict <;> cases strict' <;> simp_all [fits]

end ValueType

namespace StackType

variable {strict : Bool} {a b c : StackType}

abbrev Fits (strict : Bool) (a b : StackType) : Prop :=
  List.Forall₂ (fun x y => ValueType.fits strict x y = true) a b

theorem fits_iff : fits strict a b = true ↔ Fits strict a b := by
  induction a generalizing b with
  | nil => cases b <;> simp [fits]
  | cons x a ih =>
    cases b with
    | nil => simp [fits]
    | cons y b => simp [fits, ih]

theorem Fits.refl (strict : Bool) (a : StackType) : Fits strict a a :=
  forall₂_same.2 fun x _ => ValueType.fits_refl strict x

theorem Fits.symm (h : Fits strict a b) : Fits strict b a :=
  h.flip.imp fun _ _ => ValueType.fits_symm

theorem Fits.trans (h : Fits strict a b) (h' : Fits strict b c) : Fits strict a c := by
  induction h generalizing c with
  | nil => exact h'
  | cons hx _ ih =>
    cases h' with
    | cons hy ht => exact .cons (ValueType.fits_trans hx hy) (ih ht)

theorem Fits.weaken {strict' : Bool} (hs : strict' = true → strict = true) (h : Fits strict a b) :
    Fits strict' a b :=
  h.imp fun _ _ => ValueType.fits_of_strict hs

theorem Fits.eq_of_strict (h : Fits true a b) : a = b := by
  induction h with
  | nil => rfl
  | cons hx _ ih =>
    simp only [ValueType.fits, if_true, beq_iff_eq] at hx
    rw [hx, ih]

theorem Fits.append {a' b' : StackType} (h : Fits strict a a') (h' : Fits strict b b') :
    Fits strict (a ++ b) (a' ++ b') :=
  rel_append h h'

theorem Fits.append_split (h : Fits strict c (a ++ b)) :
    ∃ a' b', c = a' ++ b' ∧ Fits strict a' a ∧ Fits strict b' b :=
  ⟨c.take a.length, c.drop a.length, (take_append_drop a.length c).symm,
    by simpa using forall₂_take a.length h, by simpa using forall₂_drop a.length h⟩

theorem endsWith_iff {e : StackType} :
    endsWith strict a e = true ↔ ∃ rest top, a = rest ++ top ∧ Fits strict top e := by
  simp only [endsWith, Bool.and_eq_true, decide_eq_true_eq, fits_iff]
  constructor
  · rintro ⟨_, hf⟩
    exact ⟨_, _, (take_append_drop _ a).symm, hf⟩
  · rintro ⟨rest, top, rfl, hf⟩
    have hlen : top.length = e.length := hf.length_eq
    refine ⟨by simp; omega, ?_⟩
    have hd : (rest ++ top).length - e.length = rest.length := by simp; omega
    rw [hd, drop_left]
    exact hf

end StackType

namespace Checker

open Fallible
open StackType (Fits)

variable {c c' : Checker} {loops loops' : List LoopFrame} {a b is : Body} {i : Instruction}
  {stack stack' expected rest params results st : StackType} {r : Option StackType} {flow : Flow}
  {label : LoopLabel} {id : LocalId} {n : Node}

/-! ### Popping -/

def pop? (c : Checker) (stack expected : StackType) : Option StackType :=
  (c.pop stack expected).toOption

theorem pop_eq_ok_iff :
    c.pop stack expected = .ok rest ↔ ∃ top, stack = rest ++ top ∧ Fits c.strict top expected := by
  have hempty : ∀ top : StackType, ∀ r : StackType, Fits c.strict top expected →
      ¬ ((r ++ top).isEmpty && !expected.isEmpty) = true := by
    intro top r hf h
    simp only [Bool.and_eq_true, List.isEmpty_iff, Bool.not_eq_true', append_eq_nil_iff] at h
    obtain ⟨⟨_, rfl⟩, hne⟩ := h
    cases hf
    simp at hne
  unfold pop
  constructor
  · intro h
    split at h
    · cases h
    · split at h
      · next he =>
          obtain ⟨r, top, rfl, hf⟩ := StackType.endsWith_iff.1 he
          have hlen : (r ++ top).length - expected.length = r.length := by
            rw [← hf.length_eq]; simp
          rw [hlen, take_left] at h
          cases h
          exact ⟨top, rfl, hf⟩
      · cases h
  · rintro ⟨top, rfl, hf⟩
    have hlen : (rest ++ top).length - expected.length = rest.length := by
      rw [← hf.length_eq]; simp
    rw [if_neg (hempty top rest hf), if_pos (StackType.endsWith_iff.2 ⟨rest, top, rfl, hf⟩), hlen,
      take_left]

theorem pop?_eq_some_iff :
    c.pop? stack expected = some rest ↔
      ∃ top, stack = rest ++ top ∧ Fits c.strict top expected := by
  rw [← pop_eq_ok_iff, pop?]
  cases c.pop stack expected <;> simp [Except.toOption]

/-! ### The check without places -/

def endFlow (c : Checker) (expected : StackType) : Option StackType → Option Flow
  | none => some .terminates
  | some stack => if StackType.fits c.strict stack expected then some .fallsThrough else none

def joined (rest results : StackType) (flow : Flow) : Option StackType :=
  if flow = .terminates then none else some (rest ++ results)

mutual

def typeInstruction (c : Checker) (loops : List LoopFrame) (stack : StackType) :
    Instruction → Option (Option StackType)
  | .cond params results t e =>
    (c.pop? stack [.i32]).bind fun below =>
      (c.pop? below params).bind fun rest =>
        ((typeBody c loops params t).bind (c.endFlow results)).bind fun flow =>
          ((typeBody c loops params e).bind (c.endFlow results)).bind fun flow' =>
            some (joined rest results (flow.join flow'))
  | .loop label params results body =>
    (c.pop? stack params).bind fun rest =>
      ((typeBody c (⟨label, params⟩ :: loops) params body).bind (c.endFlow results)).bind fun flow =>
        some (joined rest results flow)
  | .switch selector cases =>
    (c.checkSelector selector).toOption.bind fun _ =>
      (typeCases c loops cases).bind fun flow => some (joined stack [] flow)
  | i => (c.stepSimple loops stack i).toOption

def typeBody (c : Checker) (loops : List LoopFrame) (stack : StackType) :
    List Instruction → Option (Option StackType)
  | [] => some (some stack)
  | i :: is =>
    match typeInstruction c loops stack i with
    | none => none
    | some none => some none
    | some (some stack) => typeBody c loops stack is

def typeCases (c : Checker) (loops : List LoopFrame) : List (List Instruction) → Option Flow
  | [] => some .terminates
  | b :: bs =>
    ((typeBody c loops [] b).bind (c.endFlow [])).bind fun flow =>
      (typeCases c loops bs).bind fun flow' => some (flow.join flow')

end

def typeBlock (c : Checker) (loops : List LoopFrame) (stack expected : StackType) (b : Body) :
    Option Flow :=
  (c.typeBody loops stack b).bind (c.endFlow expected)

/-! ### Agreement with the check -/

theorem toOption_locate {α : Type} (path : List Nat)
    (step : Except VerifyCause α) : (c.locate path i step).toOption = step.toOption :=
  toOption_mapError _ _

theorem toOption_checkEnd (c : Checker) (path : List Nat) (stack expected : StackType) :
    (c.checkEnd path stack expected).toOption = c.endFlow expected (some stack) := by
  by_cases h : StackType.fits c.strict stack expected = true <;>
    simp [checkEnd, endFlow, h, Except.toOption]

mutual

theorem toOption_checkInstruction (c : Checker) (loops : List LoopFrame) (path : List Nat)
    (stack : StackType) (i : Instruction) :
    (c.checkInstruction loops path stack i).toOption = c.typeInstruction loops stack i := by
  cases i with
  | cond params results t e =>
    simp only [checkInstruction, typeInstruction, toOption_bind, toOption_locate,
      toOption_checkBlock, Option.bind_assoc]
    rfl
  | loop label params results body =>
    simp only [checkInstruction, typeInstruction, toOption_bind, toOption_locate,
      toOption_checkBlock]
    rfl
  | switch selector cases =>
    simp only [checkInstruction, typeInstruction, toOption_bind, toOption_locate,
      toOption_checkCases]
    refine congrArg _ (funext fun _ => congrArg _ (funext fun flow => ?_))
    cases flow <;> simp [joined, pure, Except.pure, Except.toOption]
  | _ =>
    simp only [checkInstruction, typeInstruction, toOption_locate]

theorem toOption_checkBlock (c : Checker) (loops : List LoopFrame) (path : List Nat) (k : Nat)
    (stack expected : StackType) (b : List Instruction) :
    (c.checkBlock loops path k stack expected b).toOption =
      (c.typeBody loops stack b).bind (c.endFlow expected) := by
  match b with
  | [] =>
    simp only [checkBlock, typeBody, Option.bind_some]
    exact toOption_checkEnd c path stack expected
  | i :: is =>
    simp only [checkBlock, typeBody, toOption_bind, toOption_checkInstruction]
    rcases c.typeInstruction loops stack i with _ | (_ | st)
    · rfl
    · rfl
    · exact toOption_checkBlock c loops path (k + 1) st expected is

theorem toOption_checkCases (c : Checker) (loops : List LoopFrame) (path : List Nat) (k : Nat)
    (bs : List (List Instruction)) :
    (c.checkCases loops path k bs).toOption = c.typeCases loops bs := by
  match bs with
  | [] => rfl
  | b :: bs =>
    simp only [checkCases, typeCases, toOption_bind, toOption_checkBlock, toOption_checkCases]
    rfl

end

def frames (c : Checker) : List LoopFrame := c.outerLoops.reverse.map fun l => ⟨l, []⟩

/-- **The two checks agree.** -/
theorem checkBody_eq_ok_iff :
    c.checkBody b params results = .ok flow ↔
      c.typeBlock c.frames params results b = some flow := by
  rw [← toOption_eq_some_iff, checkBody, toOption_checkBlock]
  rfl

/-! ### What the answers mean -/

theorem endFlow_eq_some_iff :
    c.endFlow expected r = some flow ↔
      (r = none ∧ flow = .terminates) ∨
        ∃ st, r = some st ∧ Fits c.strict st expected ∧ flow = .fallsThrough := by
  cases r with
  | none => simp [endFlow, eq_comm]
  | some st =>
    by_cases h : StackType.fits c.strict st expected = true
    · have hf := StackType.fits_iff.1 h
      simp [endFlow, h, hf, @eq_comm _ _ flow]
    · have hf : ¬ Fits c.strict st expected := fun hf => h (StackType.fits_iff.2 hf)
      simp [endFlow, h, hf]

theorem typeBlock_eq_some_iff :
    c.typeBlock loops stack expected b = some flow ↔
      (c.typeBody loops stack b = some none ∧ flow = .terminates) ∨
        ∃ st, c.typeBody loops stack b = some (some st) ∧ Fits c.strict st expected ∧
          flow = .fallsThrough := by
  unfold typeBlock
  rcases c.typeBody loops stack b with _ | r
  · simp
  · rw [Option.bind_some, endFlow_eq_some_iff]
    simp

theorem typeInstruction_cond_iff {t e : Body} :
    c.typeInstruction loops stack (.cond params results t e) = some r ↔
      ∃ below, c.pop? stack [.i32] = some below ∧ ∃ rest, c.pop? below params = some rest ∧
        ∃ flow, c.typeBlock loops params results t = some flow ∧
          ∃ flow', c.typeBlock loops params results e = some flow' ∧
            joined rest results (flow.join flow') = r := by
  simp only [typeInstruction, Option.bind_eq_some_iff, typeBlock, Option.some.injEq]

theorem typeInstruction_loop_iff :
    c.typeInstruction loops stack (.loop label params results b) = some r ↔
      ∃ rest, c.pop? stack params = some rest ∧
        ∃ flow, c.typeBlock (⟨label, params⟩ :: loops) params results b = some flow ∧
          joined rest results flow = r := by
  simp only [typeInstruction, Option.bind_eq_some_iff, typeBlock, Option.some.injEq]

theorem typeInstruction_switch_iff {selector : LocalId} {cases : List Body} :
    c.typeInstruction loops stack (.switch selector cases) = some r ↔
      c.checkSelector selector = .ok () ∧
        ∃ flow, c.typeCases loops cases = some flow ∧ joined stack [] flow = r := by
  simp only [typeInstruction, Option.bind_eq_some_iff, toOption_eq_some_iff, Unique.exists_iff,
    PUnit.default_eq_unit, Option.some.injEq]

theorem typeCases_cons_iff {bs : List Body} :
    c.typeCases loops (b :: bs) = some flow ↔
      ∃ flow₁, c.typeBlock loops [] [] b = some flow₁ ∧
        ∃ flow₂, c.typeCases loops bs = some flow₂ ∧ flow₁.join flow₂ = flow := by
  simp only [typeCases, Option.bind_eq_some_iff, typeBlock, Option.some.injEq]

@[simp] theorem typeBody_nil : c.typeBody loops stack [] = some (some stack) := by
  simp [typeBody]

theorem typeBody_cons_of_some (h : c.typeInstruction loops stack i = some (some st)) :
    c.typeBody loops stack (i :: is) = c.typeBody loops st is := by
  simp [typeBody, h]

theorem typeBody_cons_of_none (h : c.typeInstruction loops stack i = some none) :
    c.typeBody loops stack (i :: is) = some none := by
  simp [typeBody, h]

theorem typeBody_cons_iff :
    c.typeBody loops stack (i :: is) = some r ↔
      (c.typeInstruction loops stack i = some none ∧ r = none) ∨
        ∃ st, c.typeInstruction loops stack i = some (some st) ∧ c.typeBody loops st is = some r := by
  rcases h : c.typeInstruction loops stack i with _ | (_ | st)
  · simp [typeBody, h]
  · simp [typeBody, h, eq_comm]
  · simp [typeBody, h]

theorem typeBody_singleton : c.typeBody loops stack [i] = c.typeInstruction loops stack i := by
  rcases h : c.typeInstruction loops stack i with _ | (_ | st) <;> simp [typeBody, h]

theorem typeBody_append_of_some (h : c.typeBody loops stack a = some (some st)) :
    c.typeBody loops stack (a ++ b) = c.typeBody loops st b := by
  induction a generalizing stack with
  | nil =>
    rw [typeBody_nil] at h
    cases h
    rfl
  | cons i is ih =>
    rcases typeBody_cons_iff.1 h with ⟨_, hr⟩ | ⟨st', hi, his⟩
    · cases hr
    · rw [cons_append, typeBody_cons_of_some hi]
      exact ih his

theorem typeBody_append_of_none (h : c.typeBody loops stack a = some none) (b : Body) :
    c.typeBody loops stack (a ++ b) = some none := by
  induction a generalizing stack with
  | nil => simp at h
  | cons i is ih =>
    rcases typeBody_cons_iff.1 h with ⟨hi, _⟩ | ⟨st', hi, his⟩
    · rw [cons_append, typeBody_cons_of_none hi]
    · rw [cons_append, typeBody_cons_of_some hi]
      exact ih his

theorem typeBody_append_iff :
    c.typeBody loops stack (a ++ b) = some r ↔
      (c.typeBody loops stack a = some none ∧ r = none) ∨
        ∃ st, c.typeBody loops stack a = some (some st) ∧ c.typeBody loops st b = some r := by
  rcases h : c.typeBody loops stack a with _ | (_ | st)
  · simp only [reduceCtorEq, false_and, exists_false, or_self, iff_false]
    intro hr
    induction a generalizing stack with
    | nil => simp at h
    | cons i is ih =>
      rw [cons_append, typeBody_cons_iff] at hr
      rcases hr with ⟨hi, _⟩ | ⟨st, hi, his⟩
      · rw [typeBody_cons_of_none hi] at h
        cases h
      · rw [typeBody_cons_of_some hi] at h
        exact ih h his
  · rw [typeBody_append_of_none h]
    simp [eq_comm]
  · rw [typeBody_append_of_some h]
    simp

/-! ### Checkers that accept more -/

theorem localType_eq_ok_iff {t : ValueType} :
    c.localType id = .ok t ↔ ∃ v, c.locals.get? id = some v ∧ v.valueType = t := by
  unfold localType
  cases c.locals.get? id <;> simp

theorem checkSelector_eq_ok_iff :
    c.checkSelector id = .ok () ↔
      ∃ v, c.locals.get? id = some v ∧ v.valueType.fits c.strict .i32 = true := by
  unfold checkSelector
  rw [bind_eq_ok_iff]
  constructor
  · rintro ⟨t, ht, h⟩
    obtain ⟨v, hv, rfl⟩ := localType_eq_ok_iff.1 ht
    refine ⟨v, hv, ?_⟩
    by_contra hf
    rw [if_neg hf] at h
    cases h
  · rintro ⟨v, hv, hf⟩
    exact ⟨v.valueType, localType_eq_ok_iff.2 ⟨v, hv, rfl⟩, if_pos hf⟩

theorem checkJump_eq_ok_iff :
    c.checkJump loops stack label = .ok () ↔
      ∃ frame, loops.find? (·.label == label) = some frame ∧
        ∃ rest top, stack = rest ++ top ∧ Fits c.strict top frame.params := by
  unfold checkJump
  cases hf : loops.find? (·.label == label) with
  | none => simp
  | some frame =>
    simp only [Option.some.injEq, exists_eq_left']
    rw [← StackType.endsWith_iff]
    by_cases h : StackType.endsWith c.strict stack frame.params = true <;> simp [h]

theorem stepSimple_drop_iff :
    c.stepSimple loops stack .drop = .ok r ↔ ∃ rest t, stack = rest ++ [t] ∧ r = some rest := by
  rcases eq_nil_or_concat' stack with rfl | ⟨front, t, rfl⟩
  · simp [stepSimple]
  · simp [stepSimple, @eq_comm _ r]

/-- A checker that knows the same variables and more, and is not stricter. -/
structure Le (c c' : Checker) : Prop where
  locals : ∀ id v, c.locals.get? id = some v → c'.locals.get? id = some v
  methodResults : c'.methodResults = c.methodResults
  strict : c'.strict = true → c.strict = true

def LoopsLe (loops loops' : List LoopFrame) : Prop :=
  ∀ label frame, loops.find? (·.label == label) = some frame →
    loops'.find? (·.label == label) = some frame

theorem LoopsLe.refl (loops : List LoopFrame) : LoopsLe loops loops := fun _ _ h => h

theorem LoopsLe.cons {loops' : List LoopFrame} (h : LoopsLe loops loops') (f : LoopFrame) :
    LoopsLe (f :: loops) (f :: loops') := by
  intro label frame hf
  simp only [find?_cons] at hf ⊢
  split at hf
  · exact hf
  · exact h label frame hf

theorem LoopsLe.of_not_mem {f : LoopFrame} (h : ∀ frame ∈ loops, frame.label ≠ f.label) :
    LoopsLe loops (f :: loops) := by
  intro label frame hf
  have hm := mem_of_find?_eq_some hf
  have hl : frame.label = label := by simpa using find?_some hf
  have hne : (f.label == label) = false := by
    have := h frame hm
    rw [hl] at this
    simpa using fun he : f.label = label => this he.symm
  rw [find?_cons, hne]
  exact hf

theorem Le.refl (c : Checker) : Le c c := ⟨fun _ _ h => h, rfl, id⟩

abbrev FitsEnd (strict : Bool) : Option StackType → Option StackType → Prop :=
  Option.Rel (Fits strict)

theorem joined_of_fits {strict : Bool} {rest' : StackType} (h : Fits strict rest' rest)
    (results : StackType) (flow : Flow) :
    FitsEnd strict (joined rest' results flow) (joined rest results flow) := by
  cases flow with
  | fallsThrough => exact .some (h.append (.refl strict results))
  | terminates => exact .none

section

-- the stacks are of one shape, in a reading at least as strict as that of the second checker
variable (hc : Le c c') {s : Bool} (hs : c'.strict = true → s = true)

include hc

theorem Le.localType {t : ValueType} (h : c.localType id = .ok t) : c'.localType id = .ok t := by
  obtain ⟨v, hv, ht⟩ := localType_eq_ok_iff.1 h
  exact localType_eq_ok_iff.2 ⟨v, hc.locals id v hv, ht⟩

theorem Le.checkSelector (h : c.checkSelector id = .ok ()) : c'.checkSelector id = .ok () := by
  obtain ⟨v, hv, hf⟩ := checkSelector_eq_ok_iff.1 h
  exact checkSelector_eq_ok_iff.2 ⟨v, hc.locals id v hv, ValueType.fits_of_strict hc.strict hf⟩

include hs

theorem Le.pop (h : Fits s stack' stack) (hp : c.pop stack expected = .ok rest) :
    ∃ rest', c'.pop stack' expected = .ok rest' ∧ Fits s rest' rest := by
  obtain ⟨top, rfl, hf⟩ := pop_eq_ok_iff.1 hp
  obtain ⟨rest', top', rfl, hrest, htop⟩ := h.append_split
  exact ⟨rest', pop_eq_ok_iff.2 ⟨top', rfl, (htop.weaken hs).trans (hf.weaken hc.strict)⟩, hrest⟩

theorem Le.pop? (h : Fits s stack' stack) (hp : c.pop? stack expected = some rest) :
    ∃ rest', c'.pop? stack' expected = some rest' ∧ Fits s rest' rest := by
  obtain ⟨rest', hp', hf⟩ := hc.pop hs h (toOption_eq_some_iff.1 hp)
  exact ⟨rest', toOption_eq_some_iff.2 hp', hf⟩

theorem Le.endsWith (h : Fits s stack' stack)
    (he : StackType.endsWith c.strict stack expected = true) :
    StackType.endsWith c'.strict stack' expected = true := by
  obtain ⟨rest, top, rfl, hf⟩ := StackType.endsWith_iff.1 he
  obtain ⟨rest', top', rfl, _, htop⟩ := h.append_split
  exact StackType.endsWith_iff.2
    ⟨rest', top', rfl, (htop.weaken hs).trans (hf.weaken hc.strict)⟩

theorem Le.checkJump (hl : LoopsLe loops loops') (h : Fits s stack' stack)
    (hj : c.checkJump loops stack label = .ok ()) : c'.checkJump loops' stack' label = .ok () := by
  obtain ⟨frame, hfind, he⟩ := checkJump_eq_ok_iff.1 hj
  exact checkJump_eq_ok_iff.2 ⟨frame, hl label frame hfind,
    StackType.endsWith_iff.1 (hc.endsWith hs h (StackType.endsWith_iff.2 he))⟩

theorem Le.stepSimple (hl : LoopsLe loops loops') (h : Fits s stack' stack)
    (hi : c.stepSimple loops stack i = .ok r) :
    ∃ r', c'.stepSimple loops' stack' i = .ok r' ∧ FitsEnd s r' r := by
  have push : ∀ ts : StackType, FitsEnd s (some (stack' ++ ts)) (some (stack ++ ts)) :=
    fun ts => .some (h.append (.refl _ ts))
  -- an instruction that takes some values and leaves others
  have trade : ∀ {inputs : StackType} (outputs : StackType),
      (do return some ((← c.pop stack inputs) ++ outputs)) = .ok r →
      ∃ r', (do return some ((← c'.pop stack' inputs) ++ outputs)) = .ok r' ∧ FitsEnd s r' r := by
    intro inputs outputs hi
    obtain ⟨rest, hrest, ⟨⟩⟩ := bind_eq_ok_iff.1 hi
    obtain ⟨rest', hrest', hf⟩ := hc.pop hs h hrest
    exact ⟨_, bind_eq_ok_iff.2 ⟨rest', hrest', rfl⟩, .some (hf.append (.refl _ _))⟩
  cases i with
  | i32Const _ | i64Const _ | f32Const _ | f64Const _ => cases hi; exact ⟨_, rfl, push _⟩
  | localGet id =>
    obtain ⟨t, ht, ⟨⟩⟩ := bind_eq_ok_iff.1 hi
    exact ⟨_, bind_eq_ok_iff.2 ⟨t, hc.localType ht, rfl⟩, push [t]⟩
  | localSet id =>
    obtain ⟨t, ht, hr⟩ := bind_eq_ok_iff.1 hi
    obtain ⟨rest, hrest, ⟨⟩⟩ := bind_eq_ok_iff.1 hr
    obtain ⟨rest', hrest', hf⟩ := hc.pop hs h hrest
    exact ⟨_, bind_eq_ok_iff.2 ⟨t, hc.localType ht, bind_eq_ok_iff.2 ⟨rest', hrest', rfl⟩⟩, .some hf⟩
  | numeric op => exact trade [op.output] hi
  | drop =>
    obtain ⟨rest, t, rfl, rfl⟩ := stepSimple_drop_iff.1 hi
    obtain ⟨rest', top', rfl, hrest, htop⟩ := h.append_split
    obtain ⟨t', rfl⟩ := length_eq_one_iff.1 (show top'.length = 1 from htop.length_eq)
    exact ⟨_, stepSimple_drop_iff.2 ⟨rest', t', rfl, rfl⟩, .some hrest⟩
  | call name inputs outputs => exact trade outputs hi
  | br label =>
    obtain ⟨_, hj, ⟨⟩⟩ := bind_eq_ok_iff.1 hi
    exact ⟨_, bind_eq_ok_iff.2 ⟨(), hc.checkJump hs hl h hj, rfl⟩, .none⟩
  | brIf label =>
    obtain ⟨rest, hrest, hr⟩ := bind_eq_ok_iff.1 hi
    obtain ⟨_, hj, ⟨⟩⟩ := bind_eq_ok_iff.1 hr
    obtain ⟨rest', hrest', hf⟩ := hc.pop hs h hrest
    exact ⟨_, bind_eq_ok_iff.2 ⟨rest', hrest',
      bind_eq_ok_iff.2 ⟨(), hc.checkJump hs hl hf hj, rfl⟩⟩, .some hf⟩
  | unreachable => cases hi; exact ⟨_, rfl, .none⟩
  | ret =>
    simp only [Checker.stepSimple] at hi ⊢
    split at hi
    next he =>
      cases hi
      rw [hc.methodResults, if_pos (hc.endsWith hs h he)]
      exact ⟨_, rfl, .none⟩
    next => cases hi
  | comment _ | cond _ _ _ _ | loop _ _ _ _ | switch _ _ =>
    cases hi
    exact ⟨_, rfl, .some h⟩

theorem Le.endFlow {r' : Option StackType} (h : FitsEnd s r' r)
    (hr : c.endFlow expected r = some flow) : c'.endFlow expected r' = some flow := by
  rw [endFlow_eq_some_iff] at hr ⊢
  cases h with
  | none => exact hr.imp_right fun ⟨_, h, _⟩ => by cases h
  | some h =>
    obtain ⟨⟨⟩, _⟩ | ⟨_, ⟨⟩, hf, hflow⟩ := hr
    exact .inr ⟨_, rfl, (h.weaken hs).trans (hf.weaken hc.strict), hflow⟩

theorem Le.typeBlock (hb : ∀ r, c.typeBody loops stack b = some r →
      ∃ r', c'.typeBody loops' stack b = some r' ∧ FitsEnd s r' r)
    (h : c.typeBlock loops stack expected b = some flow) :
    c'.typeBlock loops' stack expected b = some flow := by
  obtain ⟨r, hr, hflow⟩ := Option.bind_eq_some_iff.1 h
  obtain ⟨r', hr', hends⟩ := hb r hr
  exact Option.bind_eq_some_iff.2 ⟨r', hr', hc.endFlow hs hends hflow⟩

end

mutual

theorem Le.typeInstruction (hc : Le c c') {s : Bool} (hs : c'.strict = true → s = true)
    {loops loops' : List LoopFrame} (hl : LoopsLe loops loops') {stack stack' : StackType}
    (h : Fits s stack' stack) (i : Instruction) {r : Option StackType}
    (hi : c.typeInstruction loops stack i = some r) :
    ∃ r', c'.typeInstruction loops' stack' i = some r' ∧ FitsEnd s r' r := by
  cases i with
  | cond params results t e =>
    obtain ⟨below, h₁, rest, h₂, flow, h₃, flow', h₄, rfl⟩ := typeInstruction_cond_iff.1 hi
    obtain ⟨below', h₁', hb⟩ := hc.pop? hs h h₁
    obtain ⟨rest', h₂', hf⟩ := hc.pop? hs hb h₂
    exact ⟨_, typeInstruction_cond_iff.2 ⟨below', h₁', rest', h₂',
      flow, hc.typeBlock hs (fun _ => hc.typeBody hs hl (.refl s _) t) h₃,
      flow', hc.typeBlock hs (fun _ => hc.typeBody hs hl (.refl s _) e) h₄, rfl⟩, joined_of_fits hf _ _⟩
  | loop label params results b =>
    obtain ⟨rest, h₁, flow, h₂, rfl⟩ := typeInstruction_loop_iff.1 hi
    obtain ⟨rest', h₁', hf⟩ := hc.pop? hs h h₁
    exact ⟨_, typeInstruction_loop_iff.2 ⟨rest', h₁', flow,
      hc.typeBlock hs (fun _ => hc.typeBody hs (hl.cons _) (.refl s _) b) h₂, rfl⟩, joined_of_fits hf _ _⟩
  | switch selector cases =>
    obtain ⟨h₁, flow, h₂, rfl⟩ := typeInstruction_switch_iff.1 hi
    exact ⟨_, typeInstruction_switch_iff.2
      ⟨hc.checkSelector h₁, flow, hc.typeCases hs hl cases h₂, rfl⟩, joined_of_fits h _ _⟩
  | _ =>
    simp only [Checker.typeInstruction, toOption_eq_some_iff] at hi ⊢
    exact hc.stepSimple hs hl h hi

/-- **A checker that accepts more**, with another stack of the same shape, comes to an end of the same
shape. -/
theorem Le.typeBody (hc : Le c c') {s : Bool} (hs : c'.strict = true → s = true)
    {loops loops' : List LoopFrame} (hl : LoopsLe loops loops') {stack stack' : StackType}
    (h : Fits s stack' stack) (b : List Instruction) {r : Option StackType} (hb : c.typeBody loops stack b = some r) :
    ∃ r', c'.typeBody loops' stack' b = some r' ∧ FitsEnd s r' r := by
  match b with
  | [] =>
    cases hb
    exact ⟨some stack', rfl, .some h⟩
  | i :: is =>
    rcases typeBody_cons_iff.1 hb with ⟨hi, rfl⟩ | ⟨st, hi, his⟩
    · obtain ⟨_, hi', ⟨⟩⟩ := hc.typeInstruction hs hl h i hi
      exact ⟨none, typeBody_cons_of_none hi', .none⟩
    · obtain ⟨_, hi', ⟨hst⟩⟩ := hc.typeInstruction hs hl h i hi
      rw [typeBody_cons_of_some hi']
      exact hc.typeBody hs hl hst is his

theorem Le.typeCases (hc : Le c c') {s : Bool} (hs : c'.strict = true → s = true)
    {loops loops' : List LoopFrame} (hl : LoopsLe loops loops') (bs : List (List Instruction)) {flow : Flow} (h : c.typeCases loops bs = some flow) :
    c'.typeCases loops' bs = some flow := by
  match bs with
  | [] => exact h
  | b :: bs =>
    obtain ⟨flow₁, h₁, flow₂, h₂, h₃⟩ := typeCases_cons_iff.1 h
    exact typeCases_cons_iff.2
      ⟨flow₁, hc.typeBlock hs (fun _ => hc.typeBody hs hl (.refl s _) b) h₁,
        flow₂, hc.typeCases hs hl bs h₂, h₃⟩

end

theorem typeBody_mono (hc : Le c c') (hl : LoopsLe loops loops') (b : Body)
    (h : c.typeBody loops stack b = some r) : c'.typeBody loops' stack b = some r := by
  obtain ⟨r', hr', hends⟩ := hc.typeBody (fun _ => rfl) hl (.refl true stack) b h
  cases hends with
  | none => exact hr'
  | some hst => rw [hr', hst.eq_of_strict]

theorem typeBody_of_fits (h : Fits c.strict stack' stack) (hb : c.typeBody loops stack b = some r) :
    ∃ r', c.typeBody loops stack' b = some r' ∧ FitsEnd c.strict r' r :=
  (Le.refl c).typeBody id (.refl loops) h b hb

/-! ### Nodes -/

theorem checkBody_mono (hc : Le c c') (hf : c'.frames = c.frames)
    (h : c.checkBody b params results = .ok flow) : c'.checkBody b params results = .ok flow := by
  rw [checkBody_eq_ok_iff] at h ⊢
  rw [hf]
  exact hc.typeBlock (s := true) (fun _ => rfl) (fun _ => hc.typeBody (fun _ => rfl) (.refl _) (.refl _ _) b) h

theorem checkNode_eq_ok_iff :
    c.checkNode n = .ok () ↔
      ∃ flow, c.checkBody n.body n.inputStack (c.nodeResults n) = .ok flow ∧
        ¬ (n.exit = .ret ∧ flow = .fallsThrough) := by
  unfold checkNode
  rw [mapError_eq_ok_iff, bind_eq_ok_iff]
  constructor
  · rintro ⟨flow, hb, h⟩
    refine ⟨flow, hb, fun hret => ?_⟩
    rw [if_pos hret] at h
    cases h
  · rintro ⟨flow, hb, h⟩
    exact ⟨flow, hb, if_neg h⟩

theorem checkNode_mono (hc : Le c c') (hf : c'.frames = c.frames) (h : c.checkNode n = .ok ()) :
    c'.checkNode n = .ok () := by
  obtain ⟨flow, hb, hret⟩ := checkNode_eq_ok_iff.1 h
  have hresults : c'.nodeResults n = c.nodeResults n := by
    simp only [nodeResults, hc.methodResults]
  exact checkNode_eq_ok_iff.2 ⟨flow, by rw [hresults]; exact checkBody_mono hc hf hb, hret⟩

theorem checkNodes_eq_ok_iff {g : Graph} :
    c.checkNodes g = .ok () ↔ ∀ e ∈ g.nodes, c.checkNode e.2 = .ok () :=
  forM_eq_ok_iff

end Checker

end Structurer
