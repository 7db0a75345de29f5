/-
**Bodies of the same code.**  Two bodies are the same if they agree instruction by instruction,
with floating-point constants compared as numbers.
-/

import Structurer.Code.Body

namespace Structurer

open Body

/-- Relations on instructions, bodies and lists of cases that hold of the same code if they hold of
its parts. -/
structure SameSteps (P : Instruction → Instruction → Prop) (Q : Body → Body → Prop)
    (S : List Body → List Body → Prop) : Prop where
  leaf : ∀ i, i.isStructured = false → i.same i = true → P i i
  f32Const : ∀ v w, v.equal w = true → P (.f32Const v) (.f32Const w)
  f64Const : ∀ v w, v.equal w = true → P (.f64Const v) (.f64Const w)
  cond : ∀ p r t t' e e', same e e' = true → Q t t' → Q e e' →
    P (.cond p r t e) (.cond p r t' e')
  loop : ∀ l p r c c', Q c c' → P (.loop l p r c) (.loop l p r c')
  switch : ∀ k cs cs', cs.length = cs'.length → S cs cs' → P (.switch k cs) (.switch k cs')
  nil : Q [] []
  cons : ∀ i j is js, i.same j = true → P i j → Q is js → Q (i :: is) (j :: js)
  noCases : S [] []
  nextCase : ∀ c d cs ds, same c d = true → cs.length = ds.length → Q c d → S cs ds →
    S (c :: cs) (d :: ds)

theorem Body.length_of_sameCases {a b : List (List Instruction)} (h : sameCases a b = true) :
    a.length = b.length := by
  induction a generalizing b with
  | nil =>
    cases b with
    | nil => rfl
    | cons => simp [sameCases] at h
  | cons c cs ih =>
    cases b with
    | nil => simp [sameCases] at h
    | cons d ds =>
      simp only [sameCases, Bool.and_eq_true] at h
      rw [List.length_cons, List.length_cons, ih h.2]

namespace SameSteps

variable {P : Instruction → Instruction → Prop} {Q : Body → Body → Prop}
  {S : List Body → List Body → Prop}

mutual

theorem instruction (steps : SameSteps P Q S) (a b : Instruction) (h : a.same b = true) : P a b := by
  cases a with
  | cond p r t e =>
    cases b with
    | cond p' r' t' e' =>
      simp only [Instruction.same, Bool.and_eq_true, beq_iff_eq] at h
      obtain ⟨⟨⟨rfl, rfl⟩, ht⟩, he⟩ := h
      exact steps.cond p r t t' e e' he (steps.body t t' ht) (steps.body e e' he)
    | _ => simp [Instruction.same] at h
  | loop l p r c =>
    cases b with
    | loop l' p' r' c' =>
      simp only [Instruction.same, Bool.and_eq_true, beq_iff_eq] at h
      obtain ⟨⟨⟨rfl, rfl⟩, rfl⟩, hc⟩ := h
      exact steps.loop l p r c c' (steps.body c c' hc)
    | _ => simp [Instruction.same] at h
  | switch k cs =>
    cases b with
    | switch k' cs' =>
      simp only [Instruction.same, Bool.and_eq_true, beq_iff_eq] at h
      obtain ⟨rfl, hcs⟩ := h
      exact steps.switch k cs cs' (length_of_sameCases hcs) (steps.cases cs cs' hcs)
    | _ => simp [Instruction.same] at h
  | f32Const v =>
    cases b with
    | f32Const w => exact steps.f32Const v w (by simpa [Instruction.same] using h)
    | _ => simp [Instruction.same] at h
  | f64Const v =>
    cases b with
    | f64Const w => exact steps.f64Const v w (by simpa [Instruction.same] using h)
    | _ => simp [Instruction.same] at h
  | _ =>
    cases b <;> simp_all [Instruction.same]
    all_goals exact steps.leaf _ rfl (by simp [Instruction.same])

theorem body (steps : SameSteps P Q S) (a b : List Instruction) (h : same a b = true) : Q a b := by
  match a with
  | [] =>
    cases b with
    | nil => exact steps.nil
    | cons => simp [same] at h
  | i :: is =>
    cases b with
    | nil => simp [same] at h
    | cons j js =>
      simp only [same, Bool.and_eq_true] at h
      exact steps.cons i j is js h.1 (steps.instruction i j h.1) (steps.body is js h.2)

theorem cases (steps : SameSteps P Q S) (a b : List (List Instruction))
    (h : sameCases a b = true) : S a b := by
  match a with
  | [] =>
    cases b with
    | nil => exact steps.noCases
    | cons => simp [sameCases] at h
  | c :: cs =>
    cases b with
    | nil => simp [sameCases] at h
    | cons d ds =>
      simp only [sameCases, Bool.and_eq_true] at h
      exact steps.nextCase c d cs ds h.1 (length_of_sameCases h.2) (steps.body c d h.1)
        (steps.cases cs ds h.2)

end

end SameSteps

theorem Body.fallsThrough_steps :
    SameSteps (fun a b => a.canFallThrough = b.canFallThrough)
      (fun a b => fallsThrough a = fallsThrough b)
      (fun a b => someFallsThrough a = someFallsThrough b) where
  leaf _ _ _ := rfl
  f32Const _ _ _ := rfl
  f64Const _ _ _ := rfl
  cond p r t t' e e' _ ht he := by rw [Instruction.canFallThrough, Instruction.canFallThrough, ht, he]
  loop l p r c c' hc := by rw [Instruction.canFallThrough, Instruction.canFallThrough, hc]
  switch k cs cs' _ hcs := by rw [Instruction.canFallThrough, Instruction.canFallThrough, hcs]
  nil := rfl
  cons i j is js _ hi his := by rw [fallsThrough, fallsThrough, hi, his]
  noCases := rfl
  nextCase c d cs ds _ _ hc hcs := by rw [someFallsThrough, someFallsThrough, hc, hcs]

theorem Body.fallsThrough_of_same (a b : List Instruction) (h : same a b = true) :
    fallsThrough a = fallsThrough b :=
  fallsThrough_steps.body a b h

end Structurer
