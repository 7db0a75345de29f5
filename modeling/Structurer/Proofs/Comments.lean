/-
**Code without its comments.**

A comment does nothing wherever it stands, in a body or in one nested in it.  The bare code of a body is what
is left when every comment is deleted, at every depth.
-/

import Structurer.Proofs.SameCode

namespace Structurer

mutual

def Instruction.bare : Instruction → Instruction
  | .cond p r t e => .cond p r (Body.bare t) (Body.bare e)
  | .loop l p r b => .loop l p r (Body.bare b)
  | .switch s cs => .switch s (Body.casesBare cs)
  | i => i

def Body.bare : List Instruction → List Instruction
  | [] => []
  | i :: is => if i.isComment then Body.bare is else Instruction.bare i :: Body.bare is

def Body.casesBare : List (List Instruction) → List (List Instruction)
  | [] => []
  | c :: cs => Body.bare c :: Body.casesBare cs

end

namespace Instruction

@[simp] theorem isComment_bare (i : Instruction) : i.bare.isComment = i.isComment := by
  cases i <;> simp [bare, isComment]

@[simp] theorem isStructured_bare (i : Instruction) : i.bare.isStructured = i.isStructured := by
  cases i <;> simp [bare, isStructured]

@[simp] theorem numericOp?_bare (i : Instruction) : i.bare.numericOp? = i.numericOp? := by
  cases i <;> simp [bare, numericOp?]

theorem bare_of_simple {i : Instruction} (h : i.isStructured = false) : i.bare = i := by
  cases i <;> first | rfl | cases h

end Instruction

namespace Body

@[simp] theorem bare_nil : bare [] = [] := rfl

@[simp] theorem casesBare_eq_map (cs : List (List Instruction)) : casesBare cs = cs.map bare := by
  induction cs with
  | nil => rfl
  | cons c cs ih => rw [casesBare, ih, List.map_cons]

theorem bare_cons (i : Instruction) (is : Body) :
    bare (i :: is) = if i.isComment then bare is else i.bare :: bare is := rfl

theorem bare_cons_of_comment {i : Instruction} (h : i.isComment = true) (is : Body) :
    bare (i :: is) = bare is := by
  rw [bare_cons, if_pos h]

theorem bare_cons_of_real {i : Instruction} (h : i.isComment = false) (is : Body) :
    bare (i :: is) = i.bare :: bare is := by
  rw [bare_cons, if_neg (by simp [h])]

/-! The blocks and jumps that code is put together with. -/

section Generated

variable (params results : StackType) (label : LoopLabel) (a b is : Body)

@[simp] theorem bare_cons_cond :
    bare (.cond params results a b :: is) = .cond params results (bare a) (bare b) :: bare is :=
  rfl

@[simp] theorem bare_cons_loop :
    bare (.loop label params results a :: is) = .loop label params results (bare a) :: bare is :=
  rfl

@[simp] theorem bare_cons_switch (selector : LocalId) (cs : List (List Instruction)) :
    bare (.switch selector cs :: is) = .switch selector (cs.map bare) :: bare is := by
  rw [← casesBare_eq_map]
  rfl

@[simp] theorem bare_cons_br : bare (.br label :: is) = .br label :: bare is := rfl

@[simp] theorem bare_cons_brIf : bare (.brIf label :: is) = .brIf label :: bare is := rfl

@[simp] theorem bare_cons_drop : bare (.drop :: is) = .drop :: bare is := rfl

@[simp] theorem bare_cons_ret : bare (.ret :: is) = .ret :: bare is := rfl

@[simp] theorem bare_cons_unreachable : bare (.unreachable :: is) = .unreachable :: bare is := rfl

end Generated

@[simp] theorem bare_append (a b : Body) : bare (a ++ b) = bare a ++ bare b := by
  induction a with
  | nil => rfl
  | cons i is ih =>
    rw [List.cons_append, bare_cons, bare_cons, ih]
    split <;> rfl

theorem bare_eq_map (body : Body) : bare body = (real body).map Instruction.bare := by
  induction body with
  | nil => rfl
  | cons i is ih => cases h : i.isComment <;> simp [bare_cons, real, h, ih]

@[simp] theorem bare_real (body : Body) : bare (real body) = bare body := by
  simp [bare_eq_map, real]

theorem bare_eq_nil_iff {body : Body} : bare body = [] ↔ hasNoCode body = true := by
  simp [bare_eq_map, real, hasNoCode]

end Body

mutual

theorem Instruction.bare_bare (i : Instruction) : i.bare.bare = i.bare := by
  cases i with
  | cond p r t e => rw [Instruction.bare, Instruction.bare, Body.bare_bare t, Body.bare_bare e]
  | loop l p r b => rw [Instruction.bare, Instruction.bare, Body.bare_bare b]
  | switch s cs => rw [Instruction.bare, Instruction.bare, Body.casesBare_casesBare cs]
  | _ => rfl

theorem Body.bare_bare (body : List Instruction) : Body.bare (Body.bare body) = Body.bare body := by
  match body with
  | [] => rfl
  | i :: is =>
    cases h : i.isComment with
    | true => rw [Body.bare_cons_of_comment h, Body.bare_bare is]
    | false =>
      rw [Body.bare_cons_of_real h, Body.bare_cons_of_real (by rw [Instruction.isComment_bare, h]),
        Instruction.bare_bare i, Body.bare_bare is]

theorem Body.casesBare_casesBare (cs : List (List Instruction)) :
    Body.casesBare (Body.casesBare cs) = Body.casesBare cs := by
  match cs with
  | [] => rfl
  | c :: cs => rw [Body.casesBare, Body.casesBare, Body.bare_bare c, Body.casesBare_casesBare cs]

end

attribute [simp] Body.bare_bare

/-! ### Reaching the end -/

mutual

theorem Instruction.canFallThrough_bare (i : Instruction) : i.bare.canFallThrough = i.canFallThrough := by
  cases i with
  | cond p r t e =>
    rw [Instruction.bare, Instruction.canFallThrough, Instruction.canFallThrough, Body.fallsThrough_bare t,
      Body.fallsThrough_bare e]
  | loop l p r b =>
    rw [Instruction.bare, Instruction.canFallThrough, Instruction.canFallThrough, Body.fallsThrough_bare b]
  | switch s cs =>
    rw [Instruction.bare, Instruction.canFallThrough, Instruction.canFallThrough,
      Body.someFallsThrough_bare cs]
  | _ => rfl

theorem Body.fallsThrough_bare (body : List Instruction) :
    Body.fallsThrough (Body.bare body) = Body.fallsThrough body := by
  match body with
  | [] => rfl
  | i :: is =>
    cases h : i.isComment with
    | true =>
      cases i with
      | comment text => exact Body.fallsThrough_bare is
      | _ => cases h
    | false =>
      rw [Body.bare_cons_of_real h, Body.fallsThrough, Body.fallsThrough,
        Instruction.canFallThrough_bare i, Body.fallsThrough_bare is]

theorem Body.someFallsThrough_bare (cs : List (List Instruction)) :
    Body.someFallsThrough (Body.casesBare cs) = Body.someFallsThrough cs := by
  match cs with
  | [] => rfl
  | c :: cs =>
    rw [Body.casesBare, Body.someFallsThrough, Body.someFallsThrough, Body.fallsThrough_bare c,
      Body.someFallsThrough_bare cs]

end

/-! ### Bodies of the same code -/

theorem Body.bare_steps :
    SameSteps (fun a b => a.bare.same b.bare = true)
      (fun a b => Body.same (Body.bare a) (Body.bare b) = true)
      (fun a b => Body.sameCases (Body.casesBare a) (Body.casesBare b) = true) where
  leaf i hi h := by cases i <;> first | exact h | cases hi
  f32Const v w h := by simpa [Instruction.bare, Instruction.same] using h
  f64Const v w h := by simpa [Instruction.bare, Instruction.same] using h
  cond p r t t' e e' _ ht he := by simp [Instruction.bare, Instruction.same, ht, he]
  loop l p r c c' hc := by simp [Instruction.bare, Instruction.same, hc]
  switch k cs cs' _ hcs := by
    rw [Instruction.bare, Instruction.bare, Instruction.same, hcs, beq_self_eq_true]
    rfl
  nil := rfl
  cons i j is js hsame hi his := by
    have hc : j.isComment = i.isComment := by
      cases i <;> cases j <;> first | rfl | simp [Instruction.same] at hsame
    cases h : i.isComment with
    | true =>
      rw [Body.bare_cons_of_comment h, Body.bare_cons_of_comment (hc.trans h)]
      exact his
    | false =>
      rw [Body.bare_cons_of_real h, Body.bare_cons_of_real (hc.trans h), Body.same, hi, his]
      rfl
  noCases := rfl
  nextCase c d cs ds _ _ hc hcs := by
    rw [Body.casesBare, Body.casesBare, Body.sameCases, hc, hcs]
    rfl

theorem Body.same_bare (a b : List Instruction) (h : Body.same a b = true) :
    Body.same (Body.bare a) (Body.bare b) = true :=
  Body.bare_steps.body a b h

end Structurer
