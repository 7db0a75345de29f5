/-
**Landmarks in code.**

Structuring moves code around, wraps it in conditionals and loops, and adds code of its own.  To follow
what becomes of it, some instructions serve as landmarks: calls, loops and jumps, each known with the
loops around it, however deep it is nested.
-/

import Mathlib.Algebra.GroupWithZero.Nat
import Structurer.Proofs.Conditions

namespace Structurer

open List

/-- An instruction by which code is followed. -/
inductive Landmark where
  | call (name : String) (inputs outputs : StackType)
  | loop (label : LoopLabel)
  /-- A jump, conditional or not. -/
  | jump (label : LoopLabel)
  deriving DecidableEq, Repr

/-- A landmark in code, with the labels of the loops around it, the innermost first. -/
structure Mark where
  around : List LoopLabel
  landmark : Landmark
  deriving DecidableEq, Repr

def Mark.inside (label : LoopLabel) (m : Mark) : Mark := { m with around := m.around ++ [label] }

/-- A jump lies inside the loop that it names, within the code or around it; a loop has a label among the
first `n`, and lies inside no other loop of its label. -/
def Mark.Scoped (n : Nat) (around : List LoopLabel) (m : Mark) : Prop :=
  match m.landmark with
  | .call _ _ _ => True
  | .jump l => l ∈ m.around ∨ l ∈ around
  | .loop l => l.index < n ∧ l ∉ m.around ∧ l ∉ around

mutual

def Instruction.marks : Instruction → List Mark
  | .call name inputs outputs => [⟨[], .call name inputs outputs⟩]
  | .br label => [⟨[], .jump label⟩]
  | .brIf label => [⟨[], .jump label⟩]
  | .cond _ _ t e => Body.marks t ++ Body.marks e
  | .loop label _ _ b => ⟨[], .loop label⟩ :: (Body.marks b).map (Mark.inside label)
  | .switch _ cases => Body.casesMarks cases
  | _ => []

def Body.marks : List Instruction → List Mark
  | [] => []
  | i :: is => Instruction.marks i ++ Body.marks is

def Body.casesMarks : List (List Instruction) → List Mark
  | [] => []
  | b :: bs => Body.marks b ++ Body.casesMarks bs

end

namespace Instruction

@[simp] theorem marks_i32Const (v : Int32) : (i32Const v).marks = [] := rfl

@[simp] theorem marks_localGet (id : LocalId) : (localGet id).marks = [] := rfl

@[simp] theorem marks_localSet (id : LocalId) : (localSet id).marks = [] := rfl

@[simp] theorem marks_numeric (op : NumericOp) : (numeric op).marks = [] := rfl

@[simp] theorem marks_drop : drop.marks = [] := rfl

@[simp] theorem marks_ret : ret.marks = [] := rfl

@[simp] theorem marks_unreachable : unreachable.marks = [] := rfl

@[simp] theorem marks_comment (text : String) : (comment text).marks = [] := rfl

@[simp] theorem marks_br (label : LoopLabel) : (br label).marks = [⟨[], .jump label⟩] := rfl

@[simp] theorem marks_brIf (label : LoopLabel) : (brIf label).marks = [⟨[], .jump label⟩] := rfl

@[simp] theorem marks_cond (params results : StackType) (t e : Body) :
    (cond params results t e).marks = Body.marks t ++ Body.marks e := rfl

@[simp] theorem marks_loop (label : LoopLabel) (params results : StackType) (b : Body) :
    (loop label params results b).marks =
      ⟨[], .loop label⟩ :: (Body.marks b).map (Mark.inside label) := rfl

end Instruction

namespace Body

variable {a b : Body} {label l : LoopLabel} {n n' : Nat} {around around' : List LoopLabel}

@[simp] theorem marks_nil : marks [] = [] := rfl

theorem marks_cons (i : Instruction) (is : Body) : marks (i :: is) = i.marks ++ marks is := rfl

@[simp] theorem marks_append (a b : Body) : marks (a ++ b) = marks a ++ marks b := by
  induction a with
  | nil => simp
  | cons i is ih => simp [marks_cons, ih]

theorem casesMarks_eq (cases : List Body) : casesMarks cases = cases.flatMap marks := by
  induction cases with
  | nil => rfl
  | cons b bs ih =>
    rw [flatMap_cons, ← ih]
    rfl

@[simp] theorem marks_switch (selector : LocalId) (cases : List Body) :
    (Instruction.switch selector cases).marks = cases.flatMap marks :=
  casesMarks_eq cases

/-! ### Code without landmarks -/

def Quiet (i : Instruction) : Prop := i.marks = []

@[simp] theorem quiet_iff {i : Instruction} : Quiet i ↔ i.marks = [] := Iff.rfl

theorem marks_of_quiet (h : ∀ i ∈ b, Quiet i) : marks b = [] := by
  induction b with
  | nil => simp
  | cons i is ih =>
    have hi : i.marks = [] := h i (.head _)
    rw [marks_cons, hi, ih fun i hi => h i (.tail _ hi)]
    rfl

theorem marks_clear (flags : List LocalId) : marks (LinearTree.clear flags) = [] := by
  refine marks_of_quiet fun i hi => ?_
  simp only [LinearTree.clear, mem_flatMap, mem_cons, not_mem_nil, or_false] at hi
  rcases hi with ⟨flag, _, rfl | rfl⟩ <;> simp

theorem marks_anySet (flags : List LocalId) : marks (LinearTree.anySet flags) = [] := by
  refine marks_of_quiet fun i hi => ?_
  cases flags with
  | nil => simp [LinearTree.anySet] at hi
  | cons flag flags =>
    simp only [LinearTree.anySet, mem_cons, mem_flatMap, not_mem_nil, or_false] at hi
    rcases hi with rfl | ⟨f, _, rfl | rfl⟩ <;> simp

theorem marks_record (flags : LinearTree.Flags) : marks flags.record = [] := by
  refine marks_of_quiet fun i hi => ?_
  cases flags <;>
    simp only [LinearTree.Flags.record, mem_cons, not_mem_nil, or_false] at hi
  · rcases hi with rfl | rfl <;> simp
  · rcases hi with rfl | rfl | rfl | rfl <;> simp

@[simp] theorem marks_negate (b : Body) : marks b.negate = marks b := by
  rcases negate_cases b with ⟨pre, op, op', note, rfl, _, _, h⟩ | ⟨pre, note, rfl, _, h⟩ | h
  · rw [h]
    simp [marks_cons]
  · rw [h]
    simp [marks_cons, eqz]
  · rw [h]
    simp [marks_cons, eqz]

theorem marks_toward (arm : Arm) (b : Body) : marks (arm.toward b) = marks b := by
  unfold Arm.toward
  split
  · rfl
  · exact marks_negate b

theorem marks_oneShotLoop (first : LocalId) (once otherwise : Body) :
    marks (oneShotLoop label first once otherwise) =
      ⟨[], .loop label⟩ :: (marks once ++ marks otherwise).map (Mark.inside label) := by
  simp [oneShotLoop, marks_cons]

/-! ### Scopes -/

def Scoped (n : Nat) (around : List LoopLabel) (b : Body) : Prop :=
  ∀ m ∈ marks b, m.Scoped n around

@[simp] theorem scoped_append : Scoped n around (a ++ b) ↔ Scoped n around a ∧ Scoped n around b := by
  simp only [Scoped, marks_append, mem_append]
  exact ⟨fun h => ⟨fun m hm => h m (.inl hm), fun m hm => h m (.inr hm)⟩,
    fun h m hm => hm.elim (h.1 m) (h.2 m)⟩

theorem scoped_of_marks (h : marks b = []) : Scoped n around b := by
  intro m hm
  rw [h] at hm
  cases hm

theorem Scoped.congr (h : marks b = marks a) (ha : Scoped n around a) : Scoped n around b := by
  intro m hm
  exact ha m (h ▸ hm)

theorem scoped_cons {i : Instruction} {is : Body} :
    Scoped n around (i :: is) ↔ Scoped n around [i] ∧ Scoped n around is := by
  rw [← scoped_append]
  rfl

theorem scoped_jump (h : label ∈ around) :
    Scoped n around [.br label] ∧ Scoped n around [.brIf label] := by
  constructor <;>
  · intro m hm
    simp only [marks_cons, Instruction.marks_br, Instruction.marks_brIf, marks_nil, append_nil, mem_singleton] at hm
    subst hm
    exact .inr h

theorem scoped_cond {params results : StackType} {t e : Body} :
    Scoped n around [.cond params results t e] ↔ Scoped n around t ∧ Scoped n around e := by
  rw [← scoped_append]
  simp [Scoped, marks_cons]

theorem scoped_switch {selector : LocalId} {cases : List Body} :
    Scoped n around [.switch selector cases] ↔ ∀ b ∈ cases, Scoped n around b := by
  simp only [Scoped, marks_cons, marks_switch, marks_nil, append_nil,
    mem_flatMap]
  constructor
  · intro h b hb m hm
    exact h m ⟨b, hb, hm⟩
  · rintro h m ⟨b, hb, hm⟩
    exact h b hb m hm

theorem Scoped.mono (h : Scoped n around b) (hn : n ≤ n') (ha : ∀ l, l ∈ around ↔ l ∈ around') :
    Scoped n' around' b := by
  intro m hm
  have hm := h m hm
  unfold Mark.Scoped at hm ⊢
  split at hm
  · trivial
  · exact hm.imp_right (ha _).1
  · exact ⟨Nat.lt_of_lt_of_le hm.1 hn, hm.2.1, fun hl => hm.2.2 ((ha _).2 hl)⟩

theorem Scoped.enter (h : Scoped n around b) (hl : n ≤ label.index) : Scoped n (label :: around) b := by
  intro m hm
  have hm := h m hm
  unfold Mark.Scoped at hm ⊢
  split at hm
  · trivial
  · exact hm.imp_right (.tail _)
  next l _ =>
    refine ⟨hm.1, hm.2.1, fun hmem => ?_⟩
    rcases mem_cons.1 hmem with rfl | hmem
    · exact absurd hm.1 (Nat.not_lt_of_le hl)
    · exact hm.2.2 hmem

theorem Scoped.loop (h : Scoped n (label :: around) b) (hn : label.index < n) (hl : label ∉ around)
    (params results : StackType) : Scoped n around [.loop label params results b] := by
  intro m hm
  simp only [marks_cons, Instruction.marks_loop, marks_nil, append_nil, mem_cons,
    mem_map] at hm
  rcases hm with rfl | ⟨m, hm, rfl⟩
  · exact ⟨hn, not_mem_nil, hl⟩
  · have hm := h m hm
    unfold Mark.Scoped Mark.inside at *
    dsimp only
    split at hm
    · trivial
    · rcases hm with hm | hm
      · exact .inl (mem_append_left _ hm)
      · rcases mem_cons.1 hm with rfl | hm
        · exact .inl (mem_append_right _ (.head _))
        · exact .inr hm
    · refine ⟨hm.1, fun hmem => ?_, fun hmem => hm.2.2 (.tail _ hmem)⟩
      rcases mem_append.1 hmem with hmem | hmem
      · exact hm.2.1 hmem
      · cases mem_singleton.1 hmem
        exact hm.2.2 (.head _)

theorem Scoped.oneShotLoop {once otherwise : Body} (h : Scoped n (label :: around) once)
    (h' : Scoped n (label :: around) otherwise) (hn : label.index < n) (hl : label ∉ around)
    (first : LocalId) : Scoped n around (oneShotLoop label first once otherwise) := by
  have hboth : Scoped n (label :: around) (once ++ otherwise) := scoped_append.2 ⟨h, h'⟩
  refine (hboth.loop hn hl [] []).congr ?_
  rw [marks_oneShotLoop]
  simp [marks_cons]

/-! ### Counting -/

def tally (k : Landmark) (b : Body) : Nat := (marks b).countP (·.landmark = k)

variable {k : Landmark}

@[simp] theorem tally_nil : tally k [] = 0 := by simp [tally]

@[simp] theorem tally_append : tally k (a ++ b) = tally k a + tally k b := by
  simp [tally, countP_append]

theorem tally_congr (h : marks a = marks b) : tally k a = tally k b := by rw [tally, h, tally]

theorem tally_of_marks (h : marks b = []) : tally k b = 0 := by rw [tally, h]; rfl

theorem countP_inside (ms : List Mark) :
    (ms.map (Mark.inside label)).countP (·.landmark = k) = ms.countP (·.landmark = k) := by
  rw [countP_map]
  rfl

theorem tally_loop (label : LoopLabel) (params results : StackType) (b : Body) :
    tally k [.loop label params results b] = tally k b + if .loop label = k then 1 else 0 := by
  simp only [tally, marks_cons, Instruction.marks_loop, marks_nil, append_nil, countP_cons,
    countP_inside, decide_eq_true_eq]

theorem tally_oneShotLoop (first : LocalId) (once otherwise : Body) :
    tally k (Structurer.oneShotLoop label first once otherwise) =
      tally k once + tally k otherwise + if .loop label = k then 1 else 0 := by
  simp only [tally, marks_oneShotLoop, countP_cons, countP_inside, countP_append,
    decide_eq_true_eq]

theorem tally_cond (params results : StackType) (t e : Body) :
    tally k [.cond params results t e] = tally k t + tally k e := by
  simp [tally, marks_cons, countP_append]

theorem tally_switch (selector : LocalId) (cases : List Body) :
    tally k [.switch selector cases] = (cases.map (tally k)).sum := by
  have hmarks : marks [.switch selector cases] = cases.flatMap marks := by
    rw [marks_cons, marks_switch, marks_nil, append_nil]
  unfold tally
  rw [hmarks]
  clear hmarks
  induction cases with
  | nil => rfl
  | cons b bs ih => rw [flatMap_cons, countP_append, ih, map_cons, sum_cons]

theorem tally_loop_of_flat (h : b.any (·.isStructured) = false) (l : LoopLabel) :
    tally (.loop l) b = 0 := by
  induction b with
  | nil => simp
  | cons i is ih =>
    rw [any_cons, Bool.or_eq_false_iff] at h
    have hi : tally (.loop l) [i] = 0 := by
      cases i with
      | cond => simp [Instruction.isStructured] at h
      | loop => simp [Instruction.isStructured] at h
      | switch => simp [Instruction.isStructured] at h
      | _ => rfl
    have hsplit : i :: is = [i] ++ is := rfl
    rw [hsplit, tally_append, hi, ih h.2]

end Body

end Structurer
