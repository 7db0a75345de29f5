/-
**The stack check is sound.**

Code that passes the stack check runs as the check says.  It never looks below its parameters, never
finds a value of the wrong kind or a variable it does not know, and every way out of it finds the
values there that the check promised.

A variable may hold nothing, and then reading it does get stuck; this is the one thing the check
does not exclude.  The results here say so, which lets them speak of runs in which some variables are
forgotten on purpose.
-/

import Structurer.Proofs.Execution
import Structurer.Proofs.Typing

namespace Structurer.Machine

open Checker Fallible Iteration List
open StackType (Fits)

variable {c : Checker} {expected rest : StackType} {v : Value} {flow : Flow}
  {args base vs : List Value} {s : State} {res : Result} {ls : Locals} {r : Option StackType}
  {loops : List LoopFrame}

/-! ### Values against types -/

/-- The values of a stack, its top first, have the types of a stack, its top last. -/
def HasTypes (vs : List Value) (ts : StackType) : Prop := List.Forall₂ Value.Has vs.reverse ts

namespace HasTypes

variable {ws : List Value} {ts us : StackType} {t : ValueType}

theorem nil : HasTypes [] [] := List.Forall₂.nil

theorem length (h : HasTypes vs ts) : vs.length = ts.length := by
  simpa using List.Forall₂.length_eq h

theorem append (h : HasTypes vs ts) (h' : HasTypes ws us) : HasTypes (ws ++ vs) (ts ++ us) := by
  unfold HasTypes
  rw [reverse_append]
  exact rel_append h h'

theorem singleton (h : v.Has t) : HasTypes [v] [t] := List.Forall₂.cons h .nil

theorem push (h : HasTypes vs ts) (hv : v.Has t) : HasTypes (v :: vs) (ts ++ [t]) :=
  h.append (singleton hv)

theorem split (h : HasTypes vs (ts ++ us)) :
    ∃ top rest, vs = top ++ rest ∧ HasTypes rest ts ∧ HasTypes top us := by
  have hl : vs.reverse = vs.reverse.take ts.length ++ vs.reverse.drop ts.length :=
    (take_append_drop ..).symm
  refine ⟨(vs.reverse.drop ts.length).reverse, (vs.reverse.take ts.length).reverse, ?_, ?_, ?_⟩
  · rw [← reverse_append, ← hl, reverse_reverse]
  · simpa [HasTypes] using forall₂_take ts.length h
  · simpa [HasTypes] using forall₂_drop ts.length h

theorem pop (h : HasTypes vs (ts ++ [t])) : ∃ v rest, vs = v :: rest ∧ v.Has t ∧ HasTypes rest ts := by
  obtain ⟨top, rest, rfl, hrest, htop⟩ := h.split
  obtain ⟨v, rfl⟩ := length_eq_one_iff.1 (show top.length = 1 from htop.length)
  cases htop with
  | cons hv _ => exact ⟨v, rest, rfl, hv, hrest⟩

theorem of_fits {strict : Bool} (h : HasTypes vs ts) (hf : Fits strict ts us) : HasTypes vs us := by
  unfold HasTypes at h ⊢
  generalize vs.reverse = l at h ⊢
  induction hf generalizing l with
  | nil => exact h
  | cons hx _ ih =>
    cases h with
    | cons hv hl => exact .cons (hv.trans (ValueType.erase_eq_of_fits hx)) (ih _ hl)

theorem of_pop (h : HasTypes vs ts) (hp : c.pop ts expected = .ok rest) :
    ∃ top below, vs = top ++ below ∧ HasTypes below rest ∧ HasTypes top expected := by
  obtain ⟨ty, rfl, hf⟩ := pop_eq_ok_iff.1 hp
  obtain ⟨top, below, rfl, hbelow, htop⟩ := h.split
  exact ⟨top, below, rfl, hbelow, htop.of_fits hf⟩

theorem of_pop_one (h : HasTypes vs ts) (hp : c.pop ts [t] = .ok rest) :
    ∃ v below, vs = v :: below ∧ HasTypes below rest ∧ v.Has t := by
  obtain ⟨top, below, rfl, hbelow, htop⟩ := h.of_pop hp
  obtain ⟨v, rfl⟩ := length_eq_one_iff.1 (show top.length = 1 from htop.length)
  cases htop with
  | cons hv _ => exact ⟨v, below, rfl, hbelow, hv⟩

end HasTypes

def Fitting (ls : Locals) (s : State) : Prop :=
  ∀ id var v, ls.get? id = some var → s.locals id = some v → v.Has var.valueType

def Complete (ls : Locals) (s : State) : Prop :=
  ∀ id var, ls.get? id = some var → s.locals id ≠ none

/-- What a run does to the variables: those that held something still do, and something of the right
type; those that are not known stay as they are. -/
structure Keeps (ls : Locals) (s t : State) : Prop where
  fitting : Fitting ls t
  defined : ∀ id, s.locals id ≠ none → t.locals id ≠ none
  unknown : ∀ id, ls.get? id = none → t.locals id = s.locals id

namespace Keeps

variable {t u : State}

theorem refl (h : Fitting ls s) : Keeps ls s s := ⟨h, fun _ h => h, fun _ _ => rfl⟩

theorem trans (h : Keeps ls s t) (h' : Keeps ls t u) : Keeps ls s u :=
  ⟨h'.fitting, fun id hs => h'.defined id (h.defined id hs),
    fun id hid => (h'.unknown id hid).trans (h.unknown id hid)⟩

theorem of_locals (h : Fitting ls s) (hl : t.locals = s.locals) : Keeps ls s t :=
  ⟨fun id var v hid hv => h id var v hid (hl ▸ hv), fun id hs => hl ▸ hs, fun id _ => by rw [hl]⟩

theorem set (h : Fitting ls s) {id : LocalId} {var : LocalVariable} (hid : ls.get? id = some var)
    (hv : v.Has var.valueType) : Keeps ls s (s.set id v) := by
  refine ⟨?_, ?_, ?_⟩
  · intro i var' x hi hx
    by_cases h' : i = id
    · subst h'
      rw [hid] at hi
      cases hi
      rw [State.set_locals_self] at hx
      cases hx
      exact hv
    · rw [State.set_locals_of_ne _ _ h'] at hx
      exact h i var' x hi hx
  · intro i hi
    by_cases h' : i = id
    · subst h'
      simp
    · rw [State.set_locals_of_ne _ _ h']
      exact hi
  · intro i hi
    refine State.set_locals_of_ne _ _ ?_
    rintro rfl
    rw [hid] at hi
    cases hi

theorem complete (h : Keeps ls s t) (hs : Complete ls s) : Complete ls t :=
  fun id var hid => h.defined id (hs id var hid)

end Keeps

/-- Do variables take all values of their types? -/
class Storage.Serves [Storage] (ls : Locals) : Prop where
  takes : ∀ {id var v}, ls.get? id = some var → v.Has var.valueType → Storage.takes id v = true

instance : Storage.Serves ls := ⟨fun _ _ => rfl⟩

instance : @Storage.Serves (.typed ls) ls :=
  @Storage.Serves.mk (.typed ls) ls fun {id var v} hid hv => by
    show Option.any _ (ls.get? id) = true
    rw [hid]
    exact decide_eq_true hv

/-! ### The results that the check allows -/

/-- The results of code run on a stack of which `base` lies below its parameters: `r` is the stack
that the check gives for its end. -/
inductive Ends (c : Checker) (loops : List LoopFrame) (r : Option StackType) (base : List Value)
    (s : State) : Result → Prop
  | next {st : StackType} {t : State} {vs : List Value} (reached : r = some st)
      (stack : t.stack = vs ++ base) (types : HasTypes vs st) (keeps : Keeps c.locals s t) :
      Ends c loops r base s (.next t)
  | jump {l : LoopLabel} {frame : LoopFrame} {t : State} {top rest : List Value}
      (target : loops.find? (·.label == l) = some frame) (stack : t.stack = top ++ rest ++ base)
      (types : HasTypes top frame.params) (keeps : Keeps c.locals s t) :
      Ends c loops r base s (.jump l t)
  | returned {t : State} {top rest : List Value} (stack : t.stack = top ++ rest ++ base)
      (types : HasTypes top c.methodResults) (keeps : Keeps c.locals s t) :
      Ends c loops r base s (.returned t)
  | trapped {t : State} (keeps : Keeps c.locals s t) : Ends c loops r base s (.trapped t)
  | stuck (lacking : ¬ Complete c.locals s) : Ends c loops r base s .stuck

namespace Ends

variable {r' : Option StackType} {t : State}

theorem after (h : Keeps c.locals s t) (he : Ends c loops r base t res) :
    Ends c loops r base s res := by
  cases he with
  | next reached stack types keeps => exact .next reached stack types (h.trans keeps)
  | jump target stack types keeps => exact .jump target stack types (h.trans keeps)
  | returned stack types keeps => exact .returned stack types (h.trans keeps)
  | trapped keeps => exact .trapped (h.trans keeps)
  | stuck lacking => exact .stuck fun hs => lacking (h.complete hs)

theorem weaken (hr : ∀ st, r = some st → r' = some st) (he : Ends c loops r base s res) :
    Ends c loops r' base s res := by
  cases he with
  | next reached stack types keeps => exact .next (hr _ reached) stack types keeps
  | jump target stack types keeps => exact .jump target stack types keeps
  | returned stack types keeps => exact .returned stack types keeps
  | trapped keeps => exact .trapped keeps
  | stuck lacking => exact .stuck lacking

theorem ofAndThen {x : Option Result} {k : State → Option Result}
    (hx : ∀ res, x = some res → Ends c loops r base s res)
    (hk : ∀ t vs st, r = some st → t.stack = vs ++ base → HasTypes vs st → Fitting c.locals t →
      ∀ res, k t = some res → Ends c loops r' base t res)
    (h : andThen x k = some res) : Ends c loops r' base s res := by
  rcases x with _ | res'
  · cases h
  · cases hx res' rfl with
    | next reached stack types keeps =>
      exact (hk _ _ _ reached stack types keeps.fitting res h).after keeps
    | jump target stack types keeps => cases h; exact .jump target stack types keeps
    | returned stack types keeps => cases h; exact .returned stack types keeps
    | trapped keeps => cases h; exact .trapped keeps
    | stuck lacking => cases h; exact .stuck lacking

theorem block {below : List Value} (hflow : c.endFlow expected r = some flow)
    (hbelow : HasTypes below rest) (hr : flow = .fallsThrough → r' = some (rest ++ expected))
    (he : Ends c loops r (below ++ base) s res) : Ends c loops r' base s res := by
  cases he with
  | next reached stack types keeps =>
    rcases endFlow_eq_some_iff.1 hflow with ⟨hn, _⟩ | ⟨st, hst, hf, hfall⟩
    · rw [hn] at reached
      cases reached
    · rw [hst] at reached
      cases reached
      exact .next (hr hfall) (by rw [stack, append_assoc])
        (hbelow.append (types.of_fits hf)) keeps
  | jump target stack types keeps =>
    exact .jump target (by rw [stack, ← append_assoc, ← append_assoc]) types keeps
  | returned stack types keeps =>
    exact .returned (by rw [stack, ← append_assoc, ← append_assoc]) types keeps
  | trapped keeps => exact .trapped keeps
  | stuck lacking => exact .stuck lacking

end Ends

/-! ### Instructions without nested bodies -/

theorem Value.Has.eq_i32 {t : ValueType} (h : v.Has t) (ht : t.erase = .i32) : ∃ x, v = .i32 x := by
  cases v with
  | i32 x => exact ⟨x, rfl⟩
  | _ => cases h.trans ht

theorem Value.Has.eq_i64 {t : ValueType} (h : v.Has t) (ht : t.erase = .i64) : ∃ x, v = .i64 x := by
  cases v with
  | i64 x => exact ⟨x, rfl⟩
  | _ => cases h.trans ht

theorem Value.Has.eq_f32 {t : ValueType} (h : v.Has t) (ht : t.erase = .f32) : ∃ x, v = .f32 x := by
  cases v with
  | f32 x => exact ⟨x, rfl⟩
  | _ => cases h.trans ht

theorem Value.Has.eq_f64 {t : ValueType} (h : v.Has t) (ht : t.erase = .f64) : ∃ x, v = .f64 x := by
  cases v with
  | f64 x => exact ⟨x, rfl⟩
  | _ => cases h.trans ht

theorem Value.has_single {t : ValueType} (h : List.Forall₂ Value.Has args [t]) :
    ∃ a, args = [a] ∧ a.Has t := by
  cases h with
  | cons ha h =>
    cases h
    exact ⟨_, rfl, ha⟩

theorem Value.has_pair {t u : ValueType} (h : List.Forall₂ Value.Has args [t, u]) :
    ∃ a b, args = [a, b] ∧ a.Has t ∧ b.Has u := by
  cases h with
  | cons ha h =>
    obtain ⟨b, rfl, hb⟩ := Value.has_single h
    exact ⟨_, b, rfl, ha, hb⟩

theorem evalOp_has (w : World) (op : NumericOp) (h : List.Forall₂ Value.Has args op.inputs) :
    ∃ v, evalOp w op args = some v ∧ v.Has op.output := by
  cases op with
  | i32Add | i32Sub | i32Mul | i32And | i32Or | i32Xor | i32Eq | i32Ne | i32LtS | i32LeS | i32GtS
  | i32GeS =>
    obtain ⟨a, b, rfl, ha, hb⟩ := Value.has_pair h
    obtain ⟨x, rfl⟩ := ha.eq_i32 rfl
    obtain ⟨y, rfl⟩ := hb.eq_i32 rfl
    exact ⟨_, rfl, rfl⟩
  | i64Add | i64Sub | i64Mul | i64Eq | i64Ne | i64LtS | i64LeS | i64GtS | i64GeS =>
    obtain ⟨a, b, rfl, ha, hb⟩ := Value.has_pair h
    obtain ⟨x, rfl⟩ := ha.eq_i64 rfl
    obtain ⟨y, rfl⟩ := hb.eq_i64 rfl
    exact ⟨_, rfl, rfl⟩
  | f32Add | f32Sub | f32Mul =>
    obtain ⟨a, b, rfl, ha, hb⟩ := Value.has_pair h
    obtain ⟨x, rfl⟩ := ha.eq_f32 rfl
    obtain ⟨y, rfl⟩ := hb.eq_f32 rfl
    exact ⟨_, rfl, rfl⟩
  | f64Add | f64Sub | f64Mul =>
    obtain ⟨a, b, rfl, ha, hb⟩ := Value.has_pair h
    obtain ⟨x, rfl⟩ := ha.eq_f64 rfl
    obtain ⟨y, rfl⟩ := hb.eq_f64 rfl
    exact ⟨_, rfl, rfl⟩
  | i32Eqz | i64ExtendI32S =>
    obtain ⟨a, rfl, ha⟩ := Value.has_single h
    obtain ⟨x, rfl⟩ := ha.eq_i32 rfl
    exact ⟨_, rfl, rfl⟩
  | i64Eqz | i32WrapI64 =>
    obtain ⟨a, rfl, ha⟩ := Value.has_single h
    obtain ⟨x, rfl⟩ := ha.eq_i64 rfl
    exact ⟨_, rfl, rfl⟩
  | f64PromoteF32 =>
    obtain ⟨a, rfl, ha⟩ := Value.has_single h
    obtain ⟨x, rfl⟩ := ha.eq_f32 rfl
    exact ⟨_, rfl, rfl⟩
  | f32DemoteF64 =>
    obtain ⟨a, rfl, ha⟩ := Value.has_single h
    obtain ⟨x, rfl⟩ := ha.eq_f64 rfl
    exact ⟨_, rfl, rfl⟩

section Simple

variable {stack : StackType}

theorem call_ends (w : World) (name : String) {inputs outputs : StackType}
    (hs : s.stack = vs ++ base) (ht : HasTypes vs stack) (hl : Fitting c.locals s)
    (hp : c.pop stack inputs = .ok rest) :
    Ends c loops (some (rest ++ outputs)) base s (call w name inputs outputs s) := by
  obtain ⟨top, below, rfl, hbelow, htop⟩ := ht.of_pop hp
  have htake : s.stack.take inputs.length = top := by
    rw [hs, append_assoc, ← htop.length, take_left]
  have hdrop : s.stack.drop inputs.length = below ++ base := by
    rw [hs, append_assoc, ← htop.length, drop_left]
  have hargs : List.Forall₂ Value.Has (s.callOf name inputs outputs).args inputs := by
    rw [State.callOf, htake]
    exact htop
  rw [call, if_pos hargs]
  cases ha : w.answer s.calls (s.callOf name inputs outputs) with
  | none => exact .trapped (.of_locals hl rfl)
  | some values =>
    have hvalues : HasTypes values.reverse outputs := by
      rw [HasTypes, reverse_reverse]
      exact w.answer_has ha
    refine .next rfl ?_ (hbelow.append hvalues) (.of_locals hl rfl)
    show values.reverse ++ s.stack.drop inputs.length = _
    rw [hdrop, append_assoc]

theorem simple_ends [Storage] [Storage.Serves c.locals] (w : World) {i : Instruction}
    (hi : c.stepSimple loops stack i = .ok r) (hs : s.stack = vs ++ base) (ht : HasTypes vs stack) (hl : Fitting c.locals s) :
    Ends c loops r base s (simple w i s) := by
  have push : ∀ {v : Value} {t : ValueType}, v.Has t →
      Ends c loops (some (stack ++ [t])) base s (.next (s.push v)) := fun hv =>
    .next rfl (by rw [State.push_stack, hs]; rfl) (ht.push hv) (.of_locals hl rfl)
  cases i with
  | i32Const _ | i64Const _ | f32Const _ | f64Const _ => cases hi; exact push rfl
  | localGet id =>
    obtain ⟨t, hlt, hr⟩ := bind_eq_ok_iff.1 hi
    cases hr
    obtain ⟨var, hvar, rfl⟩ := localType_eq_ok_iff.1 hlt
    cases hv : s.locals id with
    | none =>
      simp only [simple, hv]
      exact .stuck fun hc => hc id var hvar hv
    | some v =>
      simp only [simple, hv]
      exact push (hl id var v hvar hv)
  | localSet id =>
    obtain ⟨t, hlt, hr⟩ := bind_eq_ok_iff.1 hi
    obtain ⟨rest, hrest, hr⟩ := bind_eq_ok_iff.1 hr
    cases hr
    obtain ⟨var, hvar, rfl⟩ := localType_eq_ok_iff.1 hlt
    obtain ⟨v, below, rfl, hbelow, hv⟩ := ht.of_pop_one hrest
    rw [cons_append] at hs
    simp only [simple, hs, assign, if_pos (Storage.Serves.takes hvar hv)]
    have hk : Keeps c.locals s (s.withStack (below ++ base)) := .of_locals hl rfl
    exact .next rfl rfl hbelow (hk.trans (.set hk.fitting hvar hv))
  | numeric op =>
    obtain ⟨rest, hrest, hr⟩ := bind_eq_ok_iff.1 hi
    cases hr
    obtain ⟨top, below, rfl, hbelow, htop⟩ := ht.of_pop hrest
    obtain ⟨v, hv, hout⟩ := evalOp_has w op htop
    rw [append_assoc] at hs
    simp only [simple, hs, ← htop.length, take_left, drop_left, hv]
    exact .next rfl rfl (hbelow.push hout) (.of_locals hl rfl)
  | drop =>
    obtain ⟨rest, t, rfl, rfl⟩ := stepSimple_drop_iff.1 hi
    obtain ⟨v, below, rfl, _, hbelow⟩ := ht.pop
    rw [cons_append] at hs
    simp only [simple, hs]
    exact .next rfl rfl hbelow (.of_locals hl rfl)
  | call name inputs outputs =>
    obtain ⟨rest, hrest, hr⟩ := bind_eq_ok_iff.1 hi
    cases hr
    exact call_ends w name hs ht hl hrest
  | br label =>
    obtain ⟨_, hj, hr⟩ := bind_eq_ok_iff.1 hi
    obtain ⟨frame, hfind, rest, top, rfl, hf⟩ := checkJump_eq_ok_iff.1 hj
    obtain ⟨vtop, vrest, rfl, _, htop⟩ := ht.split
    exact .jump hfind hs (htop.of_fits hf) (.refl hl)
  | brIf label =>
    obtain ⟨rest, hrest, hr⟩ := bind_eq_ok_iff.1 hi
    obtain ⟨_, hj, hr⟩ := bind_eq_ok_iff.1 hr
    cases hr
    obtain ⟨v, below, rfl, hbelow, hv⟩ := ht.of_pop_one hrest
    obtain ⟨x, rfl⟩ := hv.eq_i32 rfl
    obtain ⟨frame, hfind, rest', top, rfl, hf⟩ := checkJump_eq_ok_iff.1 hj
    rw [cons_append] at hs
    simp only [simple, hs]
    by_cases hx : x ≠ 0
    · rw [if_pos hx]
      obtain ⟨vtop, vrest, rfl, _, htop⟩ := hbelow.split
      exact .jump hfind rfl (htop.of_fits hf) (.of_locals hl rfl)
    · rw [if_neg hx]
      exact .next rfl rfl hbelow (.of_locals hl rfl)
  | unreachable => exact .trapped (.refl hl)
  | ret =>
    simp only [stepSimple] at hi
    split at hi
    · next he =>
        obtain ⟨rest, top, rfl, hf⟩ := StackType.endsWith_iff.1 he
        obtain ⟨vtop, vrest, rfl, _, htop⟩ := ht.split
        exact .returned hs (htop.of_fits hf) (.refl hl)
    · cases hi
  | comment _ | cond _ _ _ _ | loop _ _ _ _ | switch _ _ =>
    cases hi
    exact .next rfl hs ht (.refl hl)

end Simple

/-! ### Nested bodies -/

section Rounds

variable {label : LoopLabel} {params : StackType} {body : State → Option Result}

theorem endRound_ends {a : State} (hk : Keeps c.locals s a)
    (he : Ends c (⟨label, params⟩ :: loops) r base a res) :
    match endRound label params.length base res with
    | .inl a' => (∃ args, a'.stack = args ++ base ∧ HasTypes args params) ∧ Keeps c.locals s a'
    | .inr res' => Ends c loops r base s res' := by
  cases he with
  | next reached stack types keeps => exact .next reached stack types (hk.trans keeps)
  | returned stack types keeps => exact .returned stack types (hk.trans keeps)
  | trapped keeps => exact .trapped (hk.trans keeps)
  | stuck lacking => exact .stuck fun hs => lacking (hk.complete hs)
  | @jump l frame t top rest target stack types keeps =>
    by_cases hl : l = label
    · -- the innermost loop of the label is this one, so the values it takes are on top
      subst hl
      simp only [find?_cons, beq_self_eq_true, Option.some.injEq] at target
      subst target
      have hlen : top.length = params.length := types.length
      have hle : params.length ≤ t.stack.length := by
        rw [stack, length_append, length_append]
        omega
      simp only [endRound, if_true, if_pos hle]
      refine ⟨⟨top, ?_, types⟩, (hk.trans keeps).trans (.of_locals keeps.fitting rfl)⟩
      rw [State.withStack_stack, stack, append_assoc, ← hlen, take_left]
    · have hne : (label == l) = false := by simpa using fun h : label = l => hl h.symm
      rw [find?_cons, hne] at target
      simp only [endRound, if_neg hl]
      exact .jump target stack types (hk.trans keeps)

theorem rounds_ends
    (hbody : ∀ a args, a.stack = args ++ base → HasTypes args params → Fitting c.locals a →
      ∀ res, body a = some res → Ends c (⟨label, params⟩ :: loops) r base a res)
    (hs : s.stack = args ++ base) (ht : HasTypes args params) (hl : Fitting c.locals s)
    (h : rounds label params.length base body s = some res) : Ends c loops r base s res := by
  let Inv (a : State) : Prop :=
    (∃ args, a.stack = args ++ base ∧ HasTypes args params) ∧ Keeps c.locals s a
  have round : ∀ a x, Inv a → (body a).map (endRound label params.length base) = some x →
      match x with
      | .inl a' => Inv a'
      | .inr res' => Ends c loops r base s res' := by
    rintro a x ⟨⟨args, hst, hty⟩, hk⟩ hx
    obtain ⟨res, hres, rfl⟩ := Option.map_eq_some_iff.1 hx
    exact endRound_ends hk (hbody a args hst hty hk.fitting res hres)
  exact iter_invariant (fun a a' ha hf => round a _ ha hf) (fun a res ha hf => round a _ ha hf)
    ⟨⟨args, hs, ht⟩, .refl hl⟩ h

end Rounds

mutual

theorem execInstruction_ends [Storage] {c : Checker} [Storage.Serves c.locals]
    {loops : List LoopFrame} {stack : StackType} {r : Option StackType} (w : World) (i : Instruction)
    (hi : c.typeInstruction loops stack i = some r) {vs base : List Value} {s : State}
    (hs : s.stack = vs ++ base) (ht : HasTypes vs stack) (hl : Fitting c.locals s) {res : Result}
    (h : execInstruction w i s = some res) : Ends c loops r base s res := by
  cases i with
  | cond params results t e =>
    obtain ⟨below, h₁, rest, h₂, flow, h₃, flow', h₄, rfl⟩ := typeInstruction_cond_iff.1 hi
    obtain ⟨v, vs', rfl, hvs', hv⟩ := ht.of_pop_one (toOption_eq_some_iff.1 h₁)
    obtain ⟨x, rfl⟩ := hv.eq_i32 rfl
    obtain ⟨top, low, rfl, hlow, htop⟩ := hvs'.of_pop (toOption_eq_some_iff.1 h₂)
    have hk : Keeps c.locals s (s.withStack (top ++ low ++ base)) := .of_locals hl rfl
    rw [cons_append] at hs
    simp only [execInstruction, hs] at h
    by_cases hx : x ≠ 0
    · rw [if_pos hx] at h
      obtain ⟨r, hr, hflow⟩ := Option.bind_eq_some_iff.1 h₃
      refine Ends.after hk (Ends.block hflow hlow ?_
        (exec_ends w t hr (append_assoc ..) htop hk.fitting h))
      rintro rfl
      cases flow' <;> rfl
    · rw [if_neg hx] at h
      obtain ⟨r, hr, hflow⟩ := Option.bind_eq_some_iff.1 h₄
      refine Ends.after hk (Ends.block hflow hlow ?_
        (exec_ends w e hr (append_assoc ..) htop hk.fitting h))
      rintro rfl
      cases flow <;> rfl
  | loop label params results b =>
    obtain ⟨rest, h₁, flow, h₂, rfl⟩ := typeInstruction_loop_iff.1 hi
    obtain ⟨top, low, rfl, hlow, htop⟩ := ht.of_pop (toOption_eq_some_iff.1 h₁)
    obtain ⟨r, hr, hflow⟩ := Option.bind_eq_some_iff.1 h₂
    rw [append_assoc] at hs
    have hle : params.length ≤ s.stack.length := by
      rw [hs, length_append, htop.length]
      omega
    have hdrop : s.stack.drop params.length = low ++ base := by
      rw [hs, ← htop.length, drop_left]
    simp only [execInstruction, if_pos hle, hdrop] at h
    refine Ends.block hflow hlow ?_ (rounds_ends (fun a args hst hty hfit res hres =>
      exec_ends w b hr hst hty hfit hres) hs htop hl h)
    rintro rfl
    rfl
  | switch selector cases =>
    obtain ⟨h₁, flow, h₂, rfl⟩ := typeInstruction_switch_iff.1 hi
    obtain ⟨var, hvar, hfit⟩ := checkSelector_eq_ok_iff.1 h₁
    cases hv : s.locals selector with
    | none =>
      simp only [execInstruction, hv, Option.some.injEq] at h
      subst h
      exact .stuck fun hc => hc selector var hvar hv
    | some v =>
      obtain ⟨k, rfl⟩ := (hl selector var v hvar hv).eq_i32
        (ValueType.erase_eq_of_fits hfit)
      simp only [execInstruction, hv] at h
      by_cases hk : 0 ≤ k
      · rw [if_pos hk] at h
        exact execCase_ends w cases h₂ hs ht hl h
      · rw [if_neg hk] at h
        cases h
        exact .trapped (.refl hl)
  | _ =>
    simp only [typeInstruction, toOption_eq_some_iff] at hi
    simp only [execInstruction, Option.some.injEq] at h
    rw [← h]
    exact simple_ends w hi hs ht hl

/-- **Soundness.**  Code that passes the check ends as the check says, or lacks the value of some
variable. -/
theorem exec_ends [Storage] {c : Checker} [Storage.Serves c.locals] {loops : List LoopFrame}
    {stack : StackType} {r : Option StackType} (w : World) (b : List Instruction)
    (hb : c.typeBody loops stack b = some r) {vs base : List Value} {s : State}
    (hs : s.stack = vs ++ base) (ht : HasTypes vs stack) (hl : Fitting c.locals s) {res : Result}
    (h : exec w b s = some res) : Ends c loops r base s res := by
  match b with
  | [] =>
    rw [exec_nil] at h
    rw [typeBody_nil] at hb
    cases h
    cases hb
    exact .next rfl hs ht (.refl hl)
  | i :: is =>
    rw [exec_cons] at h
    rcases typeBody_cons_iff.1 hb with ⟨hi, rfl⟩ | ⟨st, hi, his⟩
    · refine Ends.ofAndThen (fun _ => execInstruction_ends w i hi hs ht hl) ?_ h
      intro t vs st hst
      cases hst
    · refine Ends.ofAndThen (fun _ => execInstruction_ends w i hi hs ht hl) ?_ h
      intro t vs st' hst hs' ht' hl' res
      cases hst
      exact exec_ends w is his hs' ht' hl'

theorem execCase_ends [Storage] {c : Checker} [Storage.Serves c.locals] {loops : List LoopFrame}
    {stack : StackType} {flow : Flow}
    (w : World) (bs : List (List Instruction)) (hbs : c.typeCases loops bs = some flow) {k : Nat}
    {vs base : List Value} {s : State} (hs : s.stack = vs ++ base) (ht : HasTypes vs stack)
    (hl : Fitting c.locals s) {res : Result} (h : execCase w bs k s = some res) :
    Ends c loops (joined stack [] flow) base s res := by
  match bs, k with
  | [], _ =>
    simp only [execCase, Option.some.injEq] at h
    subst h
    exact .trapped (.refl hl)
  | b :: bs, 0 =>
    obtain ⟨flow₁, h₁, flow₂, h₂, rfl⟩ := typeCases_cons_iff.1 hbs
    obtain ⟨r, hr, hflow⟩ := Option.bind_eq_some_iff.1 h₁
    simp only [execCase] at h
    refine Ends.block hflow ht ?_
      (exec_ends w b hr (show s.stack = [] ++ (vs ++ base) from hs) .nil hl h)
    rintro rfl
    cases flow₂ <;> rfl
  | b :: bs, k + 1 =>
    obtain ⟨flow₁, h₁, flow₂, h₂, rfl⟩ := typeCases_cons_iff.1 hbs
    simp only [execCase] at h
    refine (execCase_ends w bs h₂ hs ht hl h).weaken fun st hst => ?_
    cases flow₂ with
    | fallsThrough => cases flow₁ <;> exact hst
    | terminates => cases hst

end

/-! ### The check of a body -/

/-- Every variable holds a value of its type. -/
def Holds (ls : Locals) (s : State) : Prop :=
  ∀ id var, ls.get? id = some var → ∃ v, s.locals id = some v ∧ v.Has var.valueType

theorem Holds.fitting (h : Holds ls s) : Fitting ls s := by
  intro id var v hid hv
  obtain ⟨v', hv', ht⟩ := h id var hid
  rw [hv] at hv'
  cases hv'
  exact ht

theorem Holds.complete (h : Holds ls s) : Complete ls s := by
  intro id var hid hv
  obtain ⟨v', hv', _⟩ := h id var hid
  rw [hv] at hv'
  cases hv'

theorem Keeps.holds {t : State} (hk : Keeps ls s t) (h : Complete ls s) : Holds ls t := by
  intro id var hid
  obtain ⟨v, hv⟩ := Option.ne_none_iff_exists'.1 (hk.complete h id var hid)
  exact ⟨v, hv, hk.fitting id var v hid hv⟩

def State.addBelow (s : State) (base : List Value) : State := s.withStack (s.stack ++ base)

def Result.addBelow (base : List Value) : Result → Result
  | .next s => .next (s.addBelow base)
  | .jump l s => .jump l (s.addBelow base)
  | .returned s => .returned (s.addBelow base)
  | .trapped s => .trapped (s.addBelow base)
  | .stuck => .stuck

/-- The ways in which code leaves that passed its check.  It never gets stuck. -/
inductive Leaves (c : Checker) (results : StackType) (flow : Flow) : Result → Prop
  | falls {t : State} (reached : flow = .fallsThrough) (types : HasTypes t.stack results)
      (holds : Holds c.locals t) : Leaves c results flow (.next t)
  | returns {t : State} {top rest : List Value} (stack : t.stack = top ++ rest)
      (types : HasTypes top c.methodResults) (holds : Holds c.locals t) :
      Leaves c results flow (.returned t)
  | branches {l : LoopLabel} {t : State} (outer : l ∈ c.outerLoops) (holds : Holds c.locals t) :
      Leaves c results flow (.jump l t)
  | traps {t : State} (holds : Holds c.locals t) : Leaves c results flow (.trapped t)

theorem Ends.leaves {results : StackType} (he : Ends c c.frames r [] s res)
    (hc : Complete c.locals s) (hflow : c.endFlow results r = some flow) :
    Leaves c results flow res := by
  cases he with
  | next reached stack types keeps =>
    rcases endFlow_eq_some_iff.1 hflow with ⟨hn, _⟩ | ⟨st, hst, hf, hfall⟩
    · rw [hn] at reached
      cases reached
    · rw [hst] at reached
      cases reached
      rw [append_nil] at stack
      exact .falls hfall (stack ▸ types.of_fits hf) (keeps.holds hc)
  | @jump l frame _ _ _ target stack types keeps =>
    have hmem := mem_of_find?_eq_some target
    have hl : frame.label = l := by simpa using find?_some target
    simp only [frames, mem_map, mem_reverse] at hmem
    obtain ⟨l', hl', rfl⟩ := hmem
    exact .branches (hl ▸ hl') (keeps.holds hc)
  | returned stack types keeps =>
    rw [append_nil] at stack
    exact .returns stack types (keeps.holds hc)
  | trapped keeps => exact .traps (keeps.holds hc)
  | stuck lacking => exact absurd hc lacking

theorem Below.eq_addBelow {s' t t' : State} (h : Below base t t')
    (hs : s'.locals = s.locals) (hc : Complete ls s) (hk : Keeps ls s t) (hk' : Keeps ls s' t') :
    t' = t.addBelow base := by
  have hlocals : t'.locals = t.locals := by
    funext id
    cases hid : ls.get? id with
    | none => rw [hk.unknown id hid, hk'.unknown id hid, hs]
    | some var =>
      obtain ⟨v, hv⟩ := Option.ne_none_iff_exists'.1 (hk.complete hc id var hid)
      rw [hv, h.locals id v hv]
  obtain ⟨stack, locals, calls⟩ := t'
  cases hlocals
  cases h.stack
  cases h.calls
  rfl

/-- The run of code in which variables take values of their types only. -/
noncomputable abbrev execTyped (ls : Locals) (w : World) : Body → State → Option Result :=
  @exec (.typed ls) w

theorem exec_addBelow {loops : List LoopFrame} {params : StackType} {body : Body}
    (h : c.typeBody loops params body = some r) (w : World) (stack : s.stack = args ++ base)
    (types : HasTypes args params) (holds : Holds c.locals s) :
    exec w body s = (execTyped c.locals w body (s.withStack args)).map (Result.addBelow base) := by
  have hargs : Holds c.locals (s.withStack args) := holds
  have alone : ∀ res, execTyped c.locals w body (s.withStack args) = some res →
      Ends c loops r [] (s.withStack args) res := fun res =>
    @exec_ends (.typed c.locals) _ inferInstance _ _ _ w body h _ _ _ (append_nil args).symm types
      hargs.fitting res
  have above : ∀ res, exec w body s = some res → Ends c loops r base s res := fun res =>
    exec_ends w body h stack types holds.fitting
  have hb : Below base (s.withStack args) s := ⟨stack, rfl, fun _ _ hv => hv⟩
  have same : ∀ {t t' : State}, Below base t t' →
      Keeps c.locals (s.withStack args) t → Keeps c.locals s t' → t' = t.addBelow base :=
    fun h hk hk' =>
      h.eq_addBelow (show s.locals = (s.withStack args).locals from rfl) hargs.complete hk hk'
  have hr : Refines _ (execTyped c.locals w body (s.withStack args)) (exec w body s) :=
    exec_within (fun _ _ _ => rfl) w body hb
  generalize execTyped c.locals w body (s.withStack args) = x at hr alone
  generalize exec w body s = y at hr above
  cases hr with
  | stuck y =>
    cases alone _ rfl with
    | stuck lacking => exact absurd hargs.complete lacking
  | forever => rfl
  | ends hrel =>
    cases hrel with
    | next hst =>
      cases alone _ rfl with
      | next _ _ _ keeps =>
        cases above _ rfl with
        | next _ _ _ keeps' => rw [same hst keeps keeps']; rfl
    | jump l hst =>
      cases alone _ rfl with
      | jump _ _ _ keeps =>
        cases above _ rfl with
        | jump _ _ _ keeps' => rw [same hst keeps keeps']; rfl
    | returned hst =>
      cases alone _ rfl with
      | returned _ _ keeps =>
        cases above _ rfl with
        | returned _ _ keeps' => rw [same hst keeps keeps']; rfl
    | trapped hst =>
      cases alone _ rfl with
      | trapped keeps =>
        cases above _ rfl with
        | trapped keeps' => rw [same hst keeps keeps']; rfl

/-- **The stack check is sound.**  Code that passes it runs on its parameters alone, whatever lies
below them, and with variables that take values of their types only; it never gets stuck, and leaves only
in the ways the check allows. -/
theorem checkBody_sound {c : Checker} {body : Body} {params results : StackType} {flow : Flow}
    (checked : c.checkBody body params results = .ok flow) (w : World) {s : State}
    {args base : List Value} (stack : s.stack = args ++ base) (types : HasTypes args params)
    (holds : Holds c.locals s) :
    exec w body s = (execTyped c.locals w body (s.withStack args)).map (Result.addBelow base) ∧
      ∀ res, execTyped c.locals w body (s.withStack args) = some res → Leaves c results flow res := by
  obtain ⟨r, hr, hflow⟩ := Option.bind_eq_some_iff.1 (checkBody_eq_ok_iff.1 checked)
  refine ⟨exec_addBelow hr w stack types holds, fun res hres => ?_⟩
  have hargs : Holds c.locals (s.withStack args) := holds
  have hends := @exec_ends (.typed c.locals) _ inferInstance _ _ _ w body hr _ _ _
    (List.append_nil args).symm types hargs.fitting res hres
  exact hends.leaves hargs.complete hflow

-- a value of the wrong kind does not go unnoticed, even if another one takes its place
example : execTyped ⟨#[⟨"i", .i32⟩], []⟩ .quiet
    [.i64Const 7, .localSet ⟨0⟩, .i32Const 7, .localSet ⟨0⟩] ⟨[], fun _ => some (.i32 0), []⟩ =
      some .stuck := by rfl

def countdown : Body :=
  [.localSet ⟨0⟩,
    .loop ⟨0⟩ [] []
      [.localGet ⟨0⟩, .i32Const 1, .numeric .i32Sub, .localSet ⟨0⟩, .localGet ⟨0⟩, .brIf ⟨0⟩],
    .localGet ⟨0⟩]

def countdownChecker : Checker := ⟨⟨#[⟨"i", .i32⟩], []⟩, [], true, []⟩

theorem checkBody_sound_countdown :
    countdownChecker.checkBody countdown [.i32] [.i32] = .ok .fallsThrough ∧
      (exec .quiet countdown ⟨[.i32 3, .i64 7], fun _ => some (.i32 0), []⟩ =
        (execTyped countdownChecker.locals .quiet countdown ⟨[.i32 3], fun _ => some (.i32 0), []⟩).map
          (Result.addBelow [.i64 7]) ∧
      ∀ res, execTyped countdownChecker.locals .quiet countdown
          ⟨[.i32 3], fun _ => some (.i32 0), []⟩ = some res →
        Leaves countdownChecker [.i32] .fallsThrough res) := by
  have checked : countdownChecker.checkBody countdown [.i32] [.i32] = .ok .fallsThrough := by rfl
  have holds : Holds countdownChecker.locals ⟨[.i32 3, .i64 7], fun _ => some (.i32 0), []⟩ := by
    rintro ⟨k⟩ var hvar
    refine ⟨.i32 0, rfl, ?_⟩
    obtain _ | k := k
    · cases hvar
      rfl
    · simp [countdownChecker, Locals.get?] at hvar
  exact ⟨checked, checkBody_sound checked .quiet rfl (.singleton rfl) holds⟩

end Structurer.Machine
