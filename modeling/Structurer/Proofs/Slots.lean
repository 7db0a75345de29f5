/-
**Parked stacks.**

Where values cannot be handed on by the operand stack, they are parked in slots: code moves them off
the stack into their slots, and other code pushes them back.  A slot belongs to a depth of the stack
and a type, so two pieces of code that are made for the same stack use the same slots.
-/

import Structurer.Proofs.Growth
import Structurer.Proofs.Walk

namespace Structurer

open List

variable {id : LocalId} {ids : List LocalId} {l : List (LocalId × Machine.Value)} {ls ls' : Locals}
  {depth : Nat} {stack : StackType}

namespace Locals

abbrev Parked (ls : Locals) (depth : Nat) (stack : StackType) (ids : List LocalId) : Prop :=
  List.Forall₂ (fun (e : ValueType × Nat) id => ls.slot? e.2 e.1 = some id) (stack.zipIdx depth) ids

def Stores (ls : Locals) (stack : StackType) (code : Body) : Prop :=
  ∃ note ids, Body.hasNoCode note = true ∧ code = note ++ (ids.reverse.map .localSet) ∧
    ls.Parked 0 stack ids

def Loads (ls : Locals) (stack : StackType) (code : Body) : Prop :=
  ∃ note ids, Body.hasNoCode note = true ∧ code = note ++ ids.map .localGet ∧ ls.Parked 0 stack ids

section Parked

variable {ids' : List LocalId} {code : Body}

theorem Parked.mono (h : ls.Extends ls') (hp : ls.Parked depth stack ids) :
    ls'.Parked depth stack ids :=
  hp.imp fun _ _ => h.slot

theorem Stores.mono (h : ls.Extends ls') (hs : ls.Stores stack code) : ls'.Stores stack code := by
  obtain ⟨note, ids, hn, hc, hp⟩ := hs
  exact ⟨note, ids, hn, hc, hp.mono h⟩

theorem Loads.mono (h : ls.Extends ls') (hs : ls.Loads stack code) : ls'.Loads stack code := by
  obtain ⟨note, ids, hn, hc, hp⟩ := hs
  exact ⟨note, ids, hn, hc, hp.mono h⟩

theorem Parked.length (hp : ls.Parked depth stack ids) : ids.length = stack.length := by
  have := List.Forall₂.length_eq hp
  simpa using this.symm

theorem Parked.isSlot (hp : ls.Parked depth stack ids) (hid : id ∈ ids) : ls.IsSlot id := by
  unfold Parked at hp
  generalize stack.zipIdx depth = l at hp
  induction hp with
  | nil => cases hid
  | cons he _ ih =>
    rcases mem_cons.1 hid with rfl | hid
    · exact isSlot_of_slot? he
    · exact ih hid

theorem Parked.not_mem (hv : ls.Valid) (hp : ls.Parked depth stack ids) {d : Nat} (hd : d < depth)
    {t : ValueType} (hs : ls.slot? d t = some id) : id ∉ ids := by
  induction stack generalizing depth ids with
  | nil =>
    cases hp
    exact not_mem_nil
  | cons u stack ih =>
    rw [Parked, zipIdx_cons] at hp
    cases hp with
    | cons hu hrest =>
      rw [mem_cons, not_or]
      refine ⟨?_, ih hrest (Nat.lt_succ_of_lt hd)⟩
      rintro rfl
      exact absurd (hv.slot?_inj hs hu) (Nat.ne_of_lt hd)

theorem Parked.nodup (hv : ls.Valid) (hp : ls.Parked depth stack ids) : ids.Nodup := by
  induction stack generalizing depth ids with
  | nil =>
    cases hp
    exact nodup_nil
  | cons u stack ih =>
    rw [Parked, zipIdx_cons] at hp
    cases hp with
    | cons hu hrest =>
      exact nodup_cons.2 ⟨Parked.not_mem hv hrest (Nat.lt_succ_self depth) hu, ih hrest⟩

theorem Parked.unique (hp : ls.Parked depth stack ids) (hp' : ls.Parked depth stack ids') :
    ids = ids' := by
  induction stack generalizing depth ids ids' with
  | nil =>
    cases hp
    cases hp'
    rfl
  | cons u stack ih =>
    rw [Parked, zipIdx_cons] at hp hp'
    cases hp with
    | cons hu hrest =>
      cases hp' with
      | cons hu' hrest' =>
        rw [hu] at hu'
        cases hu'
        rw [ih hrest hrest']

end Parked

/-! ### Types -/

section Types

variable {R : Regime} {below : StackType} {code : Body}

theorem Parked.leads_load (hv : R.checker.locals.Valid) (hp : R.checker.locals.Parked depth stack ids)
    (below : StackType) : R.Leads below (ids.map .localGet) (below ++ stack) := by
  induction stack generalizing depth below ids with
  | nil =>
    cases hp
    rw [append_nil]
    exact .nil below
  | cons u stack ih =>
    rw [Parked, zipIdx_cons] at hp
    cases hp with
    | cons hu hrest =>
      obtain ⟨v, hget, rfl⟩ := hv.get?_of_slot? hu
      have := (Regime.leads_localGet hget).append (ih hrest (below ++ [v.valueType]))
      simpa using this

theorem Parked.leads_store (hv : R.checker.locals.Valid) (hp : R.checker.locals.Parked depth stack ids)
    (below : StackType) : R.Leads (below ++ stack) (ids.reverse.map .localSet) below := by
  induction stack generalizing depth below ids with
  | nil =>
    cases hp
    rw [append_nil]
    exact .nil below
  | cons u stack ih =>
    rw [Parked, zipIdx_cons] at hp
    cases hp with
    | cons hu hrest =>
      obtain ⟨v, hget, rfl⟩ := hv.get?_of_slot? hu
      have := (ih hrest (below ++ [v.valueType])).append (Regime.leads_localSet hget)
      simpa using this

theorem Loads.leads (hv : R.checker.locals.Valid) (h : R.checker.locals.Loads stack code) :
    R.Leads [] code stack := by
  obtain ⟨note, ids, hn, rfl, hp⟩ := h
  exact (Regime.leads_comments hn).append (hp.leads_load hv [])

theorem Stores.leads (hv : R.checker.locals.Valid) (h : R.checker.locals.Stores stack code) :
    R.Leads stack code [] := by
  obtain ⟨note, ids, hn, rfl, hp⟩ := h
  exact (Regime.leads_comments hn).append (hp.leads_store hv [])

end Types

end Locals

/-! ### The engine makes such code -/

namespace Engine

variable {ctx : Context}

theorem stackComment_spec (ctx : Context) (verb : String) (stack : StackType) :
    Succeeds (stackComment verb stack) ctx fun note ctx' =>
      ctx' = ctx ∧ Body.hasNoCode note = true := by
  unfold stackComment
  split
  · exact .pure ⟨rfl, rfl⟩
  · exact comment_spec ctx _

theorem slots_spec (make : LocalId → Instruction) (l : List (ValueType × Nat)) (ctx : Context) :
    Succeeds (l.mapM fun e => return make (← stackSlot e.2 e.1)) ctx fun code ctx' =>
      ctx.Grows ctx' ∧ ∃ ids, code = ids.map make ∧
        List.Forall₂ (fun (e : ValueType × Nat) id => ctx'.locals.slot? e.2 e.1 = some id) l ids := by
  refine (Succeeds.mapM (P := fun ctx e i => ∃ id, i = make id ∧ ctx.locals.slot? e.2 e.1 = some id)
    ?_ ?_ ctx).mono ?_
  · rintro ctx ctx' e i hg ⟨id, hi, hs⟩
    exact ⟨id, hi, hg.locals.slot hs⟩
  · intro e _ ctx
    refine (stackSlot_spec ctx e.2 e.1).bind ?_
    rintro id ctx' ⟨hg, hs⟩
    exact .pure ⟨hg, id, rfl, hs⟩
  · rintro code ctx' ⟨hg, hall⟩
    refine ⟨hg, ?_⟩
    clear hg
    induction hall with
    | nil => exact ⟨[], rfl, .nil⟩
    | cons he _ ih =>
      obtain ⟨id, rfl, hs⟩ := he
      obtain ⟨ids, rfl, hids⟩ := ih
      exact ⟨id :: ids, rfl, .cons hs hids⟩

theorem storeStack_spec (ctx : Context) (stack : StackType) :
    Succeeds (storeStack stack) ctx fun code ctx' => ctx.Grows ctx' ∧ ctx'.locals.Stores stack code := by
  unfold storeStack
  refine (stackComment_spec ctx "store" stack).bind ?_
  rintro note ctx ⟨rfl, hn⟩
  refine (slots_spec .localSet stack.zipIdx.reverse ctx).bind ?_
  rintro code ctx' ⟨hg, ids, rfl, hids⟩
  refine .pure ⟨hg, note, ids.reverse, hn, by rw [reverse_reverse], ?_⟩
  simpa using rel_reverse hids

theorem loadStack_spec (ctx : Context) (stack : StackType) :
    Succeeds (loadStack stack) ctx fun code ctx' => ctx.Grows ctx' ∧ ctx'.locals.Loads stack code := by
  unfold loadStack
  refine (stackComment_spec ctx "load" stack).bind ?_
  rintro note ctx ⟨rfl, hn⟩
  refine (slots_spec .localGet stack.zipIdx ctx).bind ?_
  rintro code ctx' ⟨hg, ids, rfl, hids⟩
  exact .pure ⟨hg, note, ids, hn, rfl, hids⟩

end Engine

/-! ### Runs of such code -/

namespace Machine

variable {code : Body} {w : World} {s s' : State} {vs us base : List Value}

def Parks (ls : Locals) (stack : StackType) (vs : List Value) (s : State) : Prop :=
  ∃ ids, ls.Parked 0 stack ids ∧ List.Forall₂ (fun id v => s.locals id = some v) ids vs.reverse

theorem Parks.mono (h : ls.Extends ls') (hp : Parks ls stack vs s) : Parks ls' stack vs s := by
  obtain ⟨ids, hids, hvs⟩ := hp
  exact ⟨ids, hids.mono h, hvs⟩

theorem Parks.of_slots (hp : Parks ls stack vs s) (h : ∀ id, ls.IsSlot id → s'.locals id = s.locals id) :
    Parks ls stack vs s' := by
  obtain ⟨ids, hids, hvs⟩ := hp
  refine ⟨ids, hids, ?_⟩
  have hmem : ∀ id ∈ ids, s'.locals id = s.locals id := fun id hid => h id (hids.isSlot hid)
  clear hids
  generalize vs.reverse = us at hvs ⊢
  induction hvs with
  | nil => exact .nil
  | cons hv _ ih =>
    refine .cons ?_ (ih fun id hid => hmem id (mem_cons_of_mem _ hid))
    rw [hmem _ (mem_cons_self ..), hv]

theorem exec_localGets (h : List.Forall₂ (fun id v => s.locals id = some v) ids us) :
    exec w (ids.map .localGet) s = some (.next (s.withStack (us.reverse ++ s.stack))) := by
  induction ids generalizing s us with
  | nil =>
    cases h
    simp
  | cons id ids ih =>
    cases h with
    | cons hv hrest =>
      rw [map_cons, exec_cons]
      simp only [execInstruction, simple, hv, andThen_next]
      rw [ih (s := s.push _) hrest]
      simp [State.push]

def State.setAll (s : State) : List (LocalId × Value) → State
  | [] => s
  | (id, v) :: l => (s.set id v).setAll l

@[simp] theorem State.setAll_stack (l : List (LocalId × Value)) : (s.setAll l).stack = s.stack := by
  induction l generalizing s with
  | nil => rfl
  | cons e l ih => exact ih

@[simp] theorem State.setAll_calls (l : List (LocalId × Value)) : (s.setAll l).calls = s.calls := by
  induction l generalizing s with
  | nil => rfl
  | cons e l ih => exact ih

theorem State.setAll_of_not_mem (s : State) (h : id ∉ l.map (·.1)) :
    (s.setAll l).locals id = s.locals id := by
  induction l generalizing s with
  | nil => rfl
  | cons e l ih =>
    simp only [map_cons, mem_cons, not_or] at h
    rw [State.setAll, ih _ h.2, State.set_locals_of_ne _ _ h.1]

theorem State.setAll_of_mem (s : State) (hn : (l.map (·.1)).Nodup) {e : LocalId × Value}
    (he : e ∈ l) : (s.setAll l).locals e.1 = some e.2 := by
  induction l generalizing s with
  | nil => cases he
  | cons e' l ih =>
    rw [map_cons, nodup_cons] at hn
    rcases mem_cons.1 he with rfl | he
    · rw [State.setAll, State.setAll_of_not_mem _ hn.1, State.set_locals_self]
    · exact ih _ hn.2 he

theorem exec_localSets (h : ids.length = us.length) (hs : s.stack = us ++ base) :
    exec w (ids.map .localSet) s = some (.next ((s.withStack base).setAll (ids.zip us))) := by
  induction ids generalizing s us with
  | nil =>
    cases us with
    | nil => simp [State.setAll, ← (show s.stack = base from hs)]
    | cons => cases h
  | cons id ids ih =>
    cases us with
    | nil => cases h
    | cons v us =>
      rw [cons_append] at hs
      rw [map_cons, exec_cons]
      simp only [execInstruction, simple, hs, assign_any, andThen_next]
      rw [ih (s := (s.withStack (us ++ base)).set id v) (Nat.succ.inj h) rfl]
      rfl

/-- What is left after a stack has been parked. -/
structure AfterStore (ls : Locals) (types : StackType) (s s' : State) : Prop where
  stack : s'.stack = []
  calls : s'.calls = s.calls
  others : ∀ id, ¬ ls.IsSlot id → s'.locals id = s.locals id
  parks : Parks ls types s.stack s'

theorem exec_stores (hv : ls.Valid) (h : ls.Stores stack code) (hl : s.stack.length = stack.length) :
    ∃ s', exec w code s = some (.next s') ∧ AfterStore ls stack s s' := by
  obtain ⟨note, ids, hn, rfl, hp⟩ := h
  have hlen : ids.reverse.length = s.stack.length := by rw [length_reverse, hp.length, hl]
  refine ⟨(s.withStack []).setAll (ids.reverse.zip s.stack), ?_, ?_, ?_, ?_, ids, hp, ?_⟩
  · rw [exec_append, exec_comments w hn, andThen_next]
    exact exec_localSets hlen (append_nil _).symm
  · simp
  · simp
  · intro id hid
    refine State.setAll_of_not_mem _ ?_
    rw [map_fst_zip (Nat.le_of_eq hlen), mem_reverse]
    exact fun hmem => hid (hp.isSlot hmem)
  · have hnd : ((ids.reverse.zip s.stack).map (·.1)).Nodup := by
      rw [map_fst_zip (Nat.le_of_eq hlen)]
      exact nodup_reverse.2 (hp.nodup hv)
    have hall : List.Forall₂ (fun id v =>
        ((s.withStack []).setAll (ids.reverse.zip s.stack)).locals id = some v) ids.reverse s.stack :=
      forall₂_iff_zip.2 ⟨hlen, fun {id v} he => State.setAll_of_mem _ hnd he⟩
    simpa using rel_reverse hall

/-- **A stack that was parked is found again.** -/
theorem exec_loads (h : ls.Loads stack code) (hp : Parks ls stack vs s) :
    exec w code s = some (.next (s.withStack (vs ++ s.stack))) := by
  obtain ⟨note, ids, hn, rfl, hids⟩ := h
  obtain ⟨ids', hids', hvs⟩ := hp
  cases hids.unique hids'
  rw [exec_append, exec_comments w hn, andThen_next, exec_localGets hvs, reverse_reverse]

end Machine

end Structurer
