/-
**What work leaves behind.**

Work of the engine only ever adds to its context: variables, slots and labels.  Code that was typed
before stays typed.  Whoever looks back from a later point tells the slots, which park stack values,
from all other variables, and they were slots, or other variables, from the start.
-/

import Structurer.Proofs.Assembly

namespace Structurer

open List

variable {label : LoopLabel} {ctx ctx' : Context}

/-! ### Variables and slots -/

namespace Locals

variable {ls ls' ls'' : Locals} {id : LocalId} {v : LocalVariable} {K : LocalId → Prop}

def IsSlot (ls : Locals) (id : LocalId) : Prop := ∃ slot ∈ ls.slots, slot.id = id

/-- Slots are variables of their types, and no variable is the slot of two depths or types. -/
structure Valid (ls : Locals) : Prop where
  typed : ∀ slot ∈ ls.slots, ∃ v, ls.get? slot.id = some v ∧ v.valueType = slot.valueType
  distinct : ∀ slot ∈ ls.slots, ∀ slot' ∈ ls.slots, slot.id = slot'.id →
    slot.depth = slot'.depth ∧ slot.valueType = slot'.valueType

/-- All variables and slots are still there, and variables that were no slots did not become some. -/
structure Extends (ls ls' : Locals) : Prop where
  get : ∀ {id v}, ls.get? id = some v → ls'.get? id = some v
  slot : ∀ {depth t id}, ls.slot? depth t = some id → ls'.slot? depth t = some id
  isSlot : ∀ {id}, ls.IsSlot id → ls'.IsSlot id
  old : ∀ {id v}, ls.get? id = some v → ls'.IsSlot id → ls.IsSlot id

/-- Among the variables, the slots are those with a property. -/
structure SlotsAre (ls : Locals) (K : LocalId → Prop) : Prop where
  slots : ∀ {id}, ls.IsSlot id → K id
  others : ∀ {id v}, ls.get? id = some v → K id → ls.IsSlot id

theorem Extends.refl (ls : Locals) : Extends ls ls := ⟨id, id, id, fun _ h => h⟩

theorem Extends.trans (h : Extends ls ls') (h' : Extends ls' ls'') : Extends ls ls'' :=
  ⟨fun hv => h'.get (h.get hv), fun hs => h'.slot (h.slot hs), fun hs => h'.isSlot (h.isSlot hs),
    fun hv hs => h.old hv (h'.old (h.get hv) hs)⟩

theorem SlotsAre.of_extends (h : Extends ls ls') (hK : ls'.SlotsAre K) : ls.SlotsAre K :=
  ⟨fun hs => hK.slots (h.isSlot hs), fun hv hs => h.old hv (hK.others (h.get hv) hs)⟩

theorem slotsAre_isSlot (ls : Locals) : ls.SlotsAre ls.IsSlot := ⟨id, fun _ h => h⟩

/-! ### Flags -/

/-- A variable of the engine's own: an integer, no slot, and not known before. -/
structure Flag (known ls : Locals) (id : LocalId) : Prop where
  unknown : known.get? id = none
  integer : ∃ v, ls.get? id = some v ∧ v.valueType = .i32
  noSlot : ¬ ls.IsSlot id

theorem Flag.mono {known : Locals} (hf : Flag known ls id) (h : Extends ls ls') :
    Flag known ls' id := by
  obtain ⟨v, hv, ht⟩ := hf.integer
  exact ⟨hf.unknown, ⟨v, h.get hv, ht⟩, fun hs => hf.noSlot (h.old hv hs)⟩

theorem Flag.since {known known' : Locals} (hf : Flag known' ls id) (h : Extends known known') :
    Flag known ls id := by
  refine ⟨?_, hf.integer, hf.noSlot⟩
  cases hv : known.get? id with
  | none => rfl
  | some v =>
    have := hf.unknown
    rw [h.get hv] at this
    cases this

/-! ### New variables -/

theorem get?_eq_some_lt (h : ls.get? id = some v) : id.index < ls.size := by
  rw [get?, Array.getElem?_eq_some_iff] at h
  exact h.1

theorem get?_of_size_le (h : ls.size ≤ id.index) : ls.get? id = none := Array.getElem?_eq_none h

theorem extends_add (ls : Locals) (name : String) (t : ValueType) :
    ls.Extends (ls.add name t).2 where
  get hv := by rw [get?_add_of_lt ls name t (get?_eq_some_lt hv), hv]
  slot hs := hs
  isSlot hs := hs
  old _ hs := hs

theorem Valid.add (h : ls.Valid) (name : String) (t : ValueType) : (ls.add name t).2.Valid where
  typed slot hs := by
    obtain ⟨v, hv, ht⟩ := h.typed slot hs
    exact ⟨v, (extends_add ls name t).get hv, ht⟩
  distinct := h.distinct

theorem Valid.not_isSlot_add (h : ls.Valid) (name : String) (t : ValueType) :
    ¬ (ls.add name t).2.IsSlot (ls.add name t).1 := by
  rintro ⟨slot, hs, hid⟩
  obtain ⟨v, hv, _⟩ := h.typed slot hs
  rw [hid] at hv
  exact Nat.lt_irrefl _ (get?_eq_some_lt hv)

/-! ### Slots -/

variable {depth : Nat} {t : ValueType}

theorem slot?_eq_some (h : ls.slot? depth t = some id) :
    ∃ slot ∈ ls.slots, slot.depth = depth ∧ slot.valueType = t ∧ slot.id = id := by
  obtain ⟨slot, hfind, hid⟩ := Option.map_eq_some_iff.1 h
  have hp := find?_some hfind
  simp only [Bool.and_eq_true, beq_iff_eq] at hp
  exact ⟨slot, mem_of_find?_eq_some hfind, hp.1, hp.2, hid⟩

theorem isSlot_of_slot? (h : ls.slot? depth t = some id) : ls.IsSlot id := by
  obtain ⟨slot, hs, _, _, hid⟩ := slot?_eq_some h
  exact ⟨slot, hs, hid⟩

theorem Valid.get?_of_slot? (h : ls.Valid) (hs : ls.slot? depth t = some id) :
    ∃ v, ls.get? id = some v ∧ v.valueType = t := by
  obtain ⟨slot, hmem, _, rfl, rfl⟩ := slot?_eq_some hs
  exact h.typed slot hmem

theorem Valid.slot?_inj (h : ls.Valid) {depth' : Nat} {t' : ValueType}
    (hs : ls.slot? depth t = some id) (hs' : ls.slot? depth' t' = some id) : depth = depth' := by
  obtain ⟨slot, hmem, rfl, rfl, hid⟩ := slot?_eq_some hs
  obtain ⟨slot', hmem', rfl, rfl, hid'⟩ := slot?_eq_some hs'
  exact (h.distinct slot hmem slot' hmem' (hid.trans hid'.symm)).1

theorem slot?_stackSlot (ls : Locals) (depth : Nat) (t : ValueType) :
    (ls.stackSlot depth t).2.slot? depth t = some (ls.stackSlot depth t).1 := by
  unfold stackSlot
  cases hs : ls.slot? depth t with
  | some l => exact hs
  | none => simp [slot?]

theorem extends_stackSlot (ls : Locals) (depth : Nat) (t : ValueType) :
    ls.Extends (ls.stackSlot depth t).2 := by
  unfold stackSlot
  cases hs : ls.slot? depth t with
  | some l => exact .refl ls
  | none =>
    have hadd := extends_add ls ("s" ++ toString depth ++ t.name) t
    refine ⟨hadd.get, ?_, ?_, ?_⟩
    · intro d u l hl
      have hne : (depth == d && t == u) = false := by
        rw [Bool.eq_false_iff]
        intro he
        simp only [Bool.and_eq_true, beq_iff_eq] at he
        obtain ⟨rfl, rfl⟩ := he
        rw [hs] at hl
        cases hl
      simp only [slot?, find?_cons, hne]
      exact hl
    · rintro id ⟨slot, hmem, hid⟩
      exact ⟨slot, .tail _ hmem, hid⟩
    · rintro id v hv ⟨slot, hmem, hid⟩
      rcases mem_cons.1 hmem with rfl | hmem
      · -- the new slot is none of the old variables
        have hlt := get?_eq_some_lt hv
        rw [← hid] at hlt
        exact absurd hlt (Nat.lt_irrefl _)
      · exact ⟨slot, hmem, hid⟩

theorem Valid.stackSlot (h : ls.Valid) (depth : Nat) (t : ValueType) :
    (ls.stackSlot depth t).2.Valid := by
  unfold Locals.stackSlot
  cases hs : ls.slot? depth t with
  | some l => exact h
  | none =>
    have hadd := h.add ("s" ++ toString depth ++ t.name) t
    have hnew := h.not_isSlot_add ("s" ++ toString depth ++ t.name) t
    refine ⟨?_, ?_⟩
    · intro slot hmem
      rcases mem_cons.1 hmem with rfl | hmem
      · exact ⟨_, get?_add_self ls _ t, rfl⟩
      · exact hadd.typed slot hmem
    · intro slot hmem slot' hmem' hid
      rcases mem_cons.1 hmem with rfl | hmem <;> rcases mem_cons.1 hmem' with rfl | hmem'
      · exact ⟨rfl, rfl⟩
      · exact absurd ⟨slot', hmem', hid.symm⟩ hnew
      · exact absurd ⟨slot, hmem, hid⟩ hnew
      · exact h.distinct slot hmem slot' hmem' hid

end Locals

/-! ### Contexts -/

namespace Context

/-- Slots are in order, and the labels of open loops were issued. -/
structure Fine (ctx : Context) : Prop where
  valid : ctx.locals.Valid
  issued : ∀ l ∈ ctx.labels.openLoops, l.index < ctx.labels.issued

/-- What work may do to a context: it adds variables, slots and labels. -/
structure Grows (ctx ctx' : Context) : Prop where
  signature : ctx'.signature = ctx.signature
  settings : ctx'.settings = ctx.settings
  locals : ctx.locals.Extends ctx'.locals
  valid : ctx.locals.Valid → ctx'.locals.Valid
  issued : ctx.labels.issued ≤ ctx'.labels.issued
  openLoops : ctx'.labels.openLoops = ctx.labels.openLoops

variable {ctx'' : Context} {plain : Prop}

theorem Grows.refl (ctx : Context) : Grows ctx ctx :=
  ⟨rfl, rfl, .refl _, id, Nat.le_refl _, rfl⟩

theorem Grows.trans (h : Grows ctx ctx') (h' : Grows ctx' ctx'') : Grows ctx ctx'' :=
  ⟨h'.signature.trans h.signature, h'.settings.trans h.settings, h.locals.trans h'.locals,
    fun hv => h'.valid (h.valid hv), Nat.le_trans h.issued h'.issued,
    h'.openLoops.trans h.openLoops⟩

theorem Grows.fine (h : Grows ctx ctx') (hf : Fine ctx) : Fine ctx' :=
  ⟨h.valid hf.valid, fun l hl => Nat.lt_of_lt_of_le (hf.issued l (h.openLoops ▸ hl)) h.issued⟩

theorem Grows.loops (h : Grows ctx ctx') (plain : Prop) :
    (ctx'.regime plain).loops = (ctx.regime plain).loops := by
  simp [Context.regime, checker, Checker.frames, h.openLoops]

theorem Grows.lacks (h : Grows ctx ctx') {plain : Prop} :
    (ctx'.regime plain).Lacks label ↔ (ctx.regime plain).Lacks label := by
  rw [Regime.Lacks, h.loops]

theorem Grows.regime (h : Grows ctx ctx') (plain : Prop) :
    Regime.Le (ctx.regime plain) (ctx'.regime plain) where
  checker :=
    { locals := fun _ _ hv => h.locals.get hv
      methodResults := congrArg Signature.results h.signature
      strict := fun hs => (congrArg Settings.strictReferences h.settings).symm.trans hs }
  loops := by
    rw [h.loops plain]
    exact .refl _
  plain := id

theorem grows_logged (ctx : Context) (e : Event) : Grows ctx (ctx.logged e) := by
  unfold logged
  split
  · exact ⟨rfl, rfl, .refl _, id, Nat.le_refl _, rfl⟩
  · exact .refl ctx

theorem Fine.fresh (h : Fine ctx) (hl : ctx.labels.issued ≤ label.index) :
    (ctx.regime plain).Lacks label := by
  rintro frame hmem rfl
  simp only [regime, checker, Checker.frames, mem_map, mem_reverse] at hmem
  obtain ⟨l, hl', rfl⟩ := hmem
  exact absurd (h.issued l hl') (Nat.not_lt.2 hl)

@[simp] theorem regime_inside : (ctx.inside label).regime plain = (ctx.regime plain).inLoop label [] := by
  simp [regime, inside, checker, Checker.frames, Labels.enter, Regime.inLoop]

theorem Fine.inside (h : Fine ctx) (hl : label.index < ctx.labels.issued) : Fine (ctx.inside label) := by
  refine ⟨h.valid, fun l hmem => ?_⟩
  rcases mem_append.1 hmem with hmem | hmem
  · exact h.issued l hmem
  · rw [mem_singleton.1 hmem]
    exact hl

theorem Grows.outside (h : Grows (ctx.inside label) ctx') : Grows ctx (ctx'.outside label) := by
  have hopen : ctx'.labels.openLoops = ctx.labels.openLoops ++ [label] := h.openLoops
  have hleave : ctx'.labels.leave label = { ctx'.labels with openLoops := ctx.labels.openLoops } := by
    simp [Labels.leave, hopen]
  refine ⟨h.signature, h.settings, h.locals, h.valid, ?_, ?_⟩
  · show ctx.labels.issued ≤ (ctx'.labels.leave label).issued
    rw [hleave]
    exact h.issued
  · show (ctx'.labels.leave label).openLoops = _
    rw [hleave]

theorem Grows.reenter (h : Grows (ctx.inside label) ctx') (h' : Grows (ctx'.outside label) ctx'') :
    Grows ctx' (ctx''.inside label) := by
  have hopen : ctx'.labels.openLoops = ctx.labels.openLoops ++ [label] := h.openLoops
  have hleave : ctx'.labels.leave label = { ctx'.labels with openLoops := ctx.labels.openLoops } := by
    simp [Labels.leave, hopen]
  refine ⟨h'.signature, h'.settings, h'.locals, h'.valid, ?_, ?_⟩
  · have hissued : (ctx'.labels.leave label).issued ≤ ctx''.labels.issued := h'.issued
    rw [hleave] at hissued
    exact hissued
  · have hsame : ctx''.labels.openLoops = (ctx'.labels.leave label).openLoops := h'.openLoops
    rw [hleave] at hsame
    show ctx''.labels.openLoops ++ [label] = _
    rw [hsame, hopen]

end Context

/-! ### Steps of the engine -/

namespace Engine

variable {α : Type} {Q : α → Context → Prop}

/-- A label that no loop around code has. -/
structure FreshLabel (ctx : Context) (label : LoopLabel) (ctx' : Context) : Prop where
  grows : ctx.Grows ctx'
  locals : ctx'.locals = ctx.locals
  new : ctx.labels.issued ≤ label.index
  issued : label.index < ctx'.labels.issued

theorem FreshLabel.fresh (h : FreshLabel ctx label ctx') (hf : ctx.Fine) (plain : Prop) :
    (ctx'.regime plain).Lacks label :=
  h.grows.lacks.2 (hf.fresh h.new)

theorem freshLabel_spec (ctx : Context) :
    Succeeds freshLabel ctx fun label ctx' => FreshLabel ctx label ctx' :=
  .of_yields (yields_freshLabel.2 ⟨rfl, rfl⟩)
    ⟨⟨rfl, rfl, .refl _, id, Nat.le_succ _, rfl⟩, rfl, Nat.le_refl _, Nat.lt_succ_self _⟩

theorem freshFlag_spec (ctx : Context) (name : String) :
    Succeeds (freshFlag name) ctx fun id ctx' =>
      ctx.Grows ctx' ∧ (ctx.locals.Valid → Locals.Flag ctx.locals ctx'.locals id) :=
  .of_yields (yields_freshFlag.2 ⟨rfl, rfl⟩)
    ⟨⟨rfl, rfl, Locals.extends_add _ _ _, fun h => h.add _ _, Nat.le_refl _, rfl⟩,
      fun hv => ⟨Locals.get?_of_size_le (Nat.le_refl _), ⟨_, Locals.get?_add_self _ _ _, rfl⟩,
        hv.not_isSlot_add _ _⟩⟩

theorem stackSlot_spec (ctx : Context) (depth : Nat) (t : ValueType) :
    Succeeds (stackSlot depth t) ctx fun id ctx' =>
      ctx.Grows ctx' ∧ ctx'.locals.slot? depth t = some id :=
  .of_yields (yields_stackSlot.2 ⟨rfl, rfl⟩)
    ⟨⟨rfl, rfl, Locals.extends_stackSlot _ _ _, fun h => h.stackSlot _ _, Nat.le_refl _, rfl⟩,
      Locals.slot?_stackSlot _ _ _⟩

theorem emit_spec (ctx : Context) (e : Event) :
    Succeeds (emit e) ctx fun _ ctx' => ctx' = ctx.logged e :=
  .of_yields (a := ()) (yields_emit.2 rfl) rfl

theorem Succeeds.emit (e : Event) : Succeeds (emit e) ctx fun _ ctx' => ctx.Grows ctx' :=
  (emit_spec ctx e).mono fun _ _ h => h ▸ Context.grows_logged ctx e

theorem Succeeds.recordFallback (fingerprint : String) (dump : List String) :
    Succeeds (recordFallback fingerprint dump) ctx fun _ ctx' => ctx.Grows ctx' :=
  .of_yields (a := ()) (yields_recordFallback.2 rfl) ⟨rfl, rfl, .refl _, id, Nat.le_refl _, rfl⟩

theorem comment_spec (ctx : Context) (text : String) :
    Succeeds (comment text) ctx fun note ctx' => ctx' = ctx ∧ Body.hasNoCode note = true := by
  refine .of_yields (yields_comment.2 ⟨rfl, rfl⟩) ⟨rfl, ?_⟩
  unfold commentCode
  split <;> rfl

theorem Succeeds.mapM {β : Type} {f : α → EngineM β} {P : Context → α → β → Prop}
    (mono : ∀ {ctx ctx' a b}, Context.Grows ctx ctx' → P ctx a b → P ctx' a b) {l : List α}
    (step : ∀ a ∈ l, ∀ ctx, Succeeds (f a) ctx fun b ctx' => ctx.Grows ctx' ∧ P ctx' a b)
    (ctx : Context) :
    Succeeds (l.mapM f) ctx fun bs ctx' => ctx.Grows ctx' ∧ List.Forall₂ (P ctx') l bs := by
  induction l generalizing ctx with
  | nil => exact .pure ⟨.refl ctx, .nil⟩
  | cons a l ih =>
    rw [mapM_cons]
    refine (step a (.head _) ctx).bind ?_
    rintro b ctx₁ ⟨hg, hb⟩
    refine (ih (fun a ha => step a (.tail _ ha)) ctx₁).bind ?_
    rintro bs ctx₂ ⟨hg', hbs⟩
    exact .pure ⟨hg.trans hg', .cons (mono hg' hb) hbs⟩

theorem withLoop_agrees {x y : EngineM α}
    (h : Agrees x y (ctx.inside label) fun a ctx' => Q a (ctx'.outside label)) :
    Agrees (withLoop label x) (withLoop label y) ctx Q := by
  obtain ⟨a, ctx', hx, hy, hQ⟩ := h
  exact ⟨a, ctx'.outside label, yields_withLoop.2 ⟨ctx', hx, rfl⟩,
    yields_withLoop.2 ⟨ctx', hy, rfl⟩, hQ⟩

end Engine

end Structurer
