/-
**The context after any outcome.**

Whether work succeeds or fails, it leaves a context that later work can go on with: the loops that were
open are open again, variables were only added, under names of their own, and no label that was given
out will be given out again.
-/

import Mathlib.Data.List.Nodup
import Mathlib.Data.List.Perm.Subperm
import Structurer.Proofs.Work

namespace Structurer

open List

/-! ### Names -/

namespace Locals

variable {ls : Locals} {name : String}

def names (ls : Locals) : List String := ls.entries.toList.map (·.name)

@[simp] theorem length_names (ls : Locals) : ls.names.length = ls.size := by
  simp [names, size]

@[simp] theorem names_add (t : ValueType) :
    (ls.add name t).2.names = ls.names ++ [ls.freeName name] := by
  simp [names, add]

theorem lookup_eq_none_iff : ls.lookup name = none ↔ name ∉ ls.names := by
  simp only [lookup, Option.map_eq_none_iff, Array.findIdx?_eq_none_iff, names, mem_map,
    Array.mem_toList_iff, not_exists, not_and]
  exact forall₂_congr fun v _ => by simp

theorem toString_injective {j k : Nat} (h : toString j = toString k) : j = k := by
  rw [Nat.toString_eq_ofList_toDigits, Nat.toString_eq_ofList_toDigits, String.ofList_inj] at h
  have h' := congrArg (Nat.ofDigitChars 10 · 0) h
  simpa only [Nat.ofDigitChars_toDigits (by decide : 1 < 10) (by decide : 10 ≤ 10)] using h'

theorem variant_injective (name : String) : Function.Injective (variant name) := by
  have length_succ : ∀ k, name.length < (variant name (k + 1)).length := by
    intro k
    rw [variant, String.length_append, String.length_append]
    have : "_".length = 1 := rfl
    omega
  intro j k h
  cases j with
  | zero =>
    cases k with
    | zero => rfl
    | succ k => exact absurd (congrArg String.length h) (Nat.ne_of_lt (length_succ k))
  | succ j =>
    cases k with
    | zero => exact absurd (congrArg String.length h) (Nat.ne_of_gt (length_succ j))
    | succ k => exact toString_injective ((String.append_right_inj _).1 h)

theorem freeName_spec (ls : Locals) (name : String) :
    ∃ k ≤ ls.size, ls.freeName name = variant name k ∧ variant name k ∉ ls.names ∧
      ∀ j < k, variant name j ∈ ls.names := by
  unfold freeName
  cases hk : (List.range (ls.size + 1)).find? fun k => (ls.lookup (variant name k)).isNone with
  | some k =>
    rw [find?_range_eq_some] at hk
    obtain ⟨hfree, hmem, htaken⟩ := hk
    refine ⟨k, Nat.lt_succ_iff.1 (mem_range.1 hmem), rfl,
      lookup_eq_none_iff.1 (Option.isNone_iff_eq_none.1 hfree), fun j hj => ?_⟩
    have h := htaken j hj
    rw [Bool.not_eq_true', ← Bool.not_eq_true, Option.isNone_iff_eq_none, lookup_eq_none_iff] at h
    exact not_not.1 h
  | none =>
    exfalso
    have htaken : (List.range (ls.size + 1)).map (variant name) ⊆ ls.names := by
      intro v hv
      obtain ⟨k, hmem, rfl⟩ := mem_map.1 hv
      have h := find?_eq_none.1 hk k hmem
      rw [Option.isNone_iff_eq_none, lookup_eq_none_iff] at h
      exact not_not.1 h
    have hnd : ((List.range (ls.size + 1)).map (variant name)).Nodup :=
      nodup_range.map (variant_injective name)
    have hlen := (subperm_of_subset hnd htaken).length_le
    rw [length_map, length_range, length_names] at hlen
    omega

theorem freeName_not_mem (ls : Locals) (name : String) : ls.freeName name ∉ ls.names := by
  obtain ⟨k, -, hk, hfree, -⟩ := ls.freeName_spec name
  rwa [hk]

theorem freeName_eq_self (h : name ∉ ls.names) : ls.freeName name = name := by
  obtain ⟨k, -, hk, -, htaken⟩ := ls.freeName_spec name
  cases k with
  | zero => exact hk
  | succ k => exact absurd (htaken 0 (Nat.succ_pos k)) h

theorem name_of_lookup {l : LocalId} (h : ls.lookup name = some l) :
    l.index < ls.size ∧ ls.name l = name := by
  obtain ⟨k, hk, rfl⟩ := Option.map_eq_some_iff.1 h
  obtain ⟨hlt, hname, -⟩ := Array.findIdx?_eq_some_iff_getElem.1 hk
  refine ⟨hlt, ?_⟩
  rw [Locals.name, get?, Array.getElem?_eq_getElem hlt]
  exact beq_iff_eq.1 hname

theorem lookup_name (h : ls.names.Nodup) {l : LocalId} (hl : l.index < ls.size) :
    ls.lookup (ls.name l) = some l := by
  change l.index < ls.entries.size at hl
  have hname : ls.name l = ls.entries[l.index].name := by
    rw [Locals.name, get?, Array.getElem?_eq_getElem hl]
  rw [hname, lookup, Option.map_eq_some_iff]
  -- an earlier variable of the same name would be the same name twice
  refine ⟨l.index, Array.findIdx?_eq_some_iff_getElem.2 ⟨hl, by simp, fun j hj => ?_⟩, rfl⟩
  have hlen : ls.names.length = ls.entries.size := length_names ls
  have hne := pairwise_iff_getElem.1 h j l.index (hlen ▸ Nat.lt_trans hj hl) (hlen ▸ hl) hj
  simpa [names] using hne

theorem lookup_add (t : ValueType) (name' : String) : (ls.add name t).2.lookup name' =
    if name' = ls.freeName name then some ⟨ls.size⟩ else ls.lookup name' := by
  have hnone := lookup_eq_none_iff.2 (ls.freeName_not_mem name)
  rw [lookup, Option.map_eq_none_iff] at hnone
  simp only [lookup, add, Array.findIdx?_push]
  by_cases h : name' = ls.freeName name
  · subst h
    simp [hnone, size]
  · have hne : (ls.freeName name == name') = false := beq_false_of_ne (Ne.symm h)
    simp [h, hne]

/-- All variables are still there, and names that were distinct still are. -/
structure Continues (ls ls' : Locals) : Prop where
  earlier : ls.entries.toList <+: ls'.entries.toList
  distinct : ls.names.Nodup → ls'.names.Nodup

theorem Continues.refl (ls : Locals) : Continues ls ls := ⟨prefix_rfl, id⟩

theorem Continues.trans {ls ls' ls'' : Locals} (h : Continues ls ls') (h' : Continues ls' ls'') :
    Continues ls ls'' :=
  ⟨h.earlier.trans h'.earlier, h'.distinct ∘ h.distinct⟩

theorem continues_add (ls : Locals) (name : String) (t : ValueType) :
    Continues ls (ls.add name t).2 := by
  refine ⟨by simp [add], fun h => ?_⟩
  rw [names_add, nodup_append]
  refine ⟨h, by simp, ?_⟩
  intro a ha b hb
  rw [mem_singleton] at hb
  rintro rfl
  exact ls.freeName_not_mem name (hb ▸ ha)

theorem continues_stackSlot (ls : Locals) (depth : Nat) (t : ValueType) :
    Continues ls (ls.stackSlot depth t).2 := by
  unfold stackSlot
  split
  · exact .refl ls
  · exact ⟨(continues_add ls _ t).earlier, (continues_add ls _ t).distinct⟩

end Locals

/-! ### Labels -/

namespace Labels

/-- A row of operations on a registry of labels, with the labels that it gives out. -/
inductive Issues : Labels → List LoopLabel → Labels → Prop where
  | refl (ls : Labels) : Issues ls [] ls
  | fresh {ls ls' : Labels} {given : List LoopLabel} (h : Issues ls given ls') :
      Issues ls (given ++ [ls'.fresh.1]) ls'.fresh.2
  | enter {ls ls' : Labels} {given : List LoopLabel} (h : Issues ls given ls') (l : LoopLabel) :
      Issues ls given (ls'.enter l)
  | leave {ls ls' : Labels} {given : List LoopLabel} (h : Issues ls given ls') (l : LoopLabel) :
      Issues ls given (ls'.leave l)

theorem issued_leave (ls : Labels) (l : LoopLabel) : (ls.leave l).issued = ls.issued := by
  unfold leave
  split <;> rfl

theorem given_leave (ls : Labels) (l : LoopLabel) : (ls.leave l).given = ls.given := by
  unfold leave
  split <;> rfl

namespace Issues

variable {ls ls' ls'' ls₀ : Labels} {before during later : List LoopLabel} {l : LoopLabel}

theorem trans (h : Issues ls before ls') (h' : Issues ls' later ls'') :
    Issues ls (before ++ later) ls'' := by
  induction h' with
  | refl => rwa [append_nil]
  | fresh _ ih =>
    rw [← append_assoc]
    exact ih.fresh
  | enter _ l ih => exact ih.enter l
  | leave _ l ih => exact ih.leave l

theorem bounds (h : Issues ls during ls') :
    ls.issued ≤ ls'.issued ∧ ∀ l ∈ during, ls.issued ≤ l.index ∧ l.index < ls'.issued := by
  induction h with
  | refl => exact ⟨Nat.le_refl _, nofun⟩
  | @fresh ls' given _ ih =>
    refine ⟨Nat.le_succ_of_le ih.1, fun l hl => ?_⟩
    rcases mem_append.1 hl with hl | hl
    · exact ⟨(ih.2 l hl).1, Nat.lt_succ_of_lt (ih.2 l hl).2⟩
    · cases mem_singleton.1 hl
      exact ⟨ih.1, Nat.lt_succ_self _⟩
  | enter _ _ ih => exact ih
  | leave _ l ih =>
    rw [issued_leave]
    exact ih

theorem record (h : Issues ls during ls') : ls'.given = ls.given ++ during := by
  induction h with
  | refl => rw [append_nil]
  | @fresh ls' _ _ ih =>
    rw [← append_assoc, ← ih]
    rfl
  | enter _ _ ih => exact ih
  | leave _ l ih => rwa [given_leave]

theorem mem_of_lt (h : Issues ls during ls') (hold : ls.issued ≤ l.index) (hnew : l.index < ls'.issued) :
    l ∈ during := by
  induction h with
  | refl => omega
  | @fresh ls' _ _ ih =>
    rw [mem_append, mem_singleton]
    by_cases hl : l.index = ls'.issued
    · exact .inr (congrArg LoopLabel.mk hl)
    · exact .inl (ih (Nat.lt_of_le_of_ne (Nat.lt_succ_iff.1 hnew) hl))
  | enter _ _ ih => exact ih hnew
  | leave _ l' ih => exact ih (issued_leave _ l' ▸ hnew)

/-- **No label is given out twice**, whatever happens in between. -/
theorem disjoint (h : Issues ls₀ before ls) (h' : Issues ls during ls') (h'' : Issues ls' later ls'')
    (hl : l ∈ later) : l ∉ before ∧ l ∉ during := by
  have hnew := (h''.bounds.2 l hl).1
  have hgrow := h'.bounds.1
  refine ⟨fun hold => ?_, fun hold => ?_⟩
  · have := (h.bounds.2 l hold).2
    omega
  · have := (h'.bounds.2 l hold).2
    omega

end Issues

end Labels

/-! ### All work -/

/-- What every outcome leaves as it should be. -/
structure Context.Upkeep (ctx ctx' : Context) : Prop where
  openLoops : ctx'.labels.openLoops = ctx.labels.openLoops
  locals : ctx.locals.Continues ctx'.locals
  labels : ∃ given, Labels.Issues ctx.labels given ctx'.labels
  settings : ctx'.settings = ctx.settings
  log : ctx.log <+: ctx'.log

namespace Context.Upkeep

variable {ctx ctx' ctx'' : Context}

theorem refl (ctx : Context) : ctx.Upkeep ctx :=
  ⟨rfl, .refl _, ⟨[], .refl _⟩, rfl, prefix_rfl⟩

theorem trans (h : ctx.Upkeep ctx') (h' : ctx'.Upkeep ctx'') : ctx.Upkeep ctx'' := by
  obtain ⟨given, hg⟩ := h.labels
  obtain ⟨given', hg'⟩ := h'.labels
  exact ⟨h'.openLoops.trans h.openLoops, h.locals.trans h'.locals, ⟨given ++ given', hg.trans hg'⟩,
    h'.settings.trans h.settings, h.log.trans h'.log⟩

theorem logged (ctx : Context) (e : Event) : ctx.Upkeep (ctx.logged e) := by
  unfold Context.logged
  split
  · exact { refl ctx with log := prefix_append _ _ }
  · exact refl ctx

theorem around {label : LoopLabel} (h : (ctx.inside label).Upkeep ctx') :
    ctx.Upkeep (ctx'.outside label) := by
  obtain ⟨given, hg⟩ := h.labels
  refine ⟨?_, h.locals, ⟨given, ?_⟩, h.settings, h.log⟩
  · -- everything opened inside is closed again, so the label is the last open loop
    have hlast : beforeLast? label ctx'.labels.openLoops = some ctx.labels.openLoops := by
      rw [h.openLoops]
      exact beforeLast?_concat _ _
    show (ctx'.labels.leave label).openLoops = _
    rw [Labels.leave, hlast]
  · exact (((Labels.Issues.refl ctx.labels).enter label).trans hg).leave label

end Context.Upkeep

namespace Engine

variable {α β : Type}

theorem outcome_observing (x : EngineM α) (ctx : Context) :
    outcome (observing x) ctx = (.ok (outcome x ctx).1, (outcome x ctx).2) :=
  yields_observing.2 rfl

theorem outcome_withLoop (label : LoopLabel) (work : EngineM α) (ctx : Context) :
    outcome (withLoop label work) ctx =
      ((outcome work (ctx.inside label)).1, (outcome work (ctx.inside label)).2.outside label) := by
  have henter : outcome (enterLoop label) ctx = (.ok (), ctx.inside label) := rfl
  have hleave : ∀ c, outcome (leaveLoop label) c = (.ok (), c.outside label) := fun _ => rfl
  rw [withLoop, outcome_bind, henter]
  dsimp only
  rw [outcome_bind, outcome_observing]
  dsimp only
  rw [outcome_bind, hleave]
  cases (outcome work (ctx.inside label)).1 <;> rfl

/-- **All work leaves the context in order, even if it fails.** -/
theorem Work.upkeep {x : EngineM α} (h : Work x) (ctx : Context) : ctx.Upkeep (outcome x ctx).2 := by
  induction h generalizing ctx with
  | pure a => exact .refl ctx
  | throw e => exact .refl ctx
  | lift x => cases x <;> exact .refl ctx
  | @bind _ _ x f _ _ ihx ihf =>
    have h := ihx ctx
    rw [outcome_bind]
    generalize outcome x ctx = o at h ⊢
    obtain ⟨r, ctx₁⟩ := o
    cases r with
    | error e => exact h
    | ok a => exact h.trans (ihf a ctx₁)
  | @observing _ x _ ih =>
    rw [outcome_observing]
    exact ih ctx
  | get => exact .refl ctx
  | emit e => exact .logged ctx e
  | recordFallback fingerprint dump => exact { Context.Upkeep.refl ctx with }
  | freshLabel => exact { Context.Upkeep.refl ctx with labels := ⟨_, (Labels.Issues.refl _).fresh⟩ }
  | freshFlag name => exact { Context.Upkeep.refl ctx with locals := Locals.continues_add _ _ _ }
  | stackSlot depth t => exact { Context.Upkeep.refl ctx with locals := Locals.continues_stackSlot _ _ _ }
  | withLoop label _ ih =>
    rw [outcome_withLoop]
    exact (ih (ctx.inside label)).around

end Engine

end Structurer
