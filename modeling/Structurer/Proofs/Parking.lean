/-
**What a parked stack loses.**

An edge hands on a stack: code at one end parks it, code at the other end brings it back.  The slot of a
value belongs to its depth and its type, so nothing gets lost if both ends name the same types.  Under
strict references every edge does.  Otherwise the check also accepts edges that take a reference for an
integer, or an integer for a reference.  The two ends of such an edge use different slots: what is
brought back at that depth is whatever the other slot held before.
-/

import Structurer.Proofs.Slots

namespace Structurer

open List

variable {id : LocalId} {ls : Locals} {stack : StackType}

namespace Locals

variable {depth d : Nat} {ids : List LocalId}

theorem Valid.slot?_unique (h : ls.Valid) {d' : Nat} {t t' : ValueType}
    (hs : ls.slot? d t = some id) (hs' : ls.slot? d' t' = some id) : d = d' ∧ t = t' := by
  refine ⟨h.slot?_inj hs hs', ?_⟩
  obtain ⟨v, hv, rfl⟩ := h.get?_of_slot? hs
  obtain ⟨v', hv', rfl⟩ := h.get?_of_slot? hs'
  cases hv.symm.trans hv'
  rfl

theorem Parked.mem_iff (hp : ls.Parked depth stack ids) :
    id ∈ ids ↔ ∃ d t, stack[d]? = some t ∧ ls.slot? (depth + d) t = some id := by
  induction stack generalizing depth ids with
  | nil =>
    cases hp
    simp
  | cons u stack ih =>
    rw [Parked, zipIdx_cons] at hp
    cases hp with
    | @cons _ i _ ids hu hrest =>
      rw [mem_cons, ih hrest]
      constructor
      · rintro (rfl | ⟨d, t, ht, hs⟩)
        · exact ⟨0, u, rfl, hu⟩
        · exact ⟨d + 1, t, ht, by rwa [show depth + (d + 1) = depth + 1 + d by omega]⟩
      · rintro ⟨_ | d, t, ht, hs⟩
        · cases ht
          exact .inl (Option.some.inj (hs.symm.trans hu))
        · exact .inr ⟨d, t, ht, by rwa [show depth + 1 + d = depth + (d + 1) by omega]⟩

theorem Parked.getElem?_of_mem (hv : ls.Valid) (hp : ls.Parked 0 stack ids) {t : ValueType}
    (hid : id ∈ ids) (hs : ls.slot? d t = some id) : stack[d]? = some t := by
  obtain ⟨d', t', ht', hs'⟩ := hp.mem_iff.1 hid
  obtain ⟨rfl, rfl⟩ := hv.slot?_unique hs hs'
  rwa [Nat.zero_add]

end Locals

namespace Machine

variable {w : World} {s t : State}

def Restores (ls : Locals) (stack : StackType) (code : Body) : Prop :=
  ∀ w s, HasTypes s.stack stack → Holds ls s → ∃ t, exec w code s = some (.next t) ∧ t.stack = s.stack

def Value.marked : ValueType → Value
  | .i32 => i32 1
  | .i64 => i64 1
  | .f32 => f32 (.infinite false)
  | .f64 => f64 (.infinite false)
  | .ref => i32 1

theorem Value.marked_has (t : ValueType) : (marked t).Has t := by
  cases t <;> rfl

theorem Value.marked_ne_ofType (t t' : ValueType) : marked t ≠ ofType t' := by
  cases t <;> cases t' <;> decide

def State.blank (ls : Locals) (stack : StackType) : State where
  stack := (stack.map .marked).reverse
  locals id := (ls.get? id).map fun v => .ofType v.valueType
  calls := []

theorem hasTypes_blank (ls : Locals) (stack : StackType) :
    HasTypes (State.blank ls stack).stack stack := by
  show List.Forall₂ Value.Has (stack.map Value.marked).reverse.reverse stack
  rw [reverse_reverse]
  exact forall₂_map_left_iff.2 (forall₂_same.2 fun t _ => Value.marked_has t)

theorem holds_blank (ls : Locals) (stack : StackType) : Holds ls (State.blank ls stack) := by
  intro id v hv
  refine ⟨.ofType v.valueType, ?_, Value.ofType_has _⟩
  show (ls.get? id).map _ = _
  rw [hv]
  rfl

theorem exec_localGets_inv {ids : List LocalId} (h : exec w (ids.map .localGet) s = some (.next t)) :
    ∃ us, List.Forall₂ (fun id v => s.locals id = some v) ids us ∧ t.stack = us.reverse ++ s.stack := by
  induction ids generalizing s with
  | nil =>
    cases h
    exact ⟨[], .nil, rfl⟩
  | cons id ids ih =>
    rw [map_cons, exec_cons] at h
    cases hv : s.locals id with
    | none => simp [execInstruction, simple, hv, andThen] at h
    | some v =>
      simp only [execInstruction, simple, hv, andThen_next] at h
      obtain ⟨us, hus, hstack⟩ := ih h
      refine ⟨v :: us, .cons hv hus, ?_⟩
      rw [hstack]
      simp

theorem restores_iff {out inn : StackType} {store load : Body} (hv : ls.Valid)
    (hstore : ls.Stores out store) (hload : ls.Loads inn load) (hlen : inn.length = out.length) :
    Restores ls out (store ++ load) ↔ inn = out := by
  constructor
  · intro h
    obtain ⟨t, ht, hstack⟩ := h .quiet _ (hasTypes_blank ls out) (holds_blank ls out)
    obtain ⟨note, ids, hn, rfl, hids⟩ := hstore
    obtain ⟨note', ids', hn', rfl, hids'⟩ := hload
    have hlength : ids.reverse.length = (State.blank ls out).stack.length := by
      simp [State.blank, hids.length]
    have hempty : (State.blank ls out).stack = (State.blank ls out).stack ++ [] := by simp
    rw [exec_append, exec_append, exec_comments _ hn, andThen_next, exec_localSets hlength hempty,
      andThen_next, exec_append, exec_comments _ hn', andThen_next] at ht
    obtain ⟨us, hus, hloaded⟩ := exec_localGets_inv ht
    have hmarked : us = out.map .marked := by
      rw [hstack] at hloaded
      simpa [State.blank] using hloaded.symm
    refine ext_getElem hlen fun d hd hd' => ?_
    have hslot : ls.slot? d inn[d] = some (ids'.get ⟨d, by rw [hids'.length]; exact hd⟩) := by
      simpa using hids'.get (i := d) (by simpa using hd) (by rw [hids'.length]; exact hd)
    have hfound := hus.get (i := d) (by rw [hids'.length]; exact hd)
      (by rw [hmarked, length_map]; exact hd')
    subst hmarked
    -- a slot that was not written holds what it held before, which was not marked
    have hmem : ids'.get ⟨d, by rw [hids'.length]; exact hd⟩ ∈ ids := by
      by_contra hnot
      rw [State.setAll_of_not_mem _ (by
        rw [map_fst_zip (Nat.le_of_eq hlength), mem_reverse]
        exact hnot)] at hfound
      obtain ⟨v, _, hheld⟩ := Option.map_eq_some_iff.1 hfound
      simp only [get_eq_getElem, getElem_map] at hheld
      exact Value.marked_ne_ofType _ _ hheld.symm
    have htype := hids.getElem?_of_mem hv hmem hslot
    exact ((List.getElem?_eq_some_iff.1 htype).2).symm
  · rintro rfl w s ht _
    obtain ⟨s', hs', hafter⟩ := exec_stores (w := w) hv hstore ht.length
    refine ⟨s'.withStack (s.stack ++ s'.stack), ?_, ?_⟩
    · rw [exec_append, hs', andThen_next]
      exact exec_loads hload hafter.parks
    · rw [hafter.stack]
      simp

end Machine

open Engine Machine

/-- **Parking loses nothing exactly on edges whose ends name the same types.**  On an edge that passes
the check, the stack is parked as the types of its source say and brought back, perhaps after other work
of the engine, as those of its target say.  Every list of values survives this if and only if the two
ends name the same types.  Under strict references they do on every edge that passes. -/
theorem parking_restores_iff {ctx : Context} {out inn : StackType} (slots : ctx.locals.Valid)
    (accepted : StackType.fits ctx.settings.strictReferences out inn = true) :
    (∃ store ctx₁, Yields (storeStack out) ctx store ctx₁ ∧ ∀ ctx₂, ctx₁.Grows ctx₂ →
      ∃ load ctx₃, Yields (loadStack inn) ctx₂ load ctx₃ ∧
        (Restores ctx₃.locals out (store ++ load) ↔ inn = out)) ∧
    (ctx.settings.strictReferences = true → inn = out) := by
  have hfits : StackType.Fits ctx.settings.strictReferences out inn := StackType.fits_iff.1 accepted
  constructor
  · obtain ⟨store, ctx₁, hy, hg₁, hstore⟩ := storeStack_spec ctx out
    refine ⟨store, ctx₁, hy, fun ctx₂ hg₂ => ?_⟩
    obtain ⟨load, ctx₃, hy', hg₃, hload⟩ := loadStack_spec ctx₂ inn
    refine ⟨load, ctx₃, hy', ?_⟩
    exact restores_iff (((hg₁.trans hg₂).trans hg₃).valid slots)
      (hstore.mono (hg₂.trans hg₃).locals) hload hfits.length_eq.symm
  · intro hstrict
    rw [hstrict] at hfits
    exact hfits.eq_of_strict.symm

def lenientContext : Context := .initial ⟨"K", "run", "()V", []⟩ .empty .standard none

theorem parking_restores_iff_mixedStack :
    ∃ store load ctx₁ ctx₂, Yields (storeStack [.ref, .i64, .i32]) lenientContext store ctx₁ ∧
      Yields (loadStack [.ref, .i64, .i32]) ctx₁ load ctx₂ ∧
      Restores ctx₂.locals [.ref, .i64, .i32] (store ++ load) := by
  have hslots : lenientContext.locals.Valid :=
    ⟨by simp [lenientContext, Context.initial, Locals.empty],
      by simp [lenientContext, Context.initial, Locals.empty]⟩
  have haccepted : StackType.fits lenientContext.settings.strictReferences [.ref, .i64, .i32]
      [.ref, .i64, .i32] = true := by
    decide
  obtain ⟨⟨store, ctx₁, hy, hlater⟩, _⟩ := parking_restores_iff hslots haccepted
  obtain ⟨load, ctx₂, hy', hrestores⟩ := hlater ctx₁ (.refl ctx₁)
  exact ⟨store, load, ctx₁, ctx₂, hy, hy', hrestores.2 rfl⟩

/-- **A reference that is handed on as an integer gets lost.**  The check accepts the edge, the reference
is parked in the slot for references, and what comes back is the slot for integers. -/
theorem parking_loses_reference :
    StackType.fits lenientContext.settings.strictReferences [.ref] [.i32] = true ∧
      ∃ store load ctx₁ ctx₂ s t, Yields (storeStack [.ref]) lenientContext store ctx₁ ∧
        Yields (loadStack [.i32]) ctx₁ load ctx₂ ∧ HasTypes s.stack [.ref] ∧ Holds ctx₂.locals s ∧
        exec .quiet (store ++ load) s = some (.next t) ∧ s.stack = [.i32 1] ∧ t.stack = [.i32 0] := by
  let s : State := ⟨[.i32 1], fun _ => some (.i32 0), []⟩
  let ctx₁ := { lenientContext with locals := ⟨#[⟨"s0ref", .ref⟩], [⟨0, .ref, ⟨0⟩⟩]⟩ }
  let ctx₂ := { lenientContext with
    locals := ⟨#[⟨"s0ref", .ref⟩, ⟨"s0i32", .i32⟩], [⟨0, .i32, ⟨1⟩⟩, ⟨0, .ref, ⟨0⟩⟩]⟩ }
  refine ⟨by decide, [.localSet ⟨0⟩], [.localGet ⟨1⟩], ctx₁, ctx₂, s,
    ((s.withStack []).set ⟨0⟩ (.i32 1)).push (.i32 0), by with_unfolding_all rfl,
    by with_unfolding_all rfl, .singleton rfl, ?_, ?_, rfl, rfl⟩
  · rintro ⟨_ | _ | k⟩ var hid
    · cases hid
      exact ⟨.i32 0, rfl, rfl⟩
    · cases hid
      exact ⟨.i32 0, rfl, rfl⟩
    · simp [ctx₂, Locals.get?] at hid
  · have hslot : ((s.withStack []).set ⟨0⟩ (.i32 1)).locals ⟨1⟩ = some (.i32 0) :=
      State.set_locals_of_ne _ _ (by decide)
    simp only [List.singleton_append, exec_cons, execInstruction, simple, s, assign_any, andThen_next]
    rw [hslot]
    rfl

end Structurer
