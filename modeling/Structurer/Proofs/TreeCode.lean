/-
**The code of a tree.**

A tree of guarded code holds the code of every node of its graph at most once: no node is placed twice,
and a piece of code is nested in one other piece only.
-/

import Mathlib.Algebra.Order.BigOperators.Group.List
import Structurer.Proofs.Rearranging

namespace Structurer

open Fallible List Body

variable {α β : Type} {Q : α → Prop} {l : List α}

/-! ### Code put together -/

namespace Engine

def Gives (x : EngineM α) (Q : α → Prop) : Prop := ∀ ctx a ctx', Yields x ctx a ctx' → Q a

theorem Gives.pure {a : α} (h : Q a) : Gives (pure a) Q := by
  intro ctx b ctx' hb
  obtain ⟨rfl, _⟩ := yields_pure.1 hb
  exact h

theorem Gives.trivial (x : EngineM α) : Gives x fun _ => True := fun _ _ _ _ => True.intro

theorem Gives.mono {x : EngineM α} {Q' : α → Prop} (h : Gives x Q) (hQ : ∀ a, Q a → Q' a) :
    Gives x Q' :=
  fun ctx a ctx' ha => hQ a (h ctx a ctx' ha)

theorem Gives.bind {x : EngineM α} {f : α → EngineM β} {P : β → Prop} (hx : Gives x Q)
    (hf : ∀ a, Q a → Gives (f a) P) : Gives (x >>= f) P := by
  intro ctx b ctx' hb
  obtain ⟨a, ctx₁, ha, hb⟩ := yields_bind.1 hb
  exact hf a (hx ctx a ctx₁ ha) ctx₁ b ctx' hb

theorem Gives.lift {x : Except Fault α} (h : Ensures x Q) : Gives (liftM x) Q :=
  fun _ a _ ha => h a (yields_lift.1 ha).1

theorem Gives.mapM {f : α → EngineM β} {P : α → β → Prop} (hf : ∀ a, Gives (f a) (P a)) (l : List α) :
    Gives (l.mapM f) (List.Forall₂ P l) := by
  induction l with
  | nil =>
    rw [mapM_nil]
    exact .pure .nil
  | cons a l ih =>
    rw [mapM_cons]
    exact (hf a).bind fun b hb => ih.bind fun bs hbs => .pure (.cons hb hbs)

theorem Gives.foldlM {f : β → α → EngineM β} {I : β → Prop}
    (step : ∀ b, ∀ a ∈ l, I b → Gives (f b a) I) {b : β} (h : I b) : Gives (l.foldlM f b) I := by
  induction l generalizing b with
  | nil =>
    rw [foldlM_nil]
    exact .pure h
  | cons a l ih =>
    rw [foldlM_cons]
    exact (step b a (.head _) h).bind fun b' hb' =>
      ih (fun b a ha => step b a (.tail _ ha)) hb'

abbrev Bare (b : Body) : Prop := marks b = []

theorem gives_comment (text : String) : Gives (comment text) Bare := by
  intro ctx code ctx' h
  obtain ⟨rfl, _⟩ := yields_comment.1 h
  unfold Bare commentCode
  split <;> simp [marks_cons]

theorem gives_stackComment (verb : String) (stack : StackType) :
    Gives (stackComment verb stack) Bare := by
  unfold stackComment
  split
  · exact .pure marks_nil
  · exact gives_comment _

theorem gives_slots {make : LocalId → Instruction} (hmake : ∀ id, Quiet (make id))
    (l : List (ValueType × Nat)) :
    Gives (l.mapM fun e => return make (← stackSlot e.2 e.1)) Bare := by
  refine (Gives.mapM (P := fun _ i => Quiet i) (fun e => ?_) l).mono fun code hcode => ?_
  · exact (Gives.trivial _).bind fun id _ => .pure (hmake id)
  · refine marks_of_quiet fun i hi => ?_
    induction hcode with
    | nil => cases hi
    | cons hhead _ ih =>
      rcases mem_cons.1 hi with rfl | hi
      · exact hhead
      · exact ih hi

theorem gives_storeStack (stack : StackType) : Gives (storeStack stack) Bare := by
  refine (gives_stackComment _ _).bind fun note hnote => ?_
  refine (gives_slots Instruction.marks_localSet _).bind fun code hcode => .pure ?_
  rw [Bare, marks_append, hnote, hcode]
  rfl

theorem gives_loadStack (stack : StackType) : Gives (loadStack stack) Bare := by
  refine (gives_stackComment _ _).bind fun note hnote => ?_
  refine (gives_slots Instruction.marks_localGet _).bind fun code hcode => .pure ?_
  rw [Bare, marks_append, hnote, hcode]
  rfl

end Engine

/-- Code put together from the bodies of a list, each used at most once. -/
structure Code.Gathered (l : List (NodeId × Body)) (b : Body) : Prop where
  scopes : ∀ n around, Code.Scoped n around l → Body.Scoped n around b
  tally : ∀ k, Body.tally k b ≤ Code.total k l

theorem exists_of_forall₂ {R : α → β → Prop} {l' : List β} (h : List.Forall₂ R l l')
    {a : α} (ha : a ∈ l) : ∃ b ∈ l', R a b := by
  induction h with
  | nil => cases ha
  | cons hr _ ih =>
    rcases mem_cons.1 ha with rfl | ha
    · exact ⟨_, .head _, hr⟩
    · obtain ⟨b, hb, hab⟩ := ih ha
      exact ⟨b, .tail _ hb, hab⟩

theorem sum_map_le_of_subset {l' : List α} (w : α → Nat) (hnd : l.Nodup) (h : l ⊆ l') :
    (l.map w).sum ≤ (l'.map w).sum := by
  obtain ⟨l'', hperm, hsub⟩ := subperm_of_subset hnd h
  rw [← (hperm.map w).sum_eq]
  exact (hsub.map w).sum_le_sum fun _ _ => Nat.zero_le _

theorem sum_map_flatMap (f : α → List β) (w : β → Nat) :
    ((l.flatMap f).map w).sum = (l.map fun a => ((f a).map w).sum).sum := by
  induction l with
  | nil => rfl
  | cons a l ih => simp [ih]

theorem Body.marks_flatMap (f : α → Body) :
    marks (l.flatMap f) = l.flatMap fun a => marks (f a) := by
  induction l with
  | nil => simp
  | cons a l ih => rw [flatMap_cons, marks_append, ih, flatMap_cons]

/-! ### Pieces of a tree -/

namespace LinearTree

open Engine

variable {placed last : List Placed} {k : Landmark}

theorem marks_assemble (h : ∀ p ∈ placed, Bare p.test) (fuel : Nat) (anchor : Option Nat) :
    marks (assemble placed (fuel + 1) anchor) =
      (placed.filter (·.anchor = anchor)).flatMap fun p =>
        marks p.code ++ marks (assemble placed fuel (some p.position)) := by
  rw [assemble, marks_flatMap, flatMap_def, flatMap_def]
  refine congrArg List.flatten (map_congr_left fun p hp => ?_)
  have htest := h p (mem_filter.1 hp).1
  dsimp only
  split
  · rw [marks_append]
  · rw [marks_append, htest]
    simp [marks_cons]

theorem scoped_assemble {n : Nat} {around : List LoopLabel}
    (h : ∀ p ∈ placed, Bare p.test ∧ Body.Scoped n around p.code) (fuel : Nat) (anchor : Option Nat) :
    Body.Scoped n around (assemble placed fuel anchor) := by
  induction fuel generalizing anchor with
  | zero => exact scoped_of_marks marks_nil
  | succ fuel ih =>
    intro m hm
    rw [marks_assemble (fun p hp => (h p hp).1), mem_flatMap] at hm
    obtain ⟨p, hp, hm⟩ := hm
    rcases mem_append.1 hm with hm | hm
    · exact (h p (mem_filter.1 hp).1).2 m hm
    · exact ih (some p.position) m hm

theorem tally_assemble (h : ∀ p ∈ placed, Bare p.test) (fuel : Nat) (anchor : Option Nat) :
    Body.tally k (assemble placed (fuel + 1) anchor) =
      ((placed.filter (·.anchor = anchor)).map fun p =>
        Body.tally k p.code + Body.tally k (assemble placed fuel (some p.position))).sum := by
  rw [Body.tally, marks_assemble h, countP_flatMap]
  refine congrArg List.sum (map_congr_left fun p _ => ?_)
  exact countP_append

def nestedIn (placed last : List Placed) : List Placed :=
  last.flatMap fun q => placed.filter (·.anchor = some q.position)

theorem mem_nestedIn {p : Placed} :
    p ∈ nestedIn placed last ↔ p ∈ placed ∧ ∃ q ∈ last, p.anchor = some q.position := by
  simp only [nestedIn, mem_flatMap, mem_filter, decide_eq_true_eq]
  constructor
  · rintro ⟨q, hq, hp, hanchor⟩
    exact ⟨hp, q, hq, hanchor⟩
  · rintro ⟨hp, q, hq, hanchor⟩
    exact ⟨q, hq, hp, hanchor⟩

theorem nodup_nestedIn (hpos : (placed.map (·.position)).Nodup) (hlast : last.Nodup)
    (hsub : last ⊆ placed) : (nestedIn placed last).Nodup := by
  refine nodup_flatMap.2 ⟨fun q _ => hpos.of_map.filter _, ?_⟩
  refine hlast.imp_of_mem fun {q q'} hq hq' hne p hp hp' => hne ?_
  have hanchor := (mem_filter.1 hp).2
  have hanchor' := (mem_filter.1 hp').2
  rw [decide_eq_true_eq] at hanchor hanchor'
  exact inj_on_of_nodup_map hpos (hsub hq) (hsub hq') (Option.some.inj (hanchor.symm.trans hanchor'))

theorem tally_levels (hpos : (placed.map (·.position)).Nodup) (htest : ∀ p ∈ placed, Bare p.test)
    (used last : List Placed) (hnd : (used ++ last).Nodup) (hsub : used ++ last ⊆ placed)
    (hanchor : ∀ p ∈ used ++ last, p.anchor = none ∨ ∃ q ∈ used, p.anchor = some q.position)
    (fuel : Nat) :
    (last.map fun q => Body.tally k (assemble placed fuel (some q.position))).sum +
        ((used ++ last).map fun p => Body.tally k p.code).sum ≤
      (placed.map fun p => Body.tally k p.code).sum := by
  induction fuel generalizing used last with
  | zero =>
    have hzero : (last.map fun q => Body.tally k (assemble placed 0 (some q.position))).sum = 0 := by
      refine sum_eq_zero fun x hx => ?_
      obtain ⟨q, _, rfl⟩ := mem_map.1 hx
      exact tally_nil
    rw [hzero, Nat.zero_add]
    exact sum_map_le_of_subset _ hnd hsub
  | succ fuel ih =>
    have hlast : last ⊆ placed := fun p hp => hsub (mem_append_right _ hp)
    have hnew : ∀ p ∈ nestedIn placed last, p ∉ used ++ last := by
      intro p hp hold
      obtain ⟨_, q, hq, hpq⟩ := mem_nestedIn.1 hp
      rcases hanchor p hold with hnone | ⟨q', hq', hpq'⟩
      · rw [hnone] at hpq
        cases hpq
      · have hsame : q' = q := inj_on_of_nodup_map hpos
          (hsub (mem_append_left _ hq')) (hlast hq) (Option.some.inj (hpq'.symm.trans hpq))
        exact (nodup_append.1 hnd).2.2 q' hq' q hq hsame
    have hlevel := ih (used ++ last) (nestedIn placed last) ?_ ?_ ?_
    · have hsplit : (last.map fun q =>
          Body.tally k (assemble placed (fuel + 1) (some q.position))).sum =
          ((nestedIn placed last).map fun p => Body.tally k p.code).sum +
            ((nestedIn placed last).map fun p =>
              Body.tally k (assemble placed fuel (some p.position))).sum := by
        simp only [tally_assemble htest, ← sum_map_add, nestedIn, sum_map_flatMap]
      rw [map_append, sum_append] at hlevel
      omega
    · rw [nodup_append]
      refine ⟨hnd, nodup_nestedIn hpos (nodup_append.1 hnd).2.1 hlast, fun p hp q hq heq => ?_⟩
      exact hnew q hq (heq ▸ hp)
    · intro p hp
      rcases mem_append.1 hp with hp | hp
      · exact hsub hp
      · exact (mem_nestedIn.1 hp).1
    · intro p hp
      rcases mem_append.1 hp with hp | hp
      · rcases hanchor p hp with hnone | ⟨q, hq, hpq⟩
        · exact .inl hnone
        · exact .inr ⟨q, mem_append_left _ hq, hpq⟩
      · obtain ⟨_, q, hq, hpq⟩ := mem_nestedIn.1 hp
        exact .inr ⟨q, mem_append_right _ hq, hpq⟩

/-- **No piece of a tree is put into it twice.** -/
theorem tally_assemble_le (hpos : (placed.map (·.position)).Nodup) (htest : ∀ p ∈ placed, Bare p.test)
    (fuel : Nat) : Body.tally k (assemble placed (fuel + 1) none) ≤
      (placed.map fun p => Body.tally k p.code).sum := by
  have hlevel := tally_levels (k := k) hpos htest [] (placed.filter (·.anchor = none))
    (hpos.of_map.filter _) (fun p hp => (mem_filter.1 hp).1)
    (fun p hp => .inl (by simpa using (mem_filter.1 hp).2)) fuel
  rw [tally_assemble htest, sum_map_add]
  rw [nil_append] at hlevel
  omega

/-! ### Placing nodes -/

theorem gives_code (p : Plan) (id : NodeId) (n : Node) (first : Bool) :
    Gives (p.code id n first) fun code => marks code = marks n.body := by
  refine (Gives.trivial _).bind fun flags _ => ?_
  refine (gives_comment _).bind fun note hnote => ?_
  have hnothing : Gives (pure []) Bare := .pure marks_nil
  have hmarks : ∀ load store, Bare load → Bare store →
      marks (note ++ load ++ n.body ++ flags.record ++ store) = marks n.body := by
    intro load store hload hstore
    simp only [marks_append, marks_record]
    rw [hnote, hload, hstore]
    simp
  have hstore : ∀ load, Bare load → Gives (do
      let store ← if n.exit.isRet then pure [] else storeStack n.outputStack
      return note ++ load ++ n.body ++ flags.record ++ store)
      fun code => marks code = marks n.body := by
    intro load hload
    dsimp only
    split
    · exact hnothing.bind fun store hstore => .pure (hmarks load store hload hstore)
    · exact (gives_storeStack _).bind fun store hstore => .pure (hmarks load store hload hstore)
  dsimp only
  split
  · exact hnothing.bind hstore
  · exact (gives_loadStack _).bind hstore

def Placed.Holds (p : Placed) (e : NodeId × Body) : Prop :=
  Bare p.test ∧ marks p.code = marks e.2

theorem gives_place (p : Plan) (t : Tree) (id : NodeId) (position : Nat) :
    Gives (p.place t id position) fun t' => t'.placed = t.placed ∨
      ∃ n piece, p.graph.get? id = some n ∧ t'.placed = t.placed ++ [piece] ∧
        piece.position = position ∧ piece.Holds (id, n.body) := by
  refine (Gives.lift (Graph.ensures_node p.graph id)).bind fun n hn => ?_
  refine (Gives.trivial _).bind fun triggers _ => (Gives.trivial _).bind fun origins _ => ?_
  dsimp only
  split
  · exact (Gives.trivial _).bind fun _ _ => .pure (.inl rfl)
  · refine (gives_code p id n _).bind fun code hcode => .pure (.inr ⟨n, _, hn, rfl, rfl, ?_, hcode⟩)
    dsimp only
    by_cases h : (p.entry ≠ .flagsOnly && position = 0) = true ∨ position + 1 = p.order.length ∧
        (if (p.entry ≠ .flagsOnly && position = 0) = true then [] else commonPlace origins) = []
    · rw [if_pos h]
      exact marks_nil
    · rw [if_neg h]
      exact marks_anySet _

theorem gives_placeAll (p : Plan) (todo : List (NodeId × Nat)) (t : Tree) :
    Gives (todo.foldlM (fun t e => p.place t e.1 e.2) t) fun t' =>
      ∃ pieces code, t'.placed = t.placed ++ pieces ∧
        (pieces.map (·.position)).Sublist (todo.map (·.2)) ∧
        (code.map (·.1)).Sublist (todo.map (·.1)) ∧ code ⊆ p.graph.code ∧
        List.Forall₂ Placed.Holds pieces code := by
  induction todo generalizing t with
  | nil =>
    rw [foldlM_nil]
    exact .pure ⟨[], [], by simp, .slnil, .slnil, by simp, .nil⟩
  | cons e todo ih =>
    rw [foldlM_cons]
    refine (gives_place p t e.1 e.2).bind fun t₁ h₁ => (ih t₁).mono ?_
    rintro t₂ ⟨pieces, code, hplaced, hpos, hids, hsub, hholds⟩
    rcases h₁ with h₁ | ⟨n, piece, hn, h₁, hposition, hpiece⟩
    · rw [h₁] at hplaced
      exact ⟨pieces, code, hplaced, hpos.cons _, hids.cons _, hsub, hholds⟩
    · rw [h₁, append_assoc] at hplaced
      refine ⟨piece :: pieces, (e.1, n.body) :: code, hplaced, ?_, hids.cons_cons _, ?_,
        .cons hpiece hholds⟩
      · rw [map_cons, map_cons, hposition]
        exact hpos.cons_cons _
      exact cons_subset.2 ⟨Graph.mem_code_of_get? hn, hsub⟩

end LinearTree

/-! ### Orders -/

namespace Graph

variable {g : Graph} {pending pending' : Pending} {id : NodeId} {fresh outs order : List NodeId}

/-- What edges into nodes change: a node for which nothing is left to count stays so, and those that come
out had something left before. -/
structure Arrived (pending pending' : Pending) (fresh : List NodeId) : Prop where
  done : ∀ x, pending.lookup x = some 0 → pending'.lookup x = some 0
  fresh : ∀ x ∈ fresh, pending.lookup x ≠ some 0 ∧ pending'.lookup x = some 0

theorem arrived_of_arrive (h : arrive pending id = .ok (pending', fresh)) :
    Arrived pending pending' fresh := by
  unfold arrive at h
  cases hk : pending.lookup id with
  | none =>
    rw [hk] at h
    cases h
    exact ⟨fun _ hx => hx, nofun⟩
  | some k =>
    rw [hk] at h
    cases k with
    | zero => cases h
    | succ k =>
      cases h
      refine ⟨fun x hx => ?_, fun x hx => ?_⟩
      · have hne : x ≠ id := by
          rintro rfl
          rw [hk] at hx
          cases hx
        rw [lookup_count, if_neg hne]
        exact hx
      · split at hx
        next hzero =>
          cases mem_singleton.1 hx
          rw [hk, lookup_count, if_pos rfl, hk, hzero]
          exact ⟨by simp, rfl⟩
        next => cases hx

theorem arrived_of_arriveAll (h : arriveAll pending outs = .ok (pending', fresh)) :
    Arrived pending pending' fresh := by
  induction outs generalizing pending fresh with
  | nil =>
    cases h
    exact ⟨fun _ hx => hx, nofun⟩
  | cons id outs ih =>
    rw [arriveAll] at h
    obtain ⟨⟨pending₁, fresh₁⟩, h₁, h⟩ := bind_eq_ok_iff.1 h
    obtain ⟨⟨pending₂, fresh₂⟩, h₂, h⟩ := bind_eq_ok_iff.1 h
    cases h
    have hhead := arrived_of_arrive h₁
    have htail := ih h₂
    refine ⟨fun x hx => htail.done x (hhead.done x hx), fun x hx => ?_⟩
    rcases mem_append.1 hx with hx | hx
    · exact ⟨(hhead.fresh x hx).1, htail.done x (hhead.fresh x hx).2⟩
    · exact ⟨fun hold => (htail.fresh x hx).1 (hhead.done x hold), (htail.fresh x hx).2⟩

theorem nodup_takeReady (hg : g.Numbered) {fuel : Nat} (taken : List NodeId) {ready rest : List NodeId}
    (h : g.takeReady (fun ready fresh => ready ++ g.ids.filter (· ∈ fresh)) fuel pending ready = .ok rest)
    (hnd : (taken ++ ready).Nodup)
    (hzero : ∀ x ∈ taken ++ ready, pending.lookup x = some 0) : (taken ++ rest).Nodup := by
  induction fuel generalizing pending taken ready rest with
  | zero =>
    rw [takeReady] at h
    cases h
    rw [append_nil]
    exact (nodup_append.1 hnd).1
  | succ fuel ih =>
    cases ready with
    | nil =>
      rw [takeReady] at h
      · cases h
        exact hnd
      · simp
    | cons id ready =>
      rw [takeReady] at h
      obtain ⟨n, _, h⟩ := bind_eq_ok_iff.1 h
      obtain ⟨⟨pending₁, fresh⟩, h₁, h⟩ := bind_eq_ok_iff.1 h
      obtain ⟨rest₁, h₂, h⟩ := bind_eq_ok_iff.1 h
      cases h
      have harr := arrived_of_arriveAll h₁
      have hmem : ∀ {x}, x ∈ (taken ++ [id]) ++ ready ↔ x ∈ taken ++ id :: ready := by
        intro x
        simp
      have hlater := ih (taken ++ [id]) h₂ ?_ ?_
      · rwa [append_assoc] at hlater
      · rw [← append_assoc, nodup_append]
        refine ⟨by rwa [append_assoc], hg.nodup.filter _, fun x hx y hy hxy => ?_⟩
        have hfresh : y ∈ fresh := by simpa using (mem_filter.1 hy).2
        exact (harr.fresh y hfresh).1 (hzero y (hmem.1 (hxy ▸ hx)))
      · intro x hx
        rw [← append_assoc] at hx
        rcases mem_append.1 hx with hx | hx
        · exact harr.done x (hzero x (hmem.1 hx))
        · exact (harr.fresh x (by simpa using (mem_filter.1 hx).2)).2

/-- **No node is taken twice.** -/
theorem nodup_of_sort (hg : g.Numbered) (h : g.sort = .ok (some order)) : order.Nodup := by
  rw [sort, pendingOf_eq_ok fun _ h => h, ok_bind, free_inputCounts] at h
  obtain ⟨order', h', h⟩ := bind_eq_ok_iff.1 h
  have hperm := entryFirst_perm (g.ids.filter (g.inputCount · = 0)) g.entry
  split at h
  · cases h
    refine nodup_takeReady hg [] h' (hperm.symm.nodup (hg.nodup.filter _)) fun x hx => ?_
    obtain ⟨hmem, hcount⟩ := mem_filter.1 (hperm.mem_iff.1 hx)
    rw [lookup_inputCounts, if_pos hmem, of_decide_eq_true hcount]
  · cases h

end Graph

/-! ### Trees -/

open Engine LinearTree in
/-- **A tree gathers the code of its graph.** -/
theorem solveLinearTree_gathers {g : Graph} (hg : g.Numbered) (extra : List (NodeId × LocalId))
    (entry : TreeEntry) :
    Gives (solveLinearTree g extra entry) fun r => ∀ b, r = some b → Code.Gathered g.code b := by
  refine (Gives.lift (x := g.sort) fun _ h => h).bind fun r hr => ?_
  split
  · exact .pure nofun
  next order =>
    split
    · exact .pure nofun
    · refine (Gives.trivial _).bind fun _ _ => (Gives.trivial _).bind fun flags _ => ?_
      refine (gives_placeAll _ _ _).bind fun tree htree => .pure fun b hb => ?_
      obtain ⟨pieces, code, hplaced, hpos, hids, hsub, hholds⟩ := htree
      rw [nil_append] at hplaced
      cases hb
      have hmarks : marks (clear (flags.flatMap (·.2.ids)) ++
          assemble tree.placed (order.length + 1) none ++ [.unreachable]) =
          marks (assemble pieces (order.length + 1) none) := by
        rw [hplaced, marks_append, marks_append, marks_clear]
        simp [marks_cons]
      have htest : ∀ p ∈ pieces, Bare p.test := fun p hp => by
        obtain ⟨e, _, h⟩ := exists_of_forall₂ hholds hp
        exact h.1
      refine ⟨fun n around hsc => ?_, fun k => ?_⟩
      · refine Body.Scoped.congr hmarks (scoped_assemble (fun p hp => ⟨htest p hp, ?_⟩) _ _)
        obtain ⟨e, he, h⟩ := exists_of_forall₂ hholds hp
        exact (hsc e (hsub he)).congr h.2
      · have hpos' : (pieces.map (·.position)).Nodup := by
          refine hpos.nodup ?_
          rw [zipIdx_map_snd]
          exact nodup_range'
        have hcode : code.Nodup := by
          refine List.Nodup.of_map (·.1) (hids.nodup ?_)
          rw [zipIdx_map_fst]
          exact Graph.nodup_of_sort hg hr
        have hsum : (pieces.map fun p => Body.tally k p.code).sum = Code.total k code := by
          clear hmarks htest hplaced hpos hids hsub hpos' hcode
          induction hholds with
          | nil => rfl
          | cons h _ ih =>
            rw [map_cons, sum_cons, ih, Code.total_cons, tally_congr h.2]
        calc Body.tally k _ = Body.tally k (assemble pieces (order.length + 1) none) :=
              tally_congr hmarks
          _ ≤ (pieces.map fun p => Body.tally k p.code).sum := tally_assemble_le hpos' htest _
          _ = Code.total k code := hsum
          _ ≤ Code.total k g.code := sum_map_le_of_subset _ hcode hsub

end Structurer
